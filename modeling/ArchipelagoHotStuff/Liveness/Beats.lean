/- Module: ArchipelagoHotStuff/Liveness/Beats
   source: liveness.h (PMRoundRobinProposer), consensus.cpp (async_qc_finish, on_qc_finish)
   digest: Where the promises returned by beat() are, and which rejections discard one of them. -/

import ArchipelagoHotStuff.Liveness.Pacemaker

set_option autoImplicit false
set_option relaxedAutoImplicit false

namespace ArchipelagoHotStuff.Liveness.Beats

open Crypto.Wire Crypto.Certificates
open Consensus.State Consensus.Machine General.Transition Pacemaker

variable {K : Secp256k1}

/-- How often a beat is found: in `pending_beats`, waiting for a certificate, or resolved.  A beat
whose certificate has just come in is resolved as soon as its callback runs. -/
def places (p : PaceMaker) (pm : Nat) : Nat :=
  p.pendingBeats.count pm + p.waiting.countP (fun w => w.2 = .beat pm) +
    p.agenda.count (.callback (.beat pm)) + p.resolved.count pm

def isBeat : Callback → Bool
  | .beat _ => true
  | .manual _ => false

def Idle (p : PaceMaker) (promise : Option Uint256) : Prop :=
  ∀ w ∈ p.waiting, promise = some w.1 → isBeat w.2 = false

/-- The promise for the certificate of `h` is not a rejected one, also once `pm_qc_finish` is
rejected. -/
def Open (n : Node K) (h : Uint256) : Prop :=
  n.certified h = true ∨ (n.pm.pmQcFinish ≠ some h ∧ h ∉ n.pm.rejected)

/-- A beat popped to wait for the certificate of `h` discards none and is not discarded. -/
def Spares (n : Node K) (h : Uint256) : Prop := Idle n.pm n.pm.pmQcFinish ∧ Open n h

/-- The report of a commit does not lead to `stop_rotate`. -/
def Unmoved (n : Node K) : Task → Prop
  | .consensus h => n.pm.propBlk n.pm.proposer ≠ some h
  | _ => True

/-- A beat is popped only when the one popped before has its certificate, and `do_new_consensus`
replaces `pm_qc_manual` only when no beat waits for the same certificate. -/
def SparedTask (n : Node K) : Task → Prop
  | .hooks h => n.pm.pmWaitPropose = true → n.pm.pendingBeats ≠ [] → Spares n h
  | .finishNew _ _ => Idle n.pm n.pm.pmQcManual
  | _ => True

/-- Neither `rotate` nor `stop_rotate` runs. -/
def Unrotated (n : Node K) : NodeInput K → Prop
  | .impeach => False
  | .expire => n.pm.timer ≠ some .rotate
  | .run => ∀ task ∈ n.pm.agenda.head?, Unmoved n task
  | _ => True

/-- The step spares the beats. -/
def Spared (n : Node K) : NodeInput K → Prop
  | .beat _ => n.pm.proposer = n.core.id → n.pm.locked = false → Spares n n.pm.lastProposed
  | .run => ∀ task ∈ n.pm.agenda.head?, SparedTask n task
  | _ => True

section operations

variable {p : PaceMaker} {h : Uint256} {pm : Nat}

private theorem countP_beat (l : List (Uint256 × Callback)) (h : Uint256) (pm : Nat) :
    l.countP (fun w => w.2 = .beat pm) =
      (l.filter (fun w => w.1 ≠ h)).countP (fun w => w.2 = .beat pm) + l.count (h, .beat pm) := by
  induction l with
  | nil => rfl
  | cons w l ih =>
      obtain ⟨k, cb⟩ := w
      by_cases hk : k = h <;> by_cases hcb : cb = .beat pm <;>
        simp [hk, hcb, ih] <;> omega

private theorem count_released (l : List (Uint256 × Callback)) (h : Uint256) (pm : Nat) :
    ((l.filter (fun w => w.1 = h)).map (fun w => Task.callback w.2)).count
      (.callback (.beat pm)) = l.count (h, .beat pm) := by
  induction l with
  | nil => rfl
  | cons w l ih =>
      obtain ⟨k, cb⟩ := w
      by_cases hk : k = h <;> by_cases hcb : cb = .beat pm <;>
        simp [hk, hcb, ih]

theorem places_rejectQc (p : PaceMaker) (h : Uint256) (pm : Nat) :
    places (p.rejectQc (some h)) pm + p.waiting.count (h, .beat pm) = places p pm := by
  have hcount := countP_beat p.waiting h pm
  simp only [places, PaceMaker.rejectQc]
  omega

theorem places_rejectQc_le (p : PaceMaker) (promise : Option Uint256) (pm : Nat) :
    places (p.rejectQc promise) pm ≤ places p pm := by
  cases promise with
  | none => exact le_rfl
  | some h => exact Nat.le.intro (places_rejectQc p h pm)

theorem places_rejectQc_idle {promise : Option Uint256} (hidle : Idle p promise) (pm : Nat) :
    places (p.rejectQc promise) pm = places p pm := by
  cases promise with
  | none => rfl
  | some h =>
      have hnone : (h, .beat pm) ∉ p.waiting := fun hmem => by cases hidle _ hmem rfl
      rw [← places_rejectQc p h pm, List.count_eq_zero_of_not_mem hnone, Nat.add_zero]

theorem exists_of_not_idle {promise : Option Uint256} (hidle : ¬ Idle p promise) :
    ∃ h pm, promise = some h ∧ (h, .beat pm) ∈ p.waiting := by
  simp only [Idle, not_forall] at hidle
  obtain ⟨⟨h, cb⟩, hmem, hpromise, hcb⟩ := hidle
  cases cb with
  | beat pm => exact ⟨h, pm, hpromise, hmem⟩
  | manual x => exact absurd rfl hcb

theorem places_awaitQc (p : PaceMaker) (h : Uint256) (cb : Callback) (pm : Nat) :
    places (p.awaitQc h cb) pm =
      places p pm + if cb = .beat pm ∧ h ∉ p.rejected then 1 else 0 := by
  unfold PaceMaker.awaitQc
  split
  · rename_i hrej
    rw [if_neg (fun hc => hc.2 hrej), Nat.add_zero]
  · rename_i hrej
    simp only [places, List.countP_append, List.countP_singleton, hrej, not_false_eq_true, and_true,
      decide_eq_true_eq]
    omega

theorem places_settle (p : PaceMaker) (h : Uint256) (pm : Nat) :
    places (p.settle h) pm = places p pm := by
  have hcount := countP_beat p.waiting h pm
  simp only [places, PaceMaker.settle, List.count_append, count_released]
  omega

theorem places_push {tasks : List Task} (h : .callback (.beat pm) ∉ tasks) :
    places (p.push tasks) pm = places p pm := by
  simp only [places, PaceMaker.push, List.count_append, List.count_eq_zero_of_not_mem h,
    Nat.zero_add]

theorem places_congr {p' : PaceMaker} (hpending : p'.pendingBeats = p.pendingBeats)
    (hwaiting : p'.waiting = p.waiting)
    (hagenda : p'.agenda.count (.callback (.beat pm)) = p.agenda.count (.callback (.beat pm)))
    (hresolved : p'.resolved = p.resolved) : places p' pm = places p pm := by
  simp only [places, hpending, hwaiting, hagenda, hresolved]

theorem places_recordBlk (p : PaceMaker) (registered : Bool) (rid : ReplicaID) (h : Uint256)
    (pm : Nat) : places (p.recordBlk registered rid h) pm = places p pm := by
  unfold PaceMaker.recordBlk
  split <;> rfl

end operations

section tasks

variable {env : Env K} {kind : Kind} {n n' : Node K} {i : Input K} {after : List Task}
  {h : Uint256} {pm : Nat}

theorem not_mem_follows (r r' : Replica K) (i : Input K) (cb : Callback) :
    .callback cb ∉ follows r r' i := by
  cases i <;> simp only [follows] <;> (try split) <;> simp

theorem batches_call (h : n.call env i after = some n') : n'.pm.batches = n.pm.batches := by
  obtain ⟨r, _, ⟨_, rfl⟩ | ⟨_, rfl⟩⟩ := Node.call_eq_some h <;> rfl

theorem places_call (hafter : .callback (.beat pm) ∉ after) (h : n.call env i after = some n') :
    places n'.pm pm = places n.pm pm := by
  obtain ⟨r, _, ⟨_, rfl⟩ | ⟨_, rfl⟩⟩ := Node.call_eq_some h
  · rfl
  · refine places_push ?_
    intro hmem
    rcases List.mem_append.mp hmem with hmem | hmem
    · rcases List.mem_append.mp hmem with hmem | hmem
      · obtain ⟨_, _, heq⟩ := List.mem_map.mp hmem
        cases heq
      · exact not_mem_follows _ _ _ _ hmem
    · exact hafter hmem

/-- A callback that waits for a certificate waits, unless its promise has been rejected. -/
theorem places_whenCertified (n : Node K) (h : Uint256) (cb : Callback) (pm : Nat) :
    places (n.whenCertified h cb).pm pm = places n.pm pm +
      if cb = .beat pm ∧ (n.certified h = true ∨ h ∉ n.pm.rejected) then 1 else 0 := by
  unfold Node.whenCertified
  split
  · rename_i hcert
    simp only [places, PaceMaker.push, List.cons_append, List.nil_append, List.count_cons, hcert,
      true_or, and_true, beq_iff_eq, Task.callback.injEq]
    omega
  · rename_i hcert
    rw [places_awaitQc]
    simp only [hcert, Bool.false_eq_true, false_or]

theorem rejected_rejectQc {p : PaceMaker} {promise : Option Uint256} :
    h ∈ (p.rejectQc promise).rejected ↔ promise = some h ∨ h ∈ p.rejected := by
  cases promise with
  | none => simp [PaceMaker.rejectQc]
  | some k => simp [PaceMaker.rejectQc, eq_comm]

/-- `schedule_next` once it has a beat to pop: what is lost are the beats on the old promise, and
the popped one if its own promise has been rejected. -/
theorem places_pop {beats : List Nat} {b : Nat} (hpending : n.pm.pendingBeats = b :: beats)
    (hlocked : n.pm.locked = false) (pm : Nat) [Decidable (Open n n.pm.lastProposed)] :
    places n.scheduleNext.pm pm + (if b = pm then 1 else 0) =
      places (n.pm.rejectQc n.pm.pmQcFinish) pm +
        if b = pm ∧ Open n n.pm.lastProposed then 1 else 0 := by
  have hsteady := PaceMaker.steady_rejectQc n.pm n.pm.pmQcFinish
  have hpending' : (n.pm.rejectQc n.pm.pmQcFinish).pendingBeats = b :: beats :=
    (PaceMaker.field_eq hsteady PaceMaker.pendingBeats (fun _ => rfl)).trans hpending
  have hagenda : (n.pm.rejectQc n.pm.pmQcFinish).agenda = n.pm.agenda :=
    PaceMaker.field_eq hsteady PaceMaker.agenda (fun _ => rfl)
  -- The node in which the popped beat asks for the certificate.
  let popped : Node K := { n with
    pm := { n.pm.rejectQc n.pm.pmQcFinish with
      pendingBeats := beats
      pmQcFinish := n.qcHandle n.pm.lastProposed
      agenda := .lock :: n.pm.agenda } }
  have hsched : n.scheduleNext = popped.whenCertified n.pm.lastProposed (.beat b) := by
    simp only [Node.scheduleNext, hpending, hlocked, Bool.false_eq_true, if_false]
    rfl
  have hopen : (Callback.beat b = .beat pm ∧ (popped.certified n.pm.lastProposed = true ∨
      n.pm.lastProposed ∉ popped.pm.rejected)) ↔ b = pm ∧ Open n n.pm.lastProposed := by
    rw [Callback.beat.injEq]
    show b = pm ∧ (n.certified _ = true ∨ _ ∉ (n.pm.rejectQc n.pm.pmQcFinish).rejected) ↔ _
    rw [rejected_rejectQc, not_or]
    rfl
  have hplaces : places popped.pm pm + (if b = pm then 1 else 0) =
      places (n.pm.rejectQc n.pm.pmQcFinish) pm := by
    simp only [popped, places, hpending', hagenda, List.count_cons, beq_iff_eq, reduceCtorEq,
      if_false, Nat.add_zero]
    omega
  rw [hsched, places_whenCertified, ← hplaces, if_congr hopen rfl rfl]
  omega

theorem scheduleNext_of_kept (h : n.pm.pendingBeats = [] ∨ n.pm.locked = true) :
    n.scheduleNext = n := by
  unfold Node.scheduleNext
  split
  · rfl
  · rename_i hpending
    rcases h with hnil | hlocked
    · rw [hnil] at hpending
      cases hpending
    · rw [if_pos hlocked]

theorem places_scheduleNext_le (n : Node K) (pm : Nat) :
    places n.scheduleNext.pm pm ≤ places n.pm pm := by
  classical
  cases hpending : n.pm.pendingBeats with
  | nil => rw [scheduleNext_of_kept (.inl hpending)]
  | cons b beats =>
      cases hlocked : n.pm.locked with
      | true => rw [scheduleNext_of_kept (.inr hlocked)]
      | false =>
          have hpop := places_pop hpending hlocked pm
          have hreject := places_rejectQc_le n.pm n.pm.pmQcFinish pm
          by_cases hb : b = pm
          · rw [if_pos hb] at hpop
            split at hpop <;> omega
          · rw [if_neg hb, if_neg (fun hc => hb hc.1)] at hpop
            omega

theorem places_scheduleNext (hspares : n.pm.pendingBeats ≠ [] → n.pm.locked = false →
    Spares n n.pm.lastProposed) (pm : Nat) : places n.scheduleNext.pm pm = places n.pm pm := by
  classical
  cases hpending : n.pm.pendingBeats with
  | nil => rw [scheduleNext_of_kept (.inl hpending)]
  | cons b beats =>
      cases hlocked : n.pm.locked with
      | true => rw [scheduleNext_of_kept (.inr hlocked)]
      | false =>
          obtain ⟨hidle, hopen⟩ := hspares (by rw [hpending]; exact List.cons_ne_nil _ _) hlocked
          have hpop := places_pop hpending hlocked pm
          rw [places_rejectQc_idle hidle] at hpop
          simp only [hopen, and_true] at hpop
          omega

theorem scheduleNext_discards (hpending : n.pm.pendingBeats ≠ []) (hlocked : n.pm.locked = false)
    (hspares : ¬ Spares n n.pm.lastProposed) :
    ∃ pm, places n.scheduleNext.pm pm < places n.pm pm := by
  classical
  obtain ⟨b, beats, hbeats⟩ := List.exists_cons_of_ne_nil hpending
  by_cases hidle : Idle n.pm n.pm.pmQcFinish
  · have hclosed : ¬ Open n n.pm.lastProposed := fun hopen => hspares ⟨hidle, hopen⟩
    have hpop := places_pop hbeats hlocked b
    rw [places_rejectQc_idle hidle, if_pos rfl, if_neg (fun hc => hclosed hc.2)] at hpop
    exact ⟨b, by omega⟩
  · obtain ⟨h, pm, hfinish, hmem⟩ := exists_of_not_idle hidle
    have hpop := places_pop hbeats hlocked pm
    have hreject := places_rejectQc n.pm h pm
    have hlost := List.count_pos_iff.mpr hmem
    rw [hfinish] at hpop
    refine ⟨pm, ?_⟩
    by_cases hb : b = pm
    · rw [if_pos hb] at hpop
      split at hpop <;> omega
    · rw [if_neg hb, if_neg (fun hc => hb hc.1)] at hpop
      omega

theorem rejectQc_discards {p : PaceMaker} {promise : Option Uint256} (h : ¬ Idle p promise) :
    ∃ pm, places (p.rejectQc promise) pm < places p pm := by
  obtain ⟨k, pm, rfl, hmem⟩ := exists_of_not_idle h
  have hreject := places_rejectQc p k pm
  have hlost := List.count_pos_iff.mpr hmem
  exact ⟨pm, by omega⟩

theorem batches_whenCertified (n : Node K) (h : Uint256) (cb : Callback) :
    (n.whenCertified h cb).pm.batches = n.pm.batches := by
  unfold Node.whenCertified
  split
  · rfl
  · exact PaceMaker.field_eq (PaceMaker.steady_awaitQc _ _ _) PaceMaker.batches (fun _ => rfl)

theorem batches_scheduleNext (n : Node K) : n.scheduleNext.pm.batches = n.pm.batches := by
  unfold Node.scheduleNext
  split
  · rfl
  · split
    · rfl
    · rw [batches_whenCertified]
      exact PaceMaker.field_eq (PaceMaker.steady_rejectQc _ _) PaceMaker.batches (fun _ => rfl)

/-- The hooks of `on_propose_` either pop a beat that waits for the new block or move none. -/
theorem runHooks_cases (n : Node K) (h : Uint256) :
    (n.pm.pmWaitPropose = true ∧ ∃ m : Node K, n.runHooks h = m.scheduleNext ∧
      (∀ pm, places m.pm pm = places n.pm pm) ∧ m.pm.batches = n.pm.batches ∧
      m.pm.pendingBeats = n.pm.pendingBeats ∧ m.pm.locked = false ∧ m.pm.lastProposed = h ∧
      (Spares m h ↔ Spares n h)) ∨
    (n.pm.pmWaitPropose = false ∧ (∀ pm, places (n.runHooks h).pm pm = places n.pm pm) ∧
      (n.runHooks h).pm.batches = n.pm.batches) := by
  generalize hrecord : n.pm.recordBlk n.pm.regProposal n.core.id h = q
  have hq : (∀ pm, places q pm = places n.pm pm) ∧ q.batches = n.pm.batches ∧
      q.pendingBeats = n.pm.pendingBeats ∧ q.waiting = n.pm.waiting ∧
      q.rejected = n.pm.rejected ∧ q.pmQcFinish = n.pm.pmQcFinish ∧ q.agenda = n.pm.agenda := by
    subst hrecord
    refine ⟨fun pm => places_recordBlk _ _ _ _ pm, ?_⟩
    unfold PaceMaker.recordBlk
    split <;> exact ⟨rfl, rfl, rfl, rfl, rfl, rfl⟩
  obtain ⟨hplaces, hbatches, hpending, hwaiting, hrejected, hfinish, hagenda⟩ := hq
  cases hwait : n.pm.pmWaitPropose with
  | true =>
      refine .inl ⟨rfl, { n with
        pm := { q with
          regProposal := n.pm.regProposal && n.pm.rotating
          pmWaitPropose := false
          lastProposed := h
          locked := false
          agenda := .rehook :: n.pm.agenda } }, ?_, fun pm => ?_, hbatches, hpending, rfl, rfl, ?_⟩
      · simp only [Node.runHooks, hwait, if_true, hrecord]
      · rw [← hplaces pm]
        exact places_congr rfl rfl (by rw [hagenda, List.count_cons]; rfl) rfl
      · simp only [Spares, Idle, Open, Node.certified, Node.core, hwaiting, hrejected, hfinish]
        exact Iff.rfl
  | false =>
      refine .inr ⟨rfl, fun pm => ?_, ?_⟩
      · simp only [Node.runHooks, hwait, Bool.false_eq_true, if_false, hrecord]
        rw [← hplaces pm]
        rfl
      · simp only [Node.runHooks, hwait, Bool.false_eq_true, if_false, hrecord]
        exact hbatches

theorem places_stopRotate_le (p : PaceMaker) (id : ReplicaID) (g : Uint256) (pm : Nat) :
    places (p.stopRotate id g) pm ≤ places p pm :=
  (places_rejectQc_le _ _ pm).trans (places_rejectQc_le _ _ pm)

theorem places_rotate_le (p : PaceMaker) (nreplicas : Nat) (pm : Nat) :
    places (p.rotate nreplicas) pm ≤ places p pm :=
  (places_rejectQc_le _ _ pm).trans (places_rejectQc_le _ _ pm)

theorem batches_rejectQc (p : PaceMaker) (promise : Option Uint256) :
    (p.rejectQc promise).batches = p.batches :=
  PaceMaker.field_eq (PaceMaker.steady_rejectQc _ _) PaceMaker.batches (fun _ => rfl)

theorem batches_stopRotate (p : PaceMaker) (id : ReplicaID) (g : Uint256) :
    (p.stopRotate id g).batches = p.batches :=
  (batches_rejectQc _ _).trans (batches_rejectQc _ _)

/-- A task moves a beat at most from the released callbacks to the resolved promises. -/
structure Moves (p p' : PaceMaker) (released : Nat → Prop) [DecidablePred released]
    (spared : Prop) : Prop where
  batches : p'.batches = p.batches
  le : ∀ pm, places p' pm ≤ places p pm + if released pm then 1 else 0
  eq : spared → ∀ pm, places p' pm = places p pm + if released pm then 1 else 0

theorem Moves.still {p p' : PaceMaker} {spared : Prop} (hbatches : p'.batches = p.batches)
    (h : ∀ pm, places p' pm = places p pm) : Moves p p' (fun _ => False) spared :=
  ⟨hbatches, fun pm => by rw [h pm]; exact Nat.le_add_right _ _, fun _ pm => h pm⟩

theorem Moves.weaken {p p' : PaceMaker} {released : Nat → Prop} [DecidablePred released]
    {spared spared' : Prop} (h : Moves p p' released spared) (hspared : spared' → spared) :
    Moves p p' released spared' :=
  ⟨h.batches, h.le, fun hs => h.eq (hspared hs)⟩

theorem moves_scheduleNext (n : Node K) : Moves n.pm n.scheduleNext.pm (fun _ => False)
    (n.pm.pendingBeats ≠ [] → n.pm.locked = false → Spares n n.pm.lastProposed) :=
  ⟨batches_scheduleNext n, fun pm => places_scheduleNext_le n pm,
    fun hspares pm => places_scheduleNext hspares pm⟩

theorem moves_runHooks (n : Node K) (h : Uint256) : Moves n.pm (n.runHooks h).pm (fun _ => False)
    (SparedTask n (.hooks h)) := by
  rcases runHooks_cases n h with ⟨hwait, m, heq, hplaces, hbatches, hpending, _, hlast, hspares⟩ |
    ⟨_, hplaces, hbatches⟩
  · have hsched := moves_scheduleNext m
    refine ⟨?_, fun pm => ?_, fun hspared pm => ?_⟩
    · rw [heq, hsched.batches, hbatches]
    · rw [heq, ← hplaces pm]
      exact hsched.le pm
    · rw [heq, ← hplaces pm]
      refine hsched.eq (fun hne _ => ?_) pm
      rw [hlast, hspares]
      exact hspared hwait (by rwa [← hpending])
  · exact .still hbatches hplaces

theorem moves_finishNew (n : Node K) (x : Nat) (h : Uint256)
    (hperform : n.perform env kind (.finishNew x h) = some n') :
    Moves n.pm n'.pm (fun _ => False) (Idle n.pm n.pm.pmQcManual) := by
  cases hperform
  -- Only the rejection of `pm_qc_manual` can move a beat.
  have hwhen := fun pm => places_whenCertified
    ({ n with pm := { n.pm.rejectQc n.pm.pmQcManual with pmQcManual := n.qcHandle h } } : Node K)
    h (.manual x) pm
  simp only [reduceCtorEq, false_and, if_false, Nat.add_zero] at hwhen
  refine ⟨?_, fun pm => ?_, fun hidle pm => ?_⟩
  · rw [batches_whenCertified]
    exact batches_rejectQc _ _
  · rw [hwhen pm]
    exact places_rejectQc_le _ _ pm
  · rw [hwhen pm]
    exact places_rejectQc_idle hidle pm

theorem moves_consensus (p : PaceMaker) (id : ReplicaID) (g h : Uint256) :
    Moves p (p.onConsensus id g h) (fun _ => False) (p.propBlk p.proposer ≠ some h) := by
  unfold PaceMaker.onConsensus
  dsimp only
  split
  · rename_i hfirst
    exact ⟨batches_stopRotate _ _ _, fun pm => places_stopRotate_le _ _ _ pm,
      fun hother => absurd hfirst hother⟩
  · exact .still rfl (fun _ => rfl)

theorem moves_callback {b : Nat} (hperform : n.perform env kind (.callback (.beat b)) = some n') :
    Moves n.pm n'.pm (fun pm => b = pm) True := by
  have hplaces : n'.pm.batches = n.pm.batches ∧
      ∀ pm, places n'.pm pm = places n.pm pm + if b = pm then 1 else 0 := by
    simp only [Node.perform] at hperform
    split at hperform <;> cases hperform <;> refine ⟨rfl, fun pm => ?_⟩
    · simp only [places, List.count_cons, beq_iff_eq]
      omega
    · simp only [places, PaceMaker.push, List.cons_append, List.nil_append, List.count_cons,
        beq_iff_eq, reduceCtorEq, if_false, Nat.add_zero]
      omega
  exact ⟨hplaces.1, fun pm => (hplaces.2 pm).le, fun _ pm => hplaces.2 pm⟩

/-- Whatever a task does, the beats stay where they can be found, if the condition holds. -/
theorem moves_perform {task : Task} (h : n.perform env .roundRobin task = some n') :
    Moves n.pm n'.pm (fun pm => task = .callback (.beat pm))
      (Unmoved n task ∧ SparedTask n task) := by
  -- Tasks that are no callback of a beat only keep the beats or lose them.
  have hquiet : (∀ b, task ≠ .callback (.beat b)) →
      Moves n.pm n'.pm (fun _ => False) (Unmoved n task ∧ SparedTask n task) →
      Moves n.pm n'.pm (fun pm => task = .callback (.beat pm))
        (Unmoved n task ∧ SparedTask n task) := by
    intro hother hmoves
    refine ⟨hmoves.batches, fun pm => ?_, fun hspared pm => ?_⟩
    · rw [if_neg (hother pm)]
      exact hmoves.le pm
    · rw [if_neg (hother pm)]
      exact hmoves.eq hspared pm
  have hstill : (∀ b, task ≠ .callback (.beat b)) → n'.pm.batches = n.pm.batches →
      (∀ pm, places n'.pm pm = places n.pm pm) →
      Moves n.pm n'.pm (fun pm => task = .callback (.beat pm))
        (Unmoved n task ∧ SparedTask n task) :=
    fun hother hbatches hplaces => hquiet hother (.still hbatches hplaces)
  have hcall : ∀ {i after}, (∀ b, task ≠ .callback (.beat b)) →
      (∀ pm, .callback (.beat pm) ∉ after) → n.call env i after = some n' →
      Moves n.pm n'.pm (fun pm => task = .callback (.beat pm))
        (Unmoved n task ∧ SparedTask n task) :=
    fun hother hafter hcalled => hstill hother (batches_call hcalled)
      (fun pm => places_call (hafter pm) hcalled)
  cases task with
  | consensus k =>
      cases h
      exact hquiet (fun _ heq => by cases heq) ((moves_consensus _ _ _ _).weaken And.left)
  | wake k =>
      cases h
      exact hstill (fun _ heq => by cases heq) rfl (places_settle _ _)
  | callback cb =>
      cases cb with
      | beat b =>
          have hmoves := moves_callback h
          refine ⟨hmoves.batches, fun pm => ?_, fun _ pm => ?_⟩
          · simp only [Task.callback.injEq, Callback.beat.injEq]
            exact hmoves.le pm
          · simp only [Task.callback.injEq, Callback.beat.injEq]
            exact hmoves.eq trivial pm
      | manual x =>
          simp only [Node.perform] at h
          by_cases hlast : (if env.twoStep then 2 else 3) ≤ x
          · rw [if_pos hlast] at h
            cases h
            exact hstill (fun _ heq => by cases heq) rfl (fun _ => rfl)
          · rw [if_neg hlast] at h
            cases h
            refine hstill (fun _ heq => by cases heq) rfl (fun pm => places_push ?_)
            exact fun hmem => by cases List.mem_singleton.mp hmem
  | attach pm =>
      simp only [Node.perform] at h
      split at h <;> cases h
      · refine hstill (fun _ heq => by cases heq) rfl (fun pm => places_push ?_)
        exact fun hmem => by cases List.mem_singleton.mp hmem
      · exact hstill (fun _ heq => by cases heq) rfl (fun _ => rfl)
  | handle pm =>
      simp only [Node.perform] at h
      split at h
      · exact hcall (fun _ heq => by cases heq) (fun _ => List.not_mem_nil) h
      · cases h
        exact hstill (fun _ heq => by cases heq) rfl (fun _ => rfl)
  | lock =>
      cases h
      exact hstill (fun _ heq => by cases heq) rfl (fun _ => rfl)
  | newConsensus x cmds =>
      exact hcall (fun _ heq => by cases heq)
        (fun pm hmem => by cases List.mem_singleton.mp hmem) h
  | finishNew x k =>
      exact hquiet (fun _ heq => by cases heq) ((moves_finishNew n x k h).weaken And.right)
  | hooks k =>
      cases h
      exact hquiet (fun _ heq => by cases heq) ((moves_runHooks n k).weaken And.right)
  | rehook =>
      cases h
      exact hstill (fun _ heq => by cases heq) rfl (fun _ => rfl)
  | receiveHook prop =>
      cases h
      refine hstill (fun _ heq => by cases heq) ?_ (fun pm => places_recordBlk _ _ _ _ pm)
      unfold PaceMaker.recordBlk
      split <;> rfl
  | resume => exact hcall (fun _ heq => by cases heq) (fun _ => List.not_mem_nil) h
  | rearm =>
      cases h
      exact hstill (fun _ heq => by cases heq) rfl (fun _ => rfl)

end tasks

section steps

variable {env : Env K} {n n' : Node K} {i : NodeInput K}

def handed (n n' : Node K) (pm : Nat) : Nat :=
  if n.pm.batches.length ≤ pm ∧ pm < n'.pm.batches.length then 1 else 0

/-- A step hands out beats, moves them, and loses none where the condition holds. -/
structure Accounts (n n' : Node K) (spared : Prop) : Prop where
  batches : n.pm.batches.length ≤ n'.pm.batches.length
  le : ∀ pm, places n'.pm pm ≤ places n.pm pm + handed n n' pm
  eq : spared → ∀ pm, places n'.pm pm = places n.pm pm + handed n n' pm

theorem Accounts.of_batches {spared : Prop} (hbatches : n'.pm.batches = n.pm.batches)
    (hle : ∀ pm, places n'.pm pm ≤ places n.pm pm)
    (heq : spared → ∀ pm, places n'.pm pm = places n.pm pm) : Accounts n n' spared := by
  have hnone : ∀ pm, handed n n' pm = 0 := by
    intro pm
    refine if_neg ?_
    rw [hbatches]
    omega
  refine ⟨by rw [hbatches], fun pm => ?_, fun hspared pm => ?_⟩
  · rw [hnone pm]
    exact hle pm
  · rw [hnone pm]
    exact heq hspared pm

theorem Accounts.still {spared : Prop} (hbatches : n'.pm.batches = n.pm.batches)
    (h : ∀ pm, places n'.pm pm = places n.pm pm) : Accounts n n' spared :=
  .of_batches hbatches (fun pm => (h pm).le) (fun _ => h)

theorem accounts_run {task : Task} {agenda : List Task} (hagenda : n.pm.agenda = task :: agenda)
    (h : ({ n with pm := { n.pm with agenda } } : Node K).perform env .roundRobin task = some n') :
    Accounts n n' (Unrotated n .run ∧ Spared n .run) := by
  have hmoves := moves_perform h
  have hpopped : ∀ pm, places n.pm pm = places { n.pm with agenda } pm +
      if task = .callback (.beat pm) then 1 else 0 := by
    intro pm
    simp only [places, hagenda, List.count_cons, beq_iff_eq]
    omega
  refine .of_batches hmoves.batches (fun pm => ?_) (fun hspared pm => ?_)
  · rw [hpopped pm]
    exact hmoves.le pm
  · rw [hpopped pm]
    refine hmoves.eq ?_ pm
    have hhead : task ∈ n.pm.agenda.head? := by rw [hagenda]; exact Option.mem_some_self _
    have hunmoved := hspared.1 task hhead
    have hspares := hspared.2 task hhead
    cases task with
    | consensus k => exact ⟨hunmoved, trivial⟩
    | hooks k => exact ⟨trivial, hspares⟩
    | finishNew x k => exact ⟨trivial, hspares⟩
    | _ => exact ⟨trivial, trivial⟩

theorem handed_of_append {cmds : List Uint256} (hm : n'.pm.batches = n.pm.batches ++ [cmds])
    (pm : Nat) : handed n n' pm = if n.pm.batches.length = pm then 1 else 0 := by
  unfold handed
  rw [hm, List.length_append, List.length_singleton]
  refine if_congr ?_ rfl rfl
  omega

/-- `beat()` has put a new promise into `pending_beats`. -/
def asked (n : Node K) (cmds : List Uint256) : Node K :=
  { n with
    pm := { n.pm with
      batches := n.pm.batches ++ [cmds]
      pendingBeats := n.pm.pendingBeats ++ [n.pm.batches.length]
      agenda := [.attach n.pm.batches.length] } }

theorem places_asked (hagenda : n.pm.agenda = []) (cmds : List Uint256) (pm : Nat) :
    places (asked n cmds).pm pm =
      places n.pm pm + if n.pm.batches.length = pm then 1 else 0 := by
  simp only [asked, places, hagenda, List.count_append, List.count_cons, List.count_nil,
    beq_iff_eq, reduceCtorEq, if_false]
  omega

theorem beat_eq (hrot : n.pm.rotating = false) (cmds : List Uint256) :
    n.beat .roundRobin cmds = (asked n cmds).scheduleNext := by
  have hstay : ¬ (Kind.roundRobin = .roundRobin ∧ n.pm.rotating = true) := by simp [hrot]
  exact if_neg hstay

theorem accounts_beat (hagenda : n.pm.agenda = []) (hid : n.pm.proposer = n.core.id)
    (cmds : List Uint256) :
    Accounts n (n.beat .roundRobin cmds) (n.pm.rotating = false ∧ Spared n (.beat cmds)) := by
  by_cases hrot : n.pm.rotating = true
  · -- While the proposers rotate the promise is resolved at once.
    have hbeat : n.beat .roundRobin cmds = { n with
        pm := { n.pm with
          batches := n.pm.batches ++ [cmds]
          resolved := n.pm.batches.length :: n.pm.resolved
          agenda := [.handle n.pm.batches.length] } } := by
      simp only [Node.beat, hrot, and_self, if_true]
    have hplaces : ∀ pm, places (n.beat .roundRobin cmds).pm pm =
        places n.pm pm + handed n (n.beat .roundRobin cmds) pm := by
      intro pm
      have hbatches : (n.beat .roundRobin cmds).pm.batches = n.pm.batches ++ [cmds] := by
        rw [hbeat]
      rw [handed_of_append hbatches, hbeat]
      simp only [places, hagenda, List.count_cons, List.count_nil, beq_iff_eq, reduceCtorEq,
        if_false]
      omega
    refine ⟨?_, fun pm => (hplaces pm).le, fun _ => hplaces⟩
    rw [hbeat]
    simp
  · rw [beat_eq (Bool.eq_false_iff.mpr hrot)]
    have hmoves := moves_scheduleNext (asked n cmds)
    refine ⟨?_, fun pm => ?_, fun hspared pm => ?_⟩
    · rw [hmoves.batches]
      simp [asked]
    · rw [handed_of_append hmoves.batches pm, ← places_asked hagenda cmds pm]
      exact hmoves.le pm
    · rw [handed_of_append hmoves.batches pm, ← places_asked hagenda cmds pm]
      exact hmoves.eq (fun _ hlocked => hspared.2 hid hlocked) pm

/-- No step finds a beat in two places, and none is lost where the condition holds. -/
theorem accounts_step (hstep : n.step env .roundRobin i = some n') :
    Accounts n n' (n.pm.rotating = false ∧ Unrotated n i ∧ Spared n i) := by
  -- With an empty agenda, a new one moves no beat.
  have hbusy : n.idle = true → ∀ tasks : List Task, (∀ cb, .callback cb ∉ tasks) → ∀ pm,
      tasks.count (.callback (.beat pm)) = n.pm.agenda.count (.callback (.beat pm)) := by
    intro hidle tasks hnone pm
    rw [Node.agenda_nil_of_idle hidle, List.count_nil, List.count_eq_zero_of_not_mem (hnone _)]
  cases i with
  | message i =>
      simp only [Node.step] at hstep
      split at hstep
      · exact .still (batches_call hstep) (fun _ => places_call List.not_mem_nil hstep)
      · cases hstep
  | beat cmds =>
      simp only [Node.step] at hstep
      split at hstep
      · rename_i hidle
        split at hstep <;> cases hstep
        · rename_i hid
          have hbeat := accounts_beat (Node.agenda_nil_of_idle hidle) hid cmds
          exact ⟨hbeat.batches, hbeat.le, fun hspared => hbeat.eq ⟨hspared.1, hspared.2.2⟩⟩
        · exact .still rfl (fun _ => rfl)
      · cases hstep
  | impeach =>
      simp only [Node.step] at hstep
      split at hstep
      · split at hstep <;> cases hstep
        · exact .of_batches ((batches_rejectQc _ _).trans (batches_rejectQc _ _))
            (places_rotate_le _ _) (fun hspared => absurd hspared.2.1 id)
        · exact .still rfl (fun _ => rfl)
      · cases hstep
  | expire =>
      simp only [Node.step] at hstep
      split at hstep
      · rename_i hidle
        split at hstep
        · cases hstep
        · rename_i htimer
          cases hstep
          exact .of_batches ((batches_rejectQc _ _).trans (batches_rejectQc _ _))
            (places_rotate_le _ _) (fun hspared => absurd htimer hspared.2.1)
        · cases hstep
          refine .still rfl (fun pm => places_congr rfl rfl (hbusy hidle _ (fun cb hmem => ?_) pm)
            rfl)
          split at hmem <;> simp at hmem
      · cases hstep
  | elected cmds =>
      simp only [Node.step] at hstep
      split at hstep
      · rename_i hguard
        cases hstep
        have hidle := (Bool.and_eq_true_iff.mp hguard).1
        refine .still rfl (fun pm => places_congr rfl rfl (hbusy hidle _ (fun cb hmem => ?_) pm)
          rfl)
        split at hmem <;> simp at hmem
      · cases hstep
  | run =>
      simp only [Node.step] at hstep
      split at hstep
      · cases hstep
      · split at hstep
        · cases hstep
        · rename_i task agenda hagenda
          have hrun := accounts_run hagenda hstep
          exact ⟨hrun.batches, hrun.le, fun hspared => hrun.eq hspared.2⟩

theorem discards_perform {task : Task} (hspared : ¬ SparedTask n task)
    (h : n.perform env .roundRobin task = some n') :
    ∃ pm, places n'.pm pm < places n.pm pm := by
  cases task with
  | hooks k =>
      cases h
      simp only [SparedTask, Classical.not_imp] at hspared
      obtain ⟨hwait, hpending, hspares⟩ := hspared
      rcases runHooks_cases n k with ⟨_, m, heq, hplaces, _, hpending', hlocked, hlast, hiff⟩ |
        ⟨hfalse, _⟩
      · obtain ⟨pm, hlt⟩ := scheduleNext_discards (n := m) (by rwa [hpending']) hlocked
          (by rwa [hlast, hiff])
        exact ⟨pm, by rw [heq, ← hplaces pm]; exact hlt⟩
      · rw [hwait] at hfalse
        cases hfalse
  | finishNew x k =>
      cases h
      obtain ⟨pm, hlt⟩ := rejectQc_discards hspared
      refine ⟨pm, ?_⟩
      rw [places_whenCertified, if_neg (fun hc => by cases hc.1)]
      exact hlt
  | _ => exact absurd trivial hspared

/-- A step that does not meet the condition loses a beat. -/
theorem discards_step (hrot : n.pm.rotating = false) (hspared : ¬ Spared n i)
    (hstep : n.step env .roundRobin i = some n') :
    ∃ pm, places n'.pm pm < places n.pm pm + handed n n' pm := by
  cases i with
  | beat cmds =>
      simp only [Spared, Classical.not_imp] at hspared
      obtain ⟨hid, hlocked, hspares⟩ := hspared
      simp only [Node.step] at hstep
      split at hstep
      · rename_i hidle
        rw [if_pos (show n.getProposer .roundRobin = n.core.id from hid)] at hstep
        cases hstep
        rw [beat_eq hrot]
        obtain ⟨pm, hlt⟩ := scheduleNext_discards (n := asked n cmds) (by simp [asked]) hlocked
          hspares
        refine ⟨pm, ?_⟩
        rw [handed_of_append (batches_scheduleNext _) pm,
          ← places_asked (Node.agenda_nil_of_idle hidle) cmds pm]
        exact hlt
      · cases hstep
  | run =>
      simp only [Node.step] at hstep
      split at hstep
      · cases hstep
      · split at hstep
        · cases hstep
        · rename_i task agenda hagenda
          have hhead : ¬ SparedTask n task := by
            intro htask
            refine hspared (fun task' hmem => ?_)
            rw [hagenda] at hmem
            cases hmem
            exact htask
          -- The condition asks something of two kinds of tasks only.
          have htask : ¬ SparedTask ({ n with pm := { n.pm with agenda } } : Node K) task ∧
              ∀ cb, task ≠ .callback cb := by
            cases task with
            | hooks h => exact ⟨hhead, fun _ => by simp⟩
            | finishNew x h => exact ⟨hhead, fun _ => by simp⟩
            | _ => exact absurd trivial hhead
          obtain ⟨pm, hlt⟩ := discards_perform htask.1 hstep
          have hpopped : places { n.pm with agenda } pm = places n.pm pm := by
            refine places_congr rfl rfl ?_ rfl
            rw [hagenda, List.count_cons_of_ne (htask.2 _)]
          refine ⟨pm, Nat.lt_of_lt_of_le hlt ?_⟩
          show places { n.pm with agenda } pm ≤ _
          rw [hpopped]
          exact Nat.le_add_right _ _
  | _ => exact absurd trivial hspared

end steps

section reachable

variable {env : Env K} {config : ReplicaConfig K} {rid : ReplicaID} {key : K.PrivKey}
  {voteDisabled : Bool} {n n' : Node K} {pm : Nat}

/-- No beat is anywhere before it is handed out, and none is ever in two places. -/
theorem places_of_reachable
    (hr : Reachable (node env .roundRobin config rid key voteDisabled) n) (pm : Nat) :
    places n.pm pm ≤ if pm < n.pm.batches.length then 1 else 0 := by
  refine hr.invariant (I := fun n => places n.pm pm ≤ if pm < n.pm.batches.length then 1 else 0)
    ?_ ?_
  · rintro n rfl
    exact Nat.zero_le _
  · intro n i n' _ hinv hstep
    have haccounts := accounts_step hstep
    have hle := haccounts.le pm
    have hbatches := haccounts.batches
    unfold handed at hle
    split at hinv <;> split at hle <;> split <;> omega

/-- As long as the condition holds and the proposers do not rotate, every beat there is, or that is
handed out, stays in exactly one place. -/
theorem beats_kept (hr : Reachable (node env .roundRobin config rid key voteDisabled) n)
    (hs : Steps ((node env .roundRobin config rid key voteDisabled).restrict
      (fun n i => n.pm.rotating = false ∧ Unrotated n i ∧ Spared n i)) n n')
    (hpm : places n.pm pm = 1 ∨ n.pm.batches.length ≤ pm) (hlt : pm < n'.pm.batches.length) :
    places n'.pm pm = 1 := by
  have hrun : Reachable (node env .roundRobin config rid key voteDisabled) n' ∧
      (places n'.pm pm = 1 ∨ n'.pm.batches.length ≤ pm) := by
    refine hs.invariant (I := fun m =>
      Reachable (node env .roundRobin config rid key voteDisabled) m ∧
        (places m.pm pm = 1 ∨ m.pm.batches.length ≤ pm)) ⟨hr, hpm⟩ ?_
    rintro m i m' ⟨hm, hplaces⟩ ⟨hok, hstep⟩
    refine ⟨.step hm hstep, ?_⟩
    have haccounts := accounts_step hstep
    have heq := haccounts.eq hok pm
    have hbound := places_of_reachable hm pm
    have hle := places_of_reachable (.step hm hstep) pm
    unfold handed at heq
    split at heq <;> split at hbound <;> split at hle <;> omega
  rcases hrun.2 with hone | hge
  · exact hone
  · omega

end reachable

/-! Two drivers at one proposer: the queue of beats, and a chain of `do_new_consensus`. -/

instance (p : PaceMaker) (promise : Option Uint256) : Decidable (Idle p promise) :=
  List.decidableBAll _ _

instance (n : Node K) (h : Uint256) : Decidable (Spares n h) :=
  inferInstanceAs (Decidable (_ ∧ (_ = true ∨ (_ ≠ _ ∧ _ ∉ _))))

instance (n : Node K) (task : Task) : Decidable (Unmoved n task) :=
  match task with
  | .consensus _ => inferInstanceAs (Decidable (_ ≠ _))
  | .wake _ | .callback _ | .attach _ | .handle _ | .lock | .newConsensus _ _ | .finishNew _ _
  | .hooks _ | .rehook | .receiveHook _ | .resume | .rearm => isTrue trivial

instance (n : Node K) (task : Task) : Decidable (SparedTask n task) :=
  match task with
  | .hooks _ => inferInstanceAs (Decidable (_ → _ → Spares _ _))
  | .finishNew _ _ => inferInstanceAs (Decidable (Idle _ _))
  | .consensus _ | .wake _ | .callback _ | .attach _ | .handle _ | .lock | .newConsensus _ _
  | .rehook | .receiveHook _ | .resume | .rearm => isTrue trivial

instance (n : Node K) (i : NodeInput K) : Decidable (Unrotated n i) :=
  match i with
  | .impeach => isFalse id
  | .expire => inferInstanceAs (Decidable (_ ≠ _))
  | .run => inferInstanceAs (Decidable (∀ task ∈ n.pm.agenda.head?, Unmoved n task))
  | .message _ | .beat _ | .elected _ => isTrue trivial

instance (n : Node K) (i : NodeInput K) : Decidable (Spared n i) :=
  match i with
  | .beat _ => inferInstanceAs (Decidable (_ → _ → Spares _ _))
  | .run => inferInstanceAs (Decidable (∀ task ∈ n.pm.agenda.head?, SparedTask n task))
  | .message _ | .impeach | .expire | .elected _ => isTrue trivial

open Consensus.VoteCount

def runs (k : Nat) : List (NodeInput clearScheme) := List.replicate k .run

/-- The first batch is proposed at once; the elected proposer proposes what waits for a decision
and then has the second batch wait for that block, with two more in the queue. -/
def crowdedRun : List (NodeInput clearScheme) :=
  [.beat [1]] ++ runs 7 ++ [.elected [5, 1]] ++ runs 5 ++ [.beat [2]] ++ runs 2 ++ [.beat [3]] ++
    runs 1 ++ [.beat [4]] ++ runs 1

def crowdedNode : Node clearScheme :=
  (execute (guarded (fun n i => n.pm.rotating = false ∧ Unrotated n i ∧ Spared n i)
    (Node.step namedEnv .roundRobin)) crowdedRun (roundRobinStart 0)).get (by decide +kernel)

theorem beats_kept_crowded : (crowdedNode.pm.resolved = [0] ∧ crowdedNode.pm.pendingBeats = [2, 3] ∧
    crowdedNode.pm.waiting = [(5, .manual 0), (5, .beat 1)]) ∧ places crowdedNode.pm 2 = 1 := by
  refine ⟨by decide +kernel, beats_kept (.init rfl) (steps_of_execute
    (fun _ _ _ hstep => guarded_eq_some hstep) (Option.some_get _).symm) (.inr (Nat.zero_le _))
    (by decide +kernel)⟩

def voteFor (i : Nat) (h : Uint256) : NodeInput clearScheme :=
  .message (.receiveVote ⟨ReplicaID.ofIndex i, h, PartCert.create i h⟩)

/-- Then the block gets its certificate: `do_new_consensus` proposes the next round, for which the
third beat is popped to wait, and the second beat proposes on top of it. -/
def lostNode : Node clearScheme :=
  (execute (guarded (fun n i => n.pm.rotating = false ∧ Unrotated n i)
    (Node.step namedEnv .roundRobin)) (crowdedRun ++ [voteFor 1 5, voteFor 2 5] ++ runs 14)
    (roundRobinStart 0)).get (by decide +kernel)

/-- The fourth beat, popped by that proposal, has the promise rejected on which the third waits. -/
theorem beat_lost : Reachable ((roundRobinNode 0).restrict
      (fun n i => n.pm.rotating = false ∧ Unrotated n i)) lostNode ∧
    lostNode.idle = true ∧ lostNode.pm.rotating = false ∧ 2 < lostNode.pm.batches.length ∧
    lostNode.pm.resolved = [1, 0] ∧ lostNode.pm.pendingBeats = [] ∧
    lostNode.pm.waiting = [(2, .beat 3)] ∧ places lostNode.pm 2 = 0 := by
  refine ⟨Reachable.trans (.init rfl) (steps_of_execute
    (fun _ _ _ hstep => guarded_eq_some hstep) (Option.some_get _).symm), ?_⟩
  decide +kernel

end ArchipelagoHotStuff.Liveness.Beats
