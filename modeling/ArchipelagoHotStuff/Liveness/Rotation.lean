/- Module: ArchipelagoHotStuff/Liveness/Rotation
   source: liveness.h (on_exp_timeout, rotate, stop_rotate, on_consensus, impeach)
   digest: A rotation of proposers goes on by itself as long as its timer is armed, and every commit
     that does not end the rotation takes the timer away. -/

import ArchipelagoHotStuff.Liveness.Pacemaker

set_option autoImplicit false
set_option relaxedAutoImplicit false

namespace ArchipelagoHotStuff.Liveness.Rotation

open Crypto.Wire Crypto.Certificates
open Consensus.State Consensus.Machine General.Transition Pacemaker

variable {K : Secp256k1}

/-- The committed blocks that the pacemaker is about to be told of. -/
def reports : List Task → List Uint256
  | .consensus h :: agenda => h :: reports agenda
  | _ => []

/-- One of the committed blocks is the first block of the current proposer: it ends the rotation. -/
def Ends (p : PaceMaker) : Prop := ∃ h ∈ reports p.agenda, p.propBlk p.proposer = some h

/-- The timer is armed, or the running call of `on_exp_timeout` is still to arm it. -/
def Timed (p : PaceMaker) : Prop := p.timer ≠ none ∨ .rearm ∈ p.agenda

/-- A rotation will be ended or continued without outside help. -/
def Armed (p : PaceMaker) : Prop := p.rotating = true → Timed p ∨ Ends p

/-- Blocks committed during a rotation, outside of `on_exp_timeout`, are among others the first
block of the current proposer. -/
def Attended (n : Node K) : NodeInput K → Prop
  | .run => reports n.pm.agenda ≠ [] → n.pm.rotating = true → .rearm ∉ n.pm.agenda → Ends n.pm
  | _ => True

/-- `p'` comes from `p` without a change to the rotation. -/
structure Quiet (p p' : PaceMaker) : Prop where
  rotating : p'.rotating = p.rotating
  timer : p'.timer = p.timer
  agenda : .rearm ∈ p.agenda → .rearm ∈ p'.agenda

namespace Quiet

variable {p p' p'' : PaceMaker}

theorem refl (p : PaceMaker) : Quiet p p := ⟨rfl, rfl, id⟩

theorem trans (h : Quiet p p') (h' : Quiet p' p'') : Quiet p p'' :=
  ⟨h'.rotating.trans h.rotating, h'.timer.trans h.timer, fun hmem => h'.agenda (h.agenda hmem)⟩

theorem timed (h : Quiet p p') (ht : Timed p) : Timed p' := by
  rcases ht with hne | hmem
  · exact .inl (by rwa [h.timer])
  · exact .inr (h.agenda hmem)

theorem of_steady (h : p'.steady = p.steady) : Quiet p p' :=
  ⟨PaceMaker.field_eq h PaceMaker.rotating (fun _ => rfl),
    PaceMaker.field_eq h PaceMaker.timer (fun _ => rfl),
    fun hmem => by rwa [PaceMaker.field_eq h PaceMaker.agenda (fun _ => rfl)]⟩

theorem push (tasks : List Task) : Quiet p (p.push tasks) :=
  ⟨rfl, rfl, fun hmem => List.mem_append_right _ hmem⟩

theorem settle (h : Uint256) : Quiet p (p.settle h) :=
  ⟨rfl, rfl, fun hmem => List.mem_append_right _ hmem⟩

theorem recordBlk (registered : Bool) (rid : ReplicaID) (h : Uint256) :
    Quiet p (p.recordBlk registered rid h) := by
  unfold PaceMaker.recordBlk
  split <;> exact ⟨rfl, rfl, id⟩

end Quiet

section quiet

variable {env : Env K} {kind : Kind} {n n' : Node K} {i : Input K} {after : List Task}

theorem quiet_call (h : n.call env i after = some n') : Quiet n.pm n'.pm := by
  obtain ⟨r, _, ⟨_, rfl⟩ | ⟨_, rfl⟩⟩ := Node.call_eq_some h
  · exact .refl _
  · exact .push _

theorem quiet_whenCertified (n : Node K) (h : Uint256) (cb : Callback) :
    Quiet n.pm (n.whenCertified h cb).pm := by
  unfold Node.whenCertified
  split
  · exact .push _
  · exact .of_steady (PaceMaker.steady_awaitQc _ _ _)

theorem quiet_scheduleNext (n : Node K) : Quiet n.pm n.scheduleNext.pm := by
  unfold Node.scheduleNext
  split
  · exact .refl _
  · split
    · exact .refl _
    · refine Quiet.trans ?_ (quiet_whenCertified _ _ _)
      have hreject : Quiet n.pm (n.pm.rejectQc n.pm.pmQcFinish) :=
        .of_steady (PaceMaker.steady_rejectQc _ _)
      exact ⟨hreject.rotating, hreject.timer, fun hmem => List.mem_cons_of_mem _ hmem⟩

theorem quiet_runHooks (n : Node K) (h : Uint256) : Quiet n.pm (n.runHooks h).pm := by
  have hrecord : Quiet n.pm (n.pm.recordBlk n.pm.regProposal n.core.id h) := .recordBlk _ _ _
  unfold Node.runHooks
  dsimp only
  split
  · refine Quiet.trans ?_ (quiet_scheduleNext _)
    exact ⟨hrecord.rotating, hrecord.timer, fun hmem => List.mem_cons_of_mem _ hmem⟩
  · exact ⟨hrecord.rotating, hrecord.timer, hrecord.agenda⟩

theorem quiet_perform {task : Task} (hconsensus : ∀ h, task ≠ .consensus h) (hrearm : task ≠ .rearm)
    (h : n.perform env kind task = some n') : Quiet n.pm n'.pm := by
  cases task with
  | consensus k => exact absurd rfl (hconsensus k)
  | rearm => exact absurd rfl hrearm
  | wake k =>
      cases h
      exact .settle k
  | callback cb =>
      cases cb with
      | beat pm =>
          simp only [Node.perform] at h
          split at h <;> cases h
          · exact ⟨rfl, rfl, id⟩
          · exact ⟨rfl, rfl, fun hmem => List.mem_cons_of_mem _ hmem⟩
      | manual x =>
          simp only [Node.perform] at h
          by_cases hlast : (if env.twoStep then 2 else 3) ≤ x
          · rw [if_pos hlast] at h
            cases h
            exact .refl _
          · rw [if_neg hlast] at h
            cases h
            exact .push _
  | attach pm =>
      simp only [Node.perform] at h
      split at h <;> cases h
      · exact .push _
      · exact .refl _
  | handle pm =>
      simp only [Node.perform] at h
      split at h
      · exact quiet_call h
      · cases h
        exact .refl _
  | lock =>
      cases h
      exact ⟨rfl, rfl, id⟩
  | newConsensus x cmds => exact quiet_call h
  | finishNew x k =>
      cases h
      have hreject : Quiet n.pm (n.pm.rejectQc n.pm.pmQcManual) :=
        .of_steady (PaceMaker.steady_rejectQc _ _)
      refine Quiet.trans ?_ (quiet_whenCertified _ _ _)
      exact ⟨hreject.rotating, hreject.timer, hreject.agenda⟩
  | hooks k =>
      cases h
      exact quiet_runHooks n k
  | rehook =>
      cases h
      exact ⟨rfl, rfl, id⟩
  | receiveHook prop =>
      cases h
      have hrecord : Quiet n.pm
          (n.pm.recordBlk n.pm.regReceiveProposal prop.proposer prop.blk) := .recordBlk _ _ _
      exact ⟨hrecord.rotating, hrecord.timer, hrecord.agenda⟩
  | resume => exact quiet_call h

end quiet

section steps

variable {env : Env K} {n n' : Node K} {i : NodeInput K}

theorem armed_of_quiet {p p' : PaceMaker} (h : Quiet p p') (ht : p.rotating = true → Timed p) :
    Armed p' :=
  fun hrot => .inl (h.timed (ht (h.rotating ▸ hrot)))

theorem armed_rotate (p : PaceMaker) (nreplicas : Nat) : Armed (p.rotate nreplicas) :=
  fun _ => .inl (.inl (Option.some_ne_none _))

theorem armed_consensus {p : PaceMaker} {id : ReplicaID} {genesisHash h : Uint256}
    {agenda : List Task} (hagenda : p.agenda = .consensus h :: agenda)
    (hends : p.rotating = true → .rearm ∉ p.agenda → Ends p) :
    Armed (({ p with agenda } : PaceMaker).onConsensus id genesisHash h) := by
  unfold PaceMaker.onConsensus
  dsimp only
  split
  · rintro hrot
    cases hrot
  · rename_i hother
    intro hrot
    by_cases hrearm : .rearm ∈ p.agenda
    · rw [hagenda] at hrearm
      rcases List.mem_cons.mp hrearm with heq | hmem
      · cases heq
      · exact .inl (.inr hmem)
    · obtain ⟨k, hk, hblk⟩ := hends hrot hrearm
      rw [hagenda] at hk
      rcases List.mem_cons.mp hk with rfl | hmem
      · exact absurd hblk hother
      · exact .inr ⟨k, hmem, hblk⟩

theorem timed_of_idle {p : PaceMaker} (hagenda : p.agenda = []) (h : Armed p)
    (hrot : p.rotating = true) : Timed p := by
  rcases h hrot with ht | ⟨k, hk, _⟩
  · exact ht
  · rw [hagenda] at hk
    cases hk

theorem armed_run {task : Task} {agenda : List Task} (hagenda : n.pm.agenda = task :: agenda)
    (harmed : Armed n.pm) (hattended : Attended n .run)
    (h : ({ n with pm := { n.pm with agenda } } : Node K).perform env .roundRobin task = some n') :
    Armed n'.pm := by
  by_cases hconsensus : ∃ k, task = .consensus k
  · obtain ⟨k, rfl⟩ := hconsensus
    cases h
    exact armed_consensus hagenda (hattended (by rw [hagenda]; exact List.cons_ne_nil _ _))
  by_cases hrearm : task = .rearm
  · cases hrearm
    cases h
    exact fun _ => .inl (.inl (Option.some_ne_none _))
  -- Nothing was to be reported, so the timer is armed or `on_exp_timeout` is under way.
  have hquiet := quiet_perform (fun k hk => hconsensus ⟨k, hk⟩) hrearm h
  refine armed_of_quiet hquiet (fun hrot => ?_)
  have hreports : reports n.pm.agenda = [] := by
    rw [hagenda]
    cases task with
    | consensus k => exact absurd ⟨k, rfl⟩ hconsensus
    | _ => rfl
  rcases harmed hrot with (hne | hmem) | ⟨k, hk, _⟩
  · exact .inl hne
  · rw [hagenda] at hmem
    rcases List.mem_cons.mp hmem with heq | hmem
    · exact absurd heq.symm hrearm
    · exact .inr hmem
  · rw [hreports] at hk
    cases hk

theorem quiet_beat (hagenda : n.pm.agenda = []) (cmds : List Uint256) :
    Quiet n.pm (n.beat .roundRobin cmds).pm := by
  have hnone : .rearm ∉ n.pm.agenda := by
    rw [hagenda]
    exact List.not_mem_nil
  unfold Node.beat
  dsimp only
  split
  · exact ⟨rfl, rfl, fun hmem => absurd hmem hnone⟩
  · refine Quiet.trans ?_ (quiet_scheduleNext _)
    exact ⟨rfl, rfl, fun hmem => absurd hmem hnone⟩

/-- A step that loses no commit of the current proposer's first block keeps the rotation going. -/
theorem armed_step (harmed : Armed n.pm) (hattended : Attended n i)
    (hstep : n.step env .roundRobin i = some n') : Armed n'.pm := by
  have hquiet : n.idle = true → Quiet n.pm n'.pm → Armed n'.pm := fun hidle h =>
    armed_of_quiet h (timed_of_idle (Node.agenda_nil_of_idle hidle) harmed)
  cases i with
  | message i =>
      simp only [Node.step] at hstep
      split at hstep
      · rename_i hguard
        exact hquiet (Bool.and_eq_true_iff.mp hguard).1 (quiet_call hstep)
      · cases hstep
  | beat cmds =>
      simp only [Node.step] at hstep
      split at hstep
      · rename_i hidle
        split at hstep <;> cases hstep
        · exact hquiet hidle (quiet_beat (Node.agenda_nil_of_idle hidle) cmds)
        · exact harmed
      · cases hstep
  | impeach =>
      simp only [Node.step] at hstep
      split at hstep
      · split at hstep <;> cases hstep
        · exact armed_rotate _ _
        · exact harmed
      · cases hstep
  | expire =>
      simp only [Node.step] at hstep
      split at hstep
      · split at hstep <;> cases hstep
        · exact armed_rotate _ _
        · refine fun _ => .inl (.inr ?_)
          show Task.rearm ∈ if _ then _ else _
          split
          · exact List.mem_cons_of_mem _ (List.mem_singleton_self _)
          · exact List.mem_singleton_self _
      · cases hstep
  | elected cmds =>
      simp only [Node.step] at hstep
      split at hstep
      · rename_i hguard
        cases hstep
        have hidle := (Bool.and_eq_true_iff.mp hguard).1
        refine hquiet hidle ⟨rfl, rfl, fun hmem => ?_⟩
        rw [Node.agenda_nil_of_idle hidle] at hmem
        cases hmem
      · cases hstep
  | run =>
      simp only [Node.step] at hstep
      split at hstep
      · cases hstep
      · split at hstep
        · cases hstep
        · rename_i task agenda hagenda
          exact armed_run hagenda harmed hattended hstep

theorem expires (hidle : n.idle = true) (htimer : n.pm.timer ≠ none) :
    ∃ n', n.step env .roundRobin .expire = some n' := by
  obtain ⟨alarm, halarm⟩ := Option.ne_none_iff_exists'.mp htimer
  simp only [Node.step, hidle, halarm, if_true]
  cases alarm <;> exact ⟨_, rfl⟩

end steps

section reachable

variable {env : Env K} {config : ReplicaConfig K} {rid : ReplicaID} {key : K.PrivKey}
  {voteDisabled : Bool} {n : Node K}

theorem armed_of_reachable (hr : Reachable
    ((node env .roundRobin config rid key voteDisabled).restrict Attended) n) : Armed n.pm := by
  refine hr.invariant (I := fun n => Armed n.pm) ?_ ?_
  · rintro n rfl hrot
    cases hrot
  · intro n i n' _ harmed hstep
    exact armed_step harmed hstep.1 hstep.2

/-- As long as every commit during a rotation is the one that ends it, a rotation that the event
loop comes back to has its timer armed, and the timer can expire. -/
theorem rotation_armed (hr : Reachable
    ((node env .roundRobin config rid key voteDisabled).restrict Attended) n)
    (hidle : n.idle = true) (hrot : n.pm.rotating = true) :
    n.pm.timer ≠ none ∧ ∃ n', n.step env .roundRobin .expire = some n' := by
  have hagenda := Node.agenda_nil_of_idle hidle
  have htimer : n.pm.timer ≠ none := by
    rcases timed_of_idle hagenda (armed_of_reachable hr) hrot with hne | hmem
    · exact hne
    · rw [hagenda] at hmem
      cases hmem
  exact ⟨htimer, expires hidle htimer⟩

/-- The blocks are reported one after another, and the rotation is left without a timer. -/
theorem unattended (hhalted : n.halted = false) (hreports : reports n.pm.agenda ≠ [])
    (hrot : n.pm.rotating = true) (hrearm : .rearm ∉ n.pm.agenda) (hends : ¬ Ends n.pm) :
    ∃ n', Steps (node env .roundRobin config rid key voteDisabled) n n' ∧
      n'.pm.rotating = true ∧ n'.pm.timer = none ∧ .rearm ∉ n'.pm.agenda ∧
      reports n'.pm.agenda = [] := by
  generalize hagenda : n.pm.agenda = agenda at hreports
  induction agenda generalizing n with
  | nil => exact absurd rfl hreports
  | cons task agenda ih =>
      obtain ⟨h, rfl⟩ : ∃ h, task = .consensus h := by
        cases task with
        | consensus h => exact ⟨h, rfl⟩
        | _ => exact absurd rfl hreports
      have hother : ∀ k ∈ h :: reports agenda, n.pm.propBlk n.pm.proposer ≠ some k :=
        fun k hk heq => hends ⟨k, by rwa [hagenda], heq⟩
      rw [hagenda] at hrearm
      have hrest := fun hmem => hrearm (List.mem_cons_of_mem _ hmem)
      -- Reporting the first block takes the timer away.
      let n' : Node K := { n with pm := { n.pm with timer := none, agenda } }
      have hstep : n.step env .roundRobin .run = some n' := by
        rw [Node.step_run hhalted hagenda]
        simp only [Node.perform, PaceMaker.onConsensus, if_neg (hother h List.mem_cons_self)]
        rfl
      have hfirst : Steps (node env .roundRobin config rid key voteDisabled) n n' :=
        .single ⟨.run, hstep⟩
      by_cases hlast : reports agenda = []
      · exact ⟨n', hfirst, hrot, rfl, hrest, hlast⟩
      · obtain ⟨m, hsteps, hm⟩ := ih (n := n') hhalted hrot hrest (fun ⟨k, hk, heq⟩ =>
          hother k (List.mem_cons_of_mem _ hk) heq) rfl hlast
        exact ⟨m, hfirst.trans hsteps, hm⟩

end reachable

instance (p : PaceMaker) : Decidable (Ends p) := List.decidableBEx _ _

instance (n : Node K) (i : NodeInput K) : Decidable (Attended n i) :=
  match i with
  | .run => inferInstanceAs (Decidable (_ → _ → _ → _))
  | .message _ | .beat _ | .impeach | .expire | .elected _ => isTrue trivial

/-! Replica 2 holds three blocks of replica 0 and complains about it.  The timer expires, or a
fourth block arrives that was on its way already and commits the first one. -/

open Consensus.VoteCount

def impeachRun : List (NodeInput clearScheme) :=
  proposalOf 0 1 0 0 ++ [.run] ++ proposalOf 0 2 1 1 ++ [.run] ++ proposalOf 0 3 2 2 ++
    [.run, .impeach]

def expiredNode : Node clearScheme :=
  (execute (guarded Attended (Node.step namedEnv .roundRobin))
    (impeachRun ++ [.expire, .run]) (roundRobinStart 2)).get (by decide +kernel)

theorem rotation_armed_expired : expiredNode.pm.rotating = true ∧ expiredNode.pm.timer ≠ none ∧
    ∃ n', expiredNode.step namedEnv .roundRobin .expire = some n' := by
  have hr : Reachable ((roundRobinNode 2).restrict Attended) expiredNode :=
    Reachable.trans (.init rfl)
      (steps_of_execute (fun _ _ _ hstep => guarded_eq_some hstep) (Option.some_get _).symm)
  have hrot : expiredNode.pm.rotating = true := by decide +kernel
  exact ⟨hrot, rotation_armed hr (by decide +kernel) hrot⟩

def stuckNode : Node clearScheme :=
  (execute (Node.step namedEnv .roundRobin)
    (impeachRun ++ proposalOf 0 4 3 3 ++ [.run, .run]) (roundRobinStart 2)).get (by decide +kernel)

/-- With the certificates in order, the timer is gone and complaints are ignored. -/
theorem rotation_stuck : Reachable (roundRobinNode 2) stuckNode ∧
    [1, 2, 3].map (fun h => (qcOf h).verify peerConfig) = [.ok true, .ok true, .ok true] ∧
    stuckNode.idle = true ∧ stuckNode.pm.rotating = true ∧ stuckNode.pm.timer = none ∧
    (stuckNode.step namedEnv .roundRobin .expire).isNone = true ∧
    stuckNode.step namedEnv .roundRobin .impeach = some stuckNode := by
  have hidle : stuckNode.idle = true := by decide +kernel
  have hrot : stuckNode.pm.rotating = true := by decide +kernel
  refine ⟨roundRobin_reachable (Option.some_get _).symm, ?_, hidle, hrot, by decide +kernel,
    by decide +kernel, ?_⟩
  · decide +kernel
  · simp [Node.step, hidle, hrot]

end ArchipelagoHotStuff.Liveness.Rotation
