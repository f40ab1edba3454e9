/- Module: ArchipelagoHotStuff/Liveness/Phases
   source: liveness.h (PMWaitQC, PaceMakerDummyFixed), consensus.cpp (on_propose, on_receive_vote)
   digest: A replica that is its own fixed proposer, from one block to the next: at rest, waiting
     for a certificate, about to propose, or with a new block to announce. -/

import ArchipelagoHotStuff.Consensus.Lines
import ArchipelagoHotStuff.Liveness.Agendas

set_option autoImplicit false
set_option relaxedAutoImplicit false

namespace ArchipelagoHotStuff.Liveness.Phases

open Crypto.Wire Crypto.Certificates
open Consensus.State Consensus.Handlers Consensus.Effects Consensus.Trails
open Consensus.Tree hiding Node newEvents
open Consensus.Machine Consensus.Ballots Consensus.CommitLog Consensus.Voting Consensus.HighTail
open Consensus.FailedProposals Consensus.Levels Consensus.Leading Consensus.Lines
open Consensus.Setup
open General.Transition Pacemaker Policy Agendas

variable {K : Secp256k1} {env : Env K}

def decidedBy : Event K → Option Finality
  | .decide fin => some fin
  | _ => none

/-- The blocks that have been proposed, the latest first. -/
def proposedBy : Event K → Option Uint256
  | .propose h => some h
  | _ => none

def proposed (c : HotStuffCore K) : List Uint256 := c.trace.filterMap proposedBy

/-! Calls of the core that end without a decision. -/

section calls

variable {c c' : HotStuffCore K} {n n' : Node K} {after : List Task}

/-- Events that neither report a commit or a proposal nor an exception. -/
def Quiet (a : Event K) : Prop :=
  committedBy a = none ∧ decidedBy a = none ∧ proposedBy a = none ∧ ∀ x, a ≠ .threw x

theorem newEvents_append {r r' : Replica K} {new : List (Event K)}
    (h : r'.core.trace = new ++ r.core.trace) : Pacemaker.newEvents r r' = new := by
  unfold Pacemaker.newEvents
  rw [h, List.length_append, Nat.add_sub_cancel, List.take_left]

theorem votes_quiet {vote : Vote K} (h : Trail env (Votes vote false) c c') :
    ∃ new, c'.trace = new ++ c.trace ∧ ∀ a ∈ new, Quiet a := by
  refine Trail.invariant (I := fun d => ∃ new, d.trace = new ++ c.trace ∧ ∀ a ∈ new, Quiet a) h
    ⟨[], rfl, by simp⟩ ?_
  intro d e hP ⟨new, htrace, hquiet⟩ _
  have hnew : ∀ a ∈ Consensus.Tree.newEvents env d e, Quiet a := by
    intro a ha
    cases e with
    | raiseHqc h qc =>
        rw [List.mem_singleton.mp ha]
        exact ⟨rfl, rfl, rfl, by simp⟩
    | count vote' own qc =>
        simp only [Consensus.Tree.newEvents] at ha
        split at ha
        · rw [List.mem_singleton.mp ha]
          exact ⟨rfl, rfl, rfl, by simp⟩
        · simp at ha
    | miscount vote' => simp [Consensus.Tree.newEvents] at ha
    | wake h => simp [Consensus.Tree.newEvents] at ha
    | _ => exact absurd hP id
  refine ⟨Consensus.Tree.newEvents env d e ++ new, ?_, fun a ha => ?_⟩
  · rw [trace_eq, htrace, List.append_assoc]
  · rcases List.mem_append.mp ha with ha | ha
    · exact hnew a ha
    · exact hquiet a ha

theorem call_quiet {i : Input K} {r : Replica K} {new : List (Event K)}
    (hstep : n.replica.step env i = some r) (htrace : r.core.trace = new ++ n.replica.core.trace)
    (hquiet : ∀ a ∈ new, Quiet a) :
    n.call env i after = some { n with
      replica := r
      pm := n.pm.push (follows n.replica r i ++ after) } := by
  have hnew := newEvents_append htrace
  have hfailed : failed n.replica r = false := by
    unfold failed
    rw [hnew]
    cases new with
    | nil => rfl
    | cons a new =>
        cases a with
        | threw x => exact absurd rfl ((hquiet _ List.mem_cons_self).2.2.2 x)
        | _ => rfl
  have hcommitted : committed n.replica r = [] := by
    unfold committed
    rw [hnew, List.filterMap_eq_nil_iff.mpr (fun a ha => (hquiet a ha).1), List.reverse_nil]
  unfold Node.call
  rw [hstep]
  simp only [hfailed, hcommitted, Bool.false_eq_true, if_false, List.map_nil, List.nil_append]

theorem proposed_quiet {new : List (Event K)} (htrace : c'.trace = new ++ c.trace)
    (hquiet : ∀ a ∈ new, Quiet a) : proposed c' = proposed c := by
  unfold proposed
  rw [htrace, List.filterMap_append,
    List.filterMap_eq_nil_iff.mpr (fun a ha => (hquiet a ha).2.2.1), List.nil_append]

end calls

/-! The phases of the leader: `m` is its last block, the one of height `k`. -/

/-- What is left of the call that has announced the block. -/
def Closing (n : Node K) (m : Uint256) (agenda : List Task) : Prop :=
  (agenda = [] ∧ n.replica.stack = [] ∧ n.pm.pmWaitPropose = true) ∨
    (agenda = [.resume] ∧ n.replica.stack = [.announced m] ∧ n.pm.pmWaitPropose = true) ∨
      agenda = [.rehook, .resume] ∧ n.replica.stack = [.announced m]

/-- Every batch has been proposed. -/
structure AtRest (n : Node K) (m : Uint256) (k : Nat) : Prop where
  used : n.pm.batches.length = k
  waiting : n.pm.waiting = []
  pending : n.pm.pendingBeats = []
  finish : n.pm.pmQcFinish = none
  locked : n.pm.locked = false
  last : n.pm.lastProposed = m
  qcWaiting : n.core.qcWaiting = ∅
  resolved : ∀ j ∈ n.pm.resolved, j < k
  closing : Closing n m n.pm.agenda

/-- The beat of the next batch waits for the certificate of the last block, the others behind. -/
structure Held (n : Node K) (m : Uint256) (k : Nat) : Prop where
  more : k < n.pm.batches.length
  waiting : n.pm.waiting = [(m, .beat k)]
  pending : n.pm.pendingBeats = List.range' (k + 1) (n.pm.batches.length - (k + 1))
  finish : n.pm.pmQcFinish = some m
  last : n.pm.lastProposed = m
  qcWaiting : n.core.qcWaiting = {m}
  incomplete : ¬ Complete n.core m
  resolved : ∀ j ∈ n.pm.resolved, j < k
  agenda : ∃ rest, n.pm.agenda = (if n.pm.locked then [] else [.lock]) ++ rest ∧
    (Closing n m rest ∨ ∃ j, k ≤ j ∧ rest = [.attach j] ∧ n.replica.stack = [] ∧
      n.pm.pmWaitPropose = true)

/-- On its way to the proposal of the next batch. -/
inductive Rising (p : PaceMaker) (m : Uint256) (k : Nat) : Prop
  | wake : p.agenda = [.wake m] → p.waiting = [(m, .beat k)] → p.pmQcFinish = some m →
      p.locked = true → (∀ j ∈ p.resolved, j < k) → Rising p m k
  | callback (rest : List Task) : p.agenda = .callback (.beat k) :: rest → p.waiting = [] →
      p.pmQcFinish = none → (∀ j ∈ p.resolved, j < k) →
      (rest = [] ∧ p.locked = true ∨ rest = [.lock, .attach k] ∧ p.locked = false) → Rising p m k
  | lock : p.agenda = [.lock, .attach k] → p.waiting = [] → p.pmQcFinish = none →
      k ∈ p.resolved → (∀ j ∈ p.resolved, j < k + 1) → Rising p m k
  | attach : p.agenda = [.attach k] → p.waiting = [] → p.pmQcFinish = none → p.locked = true →
      k ∈ p.resolved → (∀ j ∈ p.resolved, j < k + 1) → Rising p m k
  | handle : p.agenda = [.handle k] → p.waiting = [] → p.pmQcFinish = none → p.locked = true →
      (∀ j ∈ p.resolved, j < k + 1) → Rising p m k

/-- The last block has its certificate, and the next batch is about to be proposed. -/
structure Due (n : Node K) (m : Uint256) (k : Nat) : Prop where
  more : k < n.pm.batches.length
  pending : n.pm.pendingBeats = List.range' (k + 1) (n.pm.batches.length - (k + 1))
  last : n.pm.lastProposed = m
  qcWaiting : n.core.qcWaiting = ∅
  complete : Complete n.core m
  sole : n.core.config.nmajority ≤ 1 → n.pm.batches.length = k + 1
  wait : n.pm.pmWaitPropose = true
  stack : n.replica.stack = []
  rising : Rising n.pm m k

/-- The block has been built and voted for, and the pacemaker is about to be told. -/
structure Announced (n : Node K) (m : Uint256) (k : Nat) : Prop where
  used : k ≤ n.pm.batches.length
  waiting : n.pm.waiting = []
  pending : n.pm.pendingBeats = List.range' k (n.pm.batches.length - k)
  finish : n.pm.pmQcFinish = none
  qcWaiting : n.core.qcWaiting = ∅
  complete : Complete n.core m → n.pm.batches.length = k
  wait : n.pm.pmWaitPropose = true
  stack : n.replica.stack = [.announced m]
  resolved : ∀ j ∈ n.pm.resolved, j < k
  agenda : ∃ commits : List Uint256, n.pm.agenda = commits.map .consensus ++ [.hooks m, .resume]

inductive Phase (n : Node K) (m : Uint256) (k : Nat) : Prop
  | atRest : AtRest n m k → Phase n m k
  | held : Held n m k → Phase n m k
  | due : Due n m k → Phase n m k
  | announced : Announced n m k → Phase n m k

/-- What the pacemaker of a leader does not use. -/
structure Steady (n : Node K) : Prop where
  halted : n.halted = false
  rejected : n.pm.rejected = ∅
  unregistered : n.pm.regProposal = false

section phases

variable {n n' : Node K} {m h p : Uint256} {k : Nat} {id : ReplicaID} {cmds : List Uint256}

/-- The core has at most been told of a waiter or of the end of `on_propose`. -/
inductive Moved (n n' : Node K) (m : Uint256) : Prop
  | same : n'.replica = n.replica → Moved n n' m
  | wait : n'.replica = ⟨n.core.asyncQcFinish m, n.replica.stack⟩ → Moved n n' m
  | broadcast : n.replica.stack = [.announced m] →
      n'.replica = ⟨n.core.broadcast m, []⟩ → Moved n n' m

/-- The next beat is handed out: at once if the last proposed block has its certificate, otherwise
with the certificate. -/
theorem scheduleNext_cons {pm : Nat} {beats : List Nat} (hst : Steady n)
    (hpending : n.pm.pendingBeats = pm :: beats) (hlocked : n.pm.locked = false)
    (hfinish : n.pm.pmQcFinish = none) :
    (Complete n.core n.pm.lastProposed ∧ n.scheduleNext = { n with
      pm := { n.pm with
        pendingBeats := beats
        pmQcFinish := none
        agenda := .callback (.beat pm) :: .lock :: n.pm.agenda } }) ∨
    (¬ Complete n.core n.pm.lastProposed ∧ n.scheduleNext = { n with
      replica := ⟨{ n.core with qcWaiting := insert n.pm.lastProposed n.core.qcWaiting },
        n.replica.stack⟩
      pm := { n.pm with
        pendingBeats := beats
        pmQcFinish := some n.pm.lastProposed
        agenda := .lock :: n.pm.agenda
        waiting := n.pm.waiting ++ [(n.pm.lastProposed, .beat pm)] } }) := by
  unfold Complete Node.scheduleNext
  simp only [hpending, hlocked, hfinish, Bool.false_eq_true, if_false, PaceMaker.rejectQc,
    Node.whenCertified, Node.qcHandle, Node.certified]
  by_cases hdone : n.core.config.nmajority ≤ (n.core.blk n.pm.lastProposed).voted.card
  · refine .inl ⟨hdone, ?_⟩
    simp only [Node.core] at hdone ⊢
    simp only [hdone, decide_true, if_true]
    rfl
  · refine .inr ⟨hdone, ?_⟩
    simp only [Node.core] at hdone ⊢
    simp only [hdone, decide_false, Bool.false_eq_true, if_false, HotStuffCore.asyncQcFinish,
      PaceMaker.awaitQc, hst.rejected, Finset.notMem_empty]

theorem scheduleNext_locked (h : n.pm.locked = true) : n.scheduleNext = n := by
  unfold Node.scheduleNext
  split
  · rfl
  · rw [if_pos h]

theorem beat_fixed : n.beat (.fixed id) cmds = Node.scheduleNext { n with
    pm := { n.pm with
      batches := n.pm.batches ++ [cmds]
      pendingBeats := n.pm.pendingBeats ++ [n.pm.batches.length]
      agenda := [.attach n.pm.batches.length] } } := by
  unfold Node.beat
  exact if_neg (fun h => by cases h.1)

variable (id cmds) in
theorem AtRest.beat (hrest : AtRest n m k) (hst : Steady n) (hidle : n.pm.agenda = []) :
    Steady (n.beat (.fixed id) cmds) ∧
      (n.beat (.fixed id) cmds).pm.batches = n.pm.batches ++ [cmds] ∧
      Moved n (n.beat (.fixed id) cmds) m ∧
      (Held (n.beat (.fixed id) cmds) m k ∨ Due (n.beat (.fixed id) cmds) m k) := by
  obtain ⟨hstack, hwait⟩ : n.replica.stack = [] ∧ n.pm.pmWaitPropose = true := by
    rcases hrest.closing with ⟨_, hclosing⟩ | ⟨heq, _⟩ | ⟨heq, _⟩
    · exact hclosing
    · rw [hidle] at heq
      cases heq
    · rw [hidle] at heq
      cases heq
  have hlength : (n.pm.batches ++ [cmds]).length = k + 1 := by
    rw [List.length_append, hrest.used, List.length_singleton]
  rw [beat_fixed, hrest.pending, hrest.used, List.nil_append]
  generalize hmid : ({ n with
    pm := { n.pm with
      batches := n.pm.batches ++ [cmds], pendingBeats := [k], agenda := [.attach k] } } : Node K) =
    mid
  have hst' : Steady mid := by
    subst hmid
    exact ⟨hst.halted, hst.rejected, hst.unregistered⟩
  have hsched := scheduleNext_cons hst' (show mid.pm.pendingBeats = [k] by rw [← hmid])
    (by rw [← hmid]; exact hrest.locked) (by rw [← hmid]; exact hrest.finish)
  have hlast : mid.pm.lastProposed = m := by
    rw [← hmid]
    exact hrest.last
  rw [hlast] at hsched
  rcases hsched with ⟨hdone, heq⟩ | ⟨hfew, heq⟩
  · rw [heq]
    subst hmid
    refine ⟨⟨hst.halted, hst.rejected, hst.unregistered⟩, rfl, .same rfl, .inr ⟨?_, ?_, hrest.last,
      hrest.qcWaiting, hdone, fun _ => hlength, hwait, hstack, ?_⟩⟩
    · rw [hlength]
      exact Nat.lt_succ_self k
    · rw [hlength, Nat.sub_self]
      rfl
    · exact .callback [.lock, .attach k] rfl hrest.waiting rfl hrest.resolved
        (.inr ⟨rfl, hrest.locked⟩)
  · rw [heq]
    subst hmid
    refine ⟨⟨hst.halted, hst.rejected, hst.unregistered⟩, rfl, .wait ?_, .inl ⟨?_, ?_, ?_, rfl,
      hrest.last, ?_, hfew, hrest.resolved, ?_⟩⟩
    · unfold HotStuffCore.asyncQcFinish
      rw [if_neg (by exact hfew)]
      rfl
    · rw [hlength]
      exact Nat.lt_succ_self k
    · show n.pm.waiting ++ _ = _
      rw [hrest.waiting]
      rfl
    · rw [hlength, Nat.sub_self]
      rfl
    · show insert m n.core.qcWaiting = {m}
      rw [hrest.qcWaiting]
      rfl
    · refine ⟨[.attach k], ?_, .inr ⟨k, le_rfl, rfl, hstack, hwait⟩⟩
      show Task.lock :: [Task.attach k] = (if n.pm.locked then [] else [.lock]) ++ _
      rw [hrest.locked]
      rfl

variable (id cmds) in
theorem Held.beat (hheld : Held n m k) (hst : Steady n) (hidle : n.pm.agenda = []) :
    Steady (n.beat (.fixed id) cmds) ∧
      (n.beat (.fixed id) cmds).pm.batches = n.pm.batches ++ [cmds] ∧
      Moved n (n.beat (.fixed id) cmds) m ∧ Held (n.beat (.fixed id) cmds) m k := by
  obtain ⟨rest, hagenda, hrest⟩ := hheld.agenda
  rw [hidle] at hagenda
  obtain ⟨hlocked, hnil⟩ : n.pm.locked = true ∧ rest = [] := by
    cases hlocked : n.pm.locked with
    | true =>
        rw [hlocked] at hagenda
        exact ⟨rfl, hagenda.symm⟩
    | false =>
        rw [hlocked] at hagenda
        cases hagenda
  obtain ⟨hstack, hwait⟩ : n.replica.stack = [] ∧ n.pm.pmWaitPropose = true := by
    subst hnil
    rcases hrest with (⟨_, hclosing⟩ | ⟨heq, _⟩ | ⟨heq, _⟩) | ⟨j, _, heq, _⟩
    · exact hclosing
    · cases heq
    · cases heq
    · cases heq
  have hmore := hheld.more
  rw [beat_fixed, scheduleNext_locked (by exact hlocked)]
  refine ⟨⟨hst.halted, hst.rejected, hst.unregistered⟩, rfl, .same rfl, ⟨?_, hheld.waiting, ?_,
    hheld.finish, hheld.last, hheld.qcWaiting, hheld.incomplete, hheld.resolved, ?_⟩⟩
  · show k < (n.pm.batches ++ [cmds]).length
    rw [List.length_append]
    omega
  · show n.pm.pendingBeats ++ [n.pm.batches.length] =
      List.range' (k + 1) ((n.pm.batches ++ [cmds]).length - (k + 1))
    rw [hheld.pending, List.length_append, List.length_singleton]
    obtain ⟨d, hd⟩ := Nat.exists_eq_add_of_lt hmore
    rw [hd, show k + d + 1 - (k + 1) = d by omega, show k + d + 1 + 1 - (k + 1) = d + 1 by omega,
      List.range'_concat]
    simp
    omega
  · refine ⟨[.attach n.pm.batches.length], ?_, .inr ⟨_, hmore.le, rfl, hstack, hwait⟩⟩
    show [Task.attach n.pm.batches.length] = (if n.pm.locked then [] else [.lock]) ++ _
    rw [hlocked]
    rfl

/-! A vote arrives. -/

section votes

variable {vote : Vote K} {woken : Bool} {c' : HotStuffCore K}

def afterVote (n : Node K) (vote : Vote K) (c' : HotStuffCore K) : Node K :=
  { n with
    replica := ⟨c', []⟩
    pm := n.pm.push (follows n.replica ⟨c', []⟩ (.receiveVote vote) ++ []) }

theorem steady_afterVote (hst : Steady n) : Steady (afterVote n vote c') :=
  ⟨hst.halted, hst.rejected, hst.unregistered⟩

theorem AtRest.counts (hrest : AtRest n m k) (hidle : n.pm.agenda = [])
    (hres : n.core.onReceiveVote vote = .ok (woken, c')) : AtRest (afterVote n vote c') m k := by
  have hnone : c'.qcWaiting = ∅ := by
    rcases receiveVote_wakes hres with ⟨hkept, _⟩ | ⟨herase, _⟩
    · rw [hkept, hrest.qcWaiting]
    · rw [herase, hrest.qcWaiting, Finset.erase_empty]
  have hfollows : follows n.replica ⟨c', []⟩ (.receiveVote vote) = [] := by
    refine if_neg (fun h => ?_)
    have hmem : vote.blkHash ∈ n.core.qcWaiting := h.1
    rw [hrest.qcWaiting] at hmem
    exact absurd hmem (Finset.notMem_empty _)
  refine ⟨hrest.used, hrest.waiting, hrest.pending, hrest.finish, hrest.locked, hrest.last, hnone,
    hrest.resolved, ?_⟩
  rcases hrest.closing with ⟨hnil, hstack, hwait⟩ | ⟨heq, _⟩ | ⟨heq, _⟩
  · refine .inl ⟨?_, rfl, hwait⟩
    show follows n.replica ⟨c', []⟩ (.receiveVote vote) ++ [] ++ n.pm.agenda = []
    rw [hfollows, hnil]
    rfl
  · rw [hidle] at heq
    cases heq
  · rw [hidle] at heq
    cases heq

/-- The vote completes the certificate that is waited for, or the beat goes on waiting. -/
theorem Held.counts (hheld : Held n m k) (hidle : n.pm.agenda = []) (hmajority : Complete c' m →
      c'.config.nmajority ≤ 1 → n.pm.batches.length = k + 1)
    (hres : n.core.onReceiveVote vote = .ok (woken, c')) :
    Held (afterVote n vote c') m k ∨ Due (afterVote n vote c') m k := by
  obtain ⟨rest, hagenda, hrest⟩ := hheld.agenda
  rw [hidle] at hagenda
  obtain ⟨hlocked, hnil⟩ : n.pm.locked = true ∧ rest = [] := by
    cases hlocked : n.pm.locked with
    | true =>
        rw [hlocked] at hagenda
        exact ⟨rfl, hagenda.symm⟩
    | false =>
        rw [hlocked] at hagenda
        cases hagenda
  have hwait : n.pm.pmWaitPropose = true := by
    subst hnil
    rcases hrest with (⟨_, _, hwait⟩ | ⟨heq, _⟩ | ⟨heq, _⟩) | ⟨j, _, heq, _⟩
    · exact hwait
    · cases heq
    · cases heq
    · cases heq
  by_cases hm : vote.blkHash = m ∧ Complete c' m
  · obtain ⟨hm, hdone⟩ := hm
    have hnone : c'.qcWaiting = ∅ := by
      rcases receiveVote_wakes hres with ⟨_, hless⟩ | ⟨herase, _⟩
      · exact absurd (hless m hdone) hheld.incomplete
      · rw [herase, hheld.qcWaiting, hm]
        simp
    have hfollows : follows n.replica ⟨c', []⟩ (.receiveVote vote) = [.wake m] := by
      have hcond : vote.blkHash ∈ n.core.qcWaiting ∧ vote.blkHash ∉ c'.qcWaiting := by
        rw [hheld.qcWaiting, hnone, hm]
        exact ⟨Finset.mem_singleton_self m, Finset.notMem_empty m⟩
      exact (if_pos hcond).trans (by rw [hm])
    refine .inr ⟨hheld.more, hheld.pending, hheld.last, hnone, hdone, hmajority hdone, hwait, rfl,
      .wake ?_ hheld.waiting hheld.finish hlocked hheld.resolved⟩
    show follows n.replica ⟨c', []⟩ (.receiveVote vote) ++ [] ++ n.pm.agenda = [.wake m]
    rw [hfollows, hidle]
    rfl
  · have hkept : c'.qcWaiting = {m} ∧ ¬ Complete c' m := by
      rcases receiveVote_wakes hres with ⟨hkept, hless⟩ | ⟨herase, hfull, hless⟩
      · exact ⟨hkept.trans hheld.qcWaiting, fun h => hheld.incomplete (hless m h)⟩
      · have hne : m ≠ vote.blkHash := fun heq => hm ⟨heq.symm, heq ▸ hfull⟩
        refine ⟨?_, fun h => hheld.incomplete (hless m hne h)⟩
        rw [herase, hheld.qcWaiting]
        exact Finset.erase_eq_of_notMem (by simpa using hne.symm)
    have hfollows : follows n.replica ⟨c', []⟩ (.receiveVote vote) = [] := by
      refine if_neg (fun h => ?_)
      obtain ⟨hmem, hnot⟩ : vote.blkHash ∈ n.core.qcWaiting ∧ vote.blkHash ∉ c'.qcWaiting := h
      rw [hheld.qcWaiting] at hmem
      rw [hkept.1] at hnot
      exact hnot hmem
    refine .inl ⟨hheld.more, hheld.waiting, hheld.pending, hheld.finish, hheld.last, hkept.1,
      hkept.2, hheld.resolved, [], ?_, .inl (.inl ⟨rfl, rfl, hwait⟩)⟩
    show follows n.replica ⟨c', []⟩ (.receiveVote vote) ++ [] ++ n.pm.agenda =
      (if n.pm.locked then [] else [.lock]) ++ []
    rw [hfollows, hidle, hlocked]
    rfl

end votes

/-! The running call goes on. -/

theorem run_resume (hst : Steady n) {kind : Kind} (hagenda : n.pm.agenda = [.resume])
    (hstack : n.replica.stack = [.announced m]) :
    n.step env kind .run = some { n with
      replica := ⟨n.core.broadcast m, []⟩
      pm := { n.pm with agenda := [] } } := by
  rw [Node.step_run hst.halted hagenda]
  have hstep : n.replica.step env .resume = some ⟨n.core.broadcast m, []⟩ := by
    simp only [Replica.step, hstack]
    rfl
  have hfollows : follows n.replica ⟨n.core.broadcast m, []⟩ .resume = [] := by
    simp only [follows, hstack]
  have hquiet : ∀ a ∈ [(.broadcast ⟨n.core.id, m⟩ : Event K)], Quiet a := by
    intro a ha
    rw [List.mem_singleton.mp ha]
    exact ⟨rfl, rfl, rfl, by simp⟩
  have hcall : ({ n with pm := { n.pm with agenda := [] } } : Node K).call env .resume [] =
      some _ := call_quiet hstep rfl hquiet
  rw [hfollows] at hcall
  exact hcall

theorem Closing.run {agenda : List Task} (hclosing : Closing n m agenda)
    (hagenda : n.pm.agenda = agenda) (hst : Steady n) {kind : Kind}
    (hstep : n.step env kind .run = some n') :
    Moved n n' m ∧ (∃ wait rest, n'.pm = { n.pm with pmWaitPropose := wait, agenda := rest }) ∧
      Steady n' ∧ Closing n' m n'.pm.agenda ∧ n'.core.qcWaiting = n.core.qcWaiting ∧
      (Complete n'.core m → Complete n.core m) := by
  rcases hclosing with ⟨rfl, _⟩ | ⟨rfl, hstack, hwait⟩ | ⟨rfl, hstack⟩
  · simp only [Node.step, hst.halted, hagenda] at hstep
    cases hstep
  · rw [run_resume hst hagenda hstack] at hstep
    cases hstep
    exact ⟨.broadcast hstack rfl, ⟨n.pm.pmWaitPropose, [], rfl⟩,
      ⟨hst.halted, hst.rejected, hst.unregistered⟩, .inl ⟨rfl, rfl, hwait⟩, rfl, id⟩
  · rw [Node.step_run hst.halted hagenda] at hstep
    cases hstep
    exact ⟨.same rfl, ⟨true, [.resume], rfl⟩, ⟨hst.halted, hst.rejected, hst.unregistered⟩,
      .inr (.inl ⟨rfl, hstack, rfl⟩), rfl, id⟩

theorem AtRest.run (hrest : AtRest n m k) (hst : Steady n)
    (hstep : n.step env (.fixed id) .run = some n') :
    Steady n' ∧ n'.pm.batches = n.pm.batches ∧ Moved n n' m ∧ AtRest n' m k := by
  obtain ⟨hmoved, ⟨wait, rest, hpm⟩, hst', hclosing, hwaiting, _⟩ :=
    hrest.closing.run rfl hst hstep
  rw [hpm] at hclosing
  refine ⟨hst', by rw [hpm], hmoved, ?_⟩
  obtain ⟨r, p, halted⟩ := n'
  obtain rfl : p = _ := hpm
  exact ⟨hrest.used, hrest.waiting, hrest.pending, hrest.finish, hrest.locked, hrest.last,
    hwaiting.trans hrest.qcWaiting, hrest.resolved, hclosing⟩

theorem Held.run (hheld : Held n m k) (hst : Steady n)
    (hstep : n.step env (.fixed id) .run = some n') :
    Steady n' ∧ n'.pm.batches = n.pm.batches ∧ Moved n n' m ∧ Held n' m k := by
  obtain ⟨rest, hagenda, hrest⟩ := hheld.agenda
  cases hlocked : n.pm.locked with
  | false =>
      rw [hlocked] at hagenda
      rw [Node.step_run hst.halted (by exact hagenda)] at hstep
      cases hstep
      exact ⟨⟨hst.halted, hst.rejected, hst.unregistered⟩, rfl, .same rfl, ⟨hheld.more,
        hheld.waiting, hheld.pending, hheld.finish, hheld.last, hheld.qcWaiting, hheld.incomplete,
        hheld.resolved, rest, rfl, hrest⟩⟩
  | true =>
      rw [hlocked] at hagenda
      rcases hrest with hclosing | ⟨j, hj, rfl, hstack, hwait⟩
      · obtain ⟨hmoved, ⟨wait, rest', hpm⟩, hst', hclosing', hwaiting, hless⟩ :=
          hclosing.run (by exact hagenda) hst hstep
        rw [hpm] at hclosing'
        refine ⟨hst', by rw [hpm], hmoved, ?_⟩
        obtain ⟨r, p, halted⟩ := n'
        obtain rfl : p = _ := hpm
        refine ⟨hheld.more, hheld.waiting, hheld.pending, hheld.finish, hheld.last,
          hwaiting.trans hheld.qcWaiting, fun h => hheld.incomplete (hless h), hheld.resolved,
          rest', ?_, .inl hclosing'⟩
        show rest' = (if n.pm.locked then [] else [Task.lock]) ++ rest'
        rw [hlocked]
        rfl
      · -- The promise is not resolved yet, so that the handler is merely attached to it.
        have hnot : j ∉ n.pm.resolved := by
          intro hmem
          exact absurd (hheld.resolved j hmem) (Nat.not_lt.mpr hj)
        rw [Node.step_run hst.halted (by exact hagenda)] at hstep
        simp only [Node.perform, hnot, if_false] at hstep
        cases hstep
        refine ⟨⟨hst.halted, hst.rejected, hst.unregistered⟩, rfl, .same rfl, ⟨hheld.more,
          hheld.waiting, hheld.pending, hheld.finish, hheld.last, hheld.qcWaiting,
          hheld.incomplete, hheld.resolved, [], ?_, .inl (.inl ⟨rfl, hstack, hwait⟩)⟩⟩
        show [] = (if n.pm.locked then [] else [Task.lock]) ++ []
        rw [hlocked]
        rfl

theorem Due.run (hdue : Due n m k) (hst : Steady n) (hhandle : n.pm.agenda ≠ [.handle k])
    (hstep : n.step env (.fixed id) .run = some n') :
    Steady n' ∧ n'.pm.batches = n.pm.batches ∧ Moved n n' m ∧ Due n' m k := by
  have hkeep : ∀ p' : PaceMaker, n' = { n with pm := p' } → p'.batches = n.pm.batches →
      p'.pendingBeats = n.pm.pendingBeats → p'.lastProposed = n.pm.lastProposed →
      p'.pmWaitPropose = n.pm.pmWaitPropose → p'.rejected = n.pm.rejected →
      p'.regProposal = n.pm.regProposal → Rising p' m k →
      Steady n' ∧ n'.pm.batches = n.pm.batches ∧ Moved n n' m ∧ Due n' m k := by
    intro p' heq hbatches hpending hlast hwait hrejected hreg hrising
    subst heq
    refine ⟨⟨hst.halted, hrejected.trans hst.rejected, hreg.trans hst.unregistered⟩, hbatches,
      .same rfl, ⟨?_, ?_, hlast.trans hdue.last, hdue.qcWaiting, hdue.complete, fun hone => ?_,
        hwait.trans hdue.wait, hdue.stack, hrising⟩⟩
    · show k < p'.batches.length
      rw [hbatches]
      exact hdue.more
    · show p'.pendingBeats = List.range' (k + 1) (p'.batches.length - (k + 1))
      rw [hbatches, hpending]
      exact hdue.pending
    · show p'.batches.length = k + 1
      rw [hbatches]
      exact hdue.sole hone
  have hsucc : ∀ l : List Nat, (∀ j ∈ l, j < k) → ∀ j ∈ k :: l, j < k + 1 := by
    intro l hl j hj
    rcases List.mem_cons.mp hj with rfl | hj
    · exact Nat.lt_succ_self j
    · exact Nat.lt_succ_of_lt (hl j hj)
  cases hdue.rising with
  | wake hagenda hwaiting hfinish hlocked hresolved =>
      rw [Node.step_run hst.halted hagenda] at hstep
      cases hstep
      refine hkeep _ rfl rfl rfl rfl rfl ?_ rfl ?_
      · show n.pm.rejected.erase m = n.pm.rejected
        rw [hst.rejected, Finset.erase_empty]
      · refine .callback [] ?_ ?_ ?_ hresolved (.inl ⟨rfl, hlocked⟩)
        · simp [PaceMaker.settle, hwaiting]
        · simp [PaceMaker.settle, hwaiting]
        · simp [PaceMaker.settle, hfinish]
  | callback rest hagenda hwaiting hfinish hresolved hrest =>
      rw [Node.step_run hst.halted hagenda] at hstep
      rcases hrest with ⟨rfl, hlocked⟩ | ⟨rfl, hlocked⟩
      · simp only [Node.perform, List.not_mem_nil, if_false] at hstep
        cases hstep
        exact hkeep _ rfl rfl rfl rfl rfl rfl rfl
          (.handle rfl hwaiting hfinish hlocked (hsucc _ hresolved))
      · have hmem : Task.attach k ∈ [Task.lock, .attach k] := by simp
        simp only [Node.perform, hmem, if_true] at hstep
        cases hstep
        exact hkeep _ rfl rfl rfl rfl rfl rfl rfl
          (.lock rfl hwaiting hfinish List.mem_cons_self (hsucc _ hresolved))
  | lock hagenda hwaiting hfinish hmem hresolved =>
      rw [Node.step_run hst.halted hagenda] at hstep
      cases hstep
      exact hkeep _ rfl rfl rfl rfl rfl rfl rfl (.attach rfl hwaiting hfinish rfl hmem hresolved)
  | attach hagenda hwaiting hfinish hlocked hmem hresolved =>
      rw [Node.step_run hst.halted hagenda] at hstep
      simp only [Node.perform, hmem, if_true] at hstep
      cases hstep
      exact hkeep _ rfl rfl rfl rfl rfl rfl rfl (.handle rfl hwaiting hfinish hlocked hresolved)
  | handle hagenda => exact absurd hagenda hhandle

/-- The pacemaker is told of the commits and then of the new block, and hands out the next beat. -/
theorem Announced.run (hann : Announced n m k) (hst : Steady n)
    (hstep : n.step env (.fixed id) .run = some n') :
    Steady n' ∧ n'.pm.batches = n.pm.batches ∧ Moved n n' m ∧
      (Announced n' m k ∨ AtRest n' m k ∨ Held n' m k) := by
  obtain ⟨commits, hagenda⟩ := hann.agenda
  cases commits with
  | cons x commits =>
      rw [Node.step_run hst.halted (by exact hagenda)] at hstep
      cases hstep
      exact ⟨⟨hst.halted, hst.rejected, hst.unregistered⟩, rfl, .same rfl, .inl ⟨hann.used,
        hann.waiting, hann.pending, hann.finish, hann.qcWaiting, hann.complete, hann.wait,
        hann.stack, hann.resolved, commits, rfl⟩⟩
  | nil =>
      rw [Node.step_run hst.halted (by exact hagenda)] at hstep
      simp only [Node.perform, Node.runHooks, PaceMaker.recordBlk, hst.unregistered, hann.wait,
        Bool.false_eq_true, if_false, if_true, Bool.false_and] at hstep
      generalize hmid : ({ n with
        pm := { n.pm with
          lastProposed := m, locked := false, pmWaitPropose := false, regProposal := false,
          agenda := [.rehook, .resume] } } : Node K) = mid at hstep
      have hst' : Steady mid := by
        subst hmid
        exact ⟨hst.halted, hst.rejected, rfl⟩
      have hn' : n' = mid.scheduleNext := by
        rw [← hmid] at hstep ⊢
        exact (Option.some.inj hstep).symm
      have hpending : mid.pm.pendingBeats = List.range' k (n.pm.batches.length - k) := by
        rw [← hmid]
        exact hann.pending
      rcases Nat.eq_or_lt_of_le hann.used with hall | hmore
      · rw [← hall, Nat.sub_self] at hpending
        have hsame : mid.scheduleNext = mid := by
          unfold Node.scheduleNext
          rw [hpending]
          rfl
        rw [hn', hsame]
        subst hmid
        refine ⟨hst', rfl, .same rfl, .inr (.inl ⟨hall.symm, hann.waiting, ?_, hann.finish, rfl,
          rfl, hann.qcWaiting, hann.resolved, .inr (.inr ⟨rfl, hann.stack⟩)⟩)⟩
        exact hpending
      · have hcons : List.range' k (n.pm.batches.length - k) =
            k :: List.range' (k + 1) (n.pm.batches.length - (k + 1)) := by
          rw [show n.pm.batches.length - k = n.pm.batches.length - (k + 1) + 1 by omega,
            List.range'_succ]
        have hlast : mid.pm.lastProposed = m := by rw [← hmid]
        have hsched := scheduleNext_cons hst' (hpending.trans hcons) (by rw [← hmid])
          (by rw [← hmid]; exact hann.finish)
        rw [hlast] at hsched
        have hcore : mid.core = n.core := by rw [← hmid]; rfl
        rcases hsched with ⟨hdone, _⟩ | ⟨hfew, heq⟩
        · rw [hcore] at hdone
          exact absurd (hann.complete hdone) (Nat.ne_of_gt hmore)
        · rw [hcore] at hfew
          rw [hn', heq]
          subst hmid
          refine ⟨⟨hst.halted, hst.rejected, rfl⟩, rfl, .wait ?_, .inr (.inr ⟨hmore, ?_, rfl, rfl,
            rfl, ?_, hfew, hann.resolved, [.rehook, .resume], rfl,
            .inl (.inr (.inr ⟨rfl, hann.stack⟩))⟩)⟩
          · unfold HotStuffCore.asyncQcFinish
            rw [if_neg (by exact hfew)]
            rfl
          · show n.pm.waiting ++ _ = _
            rw [hann.waiting]
            rfl
          · show insert m n.core.qcWaiting = {m}
            rw [hann.qcWaiting]
            rfl

end phases

/-! The leader's blocks. -/

section nodes

variable {keys : List K.PubKey} {id : ReplicaID} {key : K.PrivKey} {voteDisabled : Bool}
  {n n' : Node K} {h m : Uint256} {older : List Uint256}

/-- The leader has built a line of blocks up to `m`, which carry its first batches. -/
structure LeaderOk (env : Env K) (keys : List K.PubKey) (id : ReplicaID) (key : K.PrivKey)
    (voteDisabled : Bool) (n : Node K) (m : Uint256) (older : List Uint256) : Prop where
  replica : Reachable ((machine env (HotStuffCore.startConfig keys) id key voteDisabled).restrict
    (Paced env)) n.replica
  level : LevelOk n.core
  steady : Steady n
  line : Line env n.core m older
  made : proposed n.core ++ [env.genesisHash] = m :: older
  carried : (m :: older).dropLast.reverse.map (fun b => (n.core.blk b).data.cmds) =
    n.pm.batches.take older.length
  single : ∀ b ∈ (m :: older).dropLast, (n.core.blk b).parents.length = 1
  phase : Phase n m older.length

theorem LeaderOk.carried_of_grows {c' : HotStuffCore K}
    (hok : LeaderOk env keys id key voteDisabled n m older) (hg : Grows n.core c') :
    (m :: older).dropLast.reverse.map (fun b => (c'.blk b).data.cmds) =
      n.pm.batches.take older.length := by
  rw [← hok.carried]
  refine List.map_congr_left (fun b hb => ?_)
  have hmem : b ∈ m :: older := List.mem_of_mem_dropLast (List.mem_reverse.mp hb)
  have htree := (replicaOk_of_reachable hok.replica.of_restrict).tree
  exact congrArg BlockData.cmds (hg.data (hok.line.delivered htree hmem))

theorem LeaderOk.single_of_grows {c' : HotStuffCore K}
    (hok : LeaderOk env keys id key voteDisabled n m older) (hg : Grows n.core c') :
    ∀ b ∈ (m :: older).dropLast, (c'.blk b).parents.length = 1 := by
  intro b hb
  have htree := (replicaOk_of_reachable hok.replica.of_restrict).tree
  exact (congrArg List.length
    (hg.parents (hok.line.delivered htree (List.mem_of_mem_dropLast hb)))).trans (hok.single b hb)

theorem LeaderOk.keep (hok : LeaderOk env keys id key voteDisabled n m older)
    (hreach : Reachable ((machine env (HotStuffCore.startConfig keys) id key
      voteDisabled).restrict (Paced env)) n'.replica)
    (hlevel : LevelOk n'.core) (hst : Steady n') (hline : Line env n'.core m older)
    (hg : Grows n.core n'.core) (hmade : proposed n'.core = proposed n.core)
    (hbatches : n'.pm.batches.take older.length = n.pm.batches.take older.length)
    (hphase : Phase n' m older.length) : LeaderOk env keys id key voteDisabled n' m older := by
  refine ⟨hreach, hlevel, hst, hline, by rw [hmade]; exact hok.made, ?_, hok.single_of_grows hg,
    hphase⟩
  rw [hbatches]
  exact hok.carried_of_grows hg

theorem LeaderOk.moved (hok : LeaderOk env keys id key voteDisabled n m older)
    (hmoved : Moved n n' m) (hst : Steady n')
    (hbatches : n'.pm.batches.take older.length = n.pm.batches.take older.length)
    (hphase : Phase n' m older.length) : LeaderOk env keys id key voteDisabled n' m older := by
  have hrep := replicaOk_of_reachable hok.replica.of_restrict
  obtain ⟨r, p, halted⟩ := n'
  cases hmoved with
  | same heq =>
      obtain rfl : r = n.replica := heq
      exact hok.keep hok.replica hok.level hst hok.line (.refl _) rfl hbatches hphase
  | wait heq =>
      obtain rfl : r = _ := heq
      have hstep : n.replica.step env (.wait m) = some ⟨n.core.asyncQcFinish m, n.replica.stack⟩ :=
        rfl
      have hpaced : Paced env n.replica (.wait m) := by
        have hmem : m ∈ proposed n.core ++ [env.genesisHash] := by
          rw [hok.made]
          exact List.mem_cons_self
        rcases List.mem_append.mp hmem with hmem | hmem
        · obtain ⟨e, he, hm⟩ := List.mem_filterMap.mp hmem
          cases e with
          | propose h =>
              obtain rfl : h = m := Option.some.inj hm
              exact .inr he
          | _ => cases hm
        · exact .inl (List.mem_singleton.mp hmem)
      obtain ⟨w, hw⟩ := Consensus.Duplicates.asyncQcFinish_eq n.core m
      refine hok.keep (.step hok.replica ⟨hpaced, hstep⟩)
        (hok.level.returns (r := n.replica) hrep.tree hrep.certs .wait) hst ?_
        (grows_of_trail (hrep.step hstep).2) ?_ hbatches hphase
      · show Line env (n.core.asyncQcFinish m) m older
        rw [hw]
        exact hok.line.waiting w
      · show proposed (n.core.asyncQcFinish m) = _
        rw [hw]
        rfl
  | broadcast hstack heq =>
      obtain rfl : r = _ := heq
      have hstep : n.replica.step env .resume = some ⟨n.core.broadcast m, []⟩ := by
        simp only [Replica.step, hstack]
        rfl
      exact hok.keep (.step hok.replica ⟨(show Paced env n.replica .resume from trivial), hstep⟩)
        (hok.level.returns (r := n.replica) hrep.tree hrep.certs (.resume hstep)) hst
        (hok.line.emit _) (grows_of_trail (hrep.step hstep).2) rfl hbatches hphase

theorem Phase.idle {k : Nat} (hphase : Phase n m k) (hidle : n.pm.agenda = []) :
    AtRest n m k ∨ Held n m k := by
  cases hphase with
  | atRest hrest => exact .inl hrest
  | held hheld => exact .inr hheld
  | due hdue =>
      cases hdue.rising with
      | wake h | callback _ h | lock h | attach h | handle h =>
          rw [hidle] at h
          cases h
  | announced hann =>
      obtain ⟨commits, h⟩ := hann.agenda
      rw [hidle] at h
      cases commits <;> cases h

theorem Phase.used {k : Nat} (hphase : Phase n m k) : k ≤ n.pm.batches.length := by
  cases hphase with
  | atRest hrest => exact hrest.used.ge
  | held hheld => exact hheld.more.le
  | due hdue => exact hdue.more.le
  | announced hann => exact hann.used

theorem LeaderOk.beat {cmds : List Uint256} (hok : LeaderOk env keys id key voteDisabled n m older)
    (hid : n.core.id = id) (hstep : n.step env (.fixed id) (.beat cmds) = some n') :
    LeaderOk env keys id key voteDisabled n' m older ∧
      n'.pm.batches = n.pm.batches ++ [cmds] := by
  simp only [Node.step] at hstep
  split at hstep
  swap
  · cases hstep
  rename_i hidle
  have hnil := Node.agenda_nil_of_idle hidle
  rw [if_pos (by exact hid.symm)] at hstep
  obtain rfl := Option.some.inj hstep
  have htake : ∀ bs : List (List Uint256), bs = n.pm.batches ++ [cmds] →
      bs.take older.length = n.pm.batches.take older.length := by
    intro bs hbs
    rw [hbs, List.take_append_of_le_length hok.phase.used]
  rcases hok.phase.idle hnil with hrest | hheld
  · obtain ⟨hst, hbatches, hmoved, hphase⟩ := hrest.beat id cmds hok.steady hnil
    refine ⟨hok.moved hmoved hst (htake _ hbatches) ?_, hbatches⟩
    rcases hphase with hheld | hdue
    · exact .held hheld
    · exact .due hdue
  · obtain ⟨hst, hbatches, hmoved, hheld⟩ := hheld.beat id cmds hok.steady hnil
    exact ⟨hok.moved hmoved hst (htake _ hbatches) (.held hheld), hbatches⟩

/-- A valid vote for a delivered block can only fail outside the bounds of the bitmap. -/
theorem receiveVote_error {vote : Vote K} {c : HotStuffCore K} {x : Exn × HotStuffCore K}
    (hcerts : CertsOk c) (hvalid : vote.verify c.config = .ok true)
    (hd : (c.blk vote.blkHash).delivered = true) (hres : c.onReceiveVote vote = .error x) :
    x.1 = .undefinedBehaviour := by
  unfold HotStuffCore.onReceiveVote at hres
  rw [if_pos hd] at hres
  dsimp only at hres
  split at hres
  · cases hres
  split at hres
  · cases hres
  split at hres
  · rename_i e hadd
    cases hres
    rcases addPart_error hadd with ⟨_, hne⟩ | hund
    · exact absurd ((Vote.verify_true hvalid).1.trans (hcerts.getD_hash vote.blkHash).symm) hne
    · exact hund
  · split at hres <;> cases hres

theorem LeaderOk.counts {vote : Vote K} (hok : LeaderOk env keys id key voteDisabled n m older)
    (hvalid : vote.verify n.core.config = .ok true)
    (hd : (n.core.blk vote.blkHash).delivered = true)
    (hstep : n.step env (.fixed id) (.message (.receiveVote vote)) = some n') :
    LeaderOk env keys id key voteDisabled n' m older ∧ n'.pm.batches = n.pm.batches := by
  have hrep := replicaOk_of_reachable hok.replica.of_restrict
  simp only [Node.step] at hstep
  split at hstep
  swap
  · cases hstep
  rename_i hguard
  have hnil := Node.agenda_nil_of_idle ((Bool.and_eq_true _ _).mp hguard).1
  obtain ⟨r, hvote, _⟩ := Node.call_eq_some hstep
  have hspec := onReceiveVote_spec (c := n.core) env vote false (by simp)
  cases hres : n.core.onReceiveVote vote with
  | error x =>
      have hund := receiveVote_error hrep.certs hvalid hd hres
      have hres' : n.replica.core.onReceiveVote vote = .error x := hres
      simp only [Replica.step, hres', Replica.throw] at hvote
      rw [if_pos hund] at hvote
      split at hvote <;> cases hvote
  | ok x =>
      obtain ⟨woken, c'⟩ := x
      rw [hres] at hspec
      obtain rfl : r = ⟨c', []⟩ := by
        have hres' : n.replica.core.onReceiveVote vote = .ok (woken, c') := hres
        simp only [Replica.step, hres'] at hvote
        split at hvote
        · exact (Option.some.inj hvote).symm
        · cases hvote
      obtain ⟨new, htrace, hquiet⟩ := votes_quiet hspec.1
      rw [call_quiet hvote htrace hquiet] at hstep
      obtain rfl : afterVote n vote c' = n' := Option.some.inj hstep
      have hg := grows_of_trail hspec.1
      refine ⟨hok.keep
        (.step hok.replica ⟨(show Paced env n.replica (.receiveVote vote) from trivial), hvote⟩)
        (hok.level.returns (r := n.replica) hrep.tree hrep.certs (.receiveVote hres))
        (steady_afterVote hok.steady) (hok.line.receiveVote hrep.tree hvalid hres hg) hg
        (proposed_quiet htrace hquiet) rfl ?_, rfl⟩
      rcases hok.phase.idle hnil with hrest | hheld
      · exact .atRest (hrest.counts hnil hres)
      · have hmajority : c'.config.nmajority ≤ 1 → Complete n.core m := by
          rw [(receiveVote_same hres).config]
          exact hok.line.sole
        rcases hheld.counts hnil (fun _ hone => absurd (hmajority hone) hheld.incomplete) hres with
          hheld' | hdue
        · exact .held hheld'
        · exact .due hdue

theorem LeaderOk.run (hok : LeaderOk env keys id key voteDisabled n m older)
    (hhandle : n.pm.agenda ≠ [.handle older.length])
    (hstep : n.step env (.fixed id) .run = some n') :
    LeaderOk env keys id key voteDisabled n' m older ∧ n'.pm.batches = n.pm.batches := by
  cases hok.phase with
  | atRest hrest =>
      obtain ⟨hst, hbatches, hmoved, hphase⟩ := hrest.run hok.steady hstep
      exact ⟨hok.moved hmoved hst (by rw [hbatches]) (.atRest hphase), hbatches⟩
  | held hheld =>
      obtain ⟨hst, hbatches, hmoved, hphase⟩ := hheld.run hok.steady hstep
      exact ⟨hok.moved hmoved hst (by rw [hbatches]) (.held hphase), hbatches⟩
  | due hdue =>
      obtain ⟨hst, hbatches, hmoved, hphase⟩ := hdue.run hok.steady hhandle hstep
      exact ⟨hok.moved hmoved hst (by rw [hbatches]) (.due hphase), hbatches⟩
  | announced hann =>
      obtain ⟨hst, hbatches, hmoved, hphase⟩ := hann.run hok.steady hstep
      refine ⟨hok.moved hmoved hst (by rw [hbatches]) ?_, hbatches⟩
      rcases hphase with hann' | hrest | hheld
      · exact .announced hann'
      · exact .atRest hrest
      · exact .held hheld

theorem proposed_of_proposes {c c' d : HotStuffCore K} {data : BlockData K}
    (h : Trail env (Proposes env d data) c c') : proposed c' = proposed c := by
  refine Trail.invariant (I := fun e => proposed e = proposed c) h rfl ?_
  intro e x hP he _
  have hnew : ∀ a ∈ Consensus.Tree.newEvents env e x, proposedBy a = none := by
    intro a ha
    cases x with
    | announce h => exact absurd hP id
    | broadcast h => exact absurd hP id
    | sendVote r v => exact absurd hP id
    | throw x => exact absurd hP id
    | commit queue h =>
        obtain ⟨b, _, ha⟩ := List.mem_flatMap.mp ha
        rcases List.mem_append.mp ha with ha | ha
        · obtain ⟨i, hi, rfl⟩ := List.mem_mapIdx.mp (List.mem_reverse.mp ha)
          rfl
        · rw [List.mem_singleton.mp ha]
          rfl
    | count v own qc =>
        simp only [Consensus.Tree.newEvents] at ha
        split at ha
        · rw [List.mem_singleton.mp ha]
          rfl
        · simp at ha
    | create _ | raiseHqc _ _ | accept _ _ | acceptOwn _ _ _ | sign _ =>
        rw [List.mem_singleton.mp ha]
        rfl
    | _ => simp [Consensus.Tree.newEvents] at ha
  unfold proposed at he ⊢
  rw [trace_eq, List.filterMap_append, List.filterMap_eq_nil_iff.mpr hnew, List.nil_append]
  exact he

theorem LeaderOk.settings (hok : LeaderOk env keys id key voteDisabled n m older) :
    n.core.id = id ∧ n.core.config = HotStuffCore.startConfig keys :=
  invariant_of_effects (I := fun c => c.id = id ∧ c.config = HotStuffCore.startConfig keys)
    hok.replica.of_restrict ⟨rfl, rfl⟩
    (fun c _ _ _ hc _ => ⟨(id_apply env c).trans hc.1, (config_apply env c).trans hc.2⟩)

/-- A proposal is on the agenda only when it is the turn of the next batch. -/
theorem Phase.due_of_handle {j k : Nat} {rest : List Task} (hphase : Phase n m k)
    (hagenda : n.pm.agenda = .handle j :: rest) : Due n m k ∧ n.pm.agenda = [.handle k] := by
  have hclosing : ∀ tasks, Closing n m tasks → tasks ≠ .handle j :: rest := by
    intro tasks h heq
    rcases h with ⟨h, _⟩ | ⟨h, _⟩ | ⟨h, _⟩
    all_goals rw [heq] at h; cases h
  cases hphase with
  | atRest hrest => exact absurd hagenda (hclosing _ hrest.closing)
  | held hheld =>
      obtain ⟨rest', h, hrest⟩ := hheld.agenda
      rw [hagenda] at h
      cases hlocked : n.pm.locked with
      | false =>
          rw [hlocked] at h
          cases h
      | true =>
          rw [hlocked] at h
          rcases hrest with hc | ⟨_, _, heq, _⟩
          · exact absurd h.symm (hclosing _ hc)
          · rw [heq] at h
            cases h
  | announced hann =>
      obtain ⟨commits, h⟩ := hann.agenda
      rw [hagenda] at h
      cases commits <;> cases h
  | due hdue =>
      refine ⟨hdue, ?_⟩
      cases hdue.rising with
      | handle h => exact h
      | wake h | callback _ h | lock h | attach h =>
          rw [hagenda] at h
          cases h

theorem carried_cons {α β : Type*} {f : α → β} {h m : α} {older : List α} {batches : List β}
    {cmds : β} (hold : (m :: older).dropLast.reverse.map f = batches.take older.length)
    (hget : batches[older.length]? = some cmds) (hnew : f h = cmds) :
    (h :: m :: older).dropLast.reverse.map f = batches.take (older.length + 1) := by
  rw [List.dropLast_cons_cons, List.reverse_cons, List.map_append, hold, List.take_add_one, hget,
    List.map_singleton, hnew]
  rfl

def afterProposal (n : Node K) (c' : HotStuffCore K) (h : Uint256) : Node K :=
  { n with
    replica := Replica.announce c' h []
    pm := ({ n.pm with agenda := [] } : PaceMaker).push
      ((committed n.replica (Replica.announce c' h [])).map .consensus ++
        [.hooks h, .resume] ++ []) }

theorem run_handle {c' : HotStuffCore K} {cmds : List Uint256} {j : Nat} (hst : Steady n)
    (hid : n.core.id = id) (hagenda : n.pm.agenda = [.handle j])
    (hget : n.pm.batches[j]? = some cmds)
    (hcall : n.replica.step env (.propose cmds n.core.getParents []) =
      some (Replica.announce c' h [])) :
    n.step env (.fixed id) .run = some (afterProposal n c' h) := by
  rw [Node.step_run hst.halted hagenda]
  have hproposer : Node.getProposer (.fixed id) n = n.core.id := hid.symm
  have hbatch : (n.pm.batches[j]?).getD [] = cmds := by rw [hget, Option.getD_some]
  have hfailed : failed n.replica (Replica.announce c' h []) = false := failed_announce _ _ _ _
  simp only [Node.perform, Node.propose, hbatch]
  rw [if_pos (by exact hproposer)]
  unfold Node.call
  rw [show Replica.step env ({ n with pm := { n.pm with agenda := [] } } : Node K).replica
    (.propose cmds ({ n with pm := { n.pm with agenda := [] } } : Node K).core.getParents []) =
      some (Replica.announce c' h []) from hcall]
  simp only [hfailed]
  rfl

theorem Due.announced {c' : HotStuffCore K} {k : Nat} (hdue : Due n m k)
    (hagenda : n.pm.agenda = [.handle k]) (hcalm : c'.qcWaiting = ∅)
    (hdone : Complete (c'.announce h) h → n.core.config.nmajority ≤ 1) :
    Announced (afterProposal n c' h) h (k + 1) := by
  cases hdue.rising with
  | handle _ hwaiting hfinish _ hresolved =>
      refine ⟨hdue.more, hwaiting, hdue.pending, hfinish, hcalm,
        fun hfull => hdue.sole (hdone hfull), hdue.wait, rfl, hresolved,
        committed n.replica (Replica.announce c' h []), ?_⟩
      show _ ++ [Task.hooks h, .resume] ++ [] ++ [] = _
      rw [List.append_nil, List.append_nil]
  | wake h1 | callback _ h1 | lock h1 | attach h1 =>
      rw [hagenda] at h1
      cases h1

/-- The next batch is proposed: `on_propose` does not throw, and the block is the next one. -/
theorem LeaderOk.propose {j : Nat} {rest : List Task}
    (hok : LeaderOk env keys id key voteDisabled n m older) (hkeys : id.val < keys.length)
    (hsize : keys.length + 63 < 2 ^ 32) (hagenda : n.pm.agenda = .handle j :: rest)
    (hown : Unshared env n.core
      (n.core.newData ((n.pm.batches[j]?).getD []) n.core.getParents [])) :
    ∃ c' h, n.core.onPropose env ((n.pm.batches[j]?).getD []) n.core.getParents [] =
        .ok (false, c') ∧
      n.step env (.fixed id) .run = some (afterProposal n c' h) ∧
      LeaderOk env keys id key voteDisabled (afterProposal n c' h) h (m :: older) := by
  have hrep := replicaOk_of_reachable hok.replica.of_restrict
  obtain ⟨hid, hconfig⟩ := hok.settings
  obtain ⟨hdue, hhandle⟩ := hok.phase.due_of_handle hagenda
  obtain ⟨hj, hrest⟩ := List.cons.inj (hagenda.symm.trans hhandle)
  obtain rfl : j = older.length := Task.handle.inj hj
  obtain ⟨cmds, hget⟩ : ∃ cmds, n.pm.batches[older.length]? = some cmds :=
    ⟨_, List.getElem?_eq_getElem hdue.more⟩
  rw [hget, Option.getD_some] at hown ⊢
  have hn : n.core.config.nreplicas = keys.length := by
    rw [hconfig]
    exact nreplicas_addReplicas.trans (Nat.zero_add _)
  obtain ⟨c', hres, hext⟩ := hok.line.propose hrep.tree hrep.certs
    (commitOk_of_reachable hok.replica.of_restrict) (pacedOk_of_reachable hok.replica).tails
    hok.level (by rw [hconfig]; exact nmajority_pos (by omega)) (by rw [hn, hid]; exact hkeys)
    (by rw [hn]; exact hsize) hdue.complete hdue.qcWaiting hown
  generalize hh : env.getHash (n.core.newData cmds n.core.getParents []) = h at hext
  have hparents : ∀ p ∈ n.core.getParents, (n.core.blk p).delivered = true := by
    intro p hp
    rw [HotStuffCore.getParents, (hok.line.heads hrep.tree hdue.complete).2.1,
      List.mem_singleton] at hp
    rw [hp]
    exact hok.line.delivered hrep.tree List.mem_cons_self
  have hcall : n.replica.step env (.propose cmds n.core.getParents []) =
      some (Replica.announce c' h []) := by
    have hres' : n.replica.core.onPropose env cmds n.core.getParents [] = .ok (false, c') := hres
    have hall : n.core.getParents.all (fun p => (n.replica.core.blk p).delivered) = true :=
      List.all_eq_true.mpr hparents
    simp only [Replica.step, hall, hres', if_true, hdue.stack]
    rw [← hh]
    rfl
  have hstored : (n.replica.core.storage n.replica.core.hqc.2.objHash).isSome := by
    rw [hrep.certs.hqc_hash]
    exact hrep.certs.hqc_stored
  have hspec := onPropose_spec env cmds [] hparents hstored
  rw [hres] at hspec
  have hreach : Reachable ((machine env (HotStuffCore.startConfig keys) id key
      voteDisabled).restrict (Paced env)) (Replica.announce c' h []) :=
    .step hok.replica ⟨(show Paced env n.replica (.propose cmds n.core.getParents []) from
      ⟨rfl, hown.2⟩), hcall⟩
  have hlevel : LevelOk (c'.announce h) := by
    have hlevel := hok.level.returns (r := n.replica) hrep.tree hrep.certs
      (.propose hparents hres)
    rw [show env.getHash (n.replica.core.newData cmds n.core.getParents []) = h from hh] at hlevel
    exact hlevel
  refine ⟨c', h, hres, run_handle hok.steady hid hhandle hget hcall, hreach, hlevel,
    ⟨hok.steady.halted, hok.steady.rejected, hok.steady.unregistered⟩, hext.line, ?_,
    carried_cons (hok.carried_of_grows hext.grows) hget hext.cmds, fun b hb => ?_,
    .announced (hdue.announced hhandle hext.qcWaiting (fun hdone => ?_))⟩
  · show (h :: proposed c') ++ [env.genesisHash] = h :: m :: older
    rw [proposed_of_proposes hspec.1, List.cons_append, hok.made]
  · rw [List.dropLast_cons_cons, List.mem_cons] at hb
    rcases hb with rfl | hb
    · exact congrArg List.length hext.parents
    · exact hok.single_of_grows hext.grows b hb
  · have hkept : (c'.announce h).config = n.core.config :=
      (invariant_of_effects (I := fun c => c.config = HotStuffCore.startConfig keys)
        hreach.of_restrict rfl
        (fun c _ _ _ hc _ => (config_apply env c).trans hc)).trans hconfig.symm
    rw [← hkept]
    exact hext.complete hdone

theorem LeaderOk.start (env : Env K) (key : K.PrivKey) (voteDisabled : Bool)
    (hkeys : id.val < keys.length) :
    LeaderOk env keys id key voteDisabled
      (.start env (.fixed id) (HotStuffCore.startConfig keys) id key voteDisabled)
      env.genesisHash [] := by
  have hid : id ∈ (HotStuffCore.startConfig keys).replicaMap := by
    have hlookup : (HotStuffCore.startConfig keys).replicaMap.lookup id = some keys[id.val] :=
      lookup_addReplicas (AList.notMem_empty id) (Nat.zero_le _) (List.getElem?_eq_getElem hkeys)
    exact AList.lookup_isSome.mp (by rw [hlookup]; rfl)
  exact ⟨.init rfl, .start _ _ _ _ _, ⟨rfl, rfl, rfl⟩, Line.genesis env key voteDisabled hid, rfl,
    rfl, by simp, .atRest ⟨rfl, rfl, rfl, rfl, rfl, rfl, rfl, by simp [Node.start, PaceMaker.start,
      PaceMaker.fresh], .inl ⟨rfl, rfl, rfl⟩⟩⟩

end nodes

end ArchipelagoHotStuff.Liveness.Phases
