/- Module: ArchipelagoHotStuff/Base/Proposals
   source: hotstuff.cpp (the cmd_pending handler in start, exec_single_command, do_decide),
     consensus.cpp (update), liveness.h (stop_rotate)
   digest: How often a command that waits for its decision is proposed and executed. -/

import ArchipelagoHotStuff.Base.Commands
import ArchipelagoHotStuff.Consensus.Handlers

set_option autoImplicit false
set_option relaxedAutoImplicit false

namespace ArchipelagoHotStuff.Base.Proposals

open Crypto.Wire Consensus.State General.Transition Commands

universe u

variable {γ : Type u}

/-- A replica together with the blocks it has proposed that are not committed yet, and with the
commands that blocks of other replicas have decided while nobody waited for them here. -/
structure Proposer (γ : Type u) extends HotStuffBase γ where
  outstanding : List (List Uint256)
  unawaited : List Uint256

/-- What can happen: a submission, a round of the handler, a call of `exec_single_command`, a beat,
the call that `stop_rotate` leaves behind, the commit of an outstanding block, the decision of a
command in a block of another replica. -/
inductive Input (γ : Type u)
  | submit (cmdHash : Uint256) (callback : γ)
  | process (proposer : ReplicaID)
  | single (cmdHash : Uint256) (callback : γ) (proposer : ReplicaID)
  | beat (idx : Nat) (proposer : ReplicaID)
  | repropose (cmds : List Uint256)
  | commit (idx : Nat) (height : Nat) (blkHash : Uint256)
  | decide (fin : Finality)

/-- What `update` hands to `do_decide` for a block. -/
def blockFinalities (rid : ReplicaID) (cmds : List Uint256) (height : Nat) (blkHash : Uint256) :
    List Finality :=
  cmds.mapIdx (fun i cmd =>
    { rid, decision := 1, cmdIdx := i, cmdHeight := height, cmdHash := cmd, blkHash })

theorem finalities_eq {K : Crypto.Certificates.Secp256k1} (c : HotStuffCore K) (h : Uint256) :
    c.finalities h =
      (blockFinalities c.id (c.blk h).data.cmds (c.blk h).height h).map .decide := by
  unfold HotStuffCore.finalities blockFinalities
  rw [List.mapIdx_eq_zipIdx_map, List.mapIdx_eq_zipIdx_map, List.map_map]
  rfl

namespace Proposer

variable (s : Proposer γ)

def step : Input γ → Option (Proposer γ)
  | .submit cmdHash callback =>
      some { s with toHotStuffBase := s.execCommand cmdHash callback }
  | .process proposer => (s.process proposer).map (fun c => { s with toHotStuffBase := c })
  | .single cmdHash callback proposer =>
      some { s with toHotStuffBase := s.execSingleCommand proposer cmdHash callback }
  -- A pacemaker that rotates may resolve beats out of order; one that it gives up drops its
  -- commands, as if another replica were the proposer.
  | .beat idx proposer =>
      (s.beats[idx]?).map (fun cmds => { s with
        beats := s.beats.eraseIdx idx
        outstanding := s.outstanding ++ (if proposer = s.id then [cmds] else []) })
  | .repropose cmds =>
      some { s with outstanding := s.outstanding ++ (if cmds.isEmpty then [] else [cmds]) }
  | .commit idx height blkHash =>
      (s.outstanding[idx]?).map (fun cmds => { s with
        toHotStuffBase :=
          (blockFinalities s.id cmds height blkHash).foldl HotStuffBase.doDecide s.toHotStuffBase
        outstanding := s.outstanding.eraseIdx idx })
  | .decide fin =>
      some { s with
        toHotStuffBase := s.doDecide fin
        unawaited :=
          if s.decisionWaiting fin.cmdHash = none then fin.cmdHash :: s.unawaited
          else s.unawaited }

/-- The commands that are on their way: in the buffer, in blocks that wait for their beat, in
blocks proposed and not committed. -/
def commands : List Uint256 :=
  s.cmdPendingBuffer ++ s.beats.flatten ++ s.outstanding.flatten

def copies (h : Uint256) : Nat := s.commands.count h

/-- Whether a command is in `decision_waiting`, as a number. -/
def waits (h : Uint256) : Nat := if s.decisionWaiting h = none then 0 else 1

def start (γ : Type u) (id : ReplicaID) (blkSize : Nat) : Proposer γ :=
  { HotStuffBase.start id blkSize with outstanding := [], unawaited := [] }

end Proposer

/-- The commands that are proposed again are those of `decision_waiting`, in any order. -/
def Enumerates (s : Proposer γ) : Input γ → Prop
  | .repropose cmds => cmds.Nodup ∧ ∀ h, h ∈ cmds ↔ s.decisionWaiting h ≠ none
  | .submit _ _ | .process _ | .single _ _ _ | .beat _ _ | .commit _ _ _ | .decide _ => True

def proposer (γ : Type u) (id : ReplicaID) (blkSize : Nat) : System (Proposer γ) (Input γ) where
  init s := s = .start γ id blkSize
  step s i s' := Enumerates s i ∧ s.step i = some s'

/-- How often a command has been executed. -/
def executions (h : Uint256) : List (Outcome γ) → Nat
  | [] => 0
  | .execute fin :: log => executions h log + if fin.cmdHash = h then 1 else 0
  | .take _ _ :: log | .call _ _ :: log => executions h log

/-- How often a submission of a command has been taken and not been answered as a duplicate. -/
def accepted (h : Uint256) : List (Outcome γ) → Nat
  | [] => 0
  | .take k _ :: log => accepted h log + if k = h ∧ waitingOf h log = none then 1 else 0
  | .execute _ :: log | .call _ _ :: log => accepted h log

/-- While the replica is the proposer, no command is taken that waits for its decision already;
what is proposed again, or decided by another replica's block, is not on its way. -/
def Fresh (s : Proposer γ) : Input γ → Prop
  | .process proposer => proposer = s.id → ∀ e, s.cmdPending.head? = some e →
      s.decisionWaiting e.1 = none
  | .single cmdHash _ proposer => proposer = s.id → s.decisionWaiting cmdHash = none
  | .repropose cmds => ∀ h ∈ cmds, h ∉ s.commands
  | .decide fin => fin.cmdHash ∉ s.commands
  | .submit _ _ | .beat _ _ | .commit _ _ _ => True

/-- The step answers a submission of a command as a duplicate. -/
def Answers (s : Proposer γ) (i : Input γ) (h : Uint256) : Prop :=
  s.decisionWaiting h ≠ none ∧
    match i with
    | .process _ => s.cmdPending.head?.map Prod.fst = some h
    | .single cmdHash _ _ => cmdHash = h
    | .submit _ _ | .beat _ _ | .repropose _ | .commit _ _ _ | .decide _ => False

/-- A command is on its way at most once, and only while it waits for its decision.  It has been
executed as often as it has been accepted, but for the time that is still due; and whenever it was
decided while nobody waited for it. -/
structure CopiesOk (s : Proposer γ) : Prop where
  log : LogOk s.toHotStuffBase
  once : ∀ h, s.copies h ≤ s.waits h
  balance : ∀ h, executions h s.outcomes + s.waits h =
    accepted h s.outcomes + s.unawaited.count h

section step

variable {s s' : Proposer γ} {c c' : HotStuffBase γ} {h : Uint256} {i : Input γ}

theorem cmdHash_blockFinalities (rid : ReplicaID) (cmds : List Uint256) (height : Nat)
    (blkHash : Uint256) :
    (blockFinalities rid cmds height blkHash).map Finality.cmdHash = cmds := by
  unfold blockFinalities
  rw [List.mapIdx_eq_zipIdx_map, List.map_map]
  exact List.zipIdx_map_fst 0 cmds

/-! One decision. -/

@[simp] theorem buffer_doDecide (fin : Finality) :
    (c.doDecide fin).cmdPendingBuffer = c.cmdPendingBuffer := by
  unfold HotStuffBase.doDecide
  dsimp only
  split <;> rfl

@[simp] theorem beats_doDecide (fin : Finality) : (c.doDecide fin).beats = c.beats := by
  unfold HotStuffBase.doDecide
  dsimp only
  split <;> rfl

theorem waiting_doDecide (fin : Finality) :
    (c.doDecide fin).decisionWaiting h =
      if fin.cmdHash = h then none else c.decisionWaiting h := by
  obtain ⟨_, _, ⟨hnone, hwaiting, _⟩ | ⟨_, _, hwaiting, _⟩⟩ := doDecide_spec c fin
  · rw [hwaiting]
    by_cases hk : fin.cmdHash = h
    · rw [if_pos hk, ← hk]
      exact hnone
    · exact (if_neg hk).symm
  · rw [hwaiting]
    by_cases hk : fin.cmdHash = h
    · rw [if_pos hk, ← hk, Function.update_self]
    · rw [if_neg hk, Function.update_of_ne (fun heq => hk heq.symm)]

theorem executions_doDecide (fin : Finality) :
    executions h (c.doDecide fin).outcomes =
      executions h c.outcomes + if fin.cmdHash = h then 1 else 0 := by
  obtain ⟨_, _, ⟨_, _, hlog⟩ | ⟨_, _, _, hlog⟩⟩ := doDecide_spec c fin <;> rw [hlog] <;> rfl

theorem accepted_doDecide (fin : Finality) :
    accepted h (c.doDecide fin).outcomes = accepted h c.outcomes := by
  obtain ⟨_, _, ⟨_, _, hlog⟩ | ⟨_, _, _, hlog⟩⟩ := doDecide_spec c fin <;> rw [hlog] <;> rfl

/-! The decisions of a block. -/

private theorem foldl_doDecide (fins : List Finality) (c : HotStuffBase γ) :
    (fins.foldl HotStuffBase.doDecide c).cmdPendingBuffer = c.cmdPendingBuffer ∧
      (fins.foldl HotStuffBase.doDecide c).beats = c.beats ∧
      (∀ h, (fins.foldl HotStuffBase.doDecide c).decisionWaiting h =
        if h ∈ fins.map Finality.cmdHash then none else c.decisionWaiting h) ∧
      (∀ h, executions h (fins.foldl HotStuffBase.doDecide c).outcomes =
        executions h c.outcomes + (fins.map Finality.cmdHash).count h) ∧
      ∀ h, accepted h (fins.foldl HotStuffBase.doDecide c).outcomes = accepted h c.outcomes := by
  induction fins generalizing c with
  | nil => exact ⟨rfl, rfl, fun _ => rfl, fun _ => rfl, fun _ => rfl⟩
  | cons fin fins ih =>
      obtain ⟨hbuffer, hbeats, hwaiting, hexec, hacc⟩ := ih (c.doDecide fin)
      refine ⟨hbuffer.trans (buffer_doDecide fin), hbeats.trans (beats_doDecide fin),
        fun h => ?_, fun h => ?_, fun h => (hacc h).trans (accepted_doDecide fin)⟩
      · rw [List.foldl_cons, hwaiting, waiting_doDecide, List.map_cons]
        by_cases hrest : h ∈ fins.map Finality.cmdHash
        · rw [if_pos hrest, if_pos (List.mem_cons_of_mem _ hrest)]
        · rw [if_neg hrest]
          by_cases hk : fin.cmdHash = h
          · rw [if_pos hk, if_pos (hk ▸ List.mem_cons_self)]
          · rw [if_neg hk, if_neg]
            exact fun hmem => (List.mem_cons.mp hmem).elim (fun heq => hk heq.symm) hrest
      · rw [List.foldl_cons, hexec, executions_doDecide, List.map_cons, List.count_cons]
        simp only [beq_iff_eq]
        omega

private theorem logOk_foldl (fins : List Finality) (hok : LogOk c) :
    LogOk (fins.foldl HotStuffBase.doDecide c) := by
  induction fins generalizing c with
  | nil => exact hok
  | cons fin fins ih => exact ih (hok.doDecide fin)

/-! One round of the handler. -/

private theorem count_cutBlock (c : HotStuffBase γ) :
    (c.cutBlock.cmdPendingBuffer ++ c.cutBlock.beats.flatten).count h =
      (c.cmdPendingBuffer ++ c.beats.flatten).count h := by
  unfold HotStuffBase.cutBlock
  split
  · have hsplit := congrArg (List.count h) (List.take_append_drop c.blkSize c.cmdPendingBuffer)
    rw [List.count_append] at hsplit
    simp only [List.count_append, List.flatten_append, List.flatten_singleton]
    omega
  · rfl

private theorem count_process {proposer : ReplicaID} {k : Uint256} {cb : γ}
    {rest : List (Uint256 × γ)} (hstep : c.process proposer = some c')
    (hqueue : c.cmdPending = (k, cb) :: rest) (h : Uint256) :
    (c'.cmdPendingBuffer ++ c'.beats.flatten).count h =
      (c.cmdPendingBuffer ++ c.beats.flatten).count h +
        if proposer = c.id ∧ k = h then 1 else 0 := by
  unfold HotStuffBase.process at hstep
  rw [hqueue] at hstep
  dsimp only at hstep
  obtain ⟨_, hid, hbuffer, hbeats, _⟩ :=
    await_spec { c with cmdPending := rest, outcomes := .take k cb :: c.outcomes } k cb
  generalize ({ c with
    cmdPending := rest
    outcomes := .take k cb :: c.outcomes } : HotStuffBase γ).await k cb = base
      at hstep hid hbuffer hbeats
  split at hstep
  · rename_i hother
    cases hstep
    rw [hbuffer, hbeats, if_neg (fun hand => hother (hand.1.trans hid.symm))]
    rfl
  · rename_i hown
    cases hstep
    rw [count_cutBlock]
    show ((base.cmdPendingBuffer ++ [k]) ++ base.beats.flatten).count h = _
    have hproposer : proposer = c.id := (not_not.mp hown).trans hid
    rw [hbuffer, hbeats]
    simp only [List.count_append, List.count_singleton, beq_iff_eq, hproposer, true_and]
    omega

private theorem count_execSingleCommand (proposer : ReplicaID) (k : Uint256) (cb : γ)
    (h : Uint256) :
    ((c.execSingleCommand proposer k cb).cmdPendingBuffer ++
        (c.execSingleCommand proposer k cb).beats.flatten).count h =
      (c.cmdPendingBuffer ++ c.beats.flatten).count h +
        if proposer = c.id ∧ k = h then 1 else 0 := by
  obtain ⟨_, hid, hbuffer, hbeats, _⟩ :=
    await_spec { c with outcomes := .take k cb :: c.outcomes } k cb
  unfold HotStuffBase.execSingleCommand
  dsimp only
  split
  · rename_i hother
    rw [hbuffer, hbeats, if_neg (fun hand => hother (hand.1.trans hid.symm))]
    rfl
  · rename_i hown
    have hproposer : proposer = c.id := (not_not.mp hown).trans hid
    show (_ ++ (_ ++ [[k]]).flatten).count h = _
    rw [hbuffer, hbeats]
    simp only [List.count_append, List.flatten_append, List.flatten_singleton,
      List.count_singleton, beq_iff_eq, hproposer, true_and]
    omega

/-- A submission of `k` has been taken, while `proposer` was the proposer. -/
private structure Taken (c c' : HotStuffBase γ) (proposer : ReplicaID) (k : Uint256) : Prop where
  log : LogOk c'
  executions : ∀ h, executions h c'.outcomes = executions h c.outcomes
  accepted : ∀ h, accepted h c'.outcomes = accepted h c.outcomes +
    if k = h ∧ c.decisionWaiting h = none then 1 else 0
  waiting : ∀ h, c'.decisionWaiting h = none ↔ k ≠ h ∧ c.decisionWaiting h = none
  count : ∀ h, (c'.cmdPendingBuffer ++ c'.beats.flatten).count h =
    (c.cmdPendingBuffer ++ c.beats.flatten).count h + if proposer = c.id ∧ k = h then 1 else 0

private theorem taken_of_cases {proposer : ReplicaID} {k : Uint256} {cb : γ} (hok : LogOk c)
    (hid : c'.id = c.id)
    (hcases : (c.decisionWaiting k = none ∧
        c'.decisionWaiting = Function.update c.decisionWaiting k (some cb) ∧
        c'.outcomes = .take k cb :: c.outcomes) ∨
      c.decisionWaiting k ≠ none ∧ c'.decisionWaiting = c.decisionWaiting ∧
        c'.outcomes = .call cb (duplicate c.id k) :: .take k cb :: c.outcomes)
    (hcount : ∀ h, (c'.cmdPendingBuffer ++ c'.beats.flatten).count h =
      (c.cmdPendingBuffer ++ c.beats.flatten).count h +
        if proposer = c.id ∧ k = h then 1 else 0) : Taken c c' proposer k := by
  refine ⟨hok.taken hid hcases, fun h => ?_, fun h => ?_, fun h => ?_, hcount⟩
  · rcases hcases with ⟨_, _, hlog⟩ | ⟨_, _, hlog⟩ <;> rw [hlog] <;> rfl
  · rw [hok.waiting]
    rcases hcases with ⟨_, _, hlog⟩ | ⟨_, _, hlog⟩ <;> rw [hlog] <;> rfl
  · rcases hcases with ⟨_, hwaiting, _⟩ | ⟨hsome, hwaiting, _⟩
    · rw [hwaiting]
      by_cases hk : k = h
      · rw [hk, Function.update_self]
        simp
      · rw [Function.update_of_ne (Ne.symm hk)]
        exact ⟨fun hnone => ⟨hk, hnone⟩, And.right⟩
    · rw [hwaiting]
      refine ⟨fun hnone => ⟨?_, hnone⟩, And.right⟩
      rintro rfl
      exact hsome hnone

/-! The steps keep the copies in order. -/

private theorem mem_commands : h ∈ s.commands ↔ 0 < s.copies h :=
  List.count_pos_iff.symm

private theorem copies_eq : s.copies h =
    (s.cmdPendingBuffer ++ s.beats.flatten).count h + s.outstanding.flatten.count h :=
  List.count_append

private theorem waits_le : s.waits h ≤ 1 := by
  unfold Proposer.waits
  split
  · exact Nat.zero_le 1
  · exact le_rfl

private theorem waits_eq_zero : s.waits h = 0 ↔ s.decisionWaiting h = none := by
  unfold Proposer.waits
  split
  · rename_i hnone
    exact iff_of_true rfl hnone
  · rename_i hsome
    exact iff_of_false Nat.one_ne_zero hsome

private theorem count_eraseIdx {blks : List (List Uint256)} {idx : Nat} {cmds : List Uint256}
    (hget : blks[idx]? = some cmds) :
    (blks.eraseIdx idx).flatten.count h + cmds.count h = blks.flatten.count h := by
  induction blks generalizing idx with
  | nil => cases hget
  | cons blk blks ih =>
      cases idx with
      | zero =>
          obtain rfl : blk = cmds := Option.some.inj hget
          simp only [List.eraseIdx_cons_zero, List.flatten_cons, List.count_append]
          omega
      | succ idx =>
          have hrest := ih hget
          simp only [List.eraseIdx_cons_succ, List.flatten_cons, List.count_append]
          omega

private theorem CopiesOk.of_le (hok : CopiesOk s) (hlog : LogOk s'.toHotStuffBase)
    (houtcomes : s'.outcomes = s.outcomes) (hwaiting : s'.decisionWaiting = s.decisionWaiting)
    (hunawaited : s'.unawaited = s.unawaited) (hle : ∀ h, s'.copies h ≤ s.copies h) :
    CopiesOk s' := by
  have hwaits : ∀ h, s'.waits h = s.waits h := by
    intro h
    unfold Proposer.waits
    rw [hwaiting]
  refine ⟨hlog, fun h => ?_, fun h => ?_⟩
  · rw [hwaits]
    exact (hle h).trans (hok.once h)
  · rw [hwaits, houtcomes, hunawaited]
    exact hok.balance h

private theorem copies_taken {proposer : ReplicaID} {k : Uint256}
    (htaken : Taken s.toHotStuffBase c proposer k) (h : Uint256) :
    ({ s with toHotStuffBase := c } : Proposer γ).copies h =
      s.copies h + if proposer = s.id ∧ k = h then 1 else 0 := by
  have hnew := htaken.count h
  rw [copies_eq, copies_eq]
  show (c.cmdPendingBuffer ++ c.beats.flatten).count h + s.outstanding.flatten.count h = _
  omega

private theorem CopiesOk.taken {proposer : ReplicaID} {k : Uint256} (hok : CopiesOk s)
    (htaken : Taken s.toHotStuffBase c proposer k)
    (hfresh : proposer = s.id → s.decisionWaiting k = none) :
    CopiesOk { s with toHotStuffBase := c } := by
  have hwaits : ∀ h, ({ s with toHotStuffBase := c } : Proposer γ).waits h =
      if k = h then 1 else s.waits h := by
    intro h
    unfold Proposer.waits
    simp only [htaken.waiting]
    by_cases hk : k = h
    · rw [if_neg (fun hand => hand.1 hk), if_pos hk]
    · rw [if_neg hk]
      simp only [ne_eq, hk, not_false_eq_true, true_and]
  refine ⟨htaken.log, fun h => ?_, fun h => ?_⟩
  · rw [copies_taken htaken, hwaits]
    have honce := hok.once h
    by_cases hk : k = h
    · subst hk
      rw [if_pos rfl]
      by_cases hown : proposer = s.id
      · -- A command that is put on its way has not been on it.
        have hzero := waits_eq_zero.mpr (hfresh hown)
        rw [if_pos ⟨hown, rfl⟩]
        omega
      · have hle := waits_le (s := s) (h := k)
        rw [if_neg (fun hand => hown hand.1)]
        omega
    · rw [if_neg hk, if_neg (fun hand => hk hand.2)]
      exact honce
  · show executions h c.outcomes + _ = accepted h c.outcomes + s.unawaited.count h
    rw [htaken.executions, htaken.accepted, hwaits]
    have hbalance := hok.balance h
    by_cases hk : k = h
    · rw [if_pos hk]
      by_cases hnone : s.decisionWaiting h = none
      · have hzero := waits_eq_zero.mpr hnone
        rw [if_pos ⟨hk, hnone⟩]
        omega
      · have hone : s.waits h = 1 := if_neg hnone
        rw [if_neg (fun hand => hnone hand.2)]
        omega
    · rw [if_neg hk, if_neg (fun hand => hk hand.1)]
      exact hbalance

private theorem CopiesOk.decided {cmds : List Uint256} {fins : List Finality} (hok : CopiesOk s)
    (hcmds : fins.map Finality.cmdHash = cmds) (hnodup : cmds.Nodup)
    (hdecided : s'.toHotStuffBase = fins.foldl HotStuffBase.doDecide s.toHotStuffBase)
    (hcopies : ∀ h, s'.copies h ≤ if h ∈ cmds then 0 else s.copies h)
    (hunawaited : ∀ h, s'.unawaited.count h =
      s.unawaited.count h + if h ∈ cmds ∧ s.decisionWaiting h = none then 1 else 0) :
    CopiesOk s' := by
  obtain ⟨_, _, hwaiting, hexec, hacc⟩ := foldl_doDecide fins s.toHotStuffBase
  rw [← hdecided, hcmds] at hwaiting hexec
  rw [← hdecided] at hacc
  have hwaits : ∀ h, s'.waits h = if h ∈ cmds then 0 else s.waits h := by
    intro h
    unfold Proposer.waits
    rw [hwaiting]
    by_cases hmem : h ∈ cmds
    · rw [if_pos hmem, if_pos hmem]
      rfl
    · rw [if_neg hmem, if_neg hmem]
  refine ⟨?_, fun h => ?_, fun h => ?_⟩
  · rw [hdecided]
    exact logOk_foldl fins hok.log
  · rw [hwaits]
    refine (hcopies h).trans ?_
    split
    · exact le_rfl
    · exact hok.once h
  · rw [hwaits, hexec, hacc, hunawaited]
    have hbalance := hok.balance h
    by_cases hmem : h ∈ cmds
    · rw [if_pos hmem, List.count_eq_one_of_mem hnodup hmem]
      by_cases hnone : s.decisionWaiting h = none
      · have hzero := waits_eq_zero.mpr hnone
        rw [if_pos ⟨hmem, hnone⟩]
        omega
      · have hone : s.waits h = 1 := if_neg hnone
        rw [if_neg (fun hand => hnone hand.2)]
        omega
    · rw [if_neg hmem, List.count_eq_zero_of_not_mem hmem, if_neg (fun hand => hmem hand.1)]
      exact hbalance

/-- The commands of an outstanding block wait, and have no copy outside it. -/
private theorem CopiesOk.commit {idx height : Nat} {blkHash : Uint256} (hok : CopiesOk s)
    (hstep : s.step (.commit idx height blkHash) = some s') : CopiesOk s' := by
  obtain ⟨cmds, hget, rfl⟩ := Option.map_eq_some_iff.mp hstep
  obtain ⟨hbuffer, hbeats, _⟩ :=
    foldl_doDecide (blockFinalities s.id cmds height blkHash) s.toHotStuffBase
  dsimp only
  generalize hc : (blockFinalities s.id cmds height blkHash).foldl HotStuffBase.doDecide
    s.toHotStuffBase = c at hbuffer hbeats ⊢
  have hcopies : ∀ h, ({ s with
      toHotStuffBase := c
      outstanding := s.outstanding.eraseIdx idx } : Proposer γ).copies h + cmds.count h =
        s.copies h := by
    intro h
    rw [copies_eq, copies_eq, ← count_eraseIdx hget]
    show (c.cmdPendingBuffer ++ c.beats.flatten).count h + _ + _ = _
    rw [hbuffer, hbeats]
    exact Nat.add_assoc _ _ _
  have hone : ∀ h, s.copies h ≤ 1 := fun h => (hok.once h).trans waits_le
  have hnodup : cmds.Nodup := by
    rw [List.nodup_iff_count_le_one]
    intro h
    have hle := hone h
    have hsum := hcopies h
    omega
  refine hok.decided (cmdHash_blockFinalities s.id cmds height blkHash) hnodup hc.symm
    (fun h => ?_) (fun h => ?_)
  · have hle := hone h
    have hsum := hcopies h
    by_cases hmem : h ∈ cmds
    · have hpos := List.count_pos_iff.mpr hmem
      rw [if_pos hmem]
      omega
    · rw [if_neg hmem]
      omega
  · rw [if_neg]
    · rfl
    · rintro ⟨hmem, hnone⟩
      have hpos := List.count_pos_iff.mpr hmem
      have hsum := hcopies h
      have honce := hok.once h
      rw [waits_eq_zero.mpr hnone] at honce
      omega

private theorem CopiesOk.decide {fin : Finality} (hok : CopiesOk s)
    (hfresh : fin.cmdHash ∉ s.commands) (hstep : s.step (.decide fin) = some s') :
    CopiesOk s' := by
  cases hstep
  have hcmds : [fin].map Finality.cmdHash = [fin.cmdHash] := rfl
  refine hok.decided hcmds (List.nodup_singleton _) rfl (fun h => ?_) (fun h => ?_)
  · have hcopies : ∀ c : HotStuffBase γ, c.cmdPendingBuffer = s.cmdPendingBuffer →
        c.beats = s.beats → ∀ l, (⟨c, s.outstanding, l⟩ : Proposer γ).copies h = s.copies h := by
      intro c hbuffer hbeats l
      rw [copies_eq, copies_eq]
      show (c.cmdPendingBuffer ++ c.beats.flatten).count h + _ = _
      rw [hbuffer, hbeats]
    rw [hcopies _ (buffer_doDecide fin) (beats_doDecide fin)]
    by_cases hmem : h ∈ [fin.cmdHash]
    · obtain rfl := List.mem_singleton.mp hmem
      rw [if_pos hmem]
      exact (List.count_eq_zero_of_not_mem hfresh).le
    · rw [if_neg hmem]
  · dsimp only
    by_cases hnone : s.decisionWaiting fin.cmdHash = none
    · rw [if_pos hnone]
      by_cases hk : fin.cmdHash = h
      · subst hk
        rw [if_pos ⟨List.mem_cons_self, hnone⟩, List.count_cons_self]
      · rw [if_neg (fun hand => hk (List.mem_singleton.mp hand.1).symm), List.count_cons_of_ne hk]
        rfl
    · rw [if_neg hnone, if_neg]
      · rfl
      · rintro ⟨hmem, hnone'⟩
        exact hnone (List.mem_singleton.mp hmem ▸ hnone')

private theorem copies_repropose {cmds : List Uint256} (hstep : s.step (.repropose cmds) = some s')
    (h : Uint256) : s'.copies h = s.copies h + cmds.count h := by
  cases hstep
  rw [copies_eq, copies_eq]
  cases cmds with
  | nil => simp
  | cons k cmds =>
      simp only [List.isEmpty_cons, Bool.false_eq_true, if_false, List.flatten_append,
        List.flatten_singleton, List.count_append]
      omega

private theorem CopiesOk.repropose {cmds : List Uint256} (hok : CopiesOk s)
    (hall : Enumerates s (.repropose cmds)) (hfresh : Fresh s (.repropose cmds))
    (hstep : s.step (.repropose cmds) = some s') : CopiesOk s' := by
  have hcopies := copies_repropose hstep
  cases hstep
  refine ⟨⟨hok.log.waiting, hok.log.calls⟩, fun h => ?_, hok.balance⟩
  rw [hcopies]
  show _ ≤ s.waits h
  by_cases hmem : h ∈ cmds
  · have hzero : s.copies h = 0 := List.count_eq_zero_of_not_mem (hfresh h hmem)
    have hone : s.waits h = 1 := if_neg ((hall.2 h).mp hmem)
    rw [hzero, hone, List.count_eq_one_of_mem hall.1 hmem]
  · rw [List.count_eq_zero_of_not_mem hmem]
    exact hok.once h

private theorem CopiesOk.beat {idx : Nat} {proposer : ReplicaID} (hok : CopiesOk s)
    (hstep : s.step (.beat idx proposer) = some s') : CopiesOk s' := by
  obtain ⟨cmds, hget, rfl⟩ := Option.map_eq_some_iff.mp hstep
  refine hok.of_le ⟨hok.log.waiting, hok.log.calls⟩ rfl rfl rfl (fun h => ?_)
  have hbeats := count_eraseIdx (h := h) hget
  rw [copies_eq, copies_eq, List.count_append, List.count_append]
  dsimp only
  rw [List.flatten_append, List.count_append]
  split
  · rw [List.flatten_singleton]
    omega
  · rw [List.flatten_nil, List.count_nil]
    omega

private theorem taken_process {proposer : ReplicaID} (hok : CopiesOk s)
    (hstep : s.process proposer = some c) :
    ∃ k cb, s.cmdPending.head? = some (k, cb) ∧ Taken s.toHotStuffBase c proposer k := by
  obtain ⟨k, cb, rest, hqueue, _, hid, hcases⟩ := process_spec hstep
  refine ⟨k, cb, ?_, taken_of_cases hok.log hid hcases (count_process hstep hqueue)⟩
  rw [hqueue]
  rfl

private theorem taken_single (hok : CopiesOk s) (proposer : ReplicaID) (k : Uint256) (cb : γ) :
    Taken s.toHotStuffBase (s.execSingleCommand proposer k cb) proposer k := by
  obtain ⟨hid, hcases⟩ := execSingleCommand_spec s.toHotStuffBase proposer k cb
  exact taken_of_cases hok.log hid hcases (count_execSingleCommand proposer k cb)

private theorem CopiesOk.step (hok : CopiesOk s) (hall : Enumerates s i) (hfresh : Fresh s i)
    (hstep : s.step i = some s') : CopiesOk s' := by
  cases i with
  | submit cmdHash callback =>
      cases hstep
      exact hok.of_le ⟨hok.log.waiting, hok.log.calls⟩ rfl rfl rfl (fun _ => le_rfl)
  | process proposer =>
      obtain ⟨c, hc, rfl⟩ := Option.map_eq_some_iff.mp hstep
      obtain ⟨k, cb, hhead, htaken⟩ := taken_process hok hc
      exact hok.taken htaken (fun hown => hfresh hown (k, cb) hhead)
  | single cmdHash callback proposer =>
      cases hstep
      exact hok.taken (taken_single hok proposer cmdHash callback) hfresh
  | beat idx proposer => exact hok.beat hstep
  | repropose cmds => exact hok.repropose hall hfresh hstep
  | commit idx height blkHash => exact hok.commit hstep
  | decide fin => exact hok.decide hfresh hstep

/-- Among submissions, those and only those that meet the condition add no copy when they are
answered as duplicates. -/
private theorem answered_iff_fresh {proposer : ReplicaID} {k : Uint256}
    (htaken : Taken s.toHotStuffBase c proposer k) :
    (s.decisionWaiting k ≠ none →
      ({ s with toHotStuffBase := c } : Proposer γ).copies k = s.copies k) ↔
      (proposer = s.id → s.decisionWaiting k = none) := by
  rw [copies_taken htaken]
  constructor
  · intro hsame hown
    by_contra hsome
    have hadded := hsame hsome
    rw [if_pos ⟨hown, rfl⟩] at hadded
    exact absurd hadded (Nat.succ_ne_self _)
  · intro hfresh hsome
    rw [if_neg (fun hand => hsome (hfresh hand.1))]
    rfl

/-- A step that breaks the condition adds a copy for a duplicate, or leaves a command that is on
its way twice or no longer waits. -/
private theorem fresh_of_kept (hok : CopiesOk s) (hall : Enumerates s i)
    (hstep : s.step i = some s')
    (hkept : ∀ h, (Answers s i h → s'.copies h = s.copies h) ∧ s'.copies h ≤ s'.waits h) :
    Fresh s i := by
  cases i with
  | submit _ _ | beat _ _ | commit _ _ _ => trivial
  | process proposer =>
      obtain ⟨c, hc, rfl⟩ := Option.map_eq_some_iff.mp hstep
      obtain ⟨k, cb, hhead, htaken⟩ := taken_process hok hc
      have hfresh := (answered_iff_fresh htaken).mp
        (fun hsome => (hkept k).1 ⟨hsome, by rw [hhead]; rfl⟩)
      intro hown e he
      rw [hhead] at he
      cases he
      exact hfresh hown
  | single cmdHash callback proposer =>
      cases hstep
      exact (answered_iff_fresh (taken_single hok proposer cmdHash callback)).mp
        (fun hsome => (hkept cmdHash).1 ⟨hsome, rfl⟩)
  | repropose cmds =>
      intro h hmem hon
      have hle := (hkept h).2
      have hpos := mem_commands.mp hon
      have hmost := waits_le (s := s') (h := h)
      rw [copies_repropose hstep, List.count_eq_one_of_mem hall.1 hmem] at hle
      omega
  | decide fin =>
      cases hstep
      intro hon
      have hle := (hkept fin.cmdHash).2
      rw [waits_eq_zero.mpr ((waiting_doDecide fin).trans (if_pos rfl)), copies_eq] at hle
      dsimp only at hle
      rw [buffer_doDecide, beats_doDecide] at hle
      have hpos := mem_commands.mp hon
      rw [copies_eq] at hpos
      omega

end step

section runs

variable {s s' : Proposer γ} {id : ReplicaID} {blkSize : Nat}

private theorem copiesOk_of_reachable (hr : Reachable ((proposer γ id blkSize).restrict Fresh) s) :
    CopiesOk s := by
  refine hr.invariant ?_ (fun _ _ _ _ hok hstep => hok.step hstep.2.1 hstep.1 hstep.2.2)
  rintro s rfl
  exact ⟨.start γ id blkSize, fun _ => Nat.zero_le _, fun _ => rfl⟩

/-- As long as the steps meet the condition, a command is on its way at most once and only while
it waits, it is executed once for each time it is accepted, and a duplicate adds no copy.  The
first step that does not meet it breaks this. -/
theorem proposed_once (hr : Reachable ((proposer γ id blkSize).restrict Fresh) s) :
    (∀ h, s.copies h ≤ s.waits h ∧ executions h s.outcomes + s.waits h =
      accepted h s.outcomes + s.unawaited.count h) ∧
    ∀ i s', (proposer γ id blkSize).step s i s' →
      ((∀ h, (Answers s i h → s'.copies h = s.copies h) ∧ s'.copies h ≤ s'.waits h) ↔
        Fresh s i) := by
  have hok := copiesOk_of_reachable hr
  refine ⟨fun h => ⟨hok.once h, hok.balance h⟩, fun i s' hstep => ?_⟩
  refine ⟨fresh_of_kept hok hstep.1 hstep.2, fun hfresh h => ⟨fun hanswers => ?_, ?_⟩⟩
  · obtain ⟨hsome, hanswers⟩ := hanswers
    cases i with
    | submit _ _ | beat _ _ | repropose _ | commit _ _ _ | decide _ => exact hanswers.elim
    | process proposer =>
        obtain ⟨c, hc, rfl⟩ := Option.map_eq_some_iff.mp hstep.2
        obtain ⟨k, cb, hhead, htaken⟩ := taken_process hok hc
        dsimp only at hanswers
        rw [hhead] at hanswers
        obtain rfl : k = h := Option.some.inj hanswers
        exact (answered_iff_fresh htaken).mpr (fun hown => hfresh hown (k, cb) hhead) hsome
    | single cmdHash callback proposer =>
        cases hstep.2
        obtain rfl : cmdHash = h := hanswers
        exact (answered_iff_fresh (taken_single hok proposer cmdHash callback)).mpr hfresh hsome
  · exact (hok.step hstep.1 hfresh hstep.2).once h

instance (s : Proposer γ) (i : Input γ) : Decidable (Fresh s i) :=
  match i with
  | .process proposer => decidable_of_iff
      (proposer = s.id → s.cmdPending.head?.all (fun e => (s.decisionWaiting e.1).isNone) = true)
      (by simp only [Fresh, Option.all_eq_true, Option.isNone_iff_eq_none])
  | .single cmdHash _ proposer =>
      inferInstanceAs (Decidable (proposer = s.id → s.decisionWaiting cmdHash = none))
  | .repropose cmds => List.decidableBAll (fun h => h ∉ s.commands) cmds
  | .decide fin => inferInstanceAs (Decidable (fin.cmdHash ∉ s.commands))
  | .submit _ _ | .beat _ _ | .commit _ _ _ => isTrue trivial

/-- Nothing is proposed again. -/
def Plain : Input γ → Prop
  | .repropose _ => False
  | .submit _ _ | .process _ | .single _ _ _ | .beat _ _ | .commit _ _ _ | .decide _ => True

instance (i : Input γ) : Decidable (Plain i) :=
  match i with
  | .repropose _ => isFalse False.elim
  | .submit _ _ | .process _ | .single _ _ _ | .beat _ _ | .commit _ _ _ | .decide _ =>
      isTrue trivial

theorem enumerates_of_plain {i : Input γ} (h : Plain i) : Enumerates s i := by
  cases i with
  | repropose _ => exact h.elim
  | submit _ _ | process _ | single _ _ _ | beat _ _ | commit _ _ _ | decide _ => trivial

/-- A command that is submitted twice while another replica is the proposer. -/
def retriedProposer : Proposer Nat :=
  (execute (guarded (fun s i => Fresh s i ∧ Plain i) Proposer.step)
    [.submit 7 0, .process 1, .submit 7 1, .process 1] (.start Nat 0 1)).get (by decide +kernel)

theorem retriedProposer_reachable :
    Reachable ((proposer Nat 0 1).restrict Fresh) retriedProposer := by
  refine Reachable.trans (.init rfl) (steps_of_execute (fun _ _ _ h => ?_) (Option.some_get _).symm)
  obtain ⟨⟨hfresh, hplain⟩, hstep⟩ := guarded_eq_some h
  exact ⟨hfresh, enumerates_of_plain hplain, hstep⟩

theorem retriedProposer_enumerates : Enumerates retriedProposer (.repropose [7]) := by
  have hlog : retriedProposer.outcomes = [.call 1 (duplicate 0 7), .take 7 1, .take 7 0] := by
    decide +kernel
  refine ⟨List.nodup_singleton _, fun h => ?_⟩
  rw [(copiesOk_of_reachable retriedProposer_reachable).log.waiting, hlog]
  simp [waitingOf, eq_comm]

/-- The replica has become the proposer and proposes the command. -/
def reproposedProposer : Proposer Nat :=
  (guarded Fresh Proposer.step retriedProposer (.repropose [7])).get (by decide +kernel)

theorem proposed_once_retried :
    (reproposedProposer.outstanding = [[7]] ∧
      reproposedProposer.copies 7 ≤ reproposedProposer.waits 7) ∧
    ∀ i s', (proposer Nat 0 1).step reproposedProposer i s' →
      ((∀ h, (Answers reproposedProposer i h → s'.copies h = reproposedProposer.copies h) ∧
        s'.copies h ≤ s'.waits h) ↔ Fresh reproposedProposer i) := by
  have hguarded : guarded Fresh Proposer.step retriedProposer (.repropose [7]) =
      some reproposedProposer := (Option.some_get _).symm
  obtain ⟨hfresh, hstep⟩ := guarded_eq_some hguarded
  have hr : Reachable ((proposer Nat 0 1).restrict Fresh) reproposedProposer :=
    .step retriedProposer_reachable ⟨hfresh, retriedProposer_enumerates, hstep⟩
  exact ⟨⟨by decide +kernel, ((proposed_once hr).1 7).1⟩, (proposed_once hr).2⟩

/-- A command that is submitted twice to the proposer before it is decided. -/
def repeatedProposer : Proposer Nat :=
  (execute (guarded (fun _ i => Plain i) Proposer.step)
    [.submit 7 0, .submit 7 1, .process 0, .process 0, .beat 0 0, .beat 0 0, .commit 0 1 1,
      .commit 0 2 2] (.start Nat 0 1)).get (by decide +kernel)

/-- The second submission is answered as a duplicate, and the command is executed twice. -/
theorem duplicate_executed : Reachable (proposer Nat 0 1) repeatedProposer ∧
    accepted 7 repeatedProposer.outcomes = 1 ∧
    .call 1 (duplicate 0 7) ∈ repeatedProposer.outcomes ∧
    executions 7 repeatedProposer.outcomes = 2 := by
  refine ⟨?_, by decide +kernel, by decide +kernel, by decide +kernel⟩
  refine Reachable.trans (.init rfl) (steps_of_execute (fun _ _ _ h => ?_) (Option.some_get _).symm)
  obtain ⟨hplain, hstep⟩ := guarded_eq_some h
  exact ⟨enumerates_of_plain hplain, hstep⟩

end runs

end ArchipelagoHotStuff.Base.Proposals
