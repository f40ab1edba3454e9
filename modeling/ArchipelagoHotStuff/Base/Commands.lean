/- Module: ArchipelagoHotStuff/Base/Commands
   source: hotstuff.cpp (exec_command, exec_single_command, do_decide, the cmd_pending handler in
     start)
   digest: Commands on their way from their submission to their decision, and when a submission is
     answered. -/

import ArchipelagoHotStuff.Consensus.State
import ArchipelagoHotStuff.General.Transition
import Mathlib.Data.List.Count

set_option autoImplicit false
set_option relaxedAutoImplicit false

namespace ArchipelagoHotStuff.Base.Commands

open Crypto.Wire Consensus.State General.Transition

universe u

variable {γ : Type u}

/-- What is done for commands: the handler takes a submission from the queue, the application
executes a command, a callback is called. -/
inductive Outcome (γ : Type u)
  | take (cmdHash : Uint256) (callback : γ)
  | execute (fin : Finality)
  | call (callback : γ) (fin : Finality)
  deriving DecidableEq

/-- The part of `HotStuffBase` that handles commands, over the callbacks `γ`.  `beats` holds the
commands of blocks that wait for `beat`, the oldest first; `outcomes` lists what has been done,
the latest first. -/
structure HotStuffBase (γ : Type u) where
  id : ReplicaID
  blkSize : Nat
  cmdPending : List (Uint256 × γ)
  decisionWaiting : Uint256 → Option γ
  cmdPendingBuffer : List Uint256
  beats : List (List Uint256)
  outcomes : List (Outcome γ)

/-- The answer to a submission of a command that waits for its decision already. -/
def duplicate (id : ReplicaID) (cmdHash : Uint256) : Finality :=
  { rid := id, decision := 0, cmdIdx := 0, cmdHeight := 0, cmdHash, blkHash := 0 }

namespace HotStuffBase

variable (c : HotStuffBase γ)

def start (id : ReplicaID) (blkSize : Nat) : HotStuffBase γ :=
  { id, blkSize, cmdPending := [], decisionWaiting := fun _ => none, cmdPendingBuffer := [],
    beats := [], outcomes := [] }

def execCommand (cmdHash : Uint256) (callback : γ) : HotStuffBase γ :=
  { c with cmdPending := c.cmdPending ++ [(cmdHash, callback)] }

def call (callback : γ) (fin : Finality) : HotStuffBase γ :=
  { c with outcomes := .call callback fin :: c.outcomes }

/-- The lookup in `decision_waiting` at the start of the loop of the handler. -/
def await (cmdHash : Uint256) (callback : γ) : HotStuffBase γ :=
  match c.decisionWaiting cmdHash with
  | none => { c with decisionWaiting := Function.update c.decisionWaiting cmdHash (some callback) }
  | some _ => c.call callback (duplicate c.id cmdHash)

/-- The end of the loop: a full block waits for its beat. -/
def cutBlock : HotStuffBase γ :=
  if c.blkSize ≤ c.cmdPendingBuffer.length then
    { c with
      cmdPendingBuffer := c.cmdPendingBuffer.drop c.blkSize
      beats := c.beats ++ [c.cmdPendingBuffer.take c.blkSize] }
  else c

/-- The `cmd_pending` handler on one element of the queue. -/
def process (proposer : ReplicaID) : Option (HotStuffBase γ) :=
  match c.cmdPending with
  | [] => none
  | (cmdHash, callback) :: cmdPending =>
      let c := { c with cmdPending, outcomes := .take cmdHash callback :: c.outcomes }
      let c := c.await cmdHash callback
      if proposer ≠ c.id then some c
      else some ({ c with cmdPendingBuffer := c.cmdPendingBuffer ++ [cmdHash] }).cutBlock

/-- `exec_single_command`, which nothing calls. -/
def execSingleCommand (proposer : ReplicaID) (cmdHash : Uint256) (callback : γ) : HotStuffBase γ :=
  let c := { c with outcomes := .take cmdHash callback :: c.outcomes }
  let c := c.await cmdHash callback
  if proposer ≠ c.id then c else { c with beats := c.beats ++ [[cmdHash]] }

/-- The oldest beat is resolved; the commands to propose if the proposer is the replica itself. -/
def beat (proposer : ReplicaID) : Option (Option (List Uint256) × HotStuffBase γ) :=
  match c.beats with
  | [] => none
  | cmds :: beats => some (if proposer = c.id then some cmds else none, { c with beats })

def doDecide (fin : Finality) : HotStuffBase γ :=
  let c := { c with outcomes := .execute fin :: c.outcomes }
  match c.decisionWaiting fin.cmdHash with
  | none => c
  | some callback =>
      { c.call callback fin with
        decisionWaiting := Function.update c.decisionWaiting fin.cmdHash none }

end HotStuffBase

/-- What can happen: a submission, the handler takes an element while `proposer` is the proposer,
a beat is resolved, a command is decided. -/
inductive Input (γ : Type u)
  | submit (cmdHash : Uint256) (callback : γ)
  | process (proposer : ReplicaID)
  | beat (proposer : ReplicaID)
  | decide (fin : Finality)

def HotStuffBase.step (c : HotStuffBase γ) : Input γ → Option (HotStuffBase γ)
  | .submit cmdHash callback => some (c.execCommand cmdHash callback)
  | .process proposer => c.process proposer
  | .beat proposer => (c.beat proposer).map Prod.snd
  | .decide fin => some (c.doDecide fin)

def machine (γ : Type u) (id : ReplicaID) (blkSize : Nat) : System (HotStuffBase γ) (Input γ) where
  init c := c = .start id blkSize
  step c i c' := c.step i = some c'

/-! What a replica has done decides who waits and who is called. -/

def waitingOf (h : Uint256) : List (Outcome γ) → Option γ
  | [] => none
  | .take k callback :: log =>
      if k = h ∧ waitingOf h log = none then some callback else waitingOf h log
  | .execute fin :: log => if fin.cmdHash = h then none else waitingOf h log
  | .call _ _ :: log => waitingOf h log

def calledFor (h : Uint256) : Outcome γ → Option (γ × Finality)
  | .call callback fin => if fin.cmdHash = h then some (callback, fin) else none
  | .take _ _ | .execute _ => none

def callsOf (h : Uint256) (log : List (Outcome γ)) : List (γ × Finality) :=
  log.filterMap (calledFor h)

/-- The calls that are due: of a submission while another one waits, and of the one that waits
when the command is executed. -/
def callsDue (id : ReplicaID) (h : Uint256) : List (Outcome γ) → List (γ × Finality)
  | [] => []
  | .take k callback :: log =>
      if k = h ∧ waitingOf h log ≠ none then (callback, duplicate id h) :: callsDue id h log
      else callsDue id h log
  | .execute fin :: log =>
      if fin.cmdHash = h then (waitingOf h log).toList.map (·, fin) ++ callsDue id h log
      else callsDue id h log
  | .call _ _ :: log => callsDue id h log

/-- The table and the calls are those that what has been done calls for. -/
structure LogOk (c : HotStuffBase γ) : Prop where
  waiting : ∀ h, c.decisionWaiting h = waitingOf h c.outcomes
  calls : ∀ h, callsOf h c.outcomes = callsDue c.id h c.outcomes

section log

variable {c c' : HotStuffBase γ} {h : Uint256} {callback : γ} {id : ReplicaID} {blkSize : Nat}
  {i : Input γ}

theorem callsOf_call {fin : Finality} {log : List (Outcome γ)} :
    callsOf h (.call callback fin :: log) =
      if fin.cmdHash = h then (callback, fin) :: callsOf h log else callsOf h log := by
  unfold callsOf
  by_cases hk : fin.cmdHash = h
  · simp [calledFor, hk]
  · simp [calledFor, hk]

/-- A submission waits, or it is answered as a duplicate; nothing else changes. -/
theorem await_spec (c : HotStuffBase γ) (k : Uint256) (cb : γ) :
    (c.await k cb).cmdPending = c.cmdPending ∧ (c.await k cb).id = c.id ∧
      (c.await k cb).cmdPendingBuffer = c.cmdPendingBuffer ∧ (c.await k cb).beats = c.beats ∧
      ((c.decisionWaiting k = none ∧
          (c.await k cb).decisionWaiting = Function.update c.decisionWaiting k (some cb) ∧
          (c.await k cb).outcomes = c.outcomes) ∨
        c.decisionWaiting k ≠ none ∧ (c.await k cb).decisionWaiting = c.decisionWaiting ∧
          (c.await k cb).outcomes = .call cb (duplicate c.id k) :: c.outcomes) := by
  unfold HotStuffBase.await
  split
  · rename_i hnone
    exact ⟨rfl, rfl, rfl, rfl, .inl ⟨hnone, rfl, rfl⟩⟩
  · rename_i waiter hsome
    refine ⟨rfl, rfl, rfl, rfl, .inr ⟨?_, rfl, rfl⟩⟩
    rw [hsome]
    nofun

@[simp] theorem id_cutBlock : c.cutBlock.id = c.id := by
  unfold HotStuffBase.cutBlock
  split <;> rfl

@[simp] theorem waiting_cutBlock : c.cutBlock.decisionWaiting = c.decisionWaiting := by
  unfold HotStuffBase.cutBlock
  split <;> rfl

@[simp] theorem pending_cutBlock : c.cutBlock.cmdPending = c.cmdPending := by
  unfold HotStuffBase.cutBlock
  split <;> rfl

@[simp] theorem outcomes_cutBlock : c.cutBlock.outcomes = c.outcomes := by
  unfold HotStuffBase.cutBlock
  split <;> rfl

/-- What the handler does with a submission: it waits, or it is answered as a duplicate. -/
theorem process_spec {proposer : ReplicaID} (hstep : c.process proposer = some c') :
    ∃ k cb rest, c.cmdPending = (k, cb) :: rest ∧ c'.cmdPending = rest ∧ c'.id = c.id ∧
      ((c.decisionWaiting k = none ∧
          c'.decisionWaiting = Function.update c.decisionWaiting k (some cb) ∧
          c'.outcomes = .take k cb :: c.outcomes) ∨
        c.decisionWaiting k ≠ none ∧ c'.decisionWaiting = c.decisionWaiting ∧
          c'.outcomes = .call cb (duplicate c.id k) :: .take k cb :: c.outcomes) := by
  unfold HotStuffBase.process at hstep
  split at hstep
  · cases hstep
  · rename_i k cb rest hqueue
    refine ⟨k, cb, rest, hqueue, ?_⟩
    dsimp only at hstep
    generalize hbase : ({ c with
      cmdPending := rest
      outcomes := .take k cb :: c.outcomes } : HotStuffBase γ) = base at hstep
    have hawait := await_spec base k cb
    subst hbase
    obtain ⟨hpending, hid, _, _, hcases⟩ := hawait
    split at hstep
    · cases hstep
      exact ⟨hpending, hid, hcases⟩
    · cases hstep
      rw [id_cutBlock, waiting_cutBlock, outcomes_cutBlock, pending_cutBlock]
      exact ⟨hpending, hid, hcases⟩

theorem execSingleCommand_spec (c : HotStuffBase γ) (proposer : ReplicaID) (k : Uint256) (cb : γ) :
    (c.execSingleCommand proposer k cb).id = c.id ∧
      ((c.decisionWaiting k = none ∧
          (c.execSingleCommand proposer k cb).decisionWaiting =
            Function.update c.decisionWaiting k (some cb) ∧
          (c.execSingleCommand proposer k cb).outcomes = .take k cb :: c.outcomes) ∨
        c.decisionWaiting k ≠ none ∧
          (c.execSingleCommand proposer k cb).decisionWaiting = c.decisionWaiting ∧
          (c.execSingleCommand proposer k cb).outcomes =
            .call cb (duplicate c.id k) :: .take k cb :: c.outcomes) := by
  obtain ⟨_, hid, _, _, hcases⟩ := await_spec { c with outcomes := .take k cb :: c.outcomes } k cb
  unfold HotStuffBase.execSingleCommand
  dsimp only
  split <;> exact ⟨hid, hcases⟩

theorem doDecide_spec (c : HotStuffBase γ) (fin : Finality) :
    (c.doDecide fin).cmdPending = c.cmdPending ∧ (c.doDecide fin).id = c.id ∧
      ((c.decisionWaiting fin.cmdHash = none ∧
          (c.doDecide fin).decisionWaiting = c.decisionWaiting ∧
          (c.doDecide fin).outcomes = .execute fin :: c.outcomes) ∨
        ∃ cb, c.decisionWaiting fin.cmdHash = some cb ∧
          (c.doDecide fin).decisionWaiting =
            Function.update c.decisionWaiting fin.cmdHash none ∧
          (c.doDecide fin).outcomes = .call cb fin :: .execute fin :: c.outcomes) := by
  unfold HotStuffBase.doDecide
  dsimp only
  split
  · rename_i hnone
    exact ⟨rfl, rfl, .inl ⟨hnone, rfl, rfl⟩⟩
  · rename_i cb hsome
    exact ⟨rfl, rfl, .inr ⟨cb, hsome, rfl, rfl⟩⟩

theorem beat_spec {proposer : ReplicaID} {r : Option (List Uint256) × HotStuffBase γ}
    (h : c.beat proposer = some r) : ∃ beats, r.2 = { c with beats } := by
  unfold HotStuffBase.beat at h
  split at h
  · cases h
  · cases h
    exact ⟨_, rfl⟩

theorem LogOk.doDecide (hok : LogOk c) (fin : Finality) : LogOk (c.doDecide fin) := by
  obtain ⟨_, hid, ⟨hnone, hwaiting, hlog⟩ | ⟨waiter, hsome, hwaiting, hlog⟩⟩ := doDecide_spec c fin
  · have hempty : waitingOf fin.cmdHash c.outcomes = none := (hok.waiting _).symm.trans hnone
    refine ⟨fun k => ?_, fun k => ?_⟩
    · rw [hwaiting, hlog]
      unfold waitingOf
      split
      · rename_i hk
        rw [← hk]
        exact hnone
      · exact hok.waiting k
    · rw [hid, hlog]
      unfold callsDue
      split
      · rename_i hk
        rw [← hk, hempty]
        exact hok.calls _
      · exact hok.calls k
  · have hwaiter : waitingOf fin.cmdHash c.outcomes = some waiter :=
      (hok.waiting _).symm.trans hsome
    refine ⟨fun k => ?_, fun k => ?_⟩
    · rw [hwaiting, hlog]
      unfold waitingOf waitingOf
      by_cases hk : k = fin.cmdHash
      · rw [hk, Function.update_self, if_pos rfl]
      · rw [Function.update_of_ne hk, if_neg (fun heq => hk heq.symm)]
        exact hok.waiting k
    · rw [hid, hlog]
      show callsOf k (_ :: _ :: c.outcomes) = callsDue c.id k (.execute fin :: c.outcomes)
      unfold callsDue
      by_cases hk : fin.cmdHash = k
      · rw [if_pos hk, ← hk, hwaiter, ← hok.calls, callsOf_call]
        exact if_pos rfl
      · rw [if_neg hk, ← hok.calls, callsOf_call]
        exact if_neg hk

theorem LogOk.taken {k : Uint256} {cb : γ} (hok : LogOk c) (hid : c'.id = c.id)
    (hcases : (c.decisionWaiting k = none ∧
        c'.decisionWaiting = Function.update c.decisionWaiting k (some cb) ∧
        c'.outcomes = .take k cb :: c.outcomes) ∨
      c.decisionWaiting k ≠ none ∧ c'.decisionWaiting = c.decisionWaiting ∧
        c'.outcomes = .call cb (duplicate c.id k) :: .take k cb :: c.outcomes) : LogOk c' := by
  rcases hcases with ⟨hnone, hwaiting, hlog⟩ | ⟨hsome, hwaiting, hlog⟩
  · have hempty : waitingOf k c.outcomes = none := (hok.waiting k).symm.trans hnone
    refine ⟨fun x => ?_, fun x => ?_⟩
    · rw [hwaiting, hlog]
      unfold waitingOf
      by_cases hx : x = k
      · rw [hx, Function.update_self, if_pos ⟨rfl, hempty⟩]
      · rw [Function.update_of_ne hx, if_neg (fun hand => hx hand.1.symm)]
        exact hok.waiting x
    · rw [hid, hlog]
      unfold callsDue
      rw [if_neg]
      · exact hok.calls x
      · rintro ⟨rfl, hwaiter⟩
        exact hwaiter hempty
  · have hwaiter : waitingOf k c.outcomes ≠ none := fun hnone => hsome ((hok.waiting k).trans hnone)
    have htaken : ∀ x, waitingOf x (.take k cb :: c.outcomes) = waitingOf x c.outcomes := by
      intro x
      refine if_neg ?_
      rintro ⟨rfl, hnone⟩
      exact hwaiter hnone
    refine ⟨fun x => ?_, fun x => ?_⟩
    · rw [hwaiting, hlog]
      exact (hok.waiting x).trans (htaken x).symm
    · rw [hid, hlog]
      show callsOf x (_ :: _ :: c.outcomes) = callsDue c.id x (.take k cb :: c.outcomes)
      unfold callsDue
      by_cases hx : k = x
      · subst hx
        rw [if_pos ⟨rfl, hwaiter⟩, ← hok.calls k, callsOf_call]
        exact if_pos rfl
      · rw [if_neg (fun hand => hx hand.1), ← hok.calls x, callsOf_call]
        exact if_neg hx

theorem LogOk.process {proposer : ReplicaID} (hok : LogOk c)
    (hstep : c.process proposer = some c') : LogOk c' := by
  obtain ⟨_, _, _, _, _, hid, hcases⟩ := process_spec hstep
  exact hok.taken hid hcases

theorem LogOk.step (hok : LogOk c) (hstep : c.step i = some c') : LogOk c' := by
  cases i with
  | submit cmdHash callback =>
      cases hstep
      exact ⟨hok.waiting, hok.calls⟩
  | process proposer => exact hok.process hstep
  | beat proposer =>
      obtain ⟨r, hr, rfl⟩ := Option.map_eq_some_iff.mp hstep
      obtain ⟨beats, hbeats⟩ := beat_spec hr
      rw [hbeats]
      exact ⟨hok.waiting, hok.calls⟩
  | decide fin =>
      cases hstep
      exact hok.doDecide fin

theorem LogOk.start (γ : Type u) (id : ReplicaID) (blkSize : Nat) :
    LogOk (HotStuffBase.start id blkSize : HotStuffBase γ) :=
  ⟨fun _ => rfl, fun _ => rfl⟩

theorem logOk_of_reachable (hr : Reachable (machine γ id blkSize) c) : LogOk c := by
  refine hr.invariant ?_ (fun _ _ _ _ hok hstep => hok.step hstep)
  rintro s rfl
  exact .start γ id blkSize

private theorem untaken (id : ReplicaID) {log : List (Outcome γ)} (hno : ∀ cb, .take h cb ∉ log) :
    waitingOf h log = none ∧ callsDue id h log = [] := by
  induction log with
  | nil => exact ⟨rfl, rfl⟩
  | cons x log ih =>
      obtain ⟨hwaiting, hcalls⟩ := ih (fun cb hmem => hno cb (List.mem_cons_of_mem _ hmem))
      cases x with
      | take k cb =>
          have hk : k ≠ h := fun heq => hno cb (heq ▸ List.mem_cons_self)
          unfold waitingOf callsDue
          rw [if_neg (fun hand => hk hand.1), if_neg (fun hand => hk hand.1)]
          exact ⟨hwaiting, hcalls⟩
      | execute fin =>
          unfold waitingOf callsDue
          rw [hwaiting, hcalls]
          exact ⟨ite_self _, ite_self _⟩
      | call cb fin => exact ⟨hwaiting, hcalls⟩

private theorem taken {after log : List (Outcome γ)} (hno : ∀ cb, .take h cb ∉ after)
    (hwaiting : waitingOf h log = some callback) (hcalls : callsDue id h log = []) :
    ((∀ fin, .execute fin ∈ after → fin.cmdHash ≠ h) →
      waitingOf h (after ++ log) = some callback ∧ callsDue id h (after ++ log) = []) ∧
    ((∃ fin, .execute fin ∈ after ∧ fin.cmdHash = h) →
      waitingOf h (after ++ log) = none ∧
        ∃ fin, callsDue id h (after ++ log) = [(callback, fin)]) := by
  induction after with
  | nil => exact ⟨fun _ => ⟨hwaiting, hcalls⟩, nofun⟩
  | cons x after ih =>
      obtain ⟨hwait, hdone⟩ := ih (fun cb hmem => hno cb (List.mem_cons_of_mem _ hmem))
      cases x with
      | take k cb =>
          have hk : k ≠ h := fun heq => hno cb (heq ▸ List.mem_cons_self)
          rw [List.cons_append]
          unfold waitingOf callsDue
          rw [if_neg (fun hand => hk hand.1), if_neg (fun hand => hk hand.1)]
          have hmem : ∀ fin, .execute fin ∈ Outcome.take k cb :: after ↔ .execute fin ∈ after :=
            fun fin => by simp
          simp only [hmem]
          exact ⟨hwait, hdone⟩
      | execute fin =>
          rw [List.cons_append]
          unfold waitingOf callsDue
          by_cases hk : fin.cmdHash = h
          · rw [if_pos hk, if_pos hk]
            refine ⟨fun hnone => absurd hk (hnone fin List.mem_cons_self), fun _ => ⟨rfl, ?_⟩⟩
            by_cases hex : ∃ fin, .execute fin ∈ after ∧ fin.cmdHash = h
            · obtain ⟨hnone, first, hfirst⟩ := hdone hex
              rw [hnone, hfirst]
              exact ⟨first, rfl⟩
            · obtain ⟨hsome, hnil⟩ := hwait (fun f hf heq => hex ⟨f, hf, heq⟩)
              rw [hsome, hnil]
              exact ⟨fin, rfl⟩
          · rw [if_neg hk, if_neg hk]
            refine ⟨fun hnone => hwait (fun f hf => hnone f (List.mem_cons_of_mem _ hf)), ?_⟩
            rintro ⟨f, hf, heq⟩
            rcases List.mem_cons.mp hf with hf | hf
            · cases hf
              exact absurd heq hk
            · exact hdone ⟨f, hf, heq⟩
      | call cb fin =>
          have hmem : ∀ f, .execute f ∈ Outcome.call cb fin :: after ↔ .execute f ∈ after :=
            fun f => by simp
          simp only [hmem]
          exact ⟨hwait, hdone⟩

/-- A command submitted once is answered once and no longer waited for exactly if it is executed
after the handler has taken its submission. -/
theorem answered_iff (hr : Reachable (machine γ id blkSize) c) {after before : List (Outcome γ)}
    (hlog : c.outcomes = after ++ .take h callback :: before)
    (honce : ∀ cb, .take h cb ∉ after ++ before) :
    ((∃ fin, callsOf h c.outcomes = [(callback, fin)]) ∧ c.decisionWaiting h = none) ↔
      ∃ fin, .execute fin ∈ after ∧ fin.cmdHash = h := by
  have hok := logOk_of_reachable hr
  have hno : ∀ cb, .take h cb ∉ before :=
    fun cb hmem => honce cb (List.mem_append_right _ hmem)
  obtain ⟨hnone, hnil⟩ := untaken c.id hno
  have hstart : waitingOf h (.take h callback :: before) = some callback ∧
      callsDue c.id h (.take h callback :: before) = [] := by
    unfold waitingOf callsDue
    rw [if_pos ⟨rfl, hnone⟩, if_neg (fun hand => hand.2 hnone)]
    exact ⟨rfl, hnil⟩
  obtain ⟨hwait, hdone⟩ := taken (fun cb hmem => honce cb (List.mem_append_left _ hmem))
    hstart.1 hstart.2
  rw [hok.waiting, hok.calls, hlog]
  constructor
  · rintro ⟨_, hempty⟩
    by_contra hex
    rw [(hwait (fun f hf heq => hex ⟨f, hf, heq⟩)).1] at hempty
    cases hempty
  · intro hex
    exact ⟨(hdone hex).2, (hdone hex).1⟩

/-- A submission that is taken first and executed then. -/
def answeredBase : HotStuffBase Nat :=
  (execute HotStuffBase.step [.submit 7 0, .process 0, .decide ⟨0, 1, 0, 1, 7, 1⟩]
    (.start 0 1)).get (by decide +kernel)

theorem answered_iff_taken :
    (∃ fin, callsOf 7 answeredBase.outcomes = [(0, fin)]) ∧
      answeredBase.decisionWaiting 7 = none := by
  have hr : Reachable (machine Nat 0 1) answeredBase :=
    Reachable.trans (.init rfl) (steps_of_execute (fun _ _ _ h => h) (Option.some_get _).symm)
  have hlog : answeredBase.outcomes = [.call 0 ⟨0, 1, 0, 1, 7, 1⟩, .execute ⟨0, 1, 0, 1, 7, 1⟩] ++
      .take 7 0 :: [] := by decide +kernel
  exact (answered_iff hr hlog (by simp)).mpr ⟨⟨0, 1, 0, 1, 7, 1⟩, by simp, rfl⟩

/-- The command is executed first; its submission is taken later. -/
def forgottenBase : HotStuffBase Nat :=
  (execute HotStuffBase.step [.submit 7 0, .decide ⟨0, 1, 0, 1, 7, 1⟩, .process 1]
    (.start 0 1)).get (by decide +kernel)

/-- Nobody is called, and the command is waited for from then on. -/
theorem commit_first_forgotten : Reachable (machine Nat 0 1) forgottenBase ∧
    forgottenBase.outcomes = [.take 7 0, .execute ⟨0, 1, 0, 1, 7, 1⟩] ∧
    callsOf 7 forgottenBase.outcomes = [] ∧ forgottenBase.decisionWaiting 7 = some 0 := by
  refine ⟨?_, by decide +kernel, by decide +kernel, by decide +kernel⟩
  exact Reachable.trans (.init rfl) (steps_of_execute (fun _ _ _ h => h) (Option.some_get _).symm)

end log

/-! Callbacks on their way. -/

/-- A callback for a command is in the queue or waits for the decision. -/
def Holds (c : HotStuffBase γ) (h : Uint256) (callback : γ) : Prop :=
  (h, callback) ∈ c.cmdPending ∨ c.decisionWaiting h = some callback

def logged (calls : List (γ × Finality)) : List (Outcome γ) :=
  calls.map (fun p => .call p.1 p.2)

/-- A step of the commands other than a submission: it logs something, and may call a callback
that was on its way. -/
structure Moves (c c' : HotStuffBase γ) (calls : List (γ × Finality)) : Prop where
  holds : ∀ h cb, Holds c' h cb → Holds c h cb
  held : ∀ cb fin, (cb, fin) ∈ calls → Holds c fin.cmdHash cb
  outcomes : ∃ log, c'.outcomes = logged calls ++ log ++ c.outcomes ∧
    ∀ cb fin, .call cb fin ∉ log
  one : calls.length ≤ 1

section moves

variable {c c' : HotStuffBase γ}

theorem moves_process {proposer : ReplicaID} (hstep : c.process proposer = some c') :
    ∃ calls, Moves c c' calls := by
  obtain ⟨k, cb, rest, hqueue, hqueue', _, ⟨_, hwaiting, hlog⟩ | ⟨_, hwaiting, hlog⟩⟩ :=
    process_spec hstep
  · refine ⟨[], ⟨fun h cb' hholds => ?_, nofun, ⟨[.take k cb], hlog, by simp⟩, Nat.zero_le _⟩⟩
    unfold Holds at hholds ⊢
    rw [hqueue', hwaiting] at hholds
    rw [hqueue]
    rcases hholds with hmem | hsome
    · exact .inl (List.mem_cons_of_mem _ hmem)
    · by_cases hk : h = k
      · subst hk
        rw [Function.update_self] at hsome
        cases hsome
        exact .inl List.mem_cons_self
      · rw [Function.update_of_ne hk] at hsome
        exact .inr hsome
  · refine ⟨[(cb, duplicate c.id k)], ⟨fun h cb' hholds => ?_, fun cb' fin hmem => ?_,
      ⟨[.take k cb], hlog, by simp⟩, le_rfl⟩⟩
    · unfold Holds at hholds ⊢
      rw [hqueue', hwaiting] at hholds
      rw [hqueue]
      exact hholds.imp (List.mem_cons_of_mem _) id
    · cases List.mem_singleton.mp hmem
      refine .inl ?_
      rw [hqueue]
      exact List.mem_cons_self

theorem moves_doDecide (c : HotStuffBase γ) (fin : Finality) :
    ∃ calls, Moves c (c.doDecide fin) calls ∧ ∀ p ∈ calls, p.2 = fin := by
  obtain ⟨hqueue, _, ⟨_, hwaiting, hlog⟩ | ⟨cb, hsome, hwaiting, hlog⟩⟩ := doDecide_spec c fin
  · refine ⟨[], ⟨fun h cb' hholds => ?_, nofun, ⟨[.execute fin], hlog, by simp⟩, Nat.zero_le _⟩,
      nofun⟩
    unfold Holds at hholds ⊢
    rw [hqueue, hwaiting] at hholds
    exact hholds
  · refine ⟨[(cb, fin)], ⟨fun h cb' hholds => ?_, fun cb' f hmem => ?_,
      ⟨[.execute fin], hlog, by simp⟩, le_rfl⟩, fun p hp => ?_⟩
    · unfold Holds at hholds ⊢
      rw [hqueue, hwaiting] at hholds
      refine hholds.imp id (fun hsome' => ?_)
      by_cases hk : h = fin.cmdHash
      · rw [hk, Function.update_self] at hsome'
        cases hsome'
      · rwa [Function.update_of_ne hk] at hsome'
    · cases List.mem_singleton.mp hmem
      exact .inr hsome
    · rw [List.mem_singleton.mp hp]

theorem moves_beat {proposer : ReplicaID} {r : Option (List Uint256) × HotStuffBase γ}
    (h : c.beat proposer = some r) : Moves c r.2 [] := by
  obtain ⟨beats, hr⟩ := beat_spec h
  rw [hr]
  exact ⟨fun _ _ => id, nofun, ⟨[], rfl, nofun⟩, Nat.zero_le _⟩

end moves

end ArchipelagoHotStuff.Base.Commands
