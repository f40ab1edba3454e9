/- Module: ArchipelagoHotStuff/Archipelago/Execution
   source: archipelago_app.cpp (client_request_cmd_handler, client_ordering2_request_cmd_handler),
     client.h (CommandDummy)
   digest: The leader with the commands it hands to the protocol and the callbacks it runs for
     them. -/

import ArchipelagoHotStuff.Archipelago.Follower
import ArchipelagoHotStuff.Base.Commands

set_option autoImplicit false
set_option relaxedAutoImplicit false

namespace ArchipelagoHotStuff.Archipelago.Execution

open Crypto.Wire Consensus.State General.Sorting General.Transition Leader
open Base.Commands
open Follower (MsgConsensusReqCmd)

/-- The hash of a `CommandDummy`, by `cid` and `n`. -/
abbrev DummyHash := Fin (2 ^ 32) → Fin (2 ^ 32) → Uint256

/-- The callbacks given to `exec_command`: the answer to a `MsgReqCmd`, the answers to the clients
of a batch, and the empty one of a place holder. -/
inductive Callback
  | client (addr : Nat)
  | batch (commitSetHash : Uint256)
  | placeHolder
  deriving DecidableEq

/-- The leader.  `sent` lists what `broadcast_start_consensus` has sent, the latest first;
`answers` and `replies` list the `MsgConsensusRespClientCmd` and the `MsgRespCmd` sent, each with
its client, the oldest first. -/
structure Server extends HotStuffApp where
  cmdCnt : Fin (2 ^ 32)
  execClientRsp : Uint256 → Option (Nat × Nat)
  sent : List MsgConsensusReqCmd
  base : HotStuffBase Callback
  answers : List (Uint256 × Nat)
  replies : List (Finality × Nat)

/-- What can happen to the leader: a `MsgReqCmd` or a `MsgOrdering2ReqCmd` arrives, the handler of
commands takes one, a beat is resolved, a command of a committed block is decided. -/
inductive Input
  | request (cid n : Fin (2 ^ 32)) (addr : Nat)
  | ordering2 (a : Arrival)
  | process (proposer : ReplicaID)
  | beat (proposer : ReplicaID)
  | decide (fin : Finality)

/-- What a client is sent for an element of a batch. -/
def answer (e : Entry) : Uint256 × Nat := (e.cmdHash, e.addr)

def loggedCall : Outcome Callback → Option (Callback × Finality)
  | .call callback fin => some (callback, fin)
  | .take _ _ | .execute _ => none

/-- The calls between two states of the commands, the oldest first. -/
def callsSince (old new : HotStuffBase Callback) : List (Callback × Finality) :=
  ((new.outcomes.take (new.outcomes.length - old.outcomes.length)).filterMap loggedCall).reverse

namespace Server

variable (s : Server)

def start (stablePeriod : Fin (2 ^ 32)) : Server :=
  { HotStuffApp.start 1 stablePeriod with
    cmdCnt := 0
    execClientRsp := fun _ => none
    sent := []
    base := .start 1 1
    answers := []
    replies := [] }

/-- The end of `client_ordering2_request_cmd_handler` once a batch has been cut. -/
def announce (hash : DummyHash) (app : HotStuffApp) (b : Batch) : Server :=
  let cmdHash2 := hash 1 (s.cmdCnt + 1)
  let cmdHash3 := hash 2 (s.cmdCnt + 2)
  let cmdHash4 := hash 3 (s.cmdCnt + 3)
  let commitSetHash := hash 4 (s.cmdCnt + 4)
  { s with
    toHotStuffApp := app
    cmdCnt := s.cmdCnt + 5
    sent :=
      { commitSetHash
        stableTimestamp := b.stableTimestamp
        stableIdx := Fin.ofNat (2 ^ 32) b.stop
        placeHolder2 := cmdHash2
        placeHolder3 := cmdHash3
        placeHolder4 := cmdHash4 } :: s.sent
    execClientRsp := Function.update s.execClientRsp commitSetHash (some (b.start, b.stop))
    base :=
      (((s.base.execCommand commitSetHash (.batch commitSetHash)).execCommand cmdHash2
        .placeHolder).execCommand cmdHash3 .placeHolder).execCommand cmdHash4 .placeHolder }

def onOrdering2Request (hash : DummyHash) (std : Sorter Entry.timestamp) (a : Arrival) :
    Option Server :=
  if a.timestamp < s.stablePoint then none
  else
    let s := { s with commitSet := s.commitSet ++ [a.entry] }
    if s.idx ≠ 1 then some s
    else if s.execLastBatchClock = 0 then some { s with execLastBatchClock := a.currClock }
    else if s.execLastBatchClock + s.period < a.currClock then
      (s.cutBatch std a.currClock).bind (fun app => app.batches.head?.map (s.announce hash app))
    else some s

/-- The answers to the clients of the batch that `exec_client_rsp` holds under a hash. -/
def answersFor (commitSetHash : Uint256) : List (Uint256 × Nat) :=
  let range := (s.execClientRsp commitSetHash).getD (0, 0)
  ((s.commitSet.take range.2).drop range.1).map answer

def runCallback : Callback × Finality → Server
  | (.client addr, fin) => { s with replies := s.replies ++ [(fin, addr)] }
  | (.batch commitSetHash, _) => { s with answers := s.answers ++ s.answersFor commitSetHash }
  | (.placeHolder, _) => s

/-- The commands move on, and the callbacks that are called run. -/
def advance (base : HotStuffBase Callback) : Server :=
  (callsSince s.base base).foldl runCallback { s with base }

end Server

def Server.step (hash : DummyHash) (std : Sorter Entry.timestamp) (s : Server) :
    Input → Option Server
  | .request cid n addr => some { s with base := s.base.execCommand (hash cid n) (.client addr) }
  | .ordering2 a => s.onOrdering2Request hash std a
  | .process proposer => (s.base.process proposer).map s.advance
  | .beat proposer => (s.base.beat proposer).map (fun r => s.advance r.2)
  | .decide fin => if fin.decision = 1 then some (s.advance (s.base.doDecide fin)) else none

def server (hash : DummyHash) (std : Sorter Entry.timestamp) (stablePeriod : Fin (2 ^ 32)) :
    System Server Input where
  init s := s = .start stablePeriod
  step s i s' := s.step hash std i = some s'

/-- The hashes of the batches announced, the latest first. -/
def announced (s : Server) : List Uint256 := s.sent.map MsgConsensusReqCmd.commitSetHash

/-- The commands handed over with a batch: its own and three place holders. -/
def announcement (hash : DummyHash) (s : Server) : List (Uint256 × Callback) :=
  [(hash 4 (s.cmdCnt + 4), .batch (hash 4 (s.cmdCnt + 4))), (hash 1 (s.cmdCnt + 1), .placeHolder),
    (hash 2 (s.cmdCnt + 2), .placeHolder), (hash 3 (s.cmdCnt + 3), .placeHolder)]

/-- The batch a callback is for. -/
def batchOf : Callback → Option Uint256
  | .batch commitSetHash => some commitSetHash
  | .client _ | .placeHolder => none

def answeredBatch : Outcome Callback → Option Uint256
  | .call callback _ => batchOf callback
  | .take _ _ | .execute _ => none

/-- The batches whose callback has run, the latest first. -/
def answered (s : Server) : List Uint256 := s.base.outcomes.filterMap answeredBatch

section steps

variable {hash : DummyHash} {std : Sorter Entry.timestamp} {s s' : Server} {a : Arrival}
  {c c' : HotStuffBase Callback}

theorem pending_announce (app : HotStuffApp) (b : Batch) :
    (s.announce hash app b).base.cmdPending = s.base.cmdPending ++ announcement hash s := by
  show (((s.base.cmdPending ++ [_]) ++ [_]) ++ [_]) ++ [_] = _
  rw [List.append_assoc, List.append_assoc, List.append_assoc]
  rfl

theorem eq_of_mem_announcement {k h : Uint256} (hmem : (k, .batch h) ∈ announcement hash s) :
    k = hash 4 (s.cmdCnt + 4) ∧ h = hash 4 (s.cmdCnt + 4) := by
  unfold announcement at hmem
  simpa using hmem

/-- A request does to the commit set and the batches what it does to a leader without commands; a
batch that is cut is announced. -/
theorem onOrdering2Request_eq (h : s.onOrdering2Request hash std a = some s') :
    s.toHotStuffApp.onOrdering2Request std a = some s'.toHotStuffApp ∧
      ((s'.batches = s.batches ∧ s' = { s with toHotStuffApp := s'.toHotStuffApp }) ∨
        ∃ b, s'.batches = b :: s.batches ∧ s' = s.announce hash s'.toHotStuffApp b) := by
  unfold Server.onOrdering2Request at h
  unfold HotStuffApp.onOrdering2Request
  split at h
  · cases h
  · rename_i hlate
    rw [if_neg hlate]
    dsimp only at h ⊢
    split at h
    · rename_i hidx
      cases h
      exact ⟨if_pos hidx, .inl ⟨rfl, rfl⟩⟩
    · rename_i hidx
      rw [if_neg hidx]
      split at h
      · rename_i hclock
        cases h
        exact ⟨if_pos hclock, .inl ⟨rfl, rfl⟩⟩
      · rename_i hclock
        rw [if_neg hclock]
        split at h
        · rename_i hperiod
          obtain ⟨app, hcut, h⟩ := Option.bind_eq_some_iff.mp h
          obtain ⟨b, hb, rfl⟩ := Option.map_eq_some_iff.mp h
          refine ⟨(if_pos hperiod).trans hcut, .inr ⟨b, ?_, rfl⟩⟩
          obtain ⟨bound, rfl⟩ := cutBatch_cases hcut
          obtain rfl := Option.some.inj hb
          rfl
        · rename_i hperiod
          cases h
          exact ⟨if_neg hperiod, .inl ⟨rfl, rfl⟩⟩

/-- Whatever the commit set and the batches can take, the leader with its commands can. -/
theorem exists_onOrdering2Request (hash : DummyHash) {app : HotStuffApp}
    (h : s.toHotStuffApp.onOrdering2Request std a = some app) :
    ∃ s', s.onOrdering2Request hash std a = some s' := by
  unfold HotStuffApp.onOrdering2Request at h
  unfold Server.onOrdering2Request
  split at h
  · cases h
  · rename_i hlate
    rw [if_neg hlate]
    dsimp only at h ⊢
    split at h
    · rename_i hidx
      exact ⟨_, if_pos hidx⟩
    · rename_i hidx
      rw [if_neg hidx]
      split at h
      · rename_i hclock
        exact ⟨_, if_pos hclock⟩
      · rename_i hclock
        rw [if_neg hclock]
        split at h
        · rename_i hperiod
          rw [if_pos hperiod, h]
          obtain ⟨bound, rfl⟩ := cutBatch_cases h
          exact ⟨_, rfl⟩
        · rename_i hperiod
          exact ⟨_, if_neg hperiod⟩

theorem callsSince_eq {calls : List (Callback × Finality)} (h : Moves c c' calls) :
    callsSince c c' = calls := by
  obtain ⟨log, hlog, hnone⟩ := h.outcomes
  have hnew : c'.outcomes.take (c'.outcomes.length - c.outcomes.length) =
      logged calls ++ log := by
    rw [hlog, List.length_append, Nat.add_sub_cancel, List.take_left]
  have hcalls : (logged calls ++ log).filterMap loggedCall = calls := by
    unfold logged
    rw [List.filterMap_append, List.filterMap_map]
    have hrest : log.filterMap loggedCall = [] := by
      rw [List.filterMap_eq_nil_iff]
      intro o ho
      cases o with
      | call cb fin => exact absurd ho (hnone cb fin)
      | take _ _ | execute _ => rfl
    rw [hrest, List.append_nil]
    exact List.filterMap_some
  unfold callsSince
  rw [hnew, hcalls]
  match calls, h.one with
  | [], _ => rfl
  | [_], _ => rfl

theorem answered_of_moves {calls : List (Callback × Finality)} (h : Moves c c' calls) :
    c'.outcomes.filterMap answeredBatch =
      calls.filterMap (fun p => batchOf p.1) ++ c.outcomes.filterMap answeredBatch := by
  obtain ⟨log, hlog, hnone⟩ := h.outcomes
  have hrest : log.filterMap answeredBatch = [] := by
    rw [List.filterMap_eq_nil_iff]
    intro o ho
    cases o with
    | call cb fin => exact absurd ho (hnone cb fin)
    | take _ _ | execute _ => rfl
  rw [hlog, List.filterMap_append, List.filterMap_append, hrest, List.append_nil]
  unfold logged
  rw [List.filterMap_map]
  rfl

theorem step_commands {i : Input} (h : s.step hash std i = some s') :
    (∃ cid n addr, i = .request cid n addr ∧
        s' = { s with base := s.base.execCommand (hash cid n) (.client addr) }) ∨
      (∃ a, i = .ordering2 a ∧ s.onOrdering2Request hash std a = some s') ∨
      ∃ c calls, (∀ a, i ≠ .ordering2 a) ∧ Moves s.base c calls ∧
        s' = calls.foldl Server.runCallback { s with base := c } := by
  cases i with
  | request cid n addr =>
      cases h
      exact .inl ⟨cid, n, addr, rfl, rfl⟩
  | ordering2 a => exact .inr (.inl ⟨a, rfl, h⟩)
  | process proposer =>
      obtain ⟨c, hc, rfl⟩ := Option.map_eq_some_iff.mp h
      obtain ⟨calls, hmoves⟩ := moves_process hc
      refine .inr (.inr ⟨c, calls, nofun, hmoves, ?_⟩)
      unfold Server.advance
      rw [callsSince_eq hmoves]
  | beat proposer =>
      obtain ⟨r, hr, rfl⟩ := Option.map_eq_some_iff.mp h
      refine .inr (.inr ⟨r.2, [], nofun, moves_beat hr, ?_⟩)
      unfold Server.advance
      rw [callsSince_eq (moves_beat hr)]
  | decide fin =>
      obtain ⟨calls, hmoves, _⟩ := moves_doDecide s.base fin
      simp only [Server.step] at h
      split at h
      · cases h
        refine .inr (.inr ⟨_, calls, nofun, hmoves, ?_⟩)
        unfold Server.advance
        rw [callsSince_eq hmoves]
      · cases h

end steps

end ArchipelagoHotStuff.Archipelago.Execution
