/- Module: ArchipelagoHotStuff/Archipelago/Replies
   source: archipelago_app.cpp (the callback of a batch), hotstuff.cpp (the cmd_pending handler in
     start), client.h (CommandDummy)
   digest: When the callback of a batch follows the decision on the batch. -/

import ArchipelagoHotStuff.Archipelago.Batches

set_option autoImplicit false
set_option relaxedAutoImplicit false

namespace ArchipelagoHotStuff.Archipelago.Replies

open Crypto.Wire Consensus.State General.Sorting General.Transition Leader Execution Batches
open Base.Commands

/-- When the handler takes the command of a batch, nobody else waits under its hash. -/
def Unclaimed (s : Server) : Input → Prop
  | .process _ =>
      match s.base.cmdPending with
      | (commitSetHash, .batch _) :: _ => s.base.decisionWaiting commitSetHash = none
      | _ => True
  | .request _ _ _ | .ordering2 _ | .beat _ | .decide _ => True

instance (s : Server) (i : Input) : Decidable (Unclaimed s i) := by
  cases i with
  | process proposer =>
      unfold Unclaimed
      dsimp only
      split <;> infer_instance
  | request _ _ _ | ordering2 _ | beat _ | decide _ => exact instDecidableTrue

/-- Every call for a batch comes after `do_decide` for its hash, with the decision it was called
with. -/
def FollowDecisions (log : List (Outcome Callback)) : Prop :=
  ∀ after before h fin, log = after ++ .call (.batch h) fin :: before →
    fin.decision = 1 ∧ fin.cmdHash = h ∧ .execute fin ∈ before

theorem FollowDecisions.cons {log : List (Outcome Callback)} {o : Outcome Callback}
    (hlog : FollowDecisions log) (ho : ∀ h fin, o = .call (.batch h) fin →
      fin.decision = 1 ∧ fin.cmdHash = h ∧ .execute fin ∈ log) :
    FollowDecisions (o :: log) := by
  intro after before h fin heq
  cases after with
  | nil =>
      obtain ⟨rfl, rfl⟩ := List.cons.inj heq
      exact ho h fin rfl
  | cons o' after => exact hlog after before h fin (List.cons.inj heq).2

theorem FollowDecisions.take {log : List (Outcome Callback)} (hlog : FollowDecisions log)
    (k : Uint256) (callback : Callback) : FollowDecisions (.take k callback :: log) :=
  hlog.cons (fun _ _ heq => by cases heq)

theorem FollowDecisions.execute {log : List (Outcome Callback)} (hlog : FollowDecisions log)
    (fin : Finality) : FollowDecisions (.execute fin :: log) :=
  hlog.cons (fun _ _ heq => by cases heq)

def queued (s : Server) : List Uint256 := s.base.cmdPending.filterMap (fun p => batchOf p.2)

/-- How often a batch is waiting for its decision. -/
def waitingFor (decisionWaiting : Uint256 → Option Callback) (h : Uint256) : Nat :=
  if decisionWaiting h = some (.batch h) then 1 else 0

theorem waitingFor_update {decisionWaiting : Uint256 → Option Callback} {k : Uint256}
    {callback : Callback} (hnone : decisionWaiting k = none)
    (hkey : ∀ h, callback = .batch h → k = h) (h : Uint256) :
    waitingFor (Function.update decisionWaiting k (some callback)) h =
      waitingFor decisionWaiting h + (batchOf callback).toList.count h := by
  unfold waitingFor
  by_cases hh : h = k
  · subst hh
    rw [Function.update_self, hnone]
    cases callback with
    | batch h' =>
        obtain rfl := hkey h' rfl
        simp [batchOf]
    | client _ | placeHolder => rfl
  · rw [Function.update_of_ne hh]
    cases callback with
    | batch h' =>
        obtain rfl := hkey h' rfl
        simp [batchOf, Ne.symm hh]
    | client _ | placeHolder => rfl

/-- A batch is known under its own hash, and each that has been announced is answered, queued or
waiting. -/
structure RepliesOk (s : Server) : Prop where
  keys : ∀ k h, Holds s.base k (.batch h) → k = h
  count : ∀ h, (answered s).count h + (queued s).count h + waitingFor s.base.decisionWaiting h =
    (announced s).count h

section steps

variable {hash : DummyHash} {std : Sorter Entry.timestamp} {stablePeriod : Fin (2 ^ 32)}
  {s s' : Server} {i : Input}

/-- What a step does to the commands: some are added at the end of the queue, the handler takes
one, or one is decided. -/
theorem step_base (hstep : s.step hash std i = some s') :
    (∃ new, s'.base.cmdPending = s.base.cmdPending ++ new ∧
        s'.base.decisionWaiting = s.base.decisionWaiting ∧ s'.base.outcomes = s.base.outcomes ∧
        announced s' = (new.filterMap (fun p => batchOf p.2)).reverse ++ announced s ∧
        ∀ k h, (k, .batch h) ∈ new → k = h) ∨
      (∃ proposer, i = .process proposer ∧ s.base.process proposer = some s'.base ∧
        announced s' = announced s) ∨
      ∃ fin, i = .decide fin ∧ fin.decision = 1 ∧ s'.base = s.base.doDecide fin ∧
        announced s' = announced s := by
  have hadvance : ∀ c, announced (s.advance c) = announced s ∧ (s.advance c).base = c := by
    intro c
    obtain ⟨hans, hbase⟩ := answering_advance s c
    exact ⟨congrArg (List.map _) hans.sent, hbase⟩
  cases i with
  | request cid n addr =>
      cases hstep
      exact .inl ⟨[_], rfl, rfl, rfl, rfl, by simp⟩
  | ordering2 a =>
      refine .inl ?_
      obtain ⟨_, ⟨_, heq⟩ | ⟨b, _, heq⟩⟩ := onOrdering2Request_eq hstep
      · rw [heq]
        exact ⟨[], (List.append_nil _).symm, rfl, rfl, rfl, nofun⟩
      · rw [heq]
        refine ⟨announcement hash s, pending_announce _ b, rfl, rfl, rfl, fun k h hmem => ?_⟩
        obtain ⟨hk, hh⟩ := eq_of_mem_announcement hmem
        exact hk.trans hh.symm
  | process proposer =>
      obtain ⟨c, hc, rfl⟩ := Option.map_eq_some_iff.mp hstep
      obtain ⟨hsame, hbase⟩ := hadvance c
      exact .inr (.inl ⟨proposer, rfl, hc.trans (congrArg some hbase.symm), hsame⟩)
  | beat proposer =>
      obtain ⟨r, hr, rfl⟩ := Option.map_eq_some_iff.mp hstep
      obtain ⟨hsame, hbase⟩ := hadvance r.2
      obtain ⟨beats, hbeats⟩ := beat_spec hr
      refine .inl ⟨[], ?_, ?_, ?_, hsame, nofun⟩
      · rw [hbase, hbeats, List.append_nil]
      · rw [hbase, hbeats]
      · rw [hbase, hbeats]
  | decide fin =>
      simp only [Server.step] at hstep
      split at hstep
      · rename_i hdecision
        cases hstep
        obtain ⟨hsame, hbase⟩ := hadvance (s.base.doDecide fin)
        exact .inr (.inr ⟨fin, rfl, hdecision, hbase, hsame⟩)
      · cases hstep

theorem RepliesOk.step (hok : RepliesOk s) (hstep : s.step hash std i = some s') :
    RepliesOk s' := by
  rcases step_base hstep with ⟨new, hqueue, hwaiting, hlog, hannounced, hnew⟩ |
    ⟨proposer, _, hprocess, hannounced⟩ | ⟨fin, _, _, hbase, hannounced⟩
  · refine ⟨fun k h hholds => ?_, fun h => ?_⟩
    · unfold Holds at hholds
      rw [hqueue, hwaiting] at hholds
      rcases hholds with hmem | hsome
      · rcases List.mem_append.mp hmem with hmem | hmem
        · exact hok.keys k h (.inl hmem)
        · exact hnew k h hmem
      · exact hok.keys k h (.inr hsome)
    · have hcount := hok.count h
      unfold answered queued waitingFor at hcount ⊢
      rw [hlog, hqueue, hwaiting, hannounced, List.filterMap_append, List.count_append,
        List.count_append, List.count_reverse]
      omega
  · obtain ⟨calls, hmoves⟩ := moves_process hprocess
    refine ⟨fun k h hholds => hok.keys k h (hmoves.holds k _ hholds), fun h => ?_⟩
    obtain ⟨k, cb, rest, hqueue, hrest, _, hcases⟩ := process_spec hprocess
    have hkey : ∀ h, cb = .batch h → k = h := by
      rintro h rfl
      exact hok.keys k h (.inl (hqueue ▸ List.mem_cons_self))
    rw [hannounced, ← hok.count h]
    have hqueued : (queued s).count h = (batchOf cb).toList.count h + (queued s').count h := by
      unfold queued
      rw [hqueue, hrest]
      cases hb : batchOf cb with
      | none => simp [hb]
      | some h' => simp [hb, List.count_cons, Nat.add_comm]
    rcases hcases with ⟨hnone, hwaiting, hlog⟩ | ⟨_, hwaiting, hlog⟩
    · -- The one that is taken waits now.
      have hanswered : answered s' = answered s := by
        unfold answered
        rw [hlog]
        rfl
      rw [hanswered, hwaiting, waitingFor_update hnone hkey, hqueued]
      omega
    · -- It is answered at once.
      have hanswered : answered s' = (batchOf cb).toList ++ answered s := by
        unfold answered
        rw [hlog]
        cases cb <;> rfl
      rw [hanswered, hwaiting, List.count_append, hqueued]
      omega
  · obtain ⟨calls, hmoves, _⟩ := moves_doDecide s.base fin
    obtain ⟨hqueue, _, hcases⟩ := doDecide_spec s.base fin
    rw [← hbase] at hmoves hqueue hcases
    refine ⟨fun k h hholds => hok.keys k h (hmoves.holds k _ hholds), fun h => ?_⟩
    rw [hannounced, ← hok.count h,
      show queued s' = queued s from congrArg (List.filterMap _) hqueue]
    rcases hcases with ⟨hnone, hwaiting, hlog⟩ | ⟨cb, hsome, hwaiting, hlog⟩
    · have hanswered : answered s' = answered s := by
        unfold answered
        rw [hlog]
        rfl
      rw [hanswered, hwaiting]
    · -- The one that waited is answered.
      have hanswered : answered s' = (batchOf cb).toList ++ answered s := by
        unfold answered
        rw [hlog]
        cases cb <;> rfl
      have hold : s.base.decisionWaiting =
          Function.update s'.base.decisionWaiting fin.cmdHash (some cb) := by
        rw [hwaiting, Function.update_idem, ← hsome, Function.update_eq_self]
      have hnone : s'.base.decisionWaiting fin.cmdHash = none := by
        rw [hwaiting]
        exact Function.update_self _ _ _
      have hkey : ∀ h, cb = .batch h → fin.cmdHash = h := by
        rintro h rfl
        exact hok.keys _ _ (.inr hsome)
      rw [hanswered, List.count_append, hold, waitingFor_update hnone hkey]
      omega

theorem repliesOk_of_reachable (hr : Reachable (server hash std stablePeriod) s) :
    RepliesOk s := by
  refine hr.invariant ?_ (fun _ _ _ _ hok hstep => hok.step hstep)
  rintro s rfl
  refine ⟨fun k h hholds => ?_, fun h => rfl⟩
  rcases hholds with hmem | hsome
  · cases hmem
  · cases hsome

/-- A step takes a batch whose hash is unclaimed, so only decisions call its callback. -/
theorem followDecisions_step (hok : RepliesOk s) (hfree : Unclaimed s i)
    (hstep : s.step hash std i = some s') (hlog : FollowDecisions s.base.outcomes) :
    FollowDecisions s'.base.outcomes := by
  rcases step_base hstep with ⟨_, _, _, hsame, _⟩ | ⟨proposer, rfl, hprocess, _⟩ |
    ⟨fin, rfl, hdecision, hbase, _⟩
  · rw [hsame]
    exact hlog
  · obtain ⟨k, cb, rest, hqueue, _, _, ⟨_, _, hnext⟩ | ⟨hsome, _, hnext⟩⟩ := process_spec hprocess
    · rw [hnext]
      exact hlog.take k cb
    · rw [hnext]
      refine (hlog.take k cb).cons (fun h fin heq => ?_)
      cases heq
      unfold Unclaimed at hfree
      rw [hqueue] at hfree
      exact absurd hfree hsome
  · obtain ⟨_, _, ⟨_, _, hnext⟩ | ⟨cb, hsome, _, hnext⟩⟩ := doDecide_spec s.base fin
    · rw [hbase, hnext]
      exact hlog.execute fin
    · rw [hbase, hnext]
      refine (hlog.execute fin).cons (fun h f heq => ?_)
      cases heq
      exact ⟨hdecision, hok.keys _ _ (.inr hsome), List.mem_cons_self⟩

/-- As long as nobody waits under the hash of a batch when the handler takes it, its callback is
only called by the decision on it; and in any case no more often than the batch is announced. -/
theorem replies_follow (hr : Reachable ((server hash std stablePeriod).restrict Unclaimed) s) :
    FollowDecisions s.base.outcomes ∧ ∀ h, (answered s).count h ≤ (announced s).count h := by
  refine ⟨hr.invariant (I := fun s => FollowDecisions s.base.outcomes) ?_ ?_, fun h => ?_⟩
  · rintro s rfl
    intro after before h fin heq
    cases after <;> cases heq
  · intro s i s' hs hlog hstep
    exact followDecisions_step (repliesOk_of_reachable hs.of_restrict) hstep.1 hstep.2 hlog
  · rw [← (repliesOk_of_reachable hr.of_restrict).count h, Nat.add_assoc]
    exact Nat.le_add_right _ _

/-- A batch that is taken and decided. -/
def followedServer : Server :=
  (execute (guarded Unclaimed plainStep) [.ordering2 ⟨1, 0, 8, 1⟩, .ordering2 ⟨2, 0, 9, 2⟩,
    .process 0, .decide ⟨1, 1, 0, 1, plainHash 4 4, 7⟩] (.start 0)).get (by decide +kernel)

theorem replies_follow_decided : answered followedServer = [plainHash 4 4] ∧
    FollowDecisions followedServer.base.outcomes ∧
    (answered followedServer).count (plainHash 4 4) ≤
      (announced followedServer).count (plainHash 4 4) := by
  have hr : Reachable (plainServer.restrict Unclaimed) followedServer :=
    Reachable.trans (.init rfl) (steps_of_execute (fun _ _ _ h => guarded_eq_some h)
      (Option.some_get _).symm)
  exact ⟨by decide +kernel, (replies_follow hr).1, (replies_follow hr).2 _⟩

/-- A client waits for its own command 4, whose hash is that of the first batch. -/
def claimedServer : Server :=
  (execute plainStep [.request 4 4 7, .process 0, .ordering2 ⟨1, 0, 8, 1⟩,
    .ordering2 ⟨2, 0, 9, 2⟩, .process 0] (.start 0)).get (by decide +kernel)

/-- The callback of the batch is called although nothing has been decided. -/
theorem claimed_answered : Reachable plainServer claimedServer ∧
    .call (.batch (plainHash 4 4)) (duplicate 1 (plainHash 4 4)) ∈ claimedServer.base.outcomes ∧
    (duplicate 1 (plainHash 4 4)).decision = 0 ∧
    (∀ fin, .execute fin ∉ claimedServer.base.outcomes) ∧
    claimedServer.answers = [(1, 8), (2, 9)] := by
  refine ⟨?_, by decide +kernel, rfl, ?_, by decide +kernel⟩
  · exact Reachable.trans (.init rfl)
      (steps_of_execute (fun _ _ _ h => h) (Option.some_get _).symm)
  · have hlog : claimedServer.base.outcomes =
        [.call (.batch (plainHash 4 4)) (duplicate 1 (plainHash 4 4)),
          .take (plainHash 4 4) (.batch (plainHash 4 4)), .take (plainHash 4 4) (.client 7)] := by
      decide +kernel
    rw [hlog]
    simp

end steps

end ArchipelagoHotStuff.Archipelago.Replies
