/- Module: ArchipelagoHotStuff/Archipelago/Batches
   source: archipelago_app.cpp (client_ordering2_request_cmd_handler)
   digest: The batches of the leader cut its commit set into consecutive parts that never change,
     and what their callbacks answer. -/

import ArchipelagoHotStuff.Archipelago.Execution
import Mathlib.Data.Nat.ModEq

set_option autoImplicit false
set_option relaxedAutoImplicit false

namespace ArchipelagoHotStuff.Archipelago.Batches

open Crypto.Wire Consensus.State General.Sorting General.Transition Leader Execution
open Base.Commands
open Follower (MsgConsensusReqCmd)

/-- The batches, the latest first, are consecutive from the first element up to `n`. -/
def Contiguous : List Batch → Nat → Prop
  | [], n => n = 0
  | b :: bs, n => b.stop = n ∧ b.start ≤ n ∧ Contiguous bs b.start

/-- The batch announced last under a hash. -/
def batchUnder (h : Uint256) : List MsgConsensusReqCmd → List Batch → Option Batch
  | msg :: msgs, b :: bs => if msg.commitSetHash = h then some b else batchUnder h msgs bs
  | [], _ | _, [] => none

section lists

variable {commitSet commitSet' : List Entry} {bs : List Batch} {b : Batch} {n : Nat}
  {h : Uint256} {msgs : List MsgConsensusReqCmd}

theorem Contiguous.stop_le (hc : Contiguous bs n) (hb : b ∈ bs) : b.stop ≤ n := by
  induction bs generalizing n with
  | nil => cases hb
  | cons b' bs ih =>
      obtain ⟨hstop, hstart, hrest⟩ := hc
      rcases List.mem_cons.mp hb with rfl | hb
      · exact hstop.le
      · exact (ih hrest hb).trans hstart

theorem Contiguous.contents (hc : Contiguous bs n) (commitSet : List Entry) :
    bs.reverse.flatMap (fun b => b.contents commitSet) = commitSet.take n := by
  induction bs generalizing n with
  | nil =>
      obtain rfl : n = 0 := hc
      rfl
  | cons b bs ih =>
      obtain ⟨rfl, hstart, hrest⟩ := hc
      rw [List.reverse_cons, List.flatMap_append, ih hrest, List.flatMap_singleton]
      have hsplit := List.take_append_drop b.start (commitSet.take b.stop)
      rw [List.take_take, Nat.min_eq_left hstart] at hsplit
      exact hsplit

theorem mem_of_batchUnder (hb : batchUnder h msgs bs = some b) : b ∈ bs := by
  induction msgs generalizing bs with
  | nil => cases hb
  | cons msg msgs ih =>
      cases bs with
      | nil => cases hb
      | cons b' bs =>
          unfold batchUnder at hb
          split at hb
          · cases hb
            exact List.mem_cons_self
          · exact List.mem_cons_of_mem _ (ih hb)

theorem batchUnder_cons_ne {msg : MsgConsensusReqCmd} (hne : msg.commitSetHash ≠ h) :
    batchUnder h (msg :: msgs) (b :: bs) = batchUnder h msgs bs :=
  if_neg hne

/-- A hash that has been used again does not stand for the batch it was first used for. -/
theorem mem_of_batchUnder_reused {msg : MsgConsensusReqCmd} {b' : Batch}
    (hlength : msgs.length = bs.length)
    (hreused : msg.commitSetHash = h → h ∈ msgs.map MsgConsensusReqCmd.commitSetHash)
    (hb : batchUnder h (msgs ++ [msg]) (bs ++ [b]) = some b') : b' ∈ bs := by
  induction msgs generalizing bs with
  | nil =>
      obtain rfl := List.eq_nil_of_length_eq_zero hlength.symm
      change (if msg.commitSetHash = h then some b else none) = some b' at hb
      split at hb
      · rename_i heq
        cases hreused heq
      · cases hb
  | cons msg' msgs ih =>
      cases bs with
      | nil => cases hlength
      | cons c bs =>
          change (if msg'.commitSetHash = h then some c
            else batchUnder h (msgs ++ [msg]) (bs ++ [b])) = some b' at hb
          split at hb
          · cases hb
            exact List.mem_cons_self
          · rename_i hne
            refine List.mem_cons_of_mem _ (ih (Nat.succ.inj hlength) (fun heq => ?_) hb)
            rcases List.mem_cons.mp (hreused heq) with heq' | hmem
            · exact absurd heq'.symm hne
            · exact hmem

theorem flatMap_batchUnder {β : Type} (f : Option Batch → List β)
    (hnodup : (msgs.map MsgConsensusReqCmd.commitSetHash).Nodup)
    (hlength : msgs.length = bs.length) :
    (msgs.map MsgConsensusReqCmd.commitSetHash).reverse.flatMap
        (fun h => f (batchUnder h msgs bs)) =
      bs.reverse.flatMap (fun b => f (some b)) := by
  induction msgs generalizing bs with
  | nil =>
      obtain rfl := List.eq_nil_of_length_eq_zero hlength.symm
      rfl
  | cons msg msgs ih =>
      cases bs with
      | nil => cases hlength
      | cons b bs =>
          obtain ⟨hnew, hnodup⟩ := List.nodup_cons.mp hnodup
          rw [List.map_cons, List.reverse_cons, List.flatMap_append, List.flatMap_singleton,
            List.reverse_cons, List.flatMap_append, List.flatMap_singleton,
            ← ih hnodup (Nat.succ.inj hlength)]
          congr 1
          · refine List.flatMap_congr (fun h hh => ?_)
            rw [batchUnder_cons_ne]
            rintro rfl
            exact hnew (List.mem_reverse.mp hh)
          · exact congrArg f (if_pos rfl)

end lists

/-! A request. -/

section request

variable {std : Sorter Entry.timestamp} {app app' : HotStuffApp} {a : Arrival}

/-- A request leaves what is stable alone, and may make the next batch of what follows it
stable. -/
theorem stable_step (hle : app.stablePointIdx ≤ app.commitSet.length)
    (h : app.onOrdering2Request std a = some app') :
    app.stablePointIdx ≤ app'.stablePointIdx ∧
      app'.stablePointIdx ≤ app'.commitSet.length ∧
      app'.commitSet.take app.stablePointIdx = app.commitSet.take app.stablePointIdx ∧
      ((app'.batches = app.batches ∧ app'.stablePointIdx = app.stablePointIdx) ∨
        ∃ b, app'.batches = b :: app.batches ∧ b.start = app.stablePointIdx ∧
          b.stop = app'.stablePointIdx) := by
  have hlength := (commitSet_perm h).1.length_eq
  rw [List.length_append, List.length_singleton] at hlength
  have hfront : (app.commitSet.take app.stablePointIdx).length = app.stablePointIdx :=
    List.length_take_of_le hle
  have htake : (app.commitSet ++ [a.entry]).take app.stablePointIdx =
      app.commitSet.take app.stablePointIdx := List.take_append_of_le_length hle
  rcases onOrdering2Request_cases h with ⟨clock, rfl⟩ | hcut
  · exact ⟨le_rfl, hlength ▸ hle.trans (Nat.le_succ _), htake, .inl ⟨rfl, rfl⟩⟩
  · obtain ⟨bound, rfl⟩ := cutBatch_cases hcut
    refine ⟨Nat.le_add_right _ _, ?_, ?_, .inr ⟨_, rfl, rfl, rfl⟩⟩
    · -- The batch is part of what follows the old index.
      show app.stablePointIdx + (List.takeWhile _ _).length ≤ _
      have hbatch := (List.takeWhile_sublist (fun e : Entry => decide (e.timestamp ≤ bound))
        (l := (((app.commitSet ++ [a.entry]).take app.stablePointIdx ++
          std.sort ((app.commitSet ++ [a.entry]).drop app.stablePointIdx)).take
            ((app.commitSet ++ [a.entry]).length % 2 ^ 32)).drop app.stablePointIdx)).length_le
      rw [List.length_drop, List.length_take] at hbatch
      dsimp only at hlength hbatch ⊢
      omega
    · show List.take _ (_ ++ _) = _
      rw [htake, List.take_append_of_le_length hfront.ge, List.take_take, Nat.min_self]

end request

/-! The leader. -/

/-- Callbacks have answered for some hashes; nothing else has happened. -/
structure Answering (s s' : Server) : Prop where
  app : s'.toHotStuffApp = s.toHotStuffApp
  cnt : s'.cmdCnt = s.cmdCnt
  ranges : s'.execClientRsp = s.execClientRsp
  sent : s'.sent = s.sent
  answers : ∀ x ∈ s'.answers, x ∈ s.answers ∨ ∃ h, x ∈ s.answersFor h

theorem Answering.answersFor {s s' : Server} (hans : Answering s s') (h : Uint256) :
    s'.answersFor h = s.answersFor h := by
  unfold Server.answersFor
  rw [hans.app, hans.ranges]

theorem Answering.trans {s s' s'' : Server} (hans : Answering s s') (hans' : Answering s' s'') :
    Answering s s'' := by
  refine ⟨hans'.app.trans hans.app, hans'.cnt.trans hans.cnt, hans'.ranges.trans hans.ranges,
    hans'.sent.trans hans.sent, fun x hx => ?_⟩
  rcases hans'.answers x hx with hx | ⟨h, hx⟩
  · exact hans.answers x hx
  · rw [hans.answersFor] at hx
    exact .inr ⟨h, hx⟩

theorem answering_runCallbacks (calls : List (Callback × Finality)) (s : Server) :
    Answering s (calls.foldl Server.runCallback s) ∧
      (calls.foldl Server.runCallback s).base = s.base := by
  induction calls generalizing s with
  | nil => exact ⟨⟨rfl, rfl, rfl, rfl, fun _ => .inl⟩, rfl⟩
  | cons p calls ih =>
      obtain ⟨hrest, hbase⟩ := ih (s.runCallback p)
      rw [List.foldl_cons]
      have hfirst : Answering s (s.runCallback p) ∧ (s.runCallback p).base = s.base := by
        obtain ⟨callback, fin⟩ := p
        cases callback with
        | batch h =>
            refine ⟨⟨rfl, rfl, rfl, rfl, fun x hx => ?_⟩, rfl⟩
            rcases List.mem_append.mp hx with hx | hx
            · exact .inl hx
            · exact .inr ⟨h, hx⟩
        | client _ | placeHolder => exact ⟨⟨rfl, rfl, rfl, rfl, fun _ => .inl⟩, rfl⟩
      exact ⟨hfirst.1.trans hrest, hbase.trans hfirst.2⟩

/-- The batches divide the stable part, the table of ranges is that of the batches announced last
under each hash, callbacks are those of announced batches, and as long as no hash has been used
twice, what has been sent is what the batches hold. -/
structure ServerOk (s : Server) : Prop where
  idx_le : s.stablePointIdx ≤ s.commitSet.length
  contiguous : Contiguous s.batches s.stablePointIdx
  length : s.sent.length = s.batches.length
  ranges : ∀ h, s.execClientRsp h =
    (batchUnder h s.sent s.batches).map (fun b => (b.start, b.stop))
  known : ∀ k h, Holds s.base k (.batch h) → h ∈ announced s
  answered : ∀ h ∈ answered s, h ∈ announced s
  answers : (announced s).Nodup → s.answers = (Execution.answered s).reverse.flatMap s.answersFor

theorem answering_advance (s : Server) (c : HotStuffBase Callback) :
    Answering s (s.advance c) ∧ (s.advance c).base = c := by
  obtain ⟨hans, hbase⟩ := answering_runCallbacks (callsSince s.base c) { s with base := c }
  exact ⟨⟨hans.app, hans.cnt, hans.ranges, hans.sent, hans.answers⟩, hbase⟩

section server

variable {hash : DummyHash} {std : Sorter Entry.timestamp} {stablePeriod : Fin (2 ^ 32)}
  {s s' : Server} {a : Arrival} {i : Input} {h : Uint256}

theorem ServerOk.answersFor_eq (hok : ServerOk s) (h : Uint256) :
    s.answersFor h =
      ((batchUnder h s.sent s.batches).elim [] (fun b => b.contents s.commitSet)).map answer := by
  unfold Server.answersFor
  rw [hok.ranges]
  cases batchUnder h s.sent s.batches with
  | none => rfl
  | some b => rfl

theorem ServerOk.answersFor_stable {t : Server} (hok : ServerOk s)
    (hrsp : t.execClientRsp h = s.execClientRsp h)
    (htake : t.commitSet.take s.stablePointIdx = s.commitSet.take s.stablePointIdx) :
    t.answersFor h = s.answersFor h := by
  unfold Server.answersFor
  rw [hrsp, hok.ranges]
  cases hb : batchUnder h s.sent s.batches with
  | none => rfl
  | some b =>
      exact congrArg (List.map answer)
        (contents_congr (hok.contiguous.stop_le (mem_of_batchUnder hb)) htake)

private theorem ServerOk.request (hok : ServerOk s) (k : Uint256) (addr : Nat) :
    ServerOk { s with base := s.base.execCommand k (.client addr) } := by
  refine ⟨hok.idx_le, hok.contiguous, hok.length, hok.ranges, fun k' h hholds => ?_,
    hok.answered, hok.answers⟩
  refine hok.known k' h ?_
  rcases hholds with hmem | hsome
  · rcases List.mem_append.mp hmem with hmem | hmem
    · exact .inl hmem
    · cases List.mem_singleton.mp hmem
  · exact .inr hsome

private theorem ServerOk.quiet (hok : ServerOk s) {app : HotStuffApp}
    (hbatches : app.batches = s.batches) (hidx : app.stablePointIdx = s.stablePointIdx)
    (hle : app.stablePointIdx ≤ app.commitSet.length)
    (htake : app.commitSet.take s.stablePointIdx = s.commitSet.take s.stablePointIdx) :
    ServerOk { s with toHotStuffApp := app } := by
  refine ⟨hle, ?_, ?_, ?_, hok.known, hok.answered, fun hnodup => ?_⟩
  · show Contiguous app.batches app.stablePointIdx
    rw [hbatches, hidx]
    exact hok.contiguous
  · show s.sent.length = app.batches.length
    rw [hbatches]
    exact hok.length
  · show ∀ h, s.execClientRsp h = (batchUnder h s.sent app.batches).map _
    rw [hbatches]
    exact hok.ranges
  · refine (hok.answers hnodup).trans (List.flatMap_congr (fun h _ => ?_))
    exact (hok.answersFor_stable (t := { s with toHotStuffApp := app }) rfl htake).symm

private theorem ServerOk.announce (hok : ServerOk s) {app : HotStuffApp} {b : Batch}
    (hbatches : app.batches = b :: s.batches) (hstart : b.start = s.stablePointIdx)
    (hstop : b.stop = app.stablePointIdx) (hidx : s.stablePointIdx ≤ app.stablePointIdx)
    (hle : app.stablePointIdx ≤ app.commitSet.length)
    (htake : app.commitSet.take s.stablePointIdx = s.commitSet.take s.stablePointIdx) :
    ServerOk (s.announce hash app b) := by
  have hannounced : announced (s.announce hash app b) =
      hash 4 (s.cmdCnt + 4) :: announced s := rfl
  have hrsp : ∀ h, (s.announce hash app b).execClientRsp h =
      if hash 4 (s.cmdCnt + 4) = h then some (b.start, b.stop) else s.execClientRsp h := by
    intro h
    show Function.update _ _ _ h = _
    by_cases hh : hash 4 (s.cmdCnt + 4) = h
    · rw [if_pos hh, ← hh, Function.update_self]
    · rw [if_neg hh, Function.update_of_ne (fun heq => hh heq.symm)]
  refine ⟨hle, ?_, ?_, fun h => ?_, fun k h hholds => ?_, fun h hmem => ?_, fun hnodup => ?_⟩
  · show Contiguous app.batches app.stablePointIdx
    rw [hbatches]
    exact ⟨hstop, hstart ▸ hidx, hstart ▸ hok.contiguous⟩
  · show (s.sent.length + 1) = app.batches.length
    rw [hbatches, List.length_cons, hok.length]
  · rw [hrsp]
    show _ = (batchUnder h (_ :: s.sent) app.batches).map _
    rw [hbatches]
    unfold batchUnder
    dsimp only
    split
    · rfl
    · exact hok.ranges h
  · rw [hannounced]
    rcases hholds with hmem | hsome
    · rw [pending_announce] at hmem
      rcases List.mem_append.mp hmem with hmem | hmem
      · exact List.mem_cons_of_mem _ (hok.known k h (.inl hmem))
      · rw [(eq_of_mem_announcement hmem).2]
        exact List.mem_cons_self
    · exact List.mem_cons_of_mem _ (hok.known k h (.inr hsome))
  · rw [hannounced]
    exact List.mem_cons_of_mem _ (hok.answered h hmem)
  · rw [hannounced] at hnodup
    obtain ⟨hnew, hnodup⟩ := List.nodup_cons.mp hnodup
    refine (hok.answers hnodup).trans (List.flatMap_congr (fun h hh => ?_))
    refine (hok.answersFor_stable (t := s.announce hash app b) ?_ htake).symm
    rw [hrsp, if_neg]
    rintro rfl
    exact hnew (hok.answered _ (List.mem_reverse.mp hh))

private theorem ServerOk.moves (hok : ServerOk s) {c : HotStuffBase Callback}
    {calls : List (Callback × Finality)} (hmoves : Moves s.base c calls) :
    ServerOk (calls.foldl Server.runCallback { s with base := c }) := by
  have hknown : ∀ k h, Holds c k (.batch h) → h ∈ announced s :=
    fun k h hholds => hok.known k h (hmoves.holds k _ hholds)
  have hlog := answered_of_moves hmoves
  have hcalls : calls = [] ∨ ∃ callback fin, calls = [(callback, fin)] := by
    match calls, hmoves.one with
    | [], _ => exact .inl rfl
    | [(callback, fin)], _ => exact .inr ⟨callback, fin, rfl⟩
  rcases hcalls with rfl | ⟨callback, fin, rfl⟩
  · have hsame : Execution.answered { s with base := c } = Execution.answered s := hlog
    refine ⟨hok.idx_le, hok.contiguous, hok.length, hok.ranges, hknown, ?_, fun hnodup => ?_⟩
    · show ∀ h ∈ Execution.answered { s with base := c }, _
      rw [hsame]
      exact hok.answered
    · show s.answers = (Execution.answered { s with base := c }).reverse.flatMap s.answersFor
      rw [hsame]
      exact hok.answers hnodup
  · have hheld := hmoves.held callback fin List.mem_cons_self
    cases callback with
    | batch h =>
        have hnext : c.outcomes.filterMap answeredBatch = h :: Execution.answered s := hlog
        refine ⟨hok.idx_le, hok.contiguous, hok.length, hok.ranges, hknown, ?_, fun hnodup => ?_⟩
        · show ∀ k ∈ c.outcomes.filterMap answeredBatch, k ∈ announced s
          rw [hnext]
          intro k hk
          rcases List.mem_cons.mp hk with rfl | hk
          · exact hok.known _ _ hheld
          · exact hok.answered k hk
        · show s.answers ++ s.answersFor h =
            (c.outcomes.filterMap answeredBatch).reverse.flatMap s.answersFor
          rw [hnext, List.reverse_cons, List.flatMap_append, List.flatMap_singleton,
            ← hok.answers hnodup]
    | client _ | placeHolder =>
        have hsame : c.outcomes.filterMap answeredBatch = Execution.answered s := hlog
        refine ⟨hok.idx_le, hok.contiguous, hok.length, hok.ranges, hknown, ?_, fun hnodup => ?_⟩
        · show ∀ k ∈ c.outcomes.filterMap answeredBatch, k ∈ announced s
          rw [hsame]
          exact hok.answered
        · show s.answers = (c.outcomes.filterMap answeredBatch).reverse.flatMap s.answersFor
          rw [hsame]
          exact hok.answers hnodup

theorem ServerOk.step (hok : ServerOk s) (hstep : s.step hash std i = some s') : ServerOk s' := by
  rcases step_commands hstep with ⟨cid, n, addr, _, rfl⟩ | ⟨a, _, hreq⟩ |
    ⟨c, calls, _, hmoves, rfl⟩
  · exact hok.request _ _
  · obtain ⟨happ, hcases⟩ := onOrdering2Request_eq hreq
    obtain ⟨hidx, hle, htake, hbatch⟩ := stable_step hok.idx_le happ
    rcases hcases with ⟨hbatches, heq⟩ | ⟨b, hbatches, heq⟩
    · rw [heq]
      rcases hbatch with ⟨_, hsame⟩ | ⟨b, hcons, _⟩
      · exact hok.quiet hbatches hsame hle htake
      · exact absurd (congrArg List.length (hcons.symm.trans hbatches)) (by simp)
    · rw [heq]
      rcases hbatch with ⟨hsame, _⟩ | ⟨b', hcons, hstart, hstop⟩
      · exact absurd (congrArg List.length (hbatches.symm.trans hsame)) (by simp)
      · obtain ⟨rfl, _⟩ := List.cons.inj (hbatches.symm.trans hcons)
        exact hok.announce hbatches hstart hstop hidx hle htake
  · exact hok.moves hmoves

theorem serverOk_of_reachable (hr : Reachable (server hash std stablePeriod) s) : ServerOk s := by
  refine hr.invariant ?_ (fun _ _ _ _ hok hstep => hok.step hstep)
  rintro s rfl
  refine ⟨le_rfl, rfl, rfl, fun _ => rfl, fun k h hholds => ?_, nofun, fun _ => rfl⟩
  rcases hholds with hmem | hsome
  · cases hmem
  · cases hsome

theorem ServerOk.stable_answers (hok : ServerOk s) (hnodup : (announced s).Nodup) :
    (announced s).reverse.flatMap s.answersFor =
      (s.commitSet.take s.stablePointIdx).map answer := by
  have hall := flatMap_batchUnder
    (fun b => (b.elim [] (fun b => b.contents s.commitSet)).map answer) hnodup hok.length
  refine (List.flatMap_congr (fun h _ => hok.answersFor_eq h)).trans (hall.trans ?_)
  rw [← hok.contiguous.contents s.commitSet, List.map_flatMap]
  rfl

def added : Input → List Entry
  | .ordering2 a => [a.entry]
  | .request _ _ _ | .process _ | .beat _ | .decide _ => []

/-- One step adds the request that has arrived, and leaves what is stable alone. -/
theorem commitSet_step (hok : ServerOk s) (hstep : s.step hash std i = some s') :
    s'.commitSet.Perm (s.commitSet ++ added i) ∧ s.stablePointIdx ≤ s'.stablePointIdx ∧
      s'.commitSet.take s.stablePointIdx = s.commitSet.take s.stablePointIdx := by
  rcases step_commands hstep with ⟨cid, n, addr, rfl, rfl⟩ | ⟨a, rfl, hreq⟩ |
    ⟨c, calls, hnone, hmoves, rfl⟩
  · exact ⟨.of_eq (List.append_nil _).symm, le_rfl, rfl⟩
  · obtain ⟨happ, _⟩ := onOrdering2Request_eq hreq
    obtain ⟨hidx, _, htake, _⟩ := stable_step hok.idx_le happ
    exact ⟨(commitSet_perm happ).1, hidx, htake⟩
  · rw [(answering_runCallbacks calls _).1.app, show added i = [] from ?_, List.append_nil]
    · exact ⟨.refl _, le_rfl, rfl⟩
    · cases i with
      | ordering2 a => exact absurd rfl (hnone a)
      | request _ _ _ | process _ | beat _ | decide _ => rfl

/-- The batches divide the stable part of the commit set, which only grows; and once the callback
of every batch has run, everything in it has been answered once, as long as no two batches have
been announced under one hash. -/
theorem batches_partition (hr : Reachable (server hash std stablePeriod) s) :
    Contiguous s.batches s.stablePointIdx ∧ s.stablePointIdx ≤ s.commitSet.length ∧
      (∀ s', Steps (server hash std stablePeriod) s s' → s.stablePointIdx ≤ s'.stablePointIdx ∧
        s'.commitSet.take s.stablePointIdx = s.commitSet.take s.stablePointIdx) ∧
      (∀ i s', s.step hash std i = some s' → s'.commitSet.Perm (s.commitSet ++ added i)) ∧
      ((announced s).Nodup → (answered s).Perm (announced s) →
        s.answers.Perm ((s.commitSet.take s.stablePointIdx).map answer)) := by
  have hok := serverOk_of_reachable hr
  refine ⟨hok.contiguous, hok.idx_le, fun s' hs => ?_,
    fun i s' hstep => (commitSet_step hok hstep).1, fun hnodup hperm => ?_⟩
  · refine Steps.monotone (R := fun s s' => s.stablePointIdx ≤ s'.stablePointIdx ∧
      s'.commitSet.take s.stablePointIdx = s.commitSet.take s.stablePointIdx) hr
      (fun s => ⟨le_rfl, rfl⟩) (fun h h' => ⟨h.1.trans h'.1, ?_⟩) ?_ hs
    · rename_i s t u
      have htake := congrArg (List.take s.stablePointIdx) h'.2
      rw [List.take_take, List.take_take, Nat.min_eq_left h.1] at htake
      exact htake.trans h.2
    · intro s i s' hs hstep
      exact (commitSet_step (serverOk_of_reachable hs) hstep).2
  · rw [← hok.stable_answers hnodup, hok.answers hnodup]
    exact ((List.reverse_perm _).trans (hperm.trans (List.reverse_perm _).symm)).flatMap_right _

end server

/-! A leader with a period of nothing. -/

def plainHash : DummyHash := fun cid n => BitVec.ofNat 256 (cid.val * 2 ^ 32 + n.val)

def plainServer : System Server Input := server plainHash (.insertion _) 0

def plainStep : Server → Input → Option Server := Server.step plainHash (.insertion _)

/-- The first batch has two elements and is decided. -/
def answeredServer : Server :=
  (execute plainStep [.ordering2 ⟨1, 0, 8, 1⟩, .ordering2 ⟨2, 0, 9, 2⟩, .process 0,
    .decide ⟨1, 1, 0, 1, plainHash 4 4, 7⟩] (.start 0)).get (by decide +kernel)

theorem batches_partition_answered : answeredServer.stablePointIdx = 2 ∧
    answeredServer.answers.Perm
      ((answeredServer.commitSet.take answeredServer.stablePointIdx).map answer) := by
  have hr : Reachable plainServer answeredServer :=
    Reachable.trans (.init rfl) (steps_of_execute (fun _ _ _ h => h) (Option.some_get _).symm)
  refine ⟨by decide +kernel, (batches_partition hr).2.2.2.2 ?_ (.of_eq ?_)⟩
  · rw [show announced answeredServer = [plainHash 4 4] by decide +kernel]
    exact List.nodup_singleton _
  · decide +kernel

/-! The hashes of the batches repeat once `cmd_cnt` has come round. -/

/-- The batches announced so far stand under the hashes of the fifth counter value each. -/
structure Numbered (hash : DummyHash) (s : Server) : Prop where
  cnt : s.cmdCnt = Fin.ofNat (2 ^ 32) (5 * s.sent.length)
  announced : announced s =
    ((List.range s.sent.length).map (fun k => hash 4 (Fin.ofNat (2 ^ 32) (5 * k + 4)))).reverse

section numbered

variable {hash : DummyHash} {std : Sorter Entry.timestamp} {stablePeriod : Fin (2 ^ 32)}
  {s s' : Server} {i : Input}

private theorem ofNat_add (m n : Nat) :
    Fin.ofNat (2 ^ 32) m + Fin.ofNat (2 ^ 32) n = Fin.ofNat (2 ^ 32) (m + n) := by
  apply Fin.ext
  rw [Fin.val_add]
  exact (Nat.add_mod m n (2 ^ 32)).symm

theorem Numbered.announce (hok : Numbered hash s) (app : HotStuffApp) (b : Batch) :
    Numbered hash (s.announce hash app b) := by
  have hadd : ∀ n, Fin.ofNat (2 ^ 32) (5 * s.sent.length) + Fin.ofNat (2 ^ 32) n =
      Fin.ofNat (2 ^ 32) (5 * s.sent.length + n) := ofNat_add _
  refine ⟨?_, ?_⟩
  · have hcnt : (s.announce hash app b).cmdCnt = s.cmdCnt + Fin.ofNat (2 ^ 32) 5 := rfl
    rw [hcnt, hok.cnt, hadd]
    rfl
  · have hlist : Execution.announced (s.announce hash app b) =
        hash 4 (s.cmdCnt + Fin.ofNat (2 ^ 32) 4) :: Execution.announced s := rfl
    have hsent : (s.announce hash app b).sent.length = s.sent.length + 1 := rfl
    rw [hlist, hsent, hok.cnt, hadd, hok.announced, List.range_succ, List.map_append,
      List.reverse_append]
    rfl

theorem Numbered.step (hok : Numbered hash s) (hstep : s.step hash std i = some s') :
    Numbered hash s' := by
  rcases step_commands hstep with ⟨cid, n, addr, _, rfl⟩ | ⟨a, _, hreq⟩ | ⟨c, calls, _, _, rfl⟩
  · exact ⟨hok.cnt, hok.announced⟩
  · obtain ⟨_, ⟨_, heq⟩ | ⟨b, _, heq⟩⟩ := onOrdering2Request_eq hreq
    · rw [heq]
      exact ⟨hok.cnt, hok.announced⟩
    · rw [heq]
      exact hok.announce _ b
  · have hsame := (answering_runCallbacks calls { s with base := c }).1
    refine ⟨?_, ?_⟩
    · rw [hsame.sent, hsame.cnt]
      exact hok.cnt
    · unfold Execution.announced
      rw [hsame.sent]
      exact hok.announced

theorem numbered_of_reachable (hr : Reachable (server hash std stablePeriod) s) :
    Numbered hash s := by
  refine hr.invariant ?_ (fun _ _ _ _ hok hstep => hok.step hstep)
  rintro s rfl
  exact ⟨rfl, rfl⟩

private theorem odd_steps {k l : Nat} (hk : k < 2 ^ 32) (hl : l < 2 ^ 32)
    (hmod : (5 * k + 4) % 2 ^ 32 = (5 * l + 4) % 2 ^ 32) : k = l := by
  have hprod : 5 * k ≡ 5 * l [MOD 2 ^ 32] := Nat.ModEq.add_right_cancel' 4 hmod
  exact (hprod.cancel_left_of_coprime (by decide)).eq_of_lt_of_lt hk hl

/-- The first `2 ^ 32` batches stand under different hashes if the hash has no collision. -/
theorem announced_nodup (hr : Reachable (server hash std stablePeriod) s)
    (hinj : Function.Injective (hash 4)) (hlength : s.sent.length ≤ 2 ^ 32) :
    (announced s).Nodup := by
  rw [(numbered_of_reachable hr).announced, List.nodup_reverse]
  refine List.Nodup.map_on (fun k hk l hl heq => ?_) List.nodup_range
  have hmod := Fin.ext_iff.mp (hinj heq)
  rw [Fin.val_ofNat, Fin.val_ofNat] at hmod
  exact odd_steps ((List.mem_range.mp hk).trans_le hlength)
    ((List.mem_range.mp hl).trans_le hlength) hmod

end numbered

/-! A leader whose first callback runs after the hash of its batch has been used again. -/

/-- The first batch has two elements, the first of which is command 1. -/
def firstBatch : Server :=
  (execute plainStep [.ordering2 ⟨1, 0, 0, 1⟩, .ordering2 ⟨0, 0, 0, 2⟩] (.start 0)).get
    (by decide +kernel)

/-- No callback has run yet, and command 1 is in the first batch only. -/
structure Pending (n : Nat) (s : Server) : Prop where
  idx : s.idx = 1
  stablePoint : s.stablePoint = 0
  stablePeriod : s.stablePeriod = 0
  clock : s.execLastBatchClock.val = n + 1
  stable : 2 ≤ s.stablePointIdx
  length : s.sent.length = n
  kept : ⟨1, 0, 0⟩ ∈ s.commitSet.take 2
  rest : ∀ x ∈ s.commitSet.drop 2, x.cmdHash = 0
  later : ∃ bs b, s.batches = bs ++ [b] ∧ ∀ b ∈ bs, 2 ≤ b.start
  waiting : ∀ h, s.base.decisionWaiting h = none
  queue : s.base.cmdPending.filterMap (fun p => batchOf p.2) = (announced s).reverse
  answered : Execution.answered s = []
  answers : s.answers = []

section late

variable {s : Server} {n : Nat}

private theorem pending_firstBatch : Pending 1 firstBatch := by
  refine ⟨by decide +kernel, by decide +kernel, by decide +kernel, by decide +kernel,
    by decide +kernel, by decide +kernel, ?_, ?_, ⟨[], ⟨0, 0, 2⟩, by decide +kernel, nofun⟩,
    fun h => rfl, by decide +kernel, by decide +kernel, by decide +kernel⟩
  · exact List.mem_cons_self
  · exact nofun

private theorem drop_two {l l' : List Entry} {e : Entry} {m : Nat} (hm : 2 ≤ m)
    (htake : l'.take m = l.take m) (hperm : l'.Perm (l ++ [e])) :
    l'.take 2 = l.take 2 ∧ (l'.drop 2).Perm (l.drop 2 ++ [e]) := by
  have htwo : l'.take 2 = l.take 2 := by
    have := congrArg (List.take 2) htake
    rwa [List.take_take, List.take_take, Nat.min_eq_left hm] at this
  refine ⟨htwo, (List.perm_append_left_iff (l.take 2)).mp ?_⟩
  rw [← List.append_assoc, List.take_append_drop, ← htwo, List.take_append_drop]
  exact hperm

private theorem Pending.step (hp : Pending n s) (hok : ServerOk s) (hn : n + 2 < 2 ^ 64) :
    ∃ i s', plainStep s i = some s' ∧ Pending (n + 1) s' := by
  generalize hclock : (Fin.ofNat (2 ^ 64) (n + 2) : Timestamp) = clock
  have hval : clock.val = n + 2 := by
    rw [← hclock, Fin.val_ofNat]
    exact Nat.mod_eq_of_lt hn
  let app : HotStuffApp := { s.toHotStuffApp with commitSet := s.commitSet ++ [⟨0, 0, 0⟩] }
  obtain ⟨app', hcut⟩ : ∃ app', app.cutBatch (.insertion _) clock = some app' :=
    exists_cutBatch (.insertion _) clock
      (List.append_ne_nil_of_right_ne_nil _ (List.cons_ne_nil _ _))
  have hreq : s.toHotStuffApp.onOrdering2Request (.insertion _) ⟨0, 0, 0, clock⟩ = some app' := by
    have hperiod : s.toHotStuffApp.period = 0 := by
      unfold HotStuffApp.period
      rw [hp.stablePeriod]
      rfl
    have hlater : s.execLastBatchClock + s.toHotStuffApp.period < clock := by
      rw [hperiod, Fin.lt_def, Fin.val_add, hval]
      show (s.execLastBatchClock.val + 0) % 2 ^ 64 < n + 2
      rw [Nat.mod_eq_of_lt (by omega), hp.clock]
      exact Nat.lt_succ_self _
    have hstarted : s.execLastBatchClock ≠ 0 := by
      intro hzero
      have := hp.clock
      rw [hzero] at this
      cases this
    unfold HotStuffApp.onOrdering2Request
    rw [if_neg (by rw [hp.stablePoint]; exact lt_irrefl _)]
    dsimp only
    rw [if_neg (not_not.mpr hp.idx), if_neg hstarted]
    exact (if_pos hlater).trans hcut
  obtain ⟨hidx, hle, htake, hbatch⟩ := stable_step hok.idx_le hreq
  obtain ⟨hkept, hrest⟩ := drop_two hp.stable htake (commitSet_perm hreq).1
  obtain ⟨s', hstep⟩ := exists_onOrdering2Request plainHash hreq
  refine ⟨.ordering2 ⟨0, 0, 0, clock⟩, s', hstep, ?_⟩
  obtain ⟨happ, hcases⟩ := onOrdering2Request_eq hstep
  obtain rfl := Option.some.inj (hreq.symm.trans happ)
  obtain ⟨bound, hnext⟩ := cutBatch_cases hcut
  rcases hcases with ⟨hsame, _⟩ | ⟨b, hbatches, heq⟩
  · have hcons := congrArg HotStuffApp.batches hnext
    exact absurd (congrArg List.length (hcons.symm.trans hsame)) (by simp [app])
  have hstart : b.start = s.stablePointIdx := by
    rcases hbatch with ⟨hsame, _⟩ | ⟨b', hcons, hstart, _⟩
    · exact absurd (congrArg List.length (hbatches.symm.trans hsame)) (by simp)
    · rw [(List.cons.inj (hbatches.symm.trans hcons)).1]
      exact hstart
  have hclocks := congrArg HotStuffApp.execLastBatchClock hnext
  obtain ⟨bs, b', hbs, hlater⟩ := hp.later
  refine ⟨(congrArg HotStuffApp.idx hnext).trans hp.idx,
    (congrArg HotStuffApp.stablePoint hnext).trans hp.stablePoint,
    (congrArg HotStuffApp.stablePeriod hnext).trans hp.stablePeriod, ?_, hp.stable.trans hidx, ?_,
    ?_, fun x hx => ?_, ⟨b :: bs, b', ?_, fun c hc => ?_⟩, fun h => ?_, ?_, ?_, ?_⟩
  · rw [hclocks]
    exact hval
  · rw [heq]
    exact congrArg Nat.succ hp.length
  · rw [hkept]
    exact hp.kept
  · rcases List.mem_append.mp (hrest.mem_iff.mp hx) with hx | hx
    · exact hp.rest x hx
    · rw [List.mem_singleton.mp hx]
      rfl
  · rw [hbatches, hbs]
    rfl
  · rcases List.mem_cons.mp hc with rfl | hc
    · exact hstart ▸ hp.stable
    · exact hlater c hc
  · rw [heq]
    exact hp.waiting h
  · rw [heq, pending_announce, List.filterMap_append, hp.queue]
    exact List.reverse_cons.symm
  · rw [heq]
    exact hp.answered
  · rw [heq]
    exact hp.answers

private theorem exists_pending (n : Nat) (hn : n + 2 < 2 ^ 64) :
    ∃ s, Reachable plainServer s ∧ Pending (n + 1) s := by
  induction n with
  | zero =>
      exact ⟨firstBatch, Reachable.trans (.init rfl) (steps_of_execute (fun _ _ _ h => h)
        (Option.some_get _).symm), pending_firstBatch⟩
  | succ n ih =>
      obtain ⟨s, hr, hp⟩ := ih (by omega)
      obtain ⟨i, s', hstep, hp'⟩ := hp.step (serverOk_of_reachable hr) hn
      exact ⟨s', hr.step hstep, hp'⟩

/-- The handler takes the first command of the queue, and it is decided at once. -/
private theorem decide_next {k : Uint256} {callback : Callback} {queue : List (Uint256 × Callback)}
    (hqueue : s.base.cmdPending = (k, callback) :: queue)
    (hwaiting : ∀ h, s.base.decisionWaiting h = none) :
    ∃ s', Steps plainServer s s' ∧ Answering s s' ∧ s'.base.cmdPending = queue ∧
      (∀ h, s'.base.decisionWaiting h = none) ∧
      answered s' = (batchOf callback).toList ++ answered s := by
  obtain ⟨c, hc⟩ : ∃ c, s.base.process 0 = some c := by
    unfold HotStuffBase.process
    rw [hqueue]
    dsimp only
    split
    · exact ⟨_, rfl⟩
    · exact ⟨_, rfl⟩
  obtain ⟨k', callback', queue', hqueue', hrest, _, hwait⟩ := process_spec hc
  obtain ⟨hk, rfl⟩ := List.cons.inj (hqueue'.symm.trans hqueue)
  obtain ⟨rfl, rfl⟩ := Prod.mk.inj hk
  obtain ⟨hwait, hlog⟩ : c.decisionWaiting = Function.update s.base.decisionWaiting k'
      (some callback') ∧ c.outcomes = .take k' callback' :: s.base.outcomes := by
    rcases hwait with ⟨_, hwait, hlog⟩ | ⟨hsome, _⟩
    · exact ⟨hwait, hlog⟩
    · exact absurd (hwaiting k') hsome
  let fin : Finality := ⟨1, 1, 0, 0, k', 0⟩
  have hfin : c.decisionWaiting fin.cmdHash = some callback' := by
    rw [hwait]
    exact Function.update_self _ _ _
  obtain ⟨hrest', _, ⟨hnone, _⟩ | ⟨callback, hsome, hwait', hlog'⟩⟩ := doDecide_spec c fin
  · rw [hfin] at hnone
    cases hnone
  obtain rfl := Option.some.inj (hfin.symm.trans hsome)
  obtain ⟨htake, hbase⟩ := answering_advance s c
  obtain ⟨hcall, hbase'⟩ := answering_advance (s.advance c) ((s.advance c).base.doDecide fin)
  have hprocess : plainStep s (.process 0) = some (s.advance c) := by
    show (s.base.process 0).map s.advance = _
    rw [hc]
    rfl
  have hdecide : plainStep (s.advance c) (.decide fin) =
      some ((s.advance c).advance ((s.advance c).base.doDecide fin)) := rfl
  rw [hbase] at hcall hbase' hdecide
  refine ⟨_, .tail (.tail .refl ⟨_, hprocess⟩) ⟨_, hdecide⟩, htake.trans hcall, ?_, fun h => ?_, ?_⟩
  · rw [hbase', hrest', hrest]
  · rw [hbase', hwait', hwait]
    by_cases hk : h = k'
    · subst hk
      exact Function.update_self _ _ _
    · rw [Function.update_of_ne hk, Function.update_of_ne hk]
      exact hwaiting h
  · unfold answered
    rw [hbase', hlog', hlog]
    cases callback' <;> rfl

private theorem decide_all (queue : List (Uint256 × Callback)) (s : Server)
    (hqueue : s.base.cmdPending = queue) (hwaiting : ∀ h, s.base.decisionWaiting h = none) :
    ∃ s', Steps plainServer s s' ∧ Answering s s' ∧
      answered s' = (queue.filterMap (fun p => batchOf p.2)).reverse ++ answered s := by
  induction queue generalizing s with
  | nil => exact ⟨s, .refl, ⟨rfl, rfl, rfl, rfl, fun _ => .inl⟩, rfl⟩
  | cons p queue ih =>
      obtain ⟨k, callback⟩ := p
      obtain ⟨t, hs, hans, hqueue', hwaiting', hlog⟩ := decide_next hqueue hwaiting
      obtain ⟨s', hs', hans', hlog'⟩ := ih t hqueue' hwaiting'
      refine ⟨s', hs.trans hs', hans.trans hans', ?_⟩
      rw [hlog', hlog, ← List.append_assoc]
      cases hb : batchOf callback with
      | none => simp [hb]
      | some h => simp [hb]

/-- If the counter has come round with the last batch, its hash is that of the first. -/
private theorem exists_reused (hr : Reachable plainServer s) (hlength : s.sent.length = n + 2)
    (hround : Fin.ofNat (2 ^ 32) (5 * (n + 1) + 4) = Fin.ofNat (2 ^ 32) (5 * 0 + 4)) :
    ∃ msgs msg, s.sent = msgs ++ [msg] ∧
      msg.commitSetHash ∈ msgs.map MsgConsensusReqCmd.commitSetHash := by
  have hlist := (numbered_of_reachable hr).announced
  rw [hlength, List.range_succ, List.map_append, List.reverse_append, List.map_singleton,
    List.reverse_singleton, hround, List.range_succ_eq_map, List.map_cons, List.reverse_cons,
    ← List.append_assoc] at hlist
  obtain ⟨msgs, last, hsent, hmsgs, hlast⟩ := List.map_eq_append_iff.mp hlist
  obtain ⟨msg, rfl, hmsg⟩ := List.map_eq_singleton_iff.mp hlast
  refine ⟨msgs, msg, hsent, ?_⟩
  rw [hmsgs, hmsg]
  exact List.mem_append_left _ (List.mem_singleton_self _)

/-- Once the hash of the first batch has been used again, its callback answers for the later batch;
nobody answers command 1. -/
theorem answered_late : ∃ s, Reachable plainServer s ∧ (answered s).Perm (announced s) ∧
    ¬ s.answers.Perm ((s.commitSet.take s.stablePointIdx).map answer) := by
  obtain ⟨s, hr, hp⟩ := exists_pending (2 ^ 32) (by decide)
  obtain ⟨s', hs, hans, hlog⟩ := decide_all _ s rfl hp.waiting
  have hok := serverOk_of_reachable hr
  refine ⟨s', hr.trans hs, ?_, fun hperm => ?_⟩
  · have hsame : announced s' = announced s := congrArg (List.map _) hans.sent
    rw [hlog, hp.queue, hp.answered, List.reverse_reverse, List.append_nil, hsame]
  · obtain ⟨msgs, msg, hsent, hreused⟩ := exists_reused hr hp.length (by decide)
    obtain ⟨bs, b, hbatches, hlater⟩ := hp.later
    have hlength : msgs.length = bs.length := by
      have := hok.length
      rw [hsent, hbatches, List.length_append, List.length_append] at this
      exact Nat.succ.inj this
    have hmem : answer ⟨1, 0, 0⟩ ∈ s'.answers := by
      rw [hperm.mem_iff, hans.app]
      exact List.mem_map_of_mem (List.take_subset_take_left _ hp.stable hp.kept)
    rcases hans.answers _ hmem with hold | ⟨h, hans⟩
    · rw [hp.answers] at hold
      cases hold
    · rw [hok.answersFor_eq, hsent, hbatches] at hans
      cases hunder : batchUnder h (msgs ++ [msg]) (bs ++ [b]) with
      | none =>
          rw [hunder] at hans
          cases hans
      | some c =>
          rw [hunder] at hans
          obtain ⟨x, hx, heq⟩ := List.mem_map.mp hans
          have hstart := hlater c (mem_of_batchUnder_reused hlength (fun hk => hk ▸ hreused) hunder)
          have hdrop : x ∈ s.commitSet.drop 2 := by
            have hcontents : x ∈ (s.commitSet.take c.stop).drop c.start := hx
            exact (List.take_sublist _ _).drop 2 |>.subset
              (List.drop_subset_drop_left _ hstart hcontents)
          have hhash := congrArg Prod.fst heq
          rw [show (answer x).1 = 0 from hp.rest x hdrop] at hhash
          cases hhash

end late

end ArchipelagoHotStuff.Archipelago.Batches
