/- Module: ArchipelagoHotStuff/Archipelago/Leader
   source: archipelago_app.cpp (client_ordering2_request_cmd_handler), hotstuff.h (commit_set)
   digest: The batches the leader cuts from the commit set, and when they are in order. -/

import ArchipelagoHotStuff.Crypto.Wire
import ArchipelagoHotStuff.General.Sorting
import ArchipelagoHotStuff.General.Transition

set_option autoImplicit false
set_option relaxedAutoImplicit false

namespace ArchipelagoHotStuff.Archipelago.Leader

open Crypto.Wire General.Sorting General.Transition

/-- An element of `commit_set`: command, timestamp and the client to answer. -/
structure Entry where
  cmdHash : Uint256
  timestamp : Timestamp
  addr : Nat

/-- `broadcast_start_consensus` for the elements `[start, stop)` of the commit set. -/
structure Batch where
  stableTimestamp : Timestamp
  start : Nat
  stop : Nat
  deriving DecidableEq

/-- What the handler uses of `HotStuffApp`.  `batches` lists what was broadcast, the latest
first. -/
structure HotStuffApp where
  idx : ReplicaID
  stablePeriod : Fin (2 ^ 32)
  stablePoint : Timestamp
  stablePointIdx : Nat
  commitSet : List Entry
  execLastBatchClock : Timestamp
  batches : List Batch

/-- A request and the clock reading on its arrival. -/
structure Arrival where
  cmdHash : Uint256
  timestamp : Timestamp
  addr : Nat
  currClock : Timestamp

def Arrival.entry (a : Arrival) : Entry := ⟨a.cmdHash, a.timestamp, a.addr⟩

namespace HotStuffApp

variable (app : HotStuffApp)

def start (idx : ReplicaID) (stablePeriod : Fin (2 ^ 32)) : HotStuffApp :=
  { idx, stablePeriod, stablePoint := 0, stablePointIdx := 0, commitSet := [],
    execLastBatchClock := 0, batches := [] }

/-- `stable_period * 1000`, a product of 32 bits. -/
def period : Timestamp := Fin.ofNat (2 ^ 64) (app.stablePeriod.val * 1000 % 2 ^ 32)

/-- Sort what is not stable yet, and make stable all up to one period before its end. -/
def cutBatch (std : Sorter Entry.timestamp) (currClock : Timestamp) : Option HotStuffApp :=
  let commitSetSize := app.commitSet.length % 2 ^ 32
  let commitSet :=
    app.commitSet.take app.stablePointIdx ++ std.sort (app.commitSet.drop app.stablePointIdx)
  match commitSet[(commitSetSize + 2 ^ 32 - 1) % 2 ^ 32]? with
  | none => none
  | some last =>
      let batchEndTimestamp := last.timestamp - app.period
      let nextStablePointIdx := app.stablePointIdx +
        (((commitSet.take commitSetSize).drop app.stablePointIdx).takeWhile
          (fun e => decide (e.timestamp ≤ batchEndTimestamp))).length
      some { app with
        commitSet
        stablePointIdx := nextStablePointIdx
        execLastBatchClock := currClock
        batches := ⟨batchEndTimestamp, app.stablePointIdx, nextStablePointIdx⟩ :: app.batches }

/-- `client_ordering2_request_cmd_handler`.  A timestamp below the stable point fails an
assertion. -/
def onOrdering2Request (std : Sorter Entry.timestamp) (a : Arrival) : Option HotStuffApp :=
  if a.timestamp < app.stablePoint then none
  else
    let app := { app with commitSet := app.commitSet ++ [a.entry] }
    if app.idx ≠ 1 then some app
    else if app.execLastBatchClock = 0 then some { app with execLastBatchClock := a.currClock }
    else if app.execLastBatchClock + app.period < a.currClock then app.cutBatch std a.currClock
    else some app

end HotStuffApp

def Batch.contents (b : Batch) (commitSet : List Entry) : List Entry :=
  (commitSet.take b.stop).drop b.start

def leader (std : Sorter Entry.timestamp) (stablePeriod : Fin (2 ^ 32)) :
    System HotStuffApp Arrival where
  init app := app = .start 1 stablePeriod
  step app a app' := app.onOrdering2Request std a = some app'

/-- The stable part of the commit set is sorted, and batches come in order: what a later one
holds is beyond the stable timestamp of every earlier one. -/
structure Ordered (app : HotStuffApp) : Prop where
  sorted : (app.commitSet.take app.stablePointIdx).Pairwise (fun x y => x.timestamp ≤ y.timestamp)
  later : app.batches.Pairwise
    (fun b b' => ∀ x ∈ b.contents app.commitSet, b'.stableTimestamp < x.timestamp)

/-- Requests added between two states are beyond the stable timestamps of the batches cut
before. -/
def Keeps (app app' : HotStuffApp) : Prop :=
  ∃ added, app'.commitSet.Perm (app.commitSet ++ added) ∧
    ∀ x ∈ added, ∀ b ∈ app.batches, b.stableTimestamp < x.timestamp

/-- The request is beyond all batches cut so far, and the number of requests fits into 32 bits. -/
def InTime (app : HotStuffApp) (a : Arrival) : Prop :=
  (∀ b ∈ app.batches, b.stableTimestamp < a.timestamp) ∧ app.commitSet.length + 1 < 2 ^ 32

/-- The stable part of the commit set ends the last batch; every stable request is within some
batch and everything else beyond all of them. -/
structure StableOk (app : HotStuffApp) : Prop where
  idx_le : app.stablePointIdx ≤ app.commitSet.length
  stop_le : ∀ b ∈ app.batches, b.stop ≤ app.stablePointIdx
  within : ∀ x ∈ app.commitSet.take app.stablePointIdx, ∃ b ∈ app.batches,
    x.timestamp ≤ b.stableTimestamp
  beyond : ∀ x ∈ app.commitSet.drop app.stablePointIdx, ∀ b ∈ app.batches,
    b.stableTimestamp < x.timestamp
  ordered : Ordered app

section step

variable {std : Sorter Entry.timestamp} {app app' : HotStuffApp} {a : Arrival}

theorem contents_congr {commitSet commitSet' : List Entry} {b : Batch} {n : Nat}
    (hb : b.stop ≤ n) (htake : commitSet'.take n = commitSet.take n) :
    b.contents commitSet' = b.contents commitSet := by
  have hstop : ∀ l : List Entry, l.take b.stop = (l.take n).take b.stop := by
    intro l
    rw [List.take_take, Nat.min_eq_left hb]
  unfold Batch.contents
  rw [hstop commitSet', htake, ← hstop]

/-- An unstable part that is beyond all batches leaves everything stable in order. -/
private theorem StableOk.of_tail (hok : StableOk app) (tail : List Entry) (clock : Timestamp)
    (htail : ∀ x ∈ tail, ∀ b ∈ app.batches, b.stableTimestamp < x.timestamp) :
    StableOk { app with
      commitSet := app.commitSet.take app.stablePointIdx ++ tail
      execLastBatchClock := clock } := by
  have hlength : (app.commitSet.take app.stablePointIdx).length = app.stablePointIdx :=
    List.length_take_of_le hok.idx_le
  have htake : (app.commitSet.take app.stablePointIdx ++ tail).take app.stablePointIdx =
      app.commitSet.take app.stablePointIdx := by
    rw [List.take_append_of_le_length hlength.ge, List.take_take, Nat.min_self]
  have hdrop : (app.commitSet.take app.stablePointIdx ++ tail).drop app.stablePointIdx = tail := by
    rw [List.drop_append_of_le_length hlength.ge, List.drop_take_self, List.nil_append]
  refine ⟨?_, hok.stop_le, ?_, ?_, ?_, ?_⟩
  · rw [List.length_append, hlength]
    exact Nat.le_add_right _ _
  · intro x hx
    rw [htake] at hx
    exact hok.within x hx
  · intro x hx
    rw [hdrop] at hx
    exact htail x hx
  · show List.Pairwise _ (List.take _ _)
    rw [htake]
    exact hok.ordered.sorted
  · refine hok.ordered.later.imp_of_mem ?_
    intro b b' hb _ hall x hx
    rw [contents_congr (hok.stop_le b hb) htake] at hx
    exact hall x hx

/-- Once the unstable part is sorted, all of it up to some timestamp may become stable. -/
private theorem StableOk.of_cut (hok : StableOk app) (bound clock : Timestamp)
    (hsorted : (app.commitSet.drop app.stablePointIdx).Pairwise
      (fun x y => x.timestamp ≤ y.timestamp)) {next : Nat}
    (hnext : next = app.stablePointIdx + ((app.commitSet.drop app.stablePointIdx).takeWhile
      (fun e => decide (e.timestamp ≤ bound))).length) :
    StableOk { app with
      stablePointIdx := next
      execLastBatchClock := clock
      batches := ⟨bound, app.stablePointIdx, next⟩ :: app.batches } := by
  generalize hnew : (app.commitSet.drop app.stablePointIdx).takeWhile
    (fun e => decide (e.timestamp ≤ bound)) = new at hnext
  generalize hrest : (app.commitSet.drop app.stablePointIdx).dropWhile
    (fun e => decide (e.timestamp ≤ bound)) = rest
  have hsplit : app.commitSet.drop app.stablePointIdx = new ++ rest := by
    rw [← hnew, ← hrest, List.takeWhile_append_dropWhile]
  have hnewmem : ∀ x ∈ new, x ∈ app.commitSet.drop app.stablePointIdx := by
    intro x hx
    rw [hsplit]
    exact List.mem_append_left _ hx
  have hdropNew : (app.commitSet.take next).drop app.stablePointIdx = new := by
    rw [hnext, List.drop_take, hsplit, Nat.add_sub_cancel_left, List.take_left]
  have htake : app.commitSet.take next = app.commitSet.take app.stablePointIdx ++ new := by
    have hprefix := List.take_append_drop app.stablePointIdx (app.commitSet.take next)
    rw [hdropNew, List.take_take, Nat.min_eq_left (by omega)] at hprefix
    exact hprefix.symm
  have hdrop : app.commitSet.drop next = rest := by
    rw [hnext, ← List.drop_drop, hsplit, List.drop_left]
  refine ⟨?_, ?_, ?_, ?_, ?_, ?_⟩
  · have hlength := congrArg List.length hsplit
    rw [List.length_drop, List.length_append] at hlength
    have := hok.idx_le
    show next ≤ app.commitSet.length
    omega
  · intro b hb
    rcases List.mem_cons.mp hb with rfl | hb
    · exact le_rfl
    · exact (hok.stop_le b hb).trans (by show _ ≤ next; omega)
  · intro x hx
    have hx' : x ∈ app.commitSet.take next := hx
    rw [htake] at hx'
    rcases List.mem_append.mp hx' with hold | hx'
    · obtain ⟨b, hb, hle⟩ := hok.within x hold
      exact ⟨b, List.mem_cons_of_mem _ hb, hle⟩
    · rw [← hnew] at hx'
      exact ⟨_, List.mem_cons_self, le_of_mem_takeWhile hx'⟩
  · intro x hx b hb
    have hx' : x ∈ app.commitSet.drop next := hx
    rw [hdrop] at hx'
    rcases List.mem_cons.mp hb with rfl | hb
    · rw [← hrest] at hx'
      exact lt_of_mem_dropWhile hsorted hx'
    · refine hok.beyond x ?_ b hb
      rw [hsplit]
      exact List.mem_append_right _ hx'
  · show (app.commitSet.take next).Pairwise _
    rw [htake, List.pairwise_append]
    refine ⟨hok.ordered.sorted, ?_, ?_⟩
    · rw [hsplit, List.pairwise_append] at hsorted
      exact hsorted.1
    · intro x hx y hy
      obtain ⟨b, hb, hle⟩ := hok.within x hx
      exact hle.trans (le_of_lt (hok.beyond y (hnewmem y hy) b hb))
  · refine List.pairwise_cons.mpr ⟨?_, hok.ordered.later⟩
    intro b hb x hx
    have hx' : x ∈ (app.commitSet.take next).drop app.stablePointIdx := hx
    rw [hdropNew] at hx'
    exact hok.beyond x (hnewmem x hx') b hb

/-- What the handler does with a request: it adds it to the unstable part, and may sort that part
and cut a batch. -/
theorem onOrdering2Request_cases
    (h : app.onOrdering2Request std a = some app') :
    (∃ clock, app' = { app with
      commitSet := app.commitSet ++ [a.entry]
      execLastBatchClock := clock }) ∨
    ({ app with commitSet := app.commitSet ++ [a.entry] } :
      HotStuffApp).cutBatch std a.currClock = some app' := by
  unfold HotStuffApp.onOrdering2Request at h
  split at h
  · cases h
  dsimp only at h
  split at h
  · cases h
    exact .inl ⟨_, rfl⟩
  split at h
  · cases h
    exact .inl ⟨_, rfl⟩
  split at h
  · exact .inr h
  · cases h
    exact .inl ⟨_, rfl⟩

theorem cutBatch_cases {clock : Timestamp} (h : app.cutBatch std clock = some app') :
    ∃ bound, app' = { app with
      commitSet :=
        app.commitSet.take app.stablePointIdx ++ std.sort (app.commitSet.drop app.stablePointIdx)
      stablePointIdx := app.stablePointIdx + ((((app.commitSet.take app.stablePointIdx ++
        std.sort (app.commitSet.drop app.stablePointIdx)).take
          (app.commitSet.length % 2 ^ 32)).drop app.stablePointIdx).takeWhile
            (fun e => decide (e.timestamp ≤ bound))).length
      execLastBatchClock := clock
      batches := ⟨bound, app.stablePointIdx, app.stablePointIdx + ((((app.commitSet.take
        app.stablePointIdx ++ std.sort (app.commitSet.drop app.stablePointIdx)).take
          (app.commitSet.length % 2 ^ 32)).drop app.stablePointIdx).takeWhile
            (fun e => decide (e.timestamp ≤ bound))).length⟩ :: app.batches } := by
  unfold HotStuffApp.cutBatch at h
  dsimp only at h
  split at h
  · cases h
  · cases h
    exact ⟨_, rfl⟩

theorem exists_cutBatch (std : Sorter Entry.timestamp) (clock : Timestamp)
    (hne : app.commitSet ≠ []) : ∃ app', app.cutBatch std clock = some app' := by
  unfold HotStuffApp.cutBatch
  dsimp only
  split
  · rename_i hnone
    have hbound := List.getElem?_eq_none_iff.mp hnone
    have hlength := ((std.perm (app.commitSet.drop app.stablePointIdx)).append_left
      (app.commitSet.take app.stablePointIdx)).length_eq
    rw [List.take_append_drop] at hlength
    have hpos := List.length_pos_iff.mpr hne
    rw [hlength] at hbound
    omega
  · exact ⟨_, rfl⟩

theorem commitSet_perm (h : app.onOrdering2Request std a = some app') :
    app'.commitSet.Perm (app.commitSet ++ [a.entry]) ∧
      ∀ b ∈ app.batches, b ∈ app'.batches := by
  rcases onOrdering2Request_cases h with ⟨clock, rfl⟩ | hcut
  · exact ⟨.refl _, fun _ => id⟩
  · obtain ⟨bound, rfl⟩ := cutBatch_cases hcut
    refine ⟨?_, fun b hb => List.mem_cons_of_mem _ hb⟩
    have hperm := (std.perm ((app.commitSet ++ [a.entry]).drop
      app.stablePointIdx)).append_left
        ((app.commitSet ++ [a.entry]).take app.stablePointIdx)
    rw [List.take_append_drop] at hperm
    exact hperm

theorem StableOk.step (hok : StableOk app) (htime : InTime app a)
    (h : app.onOrdering2Request std a = some app') : StableOk app' := by
  generalize he : a.entry = e at h
  have htake : (app.commitSet ++ [e]).take app.stablePointIdx =
      app.commitSet.take app.stablePointIdx := List.take_append_of_le_length hok.idx_le
  have hdrop : (app.commitSet ++ [e]).drop app.stablePointIdx =
      app.commitSet.drop app.stablePointIdx ++ [e] := List.drop_append_of_le_length hok.idx_le
  have htail : ∀ x ∈ app.commitSet.drop app.stablePointIdx ++ [e], ∀ b ∈ app.batches,
      b.stableTimestamp < x.timestamp := by
    intro x hx b hb
    rcases List.mem_append.mp hx with hx | hx
    · exact hok.beyond x hx b hb
    · rw [List.mem_singleton.mp hx, ← he]
      exact htime.1 b hb
  rcases onOrdering2Request_cases h with ⟨clock, rfl⟩ | hcut
  · have hadd := hok.of_tail _ clock htail
    rw [← List.append_assoc, List.take_append_drop] at hadd
    rw [he]
    exact hadd
  · rw [he] at hcut
    obtain ⟨bound, rfl⟩ := cutBatch_cases hcut
    dsimp only
    rw [htake, hdrop]
    generalize hs : std.sort (app.commitSet.drop app.stablePointIdx ++ [e]) = tail
    have hperm : tail.Perm (app.commitSet.drop app.stablePointIdx ++ [e]) := hs ▸ std.perm _
    have hsorted : tail.Pairwise (fun x y => x.timestamp ≤ y.timestamp) := hs ▸ std.sorted _
    have hmid := hok.of_tail tail app.execLastBatchClock
      (fun x hx => htail x (hperm.subset hx))
    have hlength : (app.commitSet.take app.stablePointIdx).length = app.stablePointIdx :=
      List.length_take_of_le hok.idx_le
    have htaildrop : (app.commitSet.take app.stablePointIdx ++ tail).drop app.stablePointIdx =
        tail := by
      rw [List.drop_append_of_le_length hlength.ge, List.drop_take_self, List.nil_append]
    -- The 32-bit size is the size.
    have hsize : (app.commitSet ++ [e]).length % 2 ^ 32 =
        (app.commitSet.take app.stablePointIdx ++ tail).length := by
      have hadded : (app.commitSet ++ [e]).length = app.commitSet.length + 1 := by simp
      have htaillen := hperm.length_eq
      rw [List.length_append, List.length_drop] at htaillen
      have hidx := hok.idx_le
      rw [hadded, Nat.mod_eq_of_lt htime.2, List.length_append, hlength, htaillen]
      simp only [List.length_singleton]
      omega
    rw [hsize, List.take_length, htaildrop]
    refine hmid.of_cut bound a.currClock ?_ ?_
    · show List.Pairwise _ (List.drop _ _)
      rw [htaildrop]
      exact hsorted
    · show _ = _ + ((List.drop _ _).takeWhile _).length
      rw [htaildrop]

theorem StableOk.start (idx : ReplicaID) (stablePeriod : Fin (2 ^ 32)) :
    StableOk (.start idx stablePeriod) :=
  ⟨le_rfl, nofun, nofun, nofun, .nil, .nil⟩

theorem Keeps.trans {app'' : HotStuffApp} (h : Keeps app app') (h' : Keeps app' app'')
    (hbatches : ∀ b ∈ app.batches, b ∈ app'.batches) : Keeps app app'' := by
  obtain ⟨added, hperm, hbeyond⟩ := h
  obtain ⟨added', hperm', hbeyond'⟩ := h'
  refine ⟨added ++ added', ?_, ?_⟩
  · rw [← List.append_assoc]
    exact hperm'.trans (hperm.append_right _)
  · intro x hx b hb
    rcases List.mem_append.mp hx with hx | hx
    · exact hbeyond x hx b hb
    · exact hbeyond' x hx b (hbatches b hb)

end step

/-- As long as no request comes after a batch that covers its timestamp, the batches are in
order, and nothing is added that an earlier batch covers. -/
theorem batches_ordered {std : Sorter Entry.timestamp} {stablePeriod : Fin (2 ^ 32)}
    {app : HotStuffApp} (hr : Reachable ((leader std stablePeriod).restrict InTime) app) :
    Ordered app ∧
      ∀ app', Steps ((leader std stablePeriod).restrict InTime) app app' → Keeps app app' := by
  refine ⟨StableOk.ordered (hr.invariant ?_ ?_), fun app' hs => ?_⟩
  · rintro s rfl
    exact .start _ _
  · intro s a s' _ hok hstep
    exact hok.step hstep.1 hstep.2
  · have hmono := Steps.monotone
      (R := fun s s' => Keeps s s' ∧ ∀ b ∈ s.batches, b ∈ s'.batches) hr
      (fun s => ⟨⟨[], by rw [List.append_nil], nofun⟩, fun _ => id⟩)
      (fun h h' => ⟨h.1.trans h'.1 h.2, fun b hb => h'.2 b (h.2 b hb)⟩) ?_ hs
    · exact hmono.1
    · intro s a s' _ hstep
      obtain ⟨hperm, hbatches⟩ := commitSet_perm hstep.2
      refine ⟨⟨_, hperm, ?_⟩, hbatches⟩
      intro x hx b hb
      rw [List.mem_singleton.mp hx]
      exact hstep.1.1 b hb

/-! A leader with a period of one millisecond. -/

def briefLeader : System HotStuffApp Arrival := leader (.insertion _) 1

def briefStep (app : HotStuffApp) (a : Arrival) : Option HotStuffApp :=
  app.onOrdering2Request (.insertion _) a

instance (app : HotStuffApp) (a : Arrival) : Decidable (InTime app a) :=
  inferInstanceAs (Decidable ((∀ b ∈ app.batches, b.stableTimestamp < a.timestamp) ∧
    app.commitSet.length + 1 < 2 ^ 32))

/-- Two batches in order. -/
def promptApp : HotStuffApp :=
  (execute (guarded InTime briefStep)
    [⟨0, 8000, 0, 1⟩, ⟨0, 10000, 0, 2000⟩, ⟨0, 20000, 0, 4000⟩] (.start 1 1)).get
      (by decide +kernel)

theorem batches_ordered_prompt : promptApp.batches.length = 2 ∧ Ordered promptApp := by
  have hsteps : Steps (briefLeader.restrict InTime) (.start 1 1) promptApp := by
    refine steps_of_execute ?_ (Option.some_get _).symm
    exact fun _ _ _ hstep => guarded_eq_some hstep
  exact ⟨by decide +kernel, (batches_ordered (Reachable.trans (.init rfl) hsteps)).1⟩

/-- After a batch up to 9000, a request of timestamp 6000 arrives. -/
def lateApp : HotStuffApp :=
  (execute briefStep [⟨0, 8000, 0, 1⟩, ⟨0, 10000, 0, 2000⟩, ⟨0, 6000, 0, 2500⟩,
    ⟨0, 20000, 0, 4000⟩] (.start 1 1)).get (by decide +kernel)

/-- The late request is added, is part of the next batch, and leaves the stable part unsorted. -/
theorem late_request_batched : Reachable briefLeader lateApp ∧
    lateApp.batches = [⟨19000, 1, 3⟩, ⟨9000, 0, 1⟩] ∧
    (lateApp.commitSet.take lateApp.stablePointIdx).map Entry.timestamp = [8000, 6000, 10000] ∧
    ¬ Ordered lateApp := by
  refine ⟨?_, by decide +kernel, by decide +kernel, fun hok => ?_⟩
  · exact Reachable.trans (.init rfl) (steps_of_execute (fun _ _ _ h => h)
      (Option.some_get _).symm)
  · have hunsorted : ¬ (lateApp.commitSet.take lateApp.stablePointIdx).Pairwise
        (fun x y => x.timestamp ≤ y.timestamp) := by decide +kernel
    exact hunsorted hok.sorted

end ArchipelagoHotStuff.Archipelago.Leader
