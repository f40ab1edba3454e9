/- Module: ArchipelagoHotStuff/Archipelago/Cuts
   source: archipelago_app.cpp (client_ordering2_request_cmd_handler), hotstuff.h (commit_set_cmp)
   digest: Which requests a batch takes from the unstable part of the commit set, where the
     unsigned arithmetic of the cut is exact, and when stable timestamps do not fall. -/

import ArchipelagoHotStuff.Archipelago.Leader

set_option autoImplicit false
set_option relaxedAutoImplicit false

namespace ArchipelagoHotStuff.Archipelago.Cuts

open Crypto.Wire General.Sorting General.Transition Leader

def largest (l : List Entry) : Nat := l.foldr (fun e m => max e.timestamp.val m) 0

/-- The unstable part of the commit set, with the request that arrives. -/
def tailWith (app : HotStuffApp) (a : Arrival) : List Entry :=
  (app.commitSet ++ [a.entry]).drop app.stablePointIdx

/-- The period in microseconds, as a number. -/
def exactPeriod (app : HotStuffApp) : Nat := app.stablePeriod.val * 1000

def Triggers (app : HotStuffApp) (a : Arrival) : Prop :=
  app.stablePoint ≤ a.timestamp ∧ app.idx = 1 ∧ app.execLastBatchClock ≠ 0 ∧
    app.execLastBatchClock + app.period < a.currClock

instance (app : HotStuffApp) (a : Arrival) : Decidable (Triggers app a) :=
  inferInstanceAs (Decidable (_ ∧ _ ∧ _ ∧ _))

/-- The batch of a step is what lies a period or more before the end of the tail, and everything
that remains is later. -/
structure CutExact (app : HotStuffApp) (a : Arrival) (app' : HotStuffApp) : Prop where
  batch : ((app'.commitSet.take app'.stablePointIdx).drop app.stablePointIdx).Perm
    ((tailWith app a).filter (fun e =>
      decide (e.timestamp.val + exactPeriod app ≤ largest (tailWith app a))))
  later : ∀ x ∈ (app'.commitSet.take app'.stablePointIdx).drop app.stablePointIdx,
    ∀ y ∈ app'.commitSet.drop app'.stablePointIdx, x.timestamp < y.timestamp

/-- The end of the tail is not before the period, and no request of the tail falls between the
period and what is left of it in 32 bits. -/
def Fits (app : HotStuffApp) (a : Arrival) : Prop :=
  app.period.val ≤ largest (tailWith app a) ∧
    ∀ e ∈ tailWith app a, e.timestamp.val + app.period.val ≤ largest (tailWith app a) →
      e.timestamp.val + exactPeriod app ≤ largest (tailWith app a)

instance (app : HotStuffApp) (a : Arrival) : Decidable (Fits app a) :=
  inferInstanceAs (Decidable (_ ∧ _))

/-- No stable timestamp is below an earlier one; the latest batch comes first. -/
def Rising (app : HotStuffApp) : Prop :=
  app.batches.Pairwise (fun b earlier => earlier.stableTimestamp ≤ b.stableTimestamp)

/-- The commit set can be counted in 32 bits and the cut is exact.  Without a period the tail may
be empty after a cut, so that its end could fall. -/
def InBounds (app : HotStuffApp) (a : Arrival) : Prop :=
  Triggers app a → app.commitSet.length + 1 < 2 ^ 32 ∧ Fits app a ∧
    (0 < app.period.val ∨
      ∀ b ∈ app.batches, b.stableTimestamp.val ≤ largest (tailWith app a))

instance (app : HotStuffApp) (a : Arrival) : Decidable (InBounds app a) :=
  inferInstanceAs (Decidable (_ → _))

section largest

variable {l l' : List Entry} {e : Entry}

theorem le_largest (he : e ∈ l) : e.timestamp.val ≤ largest l := by
  induction l with
  | nil => cases he
  | cons x l ih =>
      show _ ≤ max x.timestamp.val (largest l)
      rcases List.mem_cons.mp he with rfl | he
      · exact le_max_left _ _
      · exact (ih he).trans (le_max_right _ _)

theorem largest_le {m : Nat} (h : ∀ e ∈ l, e.timestamp.val ≤ m) : largest l ≤ m := by
  induction l with
  | nil => exact Nat.zero_le m
  | cons x l ih =>
      exact max_le (h x List.mem_cons_self) (ih (fun e he => h e (List.mem_cons_of_mem x he)))

theorem largest_mono (h : ∀ e ∈ l, e ∈ l') : largest l ≤ largest l' :=
  largest_le (fun e he => le_largest (h e he))

theorem largest_perm (h : l.Perm l') : largest l = largest l' :=
  le_antisymm (largest_mono (fun _ he => h.subset he)) (largest_mono (fun _ he => h.symm.subset he))

theorem largest_of_sorted (hl : l.Pairwise (fun x y => x.timestamp ≤ y.timestamp))
    (he : l.getLast? = some e) : largest l = e.timestamp.val := by
  obtain ⟨front, rfl⟩ := List.getLast?_eq_some_iff.mp he
  refine le_antisymm (largest_le (fun x hx => ?_)) (le_largest (by simp))
  rcases List.mem_append.mp hx with hx | hx
  · exact (List.pairwise_append.mp hl).2.2 x hx e List.mem_cons_self
  · rw [List.mem_singleton.mp hx]

end largest

/-! One cut. -/

section cut

variable {std : Sorter Entry.timestamp} {app app' : HotStuffApp} {a : Arrival}

theorem period_eq (app : HotStuffApp) : app.period.val = exactPeriod app % 2 ^ 32 := by
  show app.stablePeriod.val * 1000 % 2 ^ 32 % 2 ^ 64 = _
  exact Nat.mod_eq_of_lt ((Nat.mod_lt _ (by decide)).trans (by decide))

theorem period_le (app : HotStuffApp) : app.period.val ≤ exactPeriod app :=
  (period_eq app).trans_le (Nat.mod_le _ _)

theorem onOrdering2Request_triggers (htrigger : Triggers app a) :
    app.onOrdering2Request std a =
      ({ app with commitSet := app.commitSet ++ [a.entry] } : HotStuffApp).cutBatch std
        a.currClock := by
  obtain ⟨hpoint, hidx, hclock, hpassed⟩ := htrigger
  unfold HotStuffApp.onOrdering2Request
  rw [if_neg (not_lt.mpr hpoint)]
  dsimp only
  rw [if_neg (not_not.mpr hidx), if_neg hclock]
  exact if_pos hpassed

theorem onOrdering2Request_quiet (htrigger : ¬ Triggers app a)
    (h : app.onOrdering2Request std a = some app') : ∃ clock, app' = { app with
      commitSet := app.commitSet ++ [a.entry]
      execLastBatchClock := clock } := by
  unfold HotStuffApp.onOrdering2Request at h
  split at h
  · cases h
  rename_i hpoint
  dsimp only at h
  split at h
  · cases h
    exact ⟨_, rfl⟩
  rename_i hidx
  split at h
  · cases h
    exact ⟨_, rfl⟩
  rename_i hclock
  split at h
  · rename_i hpassed
    exact absurd ⟨not_lt.mp hpoint, not_not.mp hidx, hclock, hpassed⟩ htrigger
  · cases h
    exact ⟨_, rfl⟩

theorem cutBatch_eq {clock : Timestamp} {last : Entry}
    (hidx : app.stablePointIdx ≤ app.commitSet.length) (hsize : app.commitSet.length < 2 ^ 32)
    (hlast : (std.sort (app.commitSet.drop app.stablePointIdx)).getLast? = some last) :
    app.cutBatch std clock = some { app with
      commitSet :=
        app.commitSet.take app.stablePointIdx ++ std.sort (app.commitSet.drop app.stablePointIdx)
      stablePointIdx := app.stablePointIdx +
        ((std.sort (app.commitSet.drop app.stablePointIdx)).takeWhile
          (fun e => decide (e.timestamp ≤ last.timestamp - app.period))).length
      execLastBatchClock := clock
      batches := ⟨last.timestamp - app.period, app.stablePointIdx, app.stablePointIdx +
        ((std.sort (app.commitSet.drop app.stablePointIdx)).takeWhile
          (fun e => decide (e.timestamp ≤ last.timestamp - app.period))).length⟩ ::
            app.batches } := by
  generalize hsorted : std.sort (app.commitSet.drop app.stablePointIdx) = tail at hlast ⊢
  have hperm : tail.Perm (app.commitSet.drop app.stablePointIdx) := hsorted ▸ std.perm _
  have hfront : (app.commitSet.take app.stablePointIdx).length = app.stablePointIdx :=
    List.length_take_of_le hidx
  have hlength : (app.commitSet.take app.stablePointIdx ++ tail).length =
      app.commitSet.length := by
    rw [List.length_append, hperm.length_eq, ← List.length_append, List.take_append_drop]
  obtain ⟨front, rfl⟩ := List.getLast?_eq_some_iff.mp hlast
  have hpos : 0 < app.commitSet.length := by
    rw [← hlength]
    simp only [List.length_append, List.length_singleton]
    omega
  have hat : (app.commitSet.length % 2 ^ 32 + 2 ^ 32 - 1) % 2 ^ 32 =
      (app.commitSet.take app.stablePointIdx ++ (front ++ [last])).length - 1 := by
    omega
  have hget : (app.commitSet.take app.stablePointIdx ++ (front ++ [last]))[
      (app.commitSet.length % 2 ^ 32 + 2 ^ 32 - 1) % 2 ^ 32]? = some last := by
    rw [hat, ← List.getLast?_eq_getElem?, ← List.append_assoc, List.getLast?_concat]
  have hall : (app.commitSet.take app.stablePointIdx ++ (front ++ [last])).take
      (app.commitSet.length % 2 ^ 32) = app.commitSet.take app.stablePointIdx ++
        (front ++ [last]) := by
    rw [Nat.mod_eq_of_lt hsize, ← hlength, List.take_length]
  have hdrop : (app.commitSet.take app.stablePointIdx ++ (front ++ [last])).drop
      app.stablePointIdx = front ++ [last] := List.drop_left' hfront
  unfold HotStuffApp.cutBatch
  dsimp only
  rw [hsorted, hget]
  dsimp only
  rw [hall, hdrop]

/-- What a cut does with the unstable part once that is sorted. -/
structure Cut (app : HotStuffApp) (a : Arrival) (app' : HotStuffApp) (tail : List Entry)
    (bound : Timestamp) : Prop where
  perm : tail.Perm (tailWith app a)
  sorted : tail.Pairwise (fun x y => x.timestamp ≤ y.timestamp)
  wraps : bound.val = (largest (tailWith app a) + (2 ^ 64 - app.period.val)) % 2 ^ 64
  batch : (app'.commitSet.take app'.stablePointIdx).drop app.stablePointIdx =
    tail.takeWhile (fun e => decide (e.timestamp ≤ bound))
  rest : app'.commitSet.drop app'.stablePointIdx =
    tail.dropWhile (fun e => decide (e.timestamp ≤ bound))
  batches : app'.batches = ⟨bound, app.stablePointIdx, app'.stablePointIdx⟩ :: app.batches
  period : app'.period = app.period

theorem exists_cut (hidx : app.stablePointIdx ≤ app.commitSet.length)
    (hsize : app.commitSet.length + 1 < 2 ^ 32) (htrigger : Triggers app a)
    (hstep : app.onOrdering2Request std a = some app') :
    ∃ tail bound, Cut app a app' tail bound := by
  have hlength : (app.commitSet ++ [a.entry]).length = app.commitSet.length + 1 := by simp
  have htail : (app.commitSet ++ [a.entry]).drop app.stablePointIdx = tailWith app a := rfl
  generalize hsort : std.sort (tailWith app a) = tail
  have hperm : tail.Perm (tailWith app a) := hsort ▸ std.perm _
  have hsorted : tail.Pairwise (fun x y => x.timestamp ≤ y.timestamp) := hsort ▸ std.sorted _
  have hne : tail ≠ [] := by
    intro hnil
    have hzero := hperm.length_eq
    rw [hnil, ← htail, List.length_drop, hlength] at hzero
    simp only [List.length_nil] at hzero
    omega
  obtain ⟨last, hlast⟩ := Option.isSome_iff_exists.mp (List.getLast?_isSome.mpr hne)
  have hlargest : largest (tailWith app a) = last.timestamp.val := by
    rw [← largest_perm hperm, largest_of_sorted hsorted hlast]
  have hperiod : ({ app with commitSet := app.commitSet ++ [a.entry] } : HotStuffApp).period =
      app.period := rfl
  rw [← hsort, ← htail] at hlast
  rw [onOrdering2Request_triggers htrigger, cutBatch_eq (by dsimp only; omega)
    (by dsimp only; omega) hlast, hperiod] at hstep
  cases hstep
  dsimp only
  rw [htail, hsort]
  generalize hbound : last.timestamp - app.period = bound
  have hsplit := List.takeWhile_append_dropWhile (l := tail)
    (p := fun e => decide (e.timestamp ≤ bound))
  generalize hnew : tail.takeWhile (fun e => decide (e.timestamp ≤ bound)) = new at hsplit
  have hfront : ((app.commitSet ++ [a.entry]).take app.stablePointIdx).length =
      app.stablePointIdx := List.length_take_of_le (by omega)
  refine ⟨tail, bound, hperm, hsorted, ?_, ?_, ?_, ?_, rfl⟩
  · rw [hlargest, ← hbound, Nat.add_comm]
    rfl
  · show ((_ ++ tail).take (_ + new.length)).drop _ = _
    rw [hnew, List.drop_take, Nat.add_sub_cancel_left, List.drop_left' hfront, ← hsplit,
      List.take_left]
  · show (_ ++ tail).drop (_ + new.length) = _
    rw [← List.drop_drop, List.drop_left' hfront]
    nth_rewrite 1 [← hsplit]
    rw [List.drop_left]
  · rfl

theorem takeWhile_eq_filter {tail : List Entry} {bound : Timestamp}
    (hsorted : tail.Pairwise (fun x y => x.timestamp ≤ y.timestamp)) :
    tail.takeWhile (fun e => decide (e.timestamp ≤ bound)) =
      tail.filter (fun e => decide (e.timestamp ≤ bound)) := by
  have hsplit := List.takeWhile_append_dropWhile (l := tail)
    (p := fun e => decide (e.timestamp ≤ bound))
  have hnone : (tail.dropWhile (fun e => decide (e.timestamp ≤ bound))).filter
      (fun e => decide (e.timestamp ≤ bound)) = [] := by
    rw [List.filter_eq_nil_iff]
    intro e he hle
    exact absurd (of_decide_eq_true hle) (not_le.mpr (lt_of_mem_dropWhile hsorted he))
  have hall : (tail.takeWhile (fun e => decide (e.timestamp ≤ bound))).filter
      (fun e => decide (e.timestamp ≤ bound)) =
        tail.takeWhile (fun e => decide (e.timestamp ≤ bound)) := by
    rw [List.filter_eq_self]
    exact fun e he => decide_eq_true (le_of_mem_takeWhile he)
  conv_rhs => rw [← hsplit, List.filter_append, hnone, List.append_nil, hall]

theorem exists_largest {l : List Entry} (hne : l ≠ []) :
    ∃ e ∈ l, e.timestamp.val = largest l := by
  induction l with
  | nil => exact absurd rfl hne
  | cons x l ih =>
      show ∃ e ∈ x :: l, _ = max x.timestamp.val (largest l)
      by_cases hle : largest l ≤ x.timestamp.val
      · exact ⟨x, List.mem_cons_self, (max_eq_left hle).symm⟩
      · have hlt := not_le.mp hle
        have hrest : l ≠ [] := by
          rintro rfl
          exact hle (Nat.zero_le _)
        obtain ⟨e, he, heq⟩ := ih hrest
        exact ⟨e, List.mem_cons_of_mem x he, by rw [heq, max_eq_right hlt.le]⟩

theorem tailWith_ne_nil (hidx : app.stablePointIdx ≤ app.commitSet.length) :
    tailWith app a ≠ [] := by
  intro hnil
  have hzero := congrArg List.length hnil
  simp only [tailWith, List.length_drop, List.length_append, List.length_singleton,
    List.length_nil] at hzero
  omega

/-- Comparing with the end of the tail in 64 bits is comparing in exact arithmetic exactly if the
cut fits. -/
theorem fits_iff {bound : Timestamp} (hidx : app.stablePointIdx ≤ app.commitSet.length)
    (hbound : bound.val = (largest (tailWith app a) + (2 ^ 64 - app.period.val)) % 2 ^ 64) :
    (∀ e ∈ tailWith app a, e.timestamp ≤ bound ↔
      e.timestamp.val + exactPeriod app ≤ largest (tailWith app a)) ↔ Fits app a := by
  obtain ⟨last, hmem, hlast⟩ := exists_largest (tailWith_ne_nil (a := a) hidx)
  have hlt := last.timestamp.isLt
  have hperiod := period_eq app
  have hle := period_le app
  unfold Fits
  generalize largest (tailWith app a) = m at *
  generalize app.period.val = p at *
  generalize exactPeriod app = q at *
  by_cases hp : p ≤ m
  · have hval : bound.val = m - p := by omega
    constructor
    · intro hexact
      refine ⟨hp, fun e he hsum => (hexact e he).mp ?_⟩
      show e.timestamp.val ≤ bound.val
      omega
    · rintro ⟨_, hfits⟩ e he
      rw [Fin.le_def, hval]
      constructor
      · exact fun hcmp => hfits e he (by omega)
      · exact fun hsum => by omega
  · refine iff_of_false (fun hexact => ?_) (fun hfits => hp hfits.1)
    -- the subtraction wraps, and even the end of the tail is below the bound
    have hval : bound.val = m + (2 ^ 64 - p) := by
      have hsmall : q % 2 ^ 32 < 2 ^ 32 := Nat.mod_lt _ (by decide)
      omega
    have hin := (hexact last hmem).mp (by
      rw [Fin.le_def, hval]
      omega)
    omega

theorem Cut.exact_iff {tail : List Entry} {bound : Timestamp} (hcut : Cut app a app' tail bound)
    (hidx : app.stablePointIdx ≤ app.commitSet.length) : CutExact app a app' ↔ Fits app a := by
  have hbatch : ((app'.commitSet.take app'.stablePointIdx).drop app.stablePointIdx).Perm
      ((tailWith app a).filter (fun e => decide (e.timestamp ≤ bound))) := by
    rw [hcut.batch, takeWhile_eq_filter hcut.sorted]
    exact hcut.perm.filter _
  rw [← fits_iff hidx hcut.wraps]
  constructor
  · intro hexact e he
    have hmem := (hbatch.symm.trans hexact.batch).mem_iff (a := e)
    simpa only [List.mem_filter, he, true_and, decide_eq_true_eq] using hmem
  · intro hsame
    refine ⟨hbatch.trans (.of_eq (List.filter_congr (fun e he => ?_))), fun x hx y hy => ?_⟩
    · exact decide_eq_decide.mpr (hsame e he)
    · rw [hcut.batch] at hx
      rw [hcut.rest] at hy
      exact (le_of_mem_takeWhile hx).trans_lt (lt_of_mem_dropWhile hcut.sorted hy)

end cut

/-! Runs. -/

/-- Stable timestamps rise, and with a period they stay that far below the end of the tail. -/
structure RisingOk (app : HotStuffApp) : Prop where
  idx_le : app.stablePointIdx ≤ app.commitSet.length
  rising : Rising app
  headroom : 0 < app.period.val → ∀ b ∈ app.batches,
    b.stableTimestamp.val + app.period.val ≤ largest (app.commitSet.drop app.stablePointIdx)

section run

variable {std : Sorter Entry.timestamp} {app app' : HotStuffApp} {a : Arrival}
  {stablePeriod : Fin (2 ^ 32)}

theorem idx_le_step (hidx : app.stablePointIdx ≤ app.commitSet.length)
    (hstep : app.onOrdering2Request std a = some app') :
    app'.stablePointIdx ≤ app'.commitSet.length := by
  rcases onOrdering2Request_cases hstep with ⟨clock, rfl⟩ | hcut
  · simp only [List.length_append]
    omega
  · obtain ⟨bound, rfl⟩ := cutBatch_cases hcut
    dsimp only
    generalize hsorted : (app.commitSet ++ [a.entry]).take app.stablePointIdx ++
      std.sort ((app.commitSet ++ [a.entry]).drop app.stablePointIdx) = sorted
    have hlength : sorted.length = app.commitSet.length + 1 := by
      have hperm := ((std.perm ((app.commitSet ++ [a.entry]).drop
        app.stablePointIdx)).append_left ((app.commitSet ++ [a.entry]).take
          app.stablePointIdx)).length_eq
      rw [hsorted, List.take_append_drop] at hperm
      simpa using hperm
    have htaken : (((sorted.take ((app.commitSet ++ [a.entry]).length % 2 ^ 32)).drop
        app.stablePointIdx).takeWhile (fun e => decide (e.timestamp ≤ bound))).length ≤
          sorted.length - app.stablePointIdx := by
      refine (List.takeWhile_sublist _).length_le.trans ?_
      rw [List.length_drop, List.length_take]
      omega
    omega

theorem idx_le_of_reachable (hr : Reachable (leader std stablePeriod) app) :
    app.stablePointIdx ≤ app.commitSet.length := by
  refine hr.invariant (I := fun app => app.stablePointIdx ≤ app.commitSet.length) ?_ ?_
  · rintro _ rfl
    exact le_rfl
  · exact fun _ _ _ _ hidx hstep => idx_le_step hidx hstep

theorem Cut.largest_rest {tail : List Entry} {bound : Timestamp} (hcut : Cut app a app' tail bound)
    (hidx : app.stablePointIdx ≤ app.commitSet.length) (hpos : 0 < app.period.val)
    (hle : app.period.val ≤ largest (tailWith app a)) :
    largest (tailWith app a) ≤ largest (app'.commitSet.drop app'.stablePointIdx) := by
  obtain ⟨last, hmem, hlast⟩ := exists_largest (tailWith_ne_nil (a := a) hidx)
  have hlt := last.timestamp.isLt
  have hin := hcut.perm.symm.subset hmem
  rw [← List.takeWhile_append_dropWhile (l := tail) (p := fun e => decide (e.timestamp ≤ bound)),
    List.mem_append] at hin
  rw [hcut.rest, ← hlast]
  rcases hin with hearly | hlate
  · have hbound : last.timestamp ≤ bound := le_of_mem_takeWhile hearly
    have hval : last.timestamp.val ≤ bound.val := hbound
    have hwraps := hcut.wraps
    omega
  · exact le_largest hlate

theorem RisingOk.step (hok : RisingOk app) (hbounds : InBounds app a)
    (hstep : app.onOrdering2Request std a = some app') : RisingOk app' := by
  have hidx := idx_le_step hok.idx_le hstep
  by_cases htrigger : Triggers app a
  · obtain ⟨hsize, hfits, hlater⟩ := hbounds htrigger
    obtain ⟨tail, bound, hcut⟩ := exists_cut hok.idx_le hsize htrigger hstep
    have hend : largest (app.commitSet.drop app.stablePointIdx) ≤ largest (tailWith app a) := by
      refine largest_mono (fun e he => ?_)
      rw [tailWith, List.drop_append_of_le_length hok.idx_le]
      exact List.mem_append_left _ he
    obtain ⟨last, _, hlast⟩ := exists_largest (tailWith_ne_nil (a := a) hok.idx_le)
    have hlt := last.timestamp.isLt
    have hbound : bound.val = largest (tailWith app a) - app.period.val := by
      have hwraps := hcut.wraps
      have hle := hfits.1
      omega
    refine ⟨hidx, ?_, fun hpos b hb => ?_⟩
    · unfold Rising
      rw [hcut.batches]
      refine List.pairwise_cons.mpr ⟨fun b hb => ?_, hok.rising⟩
      show b.stableTimestamp.val ≤ bound.val
      rcases hlater with hpos | hbelow
      · have hroom := hok.headroom hpos b hb
        omega
      · have hroom := hok.headroom
        by_cases hpos : 0 < app.period.val
        · have hroom := hok.headroom hpos b hb
          omega
        · have hle := hbelow b hb
          omega
    · rw [hcut.period] at hpos ⊢
      have hrest := hcut.largest_rest hok.idx_le hpos hfits.1
      rw [hcut.batches] at hb
      rcases List.mem_cons.mp hb with rfl | hb
      · have hle := hfits.1
        show bound.val + _ ≤ _
        omega
      · have hroom := hok.headroom hpos b hb
        omega
  · obtain ⟨clock, rfl⟩ := onOrdering2Request_quiet htrigger hstep
    refine ⟨hidx, hok.rising, fun hpos b hb => (hok.headroom hpos b hb).trans ?_⟩
    refine largest_mono (fun e he => ?_)
    show e ∈ (app.commitSet ++ [a.entry]).drop app.stablePointIdx
    rw [List.drop_append_of_le_length hok.idx_le]
    exact List.mem_append_left _ he

theorem RisingOk.start (idx : ReplicaID) (stablePeriod : Fin (2 ^ 32)) :
    RisingOk (.start idx stablePeriod) :=
  ⟨le_rfl, .nil, fun _ _ hb => absurd hb List.not_mem_nil⟩

/-- A batch is cut exactly where the arithmetic fits, and stable timestamps do not fall in a run
all of whose cuts do. -/
theorem cuts_exact (std : Sorter Entry.timestamp) (stablePeriod : Fin (2 ^ 32)) :
    (∀ app a, Reachable (leader std stablePeriod) app → Triggers app a →
      app.commitSet.length + 1 < 2 ^ 32 →
        ∃ app', app.onOrdering2Request std a = some app' ∧
          (CutExact app a app' ↔ Fits app a)) ∧
    ∀ app, Reachable ((leader std stablePeriod).restrict InBounds) app → Rising app := by
  constructor
  · intro app a hr htrigger hsize
    have hidx := idx_le_of_reachable hr
    have hne : ({ app with
        commitSet := app.commitSet ++ [a.entry] } : HotStuffApp).commitSet ≠ [] :=
      List.append_ne_nil_of_right_ne_nil _ (List.cons_ne_nil _ _)
    obtain ⟨app', hstep⟩ := exists_cutBatch std a.currClock hne
    rw [← onOrdering2Request_triggers htrigger] at hstep
    obtain ⟨tail, bound, hcut⟩ := exists_cut hidx hsize htrigger hstep
    exact ⟨app', hstep, hcut.exact_iff hidx⟩
  · intro app hr
    refine RisingOk.rising (hr.invariant ?_ ?_)
    · rintro _ rfl
      exact .start _ _
    · exact fun _ _ _ _ hok hstep => hok.step hstep.1 hstep.2

end run

/-! The leader with a period of one millisecond. -/

theorem reachable_brief {as : List Arrival} {app : HotStuffApp}
    (h : execute briefStep as (.start 1 1) = some app) : Reachable briefLeader app :=
  Reachable.trans (.init rfl) (steps_of_execute (fun _ _ _ => id) h)

def startedApp : HotStuffApp :=
  (execute briefStep [⟨0, 8000, 0, 1⟩] (.start 1 1)).get (by decide +kernel)

/-- Two batches, cut where the arithmetic fits. -/
def risenApp : HotStuffApp :=
  (execute (guarded InBounds briefStep)
    [⟨0, 8000, 0, 1⟩, ⟨0, 10000, 0, 2000⟩, ⟨0, 20000, 0, 4000⟩] (.start 1 1)).get
      (by decide +kernel)

theorem cuts_exact_started : (∃ app', briefStep startedApp ⟨0, 10000, 0, 2000⟩ = some app' ∧
      CutExact startedApp ⟨0, 10000, 0, 2000⟩ app') ∧ Rising risenApp := by
  have hrisen : Reachable (briefLeader.restrict InBounds) risenApp :=
    Reachable.trans (.init rfl) (steps_of_execute (fun _ _ _ hstep => guarded_eq_some hstep)
      (Option.some_get _).symm)
  obtain ⟨hcut, hrising⟩ := cuts_exact (.insertion Entry.timestamp) 1
  obtain ⟨app', hstep, hexact⟩ := hcut startedApp ⟨0, 10000, 0, 2000⟩
    (reachable_brief (Option.some_get _).symm) (by decide +kernel) (by decide +kernel)
  exact ⟨⟨app', hstep, hexact.mpr (by decide +kernel)⟩, hrising risenApp hrisen⟩

/-- A client counts from zero. -/
def earlyApp : HotStuffApp :=
  (execute briefStep [⟨0, 10, 0, 1⟩] (.start 1 1)).get (by decide +kernel)

/-- All timestamps are within one period, and the batch takes them all. -/
def wrappedApp : HotStuffApp :=
  (briefStep earlyApp ⟨0, 20, 0, 2000⟩).get (by decide +kernel)

/-- The next batch ends before the last one. -/
def fallenApp : HotStuffApp :=
  (briefStep wrappedApp ⟨0, 5000, 0, 4000⟩).get (by decide +kernel)

theorem early_tail_batched : Reachable briefLeader earlyApp ∧
    briefStep earlyApp ⟨0, 20, 0, 2000⟩ = some wrappedApp ∧
    wrappedApp.batches = [⟨18446744073709550636, 0, 2⟩] ∧
    ¬ CutExact earlyApp ⟨0, 20, 0, 2000⟩ wrappedApp ∧
    briefStep wrappedApp ⟨0, 5000, 0, 4000⟩ = some fallenApp ∧ ¬ Rising fallenApp := by
  refine ⟨reachable_brief (Option.some_get _).symm, (Option.some_get _).symm, by decide +kernel,
    fun hexact => ?_, (Option.some_get _).symm, fun hrising => ?_⟩
  · have hlength := hexact.batch.length_eq
    have hne : ¬ ((wrappedApp.commitSet.take wrappedApp.stablePointIdx).drop
        earlyApp.stablePointIdx).length = ((tailWith earlyApp ⟨0, 20, 0, 2000⟩).filter (fun e =>
          decide (e.timestamp.val + exactPeriod earlyApp ≤
            largest (tailWith earlyApp ⟨0, 20, 0, 2000⟩)))).length := by decide +kernel
    exact hne hlength
  · have hbatches : fallenApp.batches = [⟨4000, 2, 2⟩, ⟨18446744073709550636, 0, 2⟩] := by
      decide +kernel
    rw [Rising, hbatches] at hrising
    exact absurd hrising (by decide +kernel)

end ArchipelagoHotStuff.Archipelago.Cuts
