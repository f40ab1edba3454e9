/- Module: ArchipelagoHotStuff/General/Sorting
   scope: general
   digest: Sorting by a key with any algorithm, cutting a sorted list at a bound, the entries of a
     given rank, and the scan for an entry of the greatest key. -/

import Mathlib.Data.List.Sort
import Mathlib.Data.List.TakeWhile
import Mathlib.Order.Basic

set_option autoImplicit false
set_option relaxedAutoImplicit false

namespace ArchipelagoHotStuff.General.Sorting

universe u v

variable {α : Type u} {κ : Type v} [LinearOrder κ]

/-- An algorithm that sorts by a key; what it does with entries of equal keys is open. -/
structure Sorter (key : α → κ) where
  sort : List α → List α
  perm : ∀ l, (sort l).Perm l
  sorted : ∀ l, (sort l).Pairwise (fun a b => key a ≤ key b)

/-- Insertion sort is such an algorithm. -/
def Sorter.insertion (key : α → κ) : Sorter key where
  sort l := l.insertionSort (fun a b => key a ≤ key b)
  perm l := List.perm_insertionSort _ l
  sorted l := by
    have : Std.Total (fun a b : α => key a ≤ key b) := ⟨fun a b => le_total (key a) (key b)⟩
    have : IsTrans α (fun a b => key a ≤ key b) := ⟨fun _ _ _ => le_trans⟩
    exact List.pairwise_insertionSort _ l

section cuts

variable {key : α → κ} {l : List α} {t : κ}

theorem le_of_mem_takeWhile {x : α} (hx : x ∈ l.takeWhile (fun a => decide (key a ≤ t))) :
    key x ≤ t :=
  of_decide_eq_true (List.mem_takeWhile_imp (p := fun a => decide (key a ≤ t)) hx)

theorem lt_of_mem_dropWhile (hl : l.Pairwise (fun a b => key a ≤ key b)) {x : α}
    (hx : x ∈ l.dropWhile (fun a => decide (key a ≤ t))) : t < key x := by
  induction l with
  | nil => cases hx
  | cons a l ih =>
      obtain ⟨ha, hl⟩ := List.pairwise_cons.mp hl
      by_cases hat : key a ≤ t
      · rw [List.dropWhile_cons_of_pos (by simpa using hat)] at hx
        exact ih hl hx
      · rw [List.dropWhile_cons_of_neg (by simpa using hat)] at hx
        have hta := lt_of_not_ge hat
        rcases List.mem_cons.mp hx with rfl | hx
        · exact hta
        · exact lt_of_lt_of_le hta (ha x hx)

/-- An entry of a sorted list is up to a bound exactly if its index is below their number. -/
theorem le_iff_lt_countP (hl : l.Pairwise (fun a b => key a ≤ key b)) {i : Nat} {a : α}
    (ha : l[i]? = some a) : key a ≤ t ↔ i < l.countP (fun x => decide (key x ≤ t)) := by
  induction l generalizing i with
  | nil => cases ha
  | cons x l ih =>
      obtain ⟨hx, hl⟩ := List.pairwise_cons.mp hl
      by_cases hxt : key x ≤ t
      · rw [List.countP_cons_of_pos (by simpa using hxt)]
        cases i with
        | zero =>
            obtain rfl : x = a := Option.some.inj ha
            exact ⟨fun _ => Nat.succ_pos _, fun _ => hxt⟩
        | succ i => exact (ih hl ha).trans Nat.succ_lt_succ_iff.symm
      · -- Nothing behind an entry beyond the bound is up to it.
        have hbeyond : ∀ y ∈ x :: l, ¬ key y ≤ t := by
          intro y hy hyt
          rcases List.mem_cons.mp hy with rfl | hy
          · exact hxt hyt
          · exact hxt ((hx y hy).trans hyt)
        have hzero : (x :: l).countP (fun x => decide (key x ≤ t)) = 0 := by
          rw [List.countP_eq_zero]
          exact fun y hy => by simpa using hbeyond y hy
        rw [hzero]
        exact ⟨fun hat => absurd hat (hbeyond a (List.mem_of_getElem? ha)),
          fun hlt => absurd hlt (Nat.not_lt_zero i)⟩

theorem take_countP_eq_filter (hl : l.Pairwise (fun a b => key a ≤ key b)) :
    l.take (l.countP (fun x => decide (key x ≤ t))) = l.filter (fun x => decide (key x ≤ t)) := by
  induction l with
  | nil => rfl
  | cons a l ih =>
      obtain ⟨ha, hl⟩ := List.pairwise_cons.mp hl
      by_cases hat : key a ≤ t
      · rw [List.countP_cons_of_pos (by simpa using hat), List.take_succ_cons, ih hl,
          List.filter_cons_of_pos (by simpa using hat)]
      · have hbeyond : ∀ x ∈ a :: l, ¬ key x ≤ t := by
          intro x hx hxt
          rcases List.mem_cons.mp hx with rfl | hx
          · exact hat hxt
          · exact hat ((ha x hx).trans hxt)
        have hzero : (a :: l).countP (fun x => decide (key x ≤ t)) = 0 := by
          rw [List.countP_eq_zero]
          exact fun x hx => by simpa using hbeyond x hx
        rw [hzero, List.take_zero, eq_comm, List.filter_eq_nil_iff]
        exact fun x hx => by simpa using hbeyond x hx

/-- Without ties, there is one way to sort. -/
theorem sorted_unique {l' : List α} (hl : l.Pairwise (fun a b => key a ≤ key b))
    (hl' : l'.Pairwise (fun a b => key a ≤ key b)) (hperm : l.Perm l')
    (hties : ∀ x ∈ l, ∀ y ∈ l, key x = key y → x = y) : l = l' :=
  hperm.eq_of_pairwise (fun x y hx hy hxy hyx =>
    hties x hx y (hperm.mem_iff.mpr hy) (le_antisymm hxy hyx)) hl hl'

end cuts

/-! Ranks. -/

/-- `v` has rank `k`: no more than `k` entries are below it, and more than `k` are not above. -/
structure HasRank (l : List κ) (k : Nat) (v : κ) : Prop where
  mem : v ∈ l
  below : l.countP (fun x => decide (x < v)) ≤ k
  upto : k < l.countP (fun x => decide (x ≤ v))

section ranks

variable {l l' : List κ} {k : Nat} {v w : κ}

theorem HasRank.perm (h : HasRank l k v) (hp : l.Perm l') : HasRank l' k v where
  mem := hp.subset h.mem
  below := (hp.countP_eq _) ▸ h.below
  upto := (hp.countP_eq _) ▸ h.upto

/-- An entry is up to a bound exactly if its rank is below the number of entries up to it. -/
theorem HasRank.le_iff (h : HasRank l k v) : v ≤ w ↔ k < l.countP (fun x => decide (x ≤ w)) := by
  constructor
  · intro hle
    refine lt_of_lt_of_le h.upto (List.countP_mono_left (fun x _ hx => ?_))
    rw [decide_eq_true_eq] at hx ⊢
    exact hx.trans hle
  · intro hcount
    by_contra hlt
    have hwv := lt_of_not_ge hlt
    have hsub : l.countP (fun x => decide (x ≤ w)) ≤ l.countP (fun x => decide (x < v)) := by
      refine List.countP_mono_left (fun x _ hx => ?_)
      rw [decide_eq_true_eq] at hx ⊢
      exact lt_of_le_of_lt hx hwv
    have hbelow := h.below
    omega

theorem HasRank.le {k' : Nat} (hv : HasRank l k v) (hw : HasRank l k' w) (hle : k ≤ k') : v ≤ w :=
  hv.le_iff.mpr (lt_of_le_of_lt hle hw.upto)

theorem HasRank.unique (hv : HasRank l k v) (hw : HasRank l k w) : v = w :=
  le_antisymm (hv.le hw le_rfl) (hw.le hv le_rfl)

/-- The entry at index `k` of a sorted list has rank `k`. -/
theorem hasRank_of_sorted (hl : l.Pairwise (· ≤ ·)) (hk : l[k]? = some v) : HasRank l k v := by
  obtain ⟨hlt, hget⟩ := List.getElem?_eq_some_iff.mp hk
  have hsplit : l = l.take k ++ v :: l.drop (k + 1) := by
    rw [← hget, List.getElem_cons_drop, List.take_append_drop]
  have hpair := hl
  rw [hsplit, List.pairwise_append, List.pairwise_cons] at hpair
  obtain ⟨_, ⟨hafter, _⟩, hbefore⟩ := hpair
  have hlength : (l.take k).length = k := List.length_take_of_le (Nat.le_of_lt hlt)
  refine ⟨hget ▸ List.getElem_mem hlt, ?_, ?_⟩
  · have hzero : (v :: l.drop (k + 1)).countP (fun x => decide (x < v)) = 0 := by
      rw [List.countP_eq_zero]
      intro x hx
      rw [decide_eq_true_eq, not_lt]
      rcases List.mem_cons.mp hx with rfl | hx
      · exact le_rfl
      · exact hafter x hx
    rw [hsplit, List.countP_append, hzero]
    have := List.countP_le_length (p := fun x => decide (x < v)) (l := l.take k)
    omega
  · have hall : (l.take k).countP (fun x => decide (x ≤ v)) = k := by
      rw [List.countP_eq_length.mpr, hlength]
      intro x hx
      exact decide_eq_true (hbefore x hx v List.mem_cons_self)
    rw [hsplit, List.countP_append, hall, List.countP_cons_of_pos (by simp)]
    omega

theorem exists_hasRank (hk : k < l.length) : ∃ v, HasRank l k v := by
  have hperm : (l.insertionSort (· ≤ ·)).Perm l := List.perm_insertionSort _ l
  have hget := List.getElem?_eq_getElem (hperm.length_eq.symm ▸ hk)
  exact ⟨_, (hasRank_of_sorted (List.pairwise_insertionSort _ l) hget).perm hperm⟩

/-- When no more than `k` of `2 k + 1` entries are bad, the entry of rank `k` lies between good
ones. -/
theorem HasRank.between_good {good bad : List κ} (h : HasRank l k v)
    (hperm : l.Perm (good ++ bad)) (hbad : bad.length ≤ k) (hlength : l.length = 2 * k + 1) :
    (∃ g ∈ good, g ≤ v) ∧ ∃ g ∈ good, v ≤ g := by
  have hcount : ∀ p : κ → Bool, bad.length < l.countP p → ∃ g ∈ good, p g = true := by
    intro p hp
    by_contra hnone
    have hzero : good.countP p = 0 := by
      rw [List.countP_eq_zero]
      exact fun g hg hpg => hnone ⟨g, hg, hpg⟩
    have hle := List.countP_le_length (p := p) (l := bad)
    rw [hperm.countP_eq, List.countP_append, hzero] at hp
    omega
  refine ⟨?_, ?_⟩
  · obtain ⟨g, hg, hle⟩ := hcount (fun x => decide (x ≤ v)) (lt_of_le_of_lt hbad h.upto)
    exact ⟨g, hg, of_decide_eq_true hle⟩
  · have hsum := List.length_eq_countP_add_countP (fun x => decide (x < v)) (l := l)
    have hbelow := h.below
    obtain ⟨g, hg, hle⟩ := hcount (fun x => decide ¬ decide (x < v) = true) (by omega)
    refine ⟨g, hg, ?_⟩
    have hnot := of_decide_eq_true hle
    rw [decide_eq_true_eq] at hnot
    exact not_lt.mp hnot

end ranks

/-! Scanning for the best. -/

/-- A scan that moves on to an admitted entry of a greater key ends at its start or at an
admitted entry, and nothing admitted has a greater key. -/
theorem scan_spec (key : α → κ) (admits : α → Bool) (l : List α) (a : α) :
    let best := l.foldl (fun best x =>
      if admits x && decide (key best < key x) then x else best) a
    (best = a ∨ (best ∈ l ∧ admits best = true)) ∧ key a ≤ key best ∧
      ∀ x ∈ l, admits x = true → key x ≤ key best := by
  induction l generalizing a with
  | nil => exact ⟨.inl rfl, le_rfl, nofun⟩
  | cons x l ih =>
      rw [List.foldl_cons]
      cases hx : admits x && decide (key a < key x) with
      | true =>
          obtain ⟨hend, hle, hall⟩ := ih x
          rw [Bool.and_eq_true, decide_eq_true_eq] at hx
          refine ⟨.inr ?_, hx.2.le.trans hle, fun y hy hadm => ?_⟩
          · rcases hend with heq | ⟨hmem, hadm⟩
            · rw [if_pos rfl, heq]
              exact ⟨List.mem_cons_self, hx.1⟩
            · exact ⟨List.mem_cons_of_mem x hmem, hadm⟩
          · rcases List.mem_cons.mp hy with rfl | hy
            · exact hle
            · exact hall y hy hadm
      | false =>
          obtain ⟨hend, hle, hall⟩ := ih a
          refine ⟨hend.imp_right (fun h => ⟨List.mem_cons_of_mem x h.1, h.2⟩), hle,
            fun y hy hadm => ?_⟩
          rcases List.mem_cons.mp hy with rfl | hy
          · rw [hadm, Bool.true_and, decide_eq_false_iff_not] at hx
            exact (le_of_not_gt hx).trans hle
          · exact hall y hy hadm

end ArchipelagoHotStuff.General.Sorting
