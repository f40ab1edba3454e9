/- Module: ArchipelagoHotStuff/General/Join
   scope: general
   digest: The join of a list of promises: a slot for each, a counter of the empty ones, and one
     outcome once the counter is down to zero. -/

import Mathlib.Data.List.Basic

set_option autoImplicit false
set_option relaxedAutoImplicit false

namespace ArchipelagoHotStuff.General.Join

universe u

/-- The promise of all: the slot of each promise, how many slots are still empty, and the lists
of slots it was resolved with. -/
structure All (α : Type u) where
  results : List (Option α)
  size : Nat
  resolved : List (List (Option α))
  deriving DecidableEq

variable {α : Type u} {j : All α} {i k : Nat} {v : α} {vs : List (Option α)}

namespace All

def pending (n : Nat) : All α := ⟨List.replicate n none, n, []⟩

/-- The callback of one promise: its slot is filled and the counter goes down. -/
def fulfil (j : All α) (i : Nat) (v : α) : All α :=
  { results := j.results.set i (some v)
    size := j.size - 1
    resolved := if j.size = 1 then j.resolved ++ [j.results.set i (some v)] else j.resolved }

/-- A promise calls back once. -/
def callback (j : All α) (i : Nat) (v : α) : All α :=
  match j.results[i]? with
  | some none => j.fulfil i v
  | _ => j

/-- The callbacks of the promises that have a value, in order, from the given one on. -/
def settle (j : All α) : Nat → List (Option α) → All α
  | _, [] => j
  | i, none :: vs => j.settle (i + 1) vs
  | i, some v :: vs => (j.callback i v).settle (i + 1) vs

/-- The counter counts the empty slots, and the join is resolved, with its slots, when none is
empty. -/
structure Ok (j : All α) : Prop where
  count : j.size = j.results.countP Option.isNone
  resolved : j.resolved = if j.size = 0 then [j.results] else []

theorem ok_pending {n : Nat} (hn : 0 < n) : (pending n : All α).Ok := by
  refine ⟨?_, (if_neg (Nat.ne_of_gt hn)).symm⟩
  simp [pending, List.countP_replicate]

@[simp] theorem length_fulfil : (j.fulfil i v).results.length = j.results.length := by
  simp [fulfil]

theorem get_fulfil (hi : i < j.results.length) :
    (j.fulfil i v).results[k]? = if i = k then some (some v) else j.results[k]? := by
  simp only [fulfil, List.getElem?_set, if_pos hi]

/-- Filling an empty slot keeps the counter right. -/
theorem Ok.fulfil (hok : j.Ok) (hi : j.results[i]? = some none) : (j.fulfil i v).Ok := by
  obtain ⟨hlt, hslot⟩ := List.getElem?_eq_some_iff.mp hi
  have hset : (j.results.set i (some v)).countP Option.isNone =
      j.results.countP Option.isNone - 1 := by
    rw [List.countP_set hlt, hslot]
    simp
  have hpos : 0 < j.results.countP Option.isNone :=
    List.countP_pos_iff.mpr ⟨none, hslot ▸ List.getElem_mem hlt, rfl⟩
  have hcount := hok.count
  have hresolved : j.resolved = [] := by
    rw [hok.resolved, if_neg (by omega)]
  refine ⟨by rw [All.fulfil, hset, hcount], ?_⟩
  simp only [All.fulfil, hresolved, List.nil_append]
  by_cases hlast : j.size = 1
  · rw [if_pos hlast, if_pos (by omega)]
  · rw [if_neg hlast, if_neg (by omega)]

/-- A join is resolved at most once, and with what its slots hold. -/
theorem Ok.resolved_eq (hok : j.Ok) : j.resolved = [] ∨ j.resolved = [j.results] := by
  rw [hok.resolved]
  split
  · exact .inr rfl
  · exact .inl rfl

/-- A join is resolved exactly when every slot is filled. -/
theorem Ok.full_iff (hok : j.Ok) : j.resolved = [j.results] ↔ none ∉ j.results := by
  have hzero : j.size = 0 ↔ none ∉ j.results := by
    rw [hok.count, List.countP_eq_zero]
    constructor
    · exact fun h hmem => h none hmem rfl
    · rintro h (_ | r) hmem
      · exact absurd hmem h
      · exact Bool.false_ne_true
  rw [hok.resolved, ← hzero]
  split
  · rename_i h
    exact ⟨fun _ => h, fun _ => rfl⟩
  · rename_i h
    exact ⟨fun hnil => absurd hnil (List.cons_ne_nil _ _).symm, fun hz => absurd hz h⟩

theorem Ok.callback (hok : j.Ok) : (j.callback i v).Ok := by
  unfold All.callback
  split
  · rename_i hempty
    exact hok.fulfil hempty
  · exact hok

theorem Ok.settle (hok : j.Ok) : (j.settle i vs).Ok := by
  induction vs generalizing j i with
  | nil => exact hok
  | cons v vs ih =>
      cases v with
      | none => exact ih hok
      | some v => exact ih hok.callback

theorem results_callback {before after : List (Option α)} {slot : Option α}
    (hresults : j.results = before ++ slot :: after) :
    (j.callback before.length v).results = before ++ slot.or (some v) :: after := by
  have hget : j.results[before.length]? = some slot := by
    rw [hresults, List.getElem?_append_right (Nat.le_refl _), Nat.sub_self]
    rfl
  unfold All.callback
  rw [hget]
  cases slot with
  | some w => exact hresults
  | none =>
      show j.results.set before.length (some v) = _
      rw [hresults, List.set_append_right _ _ (Nat.le_refl _), Nat.sub_self]
      rfl

theorem results_settle {before after : List (Option α)} (hresults : j.results = before ++ after)
    (hlen : after.length = vs.length) :
    (j.settle before.length vs).results = before ++ List.zipWith Option.or after vs := by
  induction vs generalizing j before after with
  | nil =>
      rw [List.length_eq_zero_iff.mp hlen] at hresults ⊢
      exact hresults
  | cons v vs ih =>
      cases after with
      | nil => cases hlen
      | cons slot after =>
          have hrest : after.length = vs.length := Nat.succ.inj hlen
          have hstep : ∀ {j' : All α} {slot' : Option α},
              j'.results = before ++ slot' :: after →
              (j'.settle (before.length + 1) vs).results =
                before ++ slot' :: List.zipWith Option.or after vs := by
            intro j' slot' hresults'
            have hmoved : j'.results = (before ++ [slot']) ++ after := hresults'.trans (by simp)
            simpa using ih hmoved hrest
          cases v with
          | none =>
              rw [All.settle, hstep hresults, List.zipWith_cons_cons, Option.or_none]
          | some v =>
              rw [All.settle, hstep (results_callback hresults), List.zipWith_cons_cons]

theorem Ok.ext {k : All α} (hj : j.Ok) (hk : k.Ok) (h : j.results = k.results) : j = k := by
  have hsize : j.size = k.size := by
    rw [hj.count, hk.count, h]
  have hresolved : j.resolved = k.resolved := by
    rw [hj.resolved, hk.resolved, hsize, h]
  cases j
  cases k
  simp_all

theorem results_settle_zero (hlen : j.results.length = vs.length) :
    (j.settle 0 vs).results = List.zipWith Option.or j.results vs :=
  results_settle (List.nil_append j.results).symm hlen

theorem results_settle_pending : ((pending vs.length).settle 0 vs).results = vs := by
  have hor : List.zipWith Option.or (List.replicate vs.length none) vs = vs :=
    List.ext_getElem (by simp) (fun n _ _ => by simp)
  rw [results_settle_zero List.length_replicate, pending, hor]

end All

end ArchipelagoHotStuff.General.Join
