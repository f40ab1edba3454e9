/- Module: ArchipelagoHotStuff/General/ParentTree
   scope: general
   digest: Ancestry, depth and root paths in a forest given by a partial parent map. -/

import Mathlib.Data.List.Chain
import Mathlib.Data.Nat.Basic
import Mathlib.Data.Set.Finite.Lemmas

set_option autoImplicit false
set_option relaxedAutoImplicit false

namespace ArchipelagoHotStuff.General.ParentTree

universe u

variable {B : Type u}

/-- `Extends parent b a`: following parents from `b` reaches `a`, possibly at once. -/
inductive Extends (parent : B → Option B) : B → B → Prop
  | refl (b : B) : Extends parent b b
  | step {b p a : B} : parent b = some p → Extends parent p a → Extends parent b a

/-- `Depth parent root b k`: the root is reached from `b` in exactly `k` parent steps. -/
inductive Depth (parent : B → Option B) (root : B) : B → Nat → Prop
  | root : Depth parent root root 0
  | child {b p : B} {k : Nat} : parent b = some p → Depth parent root p k →
      Depth parent root b (k + 1)

section ancestry

variable {parent : B → Option B} {a b c p root : B} {j k : Nat}

theorem Extends.trans (hab : Extends parent a b) (hbc : Extends parent b c) :
    Extends parent a c := by
  induction hab with
  | refl _ => exact hbc
  | step hp _ ih => exact .step hp (ih hbc)

theorem Extends.comparable (hb : Extends parent a b) (hc : Extends parent a c) :
    Extends parent b c ∨ Extends parent c b := by
  induction hb with
  | refl _ => exact .inl hc
  | @step x p b hp hpb ih =>
      cases hc with
      | refl _ => exact .inr (.step hp hpb)
      | step hq hqc =>
          rw [hp] at hq
          cases hq
          exact ih hqc

theorem Extends.mono {parent' : B → Option B}
    (hsub : ∀ x y, parent x = some y → parent' x = some y)
    (h : Extends parent a b) : Extends parent' a b := by
  induction h with
  | refl _ => exact .refl _
  | step hp _ ih => exact .step (hsub _ _ hp) ih

theorem Depth.mono {parent' : B → Option B}
    (hsub : ∀ x y, parent x = some y → parent' x = some y)
    (h : Depth parent root a k) : Depth parent' root a k := by
  induction h with
  | root => exact .root
  | child hp _ ih => exact .child (hsub _ _ hp) ih

theorem Depth.extends_root (h : Depth parent root b k) : Extends parent b root := by
  induction h with
  | root => exact .refl _
  | child hp _ ih => exact .step hp ih

theorem Depth.zero_eq (h : Depth parent root b 0) : b = root := by
  cases h
  rfl

/-- Where heights grow from parents to children, every node of a finite forest has a highest
descendant, which is nobody's parent. -/
theorem exists_highest [Finite B] {height : B → Nat}
    (hup : ∀ x p, parent x = some p → height p < height x) (a : B) :
    ∃ t, Extends parent t a ∧ (∀ x, Extends parent x a → height x ≤ height t) ∧
      ∀ x, parent x ≠ some t := by
  obtain ⟨t, ht, hmax⟩ := Set.exists_max_image {x | Extends parent x a} height
    (Set.toFinite _) ⟨a, .refl a⟩
  refine ⟨t, ht, hmax, fun x hx => ?_⟩
  have hlt := hup x t hx
  have hle := hmax x (Extends.step hx ht)
  omega

variable (hroot : parent root = none)

include hroot

theorem Depth.unique (hj : Depth parent root b j) (hk : Depth parent root b k) : j = k := by
  induction hj generalizing k with
  | root =>
      cases hk with
      | root => rfl
      | child hp _ => rw [hroot] at hp; cases hp
  | child hp _ ih =>
      cases hk with
      | root => rw [hroot] at hp; cases hp
      | child hq hk' =>
          rw [hp] at hq
          cases hq
          rw [ih hk']

theorem Extends.root_eq (h : Extends parent root a) : a = root := by
  cases h with
  | refl _ => rfl
  | step hp _ => rw [hroot] at hp; cases hp

theorem Extends.depth_le (h : Extends parent b a) (hb : Depth parent root b k) :
    ∃ i, Depth parent root a i ∧ i ≤ k ∧ (i = k → a = b) := by
  induction h generalizing k with
  | refl _ => exact ⟨k, hb, le_rfl, fun _ => rfl⟩
  | step hp hpa ih =>
      cases hb with
      | root => rw [hroot] at hp; cases hp
      | child hq hk =>
          rw [hp] at hq
          cases hq
          obtain ⟨i, hi, hle, _⟩ := ih hk
          exact ⟨i, hi, by omega, by omega⟩

end ancestry

/-! A root path lists the nodes above the root on the way up to its last entry. -/

/-- Consecutive entries of `root :: path` are parent and child. -/
def RootPath (parent : B → Option B) (root : B) (path : List B) : Prop :=
  List.IsChain (fun x y => parent y = some x) (root :: path)

def tip (root : B) (path : List B) : B := (root :: path).getLast (List.cons_ne_nil root path)

@[simp] theorem tip_nil (root : B) : tip root [] = root := rfl

@[simp] theorem tip_append_singleton (root : B) (path : List B) (b : B) :
    tip root (path ++ [b]) = b := by
  simp [tip]

section paths

variable {parent : B → Option B} {root b : B} {path path' : List B}

theorem rootPath_nil : RootPath parent root [] := by
  simp [RootPath]

theorem rootPath_append_singleton :
    RootPath parent root (path ++ [b]) ↔
      RootPath parent root path ∧ parent b = some (tip root path) := by
  unfold RootPath tip
  rw [← List.cons_append, List.isChain_append]
  simp [List.getLast?_eq_some_getLast]

theorem tip_append (root : B) (path path' : List B) :
    tip root (path ++ path') = tip (tip root path) path' := by
  induction path' using List.reverseRecOn with
  | nil => simp
  | append_singleton path' b _ =>
      rw [← List.append_assoc, tip_append_singleton, tip_append_singleton]

theorem RootPath.append (h : RootPath parent root path)
    (h' : RootPath parent (tip root path) path') : RootPath parent root (path ++ path') := by
  induction path' using List.reverseRecOn with
  | nil => simpa using h
  | append_singleton path' b ih =>
      obtain ⟨hpath', hb⟩ := rootPath_append_singleton.mp h'
      rw [← List.append_assoc]
      refine rootPath_append_singleton.mpr ⟨ih hpath', ?_⟩
      rw [tip_append]
      exact hb

theorem RootPath.mono {parent' : B → Option B}
    (hsub : ∀ x y, parent x = some y → parent' x = some y)
    (h : RootPath parent root path) : RootPath parent' root path :=
  List.IsChain.imp (fun _ _ hp => hsub _ _ hp) h

theorem RootPath.depth_tip (h : RootPath parent root path) :
    Depth parent root (tip root path) path.length := by
  induction path using List.reverseRecOn with
  | nil => exact .root
  | append_singleton path b ih =>
      obtain ⟨hpath, hb⟩ := rootPath_append_singleton.mp h
      rw [tip_append_singleton, List.length_append]
      exact .child hb (ih hpath)

theorem RootPath.mem_depth (h : RootPath parent root path) {x : B} (hx : x ∈ path) :
    ∃ i, Depth parent root x (i + 1) ∧ i + 1 ≤ path.length ∧ path[i]? = some x := by
  induction path using List.reverseRecOn with
  | nil => cases hx
  | append_singleton path b ih =>
      obtain ⟨hpath, hb⟩ := rootPath_append_singleton.mp h
      rcases List.mem_append.mp hx with hx | hx
      · obtain ⟨i, hi, hle, hget⟩ := ih hpath hx
        refine ⟨i, hi, by simp; omega, ?_⟩
        rw [List.getElem?_append_left (by omega)]
        exact hget
      · have heq : x = b := by simpa using hx
        subst heq
        exact ⟨path.length, .child hb hpath.depth_tip, by simp, by simp⟩

theorem RootPath.tip_extends (h : RootPath parent root path) {x : B} (hx : x ∈ path) :
    Extends parent (tip root path) x := by
  induction path using List.reverseRecOn with
  | nil => cases hx
  | append_singleton path b ih =>
      obtain ⟨hpath, hb⟩ := rootPath_append_singleton.mp h
      rw [tip_append_singleton]
      rcases List.mem_append.mp hx with hx | hx
      · exact .step hb (ih hpath hx)
      · have heq : x = b := by simpa using hx
        exact heq ▸ .refl _

theorem RootPath.mem_of_extends (hroot : parent root = none) (h : RootPath parent root path)
    {x : B} (hx : Extends parent (tip root path) x) : x = root ∨ x ∈ path := by
  induction path using List.reverseRecOn with
  | nil => exact .inl (hx.root_eq hroot)
  | append_singleton path b ih =>
      obtain ⟨hpath, hb⟩ := rootPath_append_singleton.mp h
      rw [tip_append_singleton] at hx
      cases hx with
      | refl _ => exact .inr (by simp)
      | step hp hpx =>
          rw [hb] at hp
          cases hp
          rcases ih hpath hpx with hx | hx
          · exact .inl hx
          · exact .inr (List.mem_append_left _ hx)

theorem RootPath.tip_extends_root (h : RootPath parent root path) :
    Extends parent (tip root path) root := h.depth_tip.extends_root

theorem RootPath.nodup (hroot : parent root = none) (h : RootPath parent root path) :
    path.Nodup := by
  induction path using List.reverseRecOn with
  | nil => exact List.nodup_nil
  | append_singleton path b ih =>
      obtain ⟨hpath, hb⟩ := rootPath_append_singleton.mp h
      have fresh : b ∉ path := by
        intro hmem
        obtain ⟨i, hi, hle, _⟩ := hpath.mem_depth hmem
        have hsame := hi.unique hroot (.child hb hpath.depth_tip)
        omega
      rw [List.nodup_append]
      refine ⟨ih hpath, by simp, ?_⟩
      intro x hx y hy hxy
      have hyb : y = b := by simpa using hy
      exact fresh (hyb ▸ hxy ▸ hx)

theorem RootPath.unique (hroot : parent root = none) (h : RootPath parent root path)
    (h' : RootPath parent root path') (htip : tip root path = tip root path') :
    path = path' := by
  induction path using List.reverseRecOn generalizing path' with
  | nil =>
      induction path' using List.reverseRecOn with
      | nil => rfl
      | append_singleton path' b' _ =>
          obtain ⟨_, hb'⟩ := rootPath_append_singleton.mp h'
          rw [tip_nil, tip_append_singleton] at htip
          rw [← htip, hroot] at hb'
          cases hb'
  | append_singleton path b ih =>
      obtain ⟨hpath, hb⟩ := rootPath_append_singleton.mp h
      induction path' using List.reverseRecOn with
      | nil =>
          rw [tip_nil, tip_append_singleton] at htip
          rw [htip, hroot] at hb
          cases hb
      | append_singleton path' b' _ =>
          obtain ⟨hpath', hb'⟩ := rootPath_append_singleton.mp h'
          rw [tip_append_singleton, tip_append_singleton] at htip
          subst htip
          have hparents : tip root path = tip root path' := by
            rw [hb] at hb'
            exact Option.some.inj hb'
          rw [ih hpath hpath' hparents]

/-- If one tip extends the other, the shorter root path is a prefix of the longer. -/
theorem RootPath.prefix_of_extends (hroot : parent root = none) (h : RootPath parent root path)
    (h' : RootPath parent root path') (hext : Extends parent (tip root path') (tip root path)) :
    path <+: path' := by
  induction path' using List.reverseRecOn with
  | nil =>
      have htip : tip root path = tip root [] := hext.root_eq hroot
      obtain rfl : path = [] := h.unique hroot rootPath_nil htip
      exact List.prefix_rfl
  | append_singleton path' b ih =>
      obtain ⟨hpath', hb⟩ := rootPath_append_singleton.mp h'
      generalize hx : tip root (path' ++ [b]) = x at hext
      cases hext with
      | refl _ =>
          obtain rfl : path = path' ++ [b] := h.unique hroot h' hx.symm
          exact List.prefix_rfl
      | step hp hpx =>
          rw [tip_append_singleton] at hx
          subst hx
          rw [hb] at hp
          cases hp
          exact (ih hpath' hpx).trans (List.prefix_append _ _)

end paths

end ArchipelagoHotStuff.General.ParentTree
