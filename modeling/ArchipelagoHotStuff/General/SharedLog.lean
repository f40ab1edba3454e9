/- Module: ArchipelagoHotStuff/General/SharedLog
   digest: One log that only grows, of which every reader has read a part from its start; systems
     whose readers read it without knowing it. -/

import ArchipelagoHotStuff.General.Transition
import Mathlib.Data.List.Infix
import Mathlib.Logic.Function.Basic

set_option autoImplicit false
set_option relaxedAutoImplicit false

namespace ArchipelagoHotStuff.General.SharedLog

open Transition

universe u v w

variable {ι : Type u} {α : Type v}

/-- A log, and how much of it each reader has read. -/
structure ReadLog (ι : Type u) (α : Type v) where
  log : List α
  position : ι → Nat

/-- An entry is added at the end, or a reader reads its next one. -/
inductive Action (ι : Type u) (α : Type v)
  | append (a : α)
  | read (i : ι)

def ReadLog.seen (t : ReadLog ι α) (i : ι) : List α := t.log.take (t.position i)

def sharedLog (ι : Type u) (α : Type v) [DecidableEq ι] : System (ReadLog ι α) (Action ι α) where
  init t := t = ⟨[], fun _ => 0⟩
  step t a t' :=
    match a with
    | .append a => t' = { t with log := t.log ++ [a] }
    | .read i => t.position i < t.log.length ∧
        t' = { t with position := Function.update t.position i (t.position i + 1) }

section runs

variable [DecidableEq ι] {t t' : ReadLog ι α} {i : ι}

theorem steps_append (t : ReadLog ι α) (l : List α) :
    Steps (sharedLog ι α) t { t with log := t.log ++ l } := by
  induction l generalizing t with
  | nil =>
      rw [List.append_nil]
      exact .refl
  | cons a l ih =>
      have hrest := ih { t with log := t.log ++ [a] }
      rw [show t.log ++ a :: l = t.log ++ [a] ++ l by simp]
      exact .head ⟨.append a, rfl⟩ hrest

theorem steps_read (t : ReadLog ι α) (i : ι) {n : Nat} (hpos : t.position i ≤ n)
    (hn : n ≤ t.log.length) :
    Steps (sharedLog ι α) t { t with position := Function.update t.position i n } := by
  induction n, hpos using Nat.le_induction with
  | base =>
      rw [Function.update_eq_self]
      exact .refl
  | succ n hpos ih =>
      refine .tail (ih (Nat.le_of_succ_le hn)) ⟨.read i, ?_, ?_⟩
      · show Function.update t.position i n i < t.log.length
        rw [Function.update_self]
        exact hn
      · simp

end runs

/-! Systems that share a log. -/

section readers

variable {σ : Type w} {β : Type*} {C : System σ β} {member : ι → Prop} {out : σ → ι → List α}

/-- The log is as long as what the furthest reader has read. -/
structure Shares (member : ι → Prop) (out : σ → ι → List α) (s : σ) (t : ReadLog ι α) :
    Prop where
  seen : ∀ i, member i → out s i <+: t.log ∧ t.position i = (out s i).length
  known : t.log = [] ∨ ∃ i, member i ∧ out s i = t.log

theorem Shares.seen_eq {s : σ} {t : ReadLog ι α} (h : Shares member out s t) {i : ι}
    (hi : member i) : t.seen i = out s i := by
  obtain ⟨hpre, hpos⟩ := h.seen i hi
  unfold ReadLog.seen
  rw [hpos]
  exact (List.prefix_iff_eq_take.mp hpre).symm

theorem Shares.compare {s s' : σ} {t : ReadLog ι α} {i : ι} (h : Shares member out s t)
    (hgrow : out s i <+: out s' i) (hother : ∀ j, member j → j ≠ i → out s' j = out s j)
    (hagree : ∀ j, member j → out s' i <+: out s' j ∨ out s' j <+: out s' i) :
    out s' i <+: t.log ∨ t.log <+: out s' i := by
  rcases h.known with hnil | ⟨j, hj, heq⟩
  · rw [hnil]
    exact .inr List.nil_prefix
  · rw [← heq]
    by_cases hji : j = i
    · rw [hji]
      exact .inr hgrow
    · rw [← hother j hj hji]
      exact hagree j hj

theorem Shares.moved [DecidableEq ι] {s s' : σ} {t : ReadLog ι α} {log : List α} {i : ι}
    (h : Shares member out s t) (hother : ∀ j, member j → j ≠ i → out s' j = out s j)
    (hlog : t.log <+: log) (hi : out s' i <+: log)
    (hknown : log = [] ∨ ∃ j, member j ∧ out s' j = log) :
    Shares member out s' ⟨log, Function.update t.position i (out s' i).length⟩ := by
  refine ⟨fun j hj => ?_, hknown⟩
  show _ ∧ Function.update t.position i (out s' i).length j = _
  by_cases hji : j = i
  · subst hji
    exact ⟨hi, Function.update_self ..⟩
  · obtain ⟨hseen, hpos⟩ := h.seen j hj
    rw [Function.update_of_ne hji, hother j hj hji]
    exact ⟨hseen.trans hlog, hpos⟩

/-- If every step extends what one reader has read, and no two readers ever disagree, the readers
read a shared log. -/
def sharing [DecidableEq ι] (member : ι → Prop) (out : σ → ι → List α)
    (hinit : ∀ s, C.init s → ∀ i, member i → out s i = [])
    (hstep : ∀ s a s', Reachable C s → C.step s a s' →
      ∃ i, (member i → out s i <+: out s' i) ∧ ∀ j, member j → j ≠ i → out s' j = out s j)
    (hagree : ∀ s, Reachable C s → ∀ i j, member i → member j →
      out s i <+: out s j ∨ out s j <+: out s i) : Simulation C (sharedLog ι α) where
  rel := Shares member out
  init := by
    intro s hs
    refine ⟨⟨[], fun _ => 0⟩, rfl, fun i hi => ?_, .inl rfl⟩
    rw [hinit s hs i hi]
    exact ⟨List.nil_prefix, rfl⟩
  step := by
    intro s a s' t hs _ hrel hact
    obtain ⟨i, hgrow, hother⟩ := hstep s a s' hs hact
    by_cases hi : member i
    swap
    · have hsame : ∀ j, member j → out s' j = out s j :=
        fun j hj => hother j hj (fun heq => hi (heq ▸ hj))
      refine ⟨t, .refl, fun j hj => ?_, ?_⟩
      · rw [hsame j hj]
        exact hrel.seen j hj
      · exact hrel.known.imp id (fun ⟨j, hj, heq⟩ => ⟨j, hj, (hsame j hj).trans heq⟩)
    obtain ⟨hpre, hpos⟩ := hrel.seen i hi
    have hle : t.position i ≤ (out s' i).length := by
      rw [hpos]
      exact (hgrow hi).length_le
    rcases hrel.compare (hgrow hi) hother
      (fun j hj => hagree s' (hs.step hact) i j hi hj) with hshort | ⟨rest, hlong⟩
    · -- The reader catches up with what others have read.
      refine ⟨_, steps_read t i hle hshort.length_le,
        hrel.moved hother List.prefix_rfl hshort ?_⟩
      refine hrel.known.imp id (fun ⟨j, hj, heq⟩ => ⟨j, hj, ?_⟩)
      by_cases hji : j = i
      · subst hji
        rw [← heq] at hshort ⊢
        exact hshort.eq_of_length (le_antisymm hshort.length_le (hgrow hi).length_le)
      · exact (hother j hj hji).trans heq
    · -- The reader is the first to read what follows.
      refine ⟨_, .trans (steps_append t rest) (steps_read _ i hle ?_),
        hrel.moved hother (List.prefix_append _ _) ?_ (.inr ⟨i, hi, hlong.symm⟩)⟩
      · rw [hlong]
      · rw [hlong]

end readers

end ArchipelagoHotStuff.General.SharedLog
