/- Module: ArchipelagoHotStuff/General/Codec
   scope: general
   digest: Readers of a prefix of a stream, what they read back from a written one, and readers
     that accept nothing but what is written. -/

import Mathlib.Data.List.Forall2
import Mathlib.Algebra.Order.Ring.Nat

set_option autoImplicit false
set_option relaxedAutoImplicit false

namespace ArchipelagoHotStuff.General.Codec

universe u v w

variable {ε : Type u} {β : Type v} {α : Type w} {γ : Type w}

/-- A function that reads a value from the front of a stream and leaves the rest. -/
abbrev Reader (ε : Type u) (β : Type v) (α : Type w) := List β → Except ε (α × List β)

/-- Whatever follows them, the items `written` are read as a value that meets `P`, and nothing
else is read. -/
def Reads (get : Reader ε β α) (written : List β) (P : α → Prop) : Prop :=
  ∀ rest, ∃ a, P a ∧ get (written ++ rest) = .ok (a, rest)

/-- A reader accepts only what a writer produces. -/
def Canonical (get : Reader ε β α) (put : α → List β) : Prop :=
  ∀ s a rest, get s = .ok (a, rest) → s = put a ++ rest

def andThen (get : Reader ε β α) (next : α → Reader ε β γ) : Reader ε β γ :=
  fun s => get s >>= fun (r : α × List β) => next r.1 r.2

def repeated (get : Reader ε β α) : Nat → Reader ε β (List α)
  | 0, s => .ok ([], s)
  | n + 1, s => do
    let (a, s) ← get s
    let (as, s) ← repeated get n s
    return (a :: as, s)

variable {get : Reader ε β α} {next : α → Reader ε β γ} {put : α → List β} {w w' : List β}
  {P : α → Prop} {Q : γ → Prop}

theorem Reads.mono {P' : α → Prop} (h : Reads get w P) (hP : ∀ a, P a → P' a) :
    Reads get w P' := by
  intro rest
  obtain ⟨a, ha, hget⟩ := h rest
  exact ⟨a, hP a ha, hget⟩

theorem Reads.pure {a : α} (ha : P a) :
    Reads (fun s => (.ok (a, s) : Except ε (α × List β))) [] P :=
  fun _ => ⟨a, ha, rfl⟩

theorem Reads.andThen (h : Reads get w P) (hnext : ∀ a, P a → Reads (next a) w' Q) :
    Reads (andThen get next) (w ++ w') Q := by
  intro rest
  obtain ⟨a, ha, hget⟩ := h (w' ++ rest)
  obtain ⟨c, hc, hrest⟩ := hnext a ha rest
  refine ⟨c, hc, ?_⟩
  simp only [Codec.andThen, List.append_assoc, hget]
  exact hrest

theorem Reads.map {f : α → γ} (h : Reads get w P) (hf : ∀ a, P a → Q (f a)) :
    Reads (Codec.andThen get (fun a s => .ok (f a, s))) w Q := by
  intro rest
  obtain ⟨a, ha, hget⟩ := h rest
  refine ⟨f a, hf a ha, ?_⟩
  simp only [Codec.andThen, hget]
  rfl

/-- Whatever follows the items `written`, reading them ends with the same error. -/
def Refuses (get : Reader ε β α) (written : List β) (e : ε) : Prop :=
  ∀ rest, get (written ++ rest) = .error e

theorem Refuses.andThen {e : ε} (h : Refuses get w e) :
    Refuses (Codec.andThen get next) (w ++ w') e := by
  intro rest
  simp only [Codec.andThen, List.append_assoc, h (w' ++ rest)]
  rfl

theorem Reads.andThen_refuses {e : ε} (h : Reads get w P)
    (hnext : ∀ a, P a → Refuses (next a) w' e) : Refuses (Codec.andThen get next) (w ++ w') e := by
  intro rest
  obtain ⟨a, ha, hget⟩ := h (w' ++ rest)
  simp only [Codec.andThen, List.append_assoc, hget]
  exact hnext a ha rest

theorem repeated_succ (get : Reader ε β α) (n : Nat) :
    repeated get (n + 1) =
      andThen get (fun a => andThen (repeated get n) (fun as s => .ok (a :: as, s))) := rfl

theorem Reads.repeated {δ : Type*} {R : δ → α → Prop} {l : List δ} {ws : List (List β)}
    (h : List.Forall₂ (fun d w => Reads get w (R d)) l ws) :
    Reads (repeated get l.length) ws.flatten (List.Forall₂ R l) := by
  induction h with
  | nil => exact .pure .nil
  | @cons d w l ws hd hrest ih =>
      rw [List.length_cons, repeated_succ, List.flatten_cons]
      exact hd.andThen (fun a ha => ih.map (fun as has => .cons ha has))

theorem eq_of_forall₂ {l as : List α} (h : List.Forall₂ (fun d a => a = d) l as) : as = l := by
  induction h with
  | nil => rfl
  | cons hd _ ih => rw [hd, ih]

theorem Reads.repeated_eq {l : List α} (h : ∀ a ∈ l, Reads get (put a) (· = a)) :
    Reads (Codec.repeated get l.length) (l.flatMap put) (· = l) := by
  rw [List.flatMap_def]
  refine (Reads.repeated (R := fun d a => a = d) ?_).mono (fun as => eq_of_forall₂)
  induction l with
  | nil => exact .nil
  | cons a l ih =>
      exact .cons (h a List.mem_cons_self) (ih (fun d hd => h d (List.mem_cons_of_mem a hd)))

theorem andThen_ok {s mid : List β} {a : α} (h : get s = .ok (a, mid)) :
    andThen get next s = next a mid := by
  simp only [andThen, h]
  rfl

theorem andThen_eq_ok {s rest : List β} {c : γ} (h : andThen get next s = .ok (c, rest)) :
    ∃ a mid, get s = .ok (a, mid) ∧ next a mid = .ok (c, rest) := by
  cases hget : get s with
  | error e =>
      simp only [andThen, hget] at h
      cases h
  | ok r =>
      simp only [andThen, hget] at h
      exact ⟨r.1, r.2, rfl, h⟩

theorem Canonical.repeated (h : Canonical get put) {n : Nat} {s rest : List β} {as : List α}
    (hread : repeated get n s = .ok (as, rest)) :
    as.length = n ∧ s = as.flatMap put ++ rest := by
  induction n generalizing s as with
  | zero =>
      cases hread
      exact ⟨rfl, rfl⟩
  | succ n ih =>
      rw [repeated_succ] at hread
      obtain ⟨a, mid, hget, hread⟩ := andThen_eq_ok hread
      obtain ⟨as', mid', hrest, hend⟩ := andThen_eq_ok hread
      cases hend
      obtain ⟨hlen, heq⟩ := ih hrest
      refine ⟨congrArg (· + 1) hlen, ?_⟩
      rw [h s a mid hget, heq]
      simp

end ArchipelagoHotStuff.General.Codec
