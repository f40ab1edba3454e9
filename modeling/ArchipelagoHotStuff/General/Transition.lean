/- Module: ArchipelagoHotStuff/General/Transition
   scope: general
   digest: Labelled transition systems, their runs, invariants and simulations. -/

import Mathlib.Logic.Relation

set_option autoImplicit false
set_option relaxedAutoImplicit false

namespace ArchipelagoHotStuff.General.Transition

universe u v w x

/-- A labelled transition system. -/
structure System (σ : Type u) (α : Type v) where
  init : σ → Prop
  step : σ → α → σ → Prop

variable {σ : Type u} {α : Type v} {τ : Type w} {β : Type x}

/-- The states some run of the system reaches. -/
inductive Reachable (S : System σ α) : σ → Prop
  | init {s : σ} : S.init s → Reachable S s
  | step {s s' : σ} {a : α} : Reachable S s → S.step s a s' → Reachable S s'

/-- `Steps S s s'`: a run leads from `s` to `s'`. -/
def Steps (S : System σ α) : σ → σ → Prop :=
  Relation.ReflTransGen (fun s s' => ∃ a, S.step s a s')

/-- The runs all of whose steps meet a condition on the state before and the label. -/
def System.restrict (S : System σ α) (ok : σ → α → Prop) : System σ α where
  init := S.init
  step s a s' := ok s a ∧ S.step s a s'

theorem Reachable.of_restrict {S : System σ α} {ok : σ → α → Prop} {s : σ}
    (h : Reachable (S.restrict ok) s) : Reachable S s := by
  induction h with
  | init h => exact .init h
  | step _ hs ih => exact .step ih hs.2

theorem Reachable.restrict {S : System σ α} {ok : σ → α → Prop} {s : σ} (h : Reachable S s)
    (hok : ∀ s a, ok s a) : Reachable (S.restrict ok) s := by
  induction h with
  | init h => exact .init h
  | step _ hs ih => exact .step ih ⟨hok _ _, hs⟩

theorem Reachable.restrict_mono {S : System σ α} {ok ok' : σ → α → Prop} {s : σ}
    (h : Reachable (S.restrict ok) s) (hok : ∀ s a, ok s a → ok' s a) :
    Reachable (S.restrict ok') s := by
  induction h with
  | init h => exact .init h
  | step _ hs ih => exact .step ih ⟨hok _ _ hs.1, hs.2⟩

theorem Reachable.trans {S : System σ α} {s s' : σ} (h : Reachable S s) (hs : Steps S s s') :
    Reachable S s' := by
  induction hs with
  | refl => exact h
  | tail _ hstep ih =>
      obtain ⟨a, ha⟩ := hstep
      exact .step ih ha

/-- A property of the initial states that reachable steps preserve holds in every
reachable state. -/
theorem Reachable.invariant {S : System σ α} {I : σ → Prop} {s : σ} (h : Reachable S s)
    (hinit : ∀ s, S.init s → I s)
    (hstep : ∀ s a s', Reachable S s → I s → S.step s a s' → I s') : I s := by
  induction h with
  | init h => exact hinit _ h
  | step hr hs ih => exact hstep _ _ _ hr ih hs

/-- A relation that every step from a reachable state respects is respected by runs. -/
theorem Steps.monotone {S : System σ α} {R : σ → σ → Prop} {s s' : σ} (h : Reachable S s)
    (hrefl : ∀ s, R s s) (htrans : ∀ {s t u}, R s t → R t u → R s u)
    (hstep : ∀ s a s', Reachable S s → S.step s a s' → R s s') (hs : Steps S s s') :
    R s s' := by
  induction hs with
  | refl => exact hrefl s
  | tail hsteps hlast ih =>
      obtain ⟨a, ha⟩ := hlast
      exact htrans ih (hstep _ a _ (h.trans hsteps) ha)

theorem Steps.mono {S T : System σ α} {s s' : σ} (hs : Steps S s s')
    (hST : ∀ s a s', S.step s a s' → T.step s a s') : Steps T s s' := by
  induction hs with
  | refl => exact .refl
  | tail _ hlast ih =>
      obtain ⟨a, ha⟩ := hlast
      exact ih.tail ⟨a, hST _ a _ ha⟩

/-- What every step preserves, a run preserves. -/
theorem Steps.invariant {S : System σ α} {I : σ → Prop} {s s' : σ} (hs : Steps S s s')
    (h : I s) (hstep : ∀ s a s', I s → S.step s a s' → I s') : I s' := by
  induction hs with
  | refl => exact h
  | tail _ hlast ih =>
      obtain ⟨a, ha⟩ := hlast
      exact hstep _ a _ ih ha

/-- A forward simulation: every concrete step is matched by a run of abstract steps. -/
structure Simulation (C : System σ α) (A : System τ β) where
  rel : σ → τ → Prop
  init : ∀ s, C.init s → ∃ t, A.init t ∧ rel s t
  step : ∀ s a s' t, Reachable C s → Reachable A t → rel s t → C.step s a s' →
    ∃ t', Steps A t t' ∧ rel s' t'

/-- A simulated state is related to a reachable abstract state. -/
theorem Simulation.reachable {C : System σ α} {A : System τ β} (sim : Simulation C A) {s : σ}
    (h : Reachable C s) : ∃ t, Reachable A t ∧ sim.rel s t := by
  induction h with
  | init h =>
      obtain ⟨t, ht, hrel⟩ := sim.init _ h
      exact ⟨t, .init ht, hrel⟩
  | step hr hs ih =>
      obtain ⟨t, ht, hrel⟩ := ih
      obtain ⟨t', hsteps, hrel'⟩ := sim.step _ _ _ t hr ht hrel hs
      exact ⟨t', ht.trans hsteps, hrel'⟩

theorem Simulation.steps {C : System σ α} {A : System τ β} (sim : Simulation C A) {s s' : σ} {t : τ}
    (hs : Reachable C s) (ht : Reachable A t) (hrel : sim.rel s t) (hrun : Steps C s s') :
    ∃ t', Steps A t t' ∧ sim.rel s' t' := by
  induction hrun with
  | refl => exact ⟨t, .refl, hrel⟩
  | tail hsteps hlast ih =>
      obtain ⟨a, ha⟩ := hlast
      obtain ⟨u, htu, hrel'⟩ := ih
      obtain ⟨t', hut, hrel''⟩ := sim.step _ a _ u (hs.trans hsteps) (ht.trans htu) hrel' ha
      exact ⟨t', htu.trans hut, hrel''⟩

/-- A step function that refuses what a condition excludes. -/
def guarded (ok : σ → α → Prop) [∀ s a, Decidable (ok s a)] (step : σ → α → Option σ) (s : σ)
    (a : α) : Option σ :=
  if ok s a then step s a else none

theorem guarded_eq_some {ok : σ → α → Prop} [∀ s a, Decidable (ok s a)] {step : σ → α → Option σ}
    {s s' : σ} {a : α} (h : guarded ok step s a = some s') : ok s a ∧ step s a = some s' := by
  unfold guarded at h
  split at h
  · rename_i hok
    exact ⟨hok, h⟩
  · cases h

/-- Run a deterministic step function along a list of labels. -/
def execute (step : σ → α → Option σ) : List α → σ → Option σ
  | [], s => some s
  | a :: as, s => (step s a).bind (execute step as)

theorem execute_append {step : σ → α → Option σ} {as bs : List α} {s : σ} :
    execute step (as ++ bs) s = (execute step as s).bind (execute step bs) := by
  induction as generalizing s with
  | nil => rfl
  | cons a as ih =>
      simp only [List.cons_append, execute, Option.bind_assoc]
      congr 1
      funext t
      exact ih

/-- What a step function executes is a run of any system that contains its steps. -/
theorem steps_of_execute {S : System σ α} {step : σ → α → Option σ}
    (hstep : ∀ s a s', step s a = some s' → S.step s a s') {as : List α} {s s' : σ}
    (h : execute step as s = some s') : Steps S s s' := by
  induction as generalizing s with
  | nil =>
      cases h
      exact .refl
  | cons a as ih =>
      obtain ⟨t, ht, hrest⟩ := Option.bind_eq_some_iff.mp h
      exact .head ⟨a, hstep _ _ _ ht⟩ (ih hrest)

end ArchipelagoHotStuff.General.Transition
