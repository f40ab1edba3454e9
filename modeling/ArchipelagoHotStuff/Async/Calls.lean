/- Module: ArchipelagoHotStuff/Async/Calls
   source: promise.hpp (resolve, reject, trigger_fulfill, trigger_reject, then, fail)
   digest: Every callback is called exactly once, on its side and with the value of the promise,
     whatever the callbacks do. -/

import ArchipelagoHotStuff.Async.Settling
import Mathlib.Data.List.Perm.Subperm

set_option autoImplicit false
set_option relaxedAutoImplicit false

namespace ArchipelagoHotStuff.Async.Calls

open General.Transition Settling

universe u v

variable {α : Type u} {φ : Type v}

/-! The functions of one side of one promise. -/

/-- The functions of one side of a promise that have been called, that are about to be called, that
wait for the promise to be settled, and that have been registered, at all and while it was
pending. -/
structure Line (φ : Type v) where
  state : Option Side
  called : List (Fn φ)
  queued : List (Fn φ)
  stored : List (Fn φ)
  registered : List (Fn φ)
  early : List (Fn φ)

namespace Line

variable {side d : Side} {thrown : Bool} {l : Line φ} {fn : Fn φ} {fns queued : List (Fn φ)}

/-- All functions that are left, in the order in which they are called. -/
def all (l : Line φ) : List (Fn φ) := l.called ++ l.queued ++ l.stored

def settle (side d : Side) (l : Line φ) : Line φ :=
  if d = side then { l with state := some d, queued := l.stored ++ l.queued, stored := [] }
  else { l with state := some d }

def register (side : Side) (fns : List (Fn φ)) (l : Line φ) : Line φ :=
  match l.state with
  | none =>
      { l with
        stored := l.stored ++ fns
        registered := l.registered ++ fns
        early := l.early ++ fns }
  | some d =>
      { l with
        queued := (if d = side then fns else []) ++ l.queued
        registered := l.registered ++ fns }

def call (fn : Fn φ) (l : Line φ) : Line φ :=
  { l with called := l.called ++ [fn], queued := l.queued.tail }

/-- All functions that were registered are somewhere, but for those that an exception has lost, and
the early ones are in order. -/
structure Ok (side : Side) (thrown : Bool) (l : Line φ) : Prop where
  uncalled : l.state ≠ some side → l.called = [] ∧ l.queued = []
  cleared : l.state = some side → l.stored = []
  each : l.state = none ∨ l.state = some side →
    ∃ lost, (l.all ++ lost).Perm l.registered ∧ (thrown = false → lost = [])
  order : l.state = none ∨ l.state = some side → thrown = false → l.early.Sublist l.all

theorem ok_empty : Ok side thrown (⟨none, [], [], [], [], []⟩ : Line φ) :=
  ⟨fun _ => ⟨rfl, rfl⟩, fun _ => rfl, fun _ => ⟨[], .refl _, fun _ => rfl⟩,
    fun _ _ => .slnil⟩

theorem Ok.settle (hl : l.Ok side thrown) (hstate : l.state = none) :
    (l.settle side d).Ok side thrown := by
  have hnone : l.state ≠ some side := by
    rw [hstate]
    nofun
  obtain ⟨hcalled, hqueued⟩ := hl.uncalled hnone
  by_cases hd : d = side
  · have hall : (l.settle side d).all = l.all := by
      simp [Line.all, Line.settle, hd, hcalled, hqueued]
    have hkept : (l.settle side d).registered = l.registered ∧
        (l.settle side d).early = l.early := by
      simp [Line.settle, hd]
    refine ⟨fun h => ?_, fun _ => ?_, fun _ => ?_, fun _ hthrown => ?_⟩
    · simp [Line.settle, hd] at h
    · simp [Line.settle, hd]
    · rw [hall, hkept.1]
      exact hl.each (.inl hstate)
    · rw [hall, hkept.2]
      exact hl.order (.inl hstate) hthrown
  · have hother : ¬ ((l.settle side d).state = none ∨ (l.settle side d).state = some side) := by
      simp [Line.settle, hd]
    refine ⟨fun _ => ?_, fun h => absurd (.inr h) hother, fun h => absurd h hother,
      fun h => absurd h hother⟩
    simp [Line.settle, hd, hcalled, hqueued]

theorem Ok.register (hl : l.Ok side thrown) : (l.register side fns).Ok side thrown := by
  -- the new functions come after all others, or before those that are queued
  have hperm : ∀ (before after lost : List (Fn φ)), (before ++ after ++ lost).Perm l.registered →
      (before ++ (fns ++ after) ++ lost).Perm (l.registered ++ fns) := by
    intro before after lost h
    refine .trans ?_ (h.append_right fns)
    have hmove : (fns ++ (after ++ lost)).Perm (after ++ lost ++ fns) := List.perm_append_comm
    simpa only [List.append_assoc] using hmove.append_left before
  cases hstate : l.state with
  | none =>
      have hnone : l.state ≠ some side := by
        rw [hstate]
        nofun
      have hall : (l.register side fns).all = l.all ++ fns := by
        simp [Line.all, Line.register, hstate]
      have hnew : l.register side fns = { l with
          stored := l.stored ++ fns
          registered := l.registered ++ fns
          early := l.early ++ fns } := by
        simp [Line.register, hstate]
      obtain ⟨lost, hall', hlost⟩ := hl.each (.inl hstate)
      refine ⟨fun _ => ?_, fun h => ?_, fun _ => ⟨lost, ?_, hlost⟩, fun _ hthrown => ?_⟩
      · rw [hnew]
        exact hl.uncalled hnone
      · rw [hnew] at h
        exact absurd h hnone
      · rw [hall, hnew]
        simpa using hperm l.all [] lost (by simpa using hall')
      · rw [hall, hnew]
        exact (hl.order (.inl hstate) hthrown).append (.refl fns)
  | some d =>
      by_cases hd : d = side
      · subst hd
        have hnew : l.register d fns = { l with
            queued := fns ++ l.queued
            registered := l.registered ++ fns } := by
          simp [Line.register, hstate]
        have hall : (l.register d fns).all = l.called ++ (fns ++ (l.queued ++ l.stored)) := by
          simp [Line.all, hnew]
        obtain ⟨lost, hall', hlost⟩ := hl.each (.inr hstate)
        refine ⟨fun h => ?_, fun _ => ?_, fun _ => ⟨lost, ?_, hlost⟩, fun _ hthrown => ?_⟩
        · rw [hnew] at h
          exact absurd hstate h
        · rw [hnew]
          exact hl.cleared hstate
        · rw [hall, hnew]
          exact hperm l.called (l.queued ++ l.stored) lost (by simpa [Line.all] using hall')
        · rw [hall, hnew]
          have hearly : l.early.Sublist (l.called ++ (l.queued ++ l.stored)) := by
            simpa [Line.all] using hl.order (.inr hstate) hthrown
          exact hearly.trans ((List.Sublist.refl _).append (List.sublist_append_right _ _))
      · have hnew : l.register side fns = { l with registered := l.registered ++ fns } := by
          simp [Line.register, hstate, hd]
        have hother : ¬ (l.state = none ∨ l.state = some side) := by
          simp [hstate, hd]
        rw [hnew]
        exact ⟨hl.uncalled, hl.cleared, fun h => absurd h hother, fun h => absurd h hother⟩

theorem Ok.call (hl : l.Ok side thrown) (hqueued : l.queued = fn :: queued) :
    (l.call fn).Ok side thrown := by
  have hstate : l.state = some side := by
    by_contra h
    rw [(hl.uncalled h).2] at hqueued
    cases hqueued
  have hall : (l.call fn).all = l.all := by
    simp [Line.all, Line.call, hqueued]
  refine ⟨fun h => absurd hstate h, hl.cleared, fun h => ?_, fun h hthrown => ?_⟩
  · rw [hall]
    exact hl.each h
  · rw [hall]
    exact hl.order h hthrown

theorem Ok.throw (hl : l.Ok side thrown) : Ok side true { l with queued := [] } := by
  refine ⟨fun h => ⟨(hl.uncalled h).1, rfl⟩, hl.cleared, fun h => ?_, nofun⟩
  obtain ⟨lost, hperm, -⟩ := hl.each h
  refine ⟨l.queued ++ lost, .trans ?_ hperm, nofun⟩
  have hmove : (l.stored ++ l.queued).Perm (l.queued ++ l.stored) := List.perm_append_comm
  simpa [Line.all] using (hmove.append_left l.called).append_right lost

end Line

/-! The lines of a heap. -/

def functions : Callback φ → List (Fn φ)
  | .run fn _ => [fn]
  | .pass _ => []

def queues (pm : Ref) (side : Side) : Frame α φ → List (Fn φ)
  | .call q d cb => if q = pm ∧ d = side then functions cb else []
  | _ => []

def calls (pm : Ref) (side : Side) : Entry α φ → List (Fn φ)
  | .called q d fn _ => if q = pm ∧ d = side then [fn] else []
  | _ => []

def registers (pm : Ref) (side : Side) : Entry α φ → List (Fn φ)
  | .registered q d fn _ => if q = pm ∧ d = side then [fn] else []
  | _ => []

def registersEarly (pm : Ref) (side : Side) : Entry α φ → List (Fn φ)
  | .registered q d fn true => if q = pm ∧ d = side then [fn] else []
  | _ => []

def line (s : Heap α φ) (pm : Ref) (side : Side) : Line φ where
  state := (s.promises pm).state
  called := s.log.flatMap (calls pm side)
  queued := s.stack.flatMap (queues pm side)
  stored := ((s.promises pm).callbacks side).flatMap functions
  registered := s.log.flatMap (registers pm side)
  early := s.log.flatMap (registersEarly pm side)

/-- All lines are right, and functions are called with the values of settled promises. -/
structure CallsOk (s : Heap α φ) : Prop where
  lines : ∀ pm side, (line s pm side).Ok side s.thrown
  values : ∀ pm side fn v, .called pm side fn v ∈ s.log →
    (s.promises pm).state = some side ∧ (s.promises pm).value side = v

section

variable {A : Any α} {s s' : Heap α φ} {pm q npm : Ref} {side d : Side} {v : α} {fn : Fn φ}
  {frame : Frame α φ} {frames : List (Frame α φ)} {cb : Side → Callback φ}

theorem settle_of_none (h : (s.promises pm).state = none) :
    s.settle pm d v = (s.modify pm ⟨some d, Function.update (s.promises pm).value d v,
      Function.update (s.promises pm).callbacks d []⟩).push
      (((s.promises pm).callbacks d).map (.call pm d)) := by
  simp only [Heap.settle, h]

theorem settle_of_some (h : (s.promises pm).state = some side) : s.settle pm d v = s := by
  simp only [Heap.settle, h]

theorem queues_callbacks (cbs : List (Callback φ)) :
    (cbs.map (Frame.call (α := α) pm d)).flatMap (queues q side) =
      if pm = q ∧ d = side then cbs.flatMap functions else [] := by
  rw [List.flatMap_map]
  by_cases h : pm = q ∧ d = side
  · simp [queues, h]
  · simp [queues, h]

theorem line_settle (h : (s.promises pm).state = none) :
    line (s.settle pm d v) q side =
      if pm = q then (line s q side).settle side d else line s q side := by
  rw [settle_of_none h]
  by_cases hq : pm = q
  · subst hq
    by_cases hd : d = side
    · subst hd
      simp [line, Line.settle, Heap.push, Heap.modify, queues_callbacks]
    · simp [line, Line.settle, Heap.push, Heap.modify, queues_callbacks, hd,
        Function.update_of_ne (Ne.symm hd)]
  · simp [line, Heap.push, Heap.modify, queues_callbacks, hq,
      Function.update_of_ne (Ne.symm hq)]

theorem settle_log : (s.settle pm d v).log = s.log := by
  cases h : (s.promises pm).state with
  | none => rw [settle_of_none h]; rfl
  | some side => rw [settle_of_some h]

theorem settle_thrown : (s.settle pm d v).thrown = s.thrown := by
  cases h : (s.promises pm).state with
  | none => rw [settle_of_none h]; rfl
  | some side => rw [settle_of_some h]

theorem settle_kept (h : (s.promises q).state = some side) :
    (s.settle pm d v).promises q = s.promises q := by
  cases hpm : (s.promises pm).state with
  | none =>
      have hne : q ≠ pm := by
        rintro rfl
        rw [hpm] at h
        cases h
      rw [settle_of_none hpm]
      exact Function.update_of_ne hne _ _
  | some side => rw [settle_of_some hpm]

theorem CallsOk.settle (hok : CallsOk s) : CallsOk (s.settle pm d v) := by
  cases h : (s.promises pm).state with
  | some side =>
      rw [settle_of_some h]
      exact hok
  | none =>
      refine ⟨fun q side => ?_, fun q side fn w hmem => ?_⟩
      · rw [line_settle h, settle_thrown]
        split
        · rename_i hq
          exact (hok.lines q side).settle (hq ▸ h)
        · exact hok.lines q side
      · rw [settle_log] at hmem
        have hsettled := hok.values q side fn w hmem
        rw [settle_kept hsettled.1]
        exact hsettled

/-- What `then` and `fail` put into the log. -/
def registrations (pm : Ref) (early : Bool) (cb : Side → Callback φ) : List (Entry α φ) :=
  Heap.registration pm early .fulfilled (cb .fulfilled) ++
    Heap.registration pm early .rejected (cb .rejected)

theorem chain_of_none (h : (s.promises pm).state = none) :
    s.chain pm cb = (({ s with size := s.size + 1 } : Heap α φ).note
      (registrations pm true cb)).modify pm ⟨none, (s.promises pm).value,
        fun side => (s.promises pm).callbacks side ++ [cb side]⟩ := by
  simp only [Heap.chain, h, registrations, Option.isNone_none]

theorem chain_of_some (h : (s.promises pm).state = some d) :
    s.chain pm cb = (({ s with size := s.size + 1 } : Heap α φ).note
      (registrations pm false cb)).push [.call pm d (cb d)] := by
  simp only [Heap.chain, h, registrations, Option.isNone_some]

theorem registers_registrations (early : Bool) :
    (registrations (α := α) pm early cb).flatMap (registers q side) =
      if pm = q then functions (cb side) else [] := by
  by_cases hq : pm = q
  · cases side <;> cases hf : cb .fulfilled <;> cases hr : cb .rejected <;>
      simp [registrations, Heap.registration, registers, functions, hq, hf, hr]
  · cases hf : cb .fulfilled <;> cases hr : cb .rejected <;>
      simp [registrations, Heap.registration, registers, hq, hf, hr]

theorem registersEarly_registrations (early : Bool) :
    (registrations (α := α) pm early cb).flatMap (registersEarly q side) =
      if early then (registrations (α := α) pm early cb).flatMap (registers q side) else [] := by
  cases early <;> cases hf : cb .fulfilled <;> cases hr : cb .rejected <;>
    simp [registrations, Heap.registration, registersEarly, registers, hf, hr]

theorem calls_registrations (early : Bool) :
    (registrations (α := α) pm early cb).flatMap (calls q side) = [] := by
  cases hf : cb .fulfilled <;> cases hr : cb .rejected <;>
    simp [registrations, Heap.registration, calls, hf, hr]

theorem called_notMem_registrations (early : Bool) :
    .called q side fn v ∉ registrations pm early cb := by
  cases hf : cb .fulfilled <;> cases hr : cb .rejected <;>
    simp [registrations, Heap.registration, hf, hr]

theorem line_chain : line (s.chain pm cb) q side =
    if pm = q then (line s q side).register side (functions (cb side)) else line s q side := by
  cases h : (s.promises pm).state with
  | none =>
      rw [chain_of_none h]
      by_cases hq : pm = q
      · subst hq
        simp [line, Line.register, Heap.note, Heap.modify, h, calls_registrations,
          registers_registrations, registersEarly_registrations]
      · simp [line, Heap.note, Heap.modify, hq, calls_registrations, registers_registrations,
          registersEarly_registrations, Function.update_of_ne (Ne.symm hq)]
  | some d =>
      rw [chain_of_some h]
      by_cases hq : pm = q
      · subst hq
        by_cases hd : d = side
        · simp [line, Line.register, Heap.note, Heap.push, h, hd, queues, calls_registrations,
            registers_registrations, registersEarly_registrations]
        · simp [line, Line.register, Heap.note, Heap.push, h, hd, queues, calls_registrations,
            registers_registrations, registersEarly_registrations]
      · simp [line, Heap.note, Heap.push, hq, queues, calls_registrations,
          registers_registrations, registersEarly_registrations]

theorem chain_thrown : (s.chain pm cb).thrown = s.thrown := by
  cases h : (s.promises pm).state with
  | none => rw [chain_of_none h]; rfl
  | some d => rw [chain_of_some h]; rfl

theorem chain_log (s : Heap α φ) (pm : Ref) (cb : Side → Callback φ) : ∃ early,
    (s.chain pm cb).log = s.log ++ registrations pm early cb := by
  cases h : (s.promises pm).state with
  | none => exact ⟨true, by rw [chain_of_none h]; rfl⟩
  | some d => exact ⟨false, by rw [chain_of_some h]; rfl⟩

theorem chain_kept : ((s.chain pm cb).promises q).state = (s.promises q).state ∧
    ((s.chain pm cb).promises q).value = (s.promises q).value := by
  cases h : (s.promises pm).state with
  | none =>
      rw [chain_of_none h]
      by_cases hq : q = pm
      · subst hq
        simp [Heap.modify, h]
      · simp [Heap.modify, Heap.note, Function.update_of_ne hq]
  | some d =>
      rw [chain_of_some h]
      exact ⟨rfl, rfl⟩

theorem CallsOk.chain (hok : CallsOk s) : CallsOk (s.chain pm cb) := by
  refine ⟨fun q side => ?_, fun q side fn w hmem => ?_⟩
  · rw [line_chain, chain_thrown]
    split
    · exact (hok.lines q side).register
    · exact hok.lines q side
  · obtain ⟨early, hlog⟩ := chain_log s pm cb
    rw [hlog, List.mem_append] at hmem
    obtain ⟨hstate, hvalue⟩ := hok.values q side fn w
      (hmem.resolve_right (called_notMem_registrations early))
    rw [chain_kept.1, chain_kept.2]
    exact ⟨hstate, hvalue⟩

theorem CallsOk.of_eq (hok : CallsOk s) (hpromises : s'.promises = s.promises)
    (hthrown : s'.thrown = s.thrown) (hlog : s'.log = s.log)
    (hqueued : ∀ pm side, s'.stack.flatMap (queues pm side) = s.stack.flatMap (queues pm side)) :
    CallsOk s' := by
  refine ⟨fun pm side => ?_, fun pm side fn v hmem => ?_⟩
  · have hline : line s' pm side = line s pm side := by
      simp [line, hpromises, hqueued, hlog]
    rw [hline, hthrown]
    exact hok.lines pm side
  · rw [hlog] at hmem
    rw [hpromises]
    exact hok.values pm side fn v hmem

theorem CallsOk.push (hok : CallsOk s)
    (hframes : ∀ pm side, frames.flatMap (queues pm side) = []) : CallsOk (s.push frames) :=
  hok.of_eq rfl rfl rfl (fun pm side => by simp [Heap.push, hframes pm side])

theorem CallsOk.pushAct (hok : CallsOk s) (a : Action α φ) : CallsOk (s.push [.act a]) :=
  hok.push (fun _ _ => rfl)

theorem CallsOk.pop (hok : CallsOk (s.push [frame]))
    (hframe : ∀ pm side, queues pm side frame = []) : CallsOk s :=
  hok.of_eq rfl rfl rfl (fun pm side => by simp [Heap.push, hframe pm side])

theorem CallsOk.noteSettled (hok : CallsOk s) : CallsOk (s.note [.settled pm]) := by
  refine ⟨fun q side => ?_, fun q side fn v hmem => ?_⟩
  · have hline : line (s.note [.settled pm]) q side = line s q side := by
      simp [line, Heap.note, calls, registers, registersEarly]
    rw [hline]
    exact hok.lines q side
  · exact hok.values q side fn v (by simpa [Heap.note] using hmem)

theorem CallsOk.throw (hok : CallsOk s) : CallsOk s.throw :=
  ⟨fun pm side => (hok.lines pm side).throw, hok.values⟩

/-- The call at the top of the stack moves to the functions that have been called. -/
theorem line_enter (npm : Ref) (hframes : ∀ pm side, frames.flatMap (queues pm side) = []) :
    line (s.enter pm side fn frames) q d =
      if pm = q ∧ side = d then (line (s.push [.call pm side (.run fn npm)]) q d).call fn
      else line (s.push [.call pm side (.run fn npm)]) q d := by
  by_cases h : pm = q ∧ side = d
  · simp [line, Line.call, Heap.enter, Heap.note, Heap.push, calls, registers, registersEarly,
      queues, functions, hframes q d, h]
  · simp [line, Heap.enter, Heap.note, Heap.push, calls, registers, registersEarly, queues,
      hframes q d, h]

theorem queued_top : (line (s.push [.call pm side (.run fn npm)]) pm side).queued =
    fn :: (line s pm side).queued := by
  simp [line, Heap.push, queues, functions]

theorem CallsOk.state_eq (hok : CallsOk (s.push [.call pm side (.run fn npm)])) :
    (s.promises pm).state = some side := by
  by_contra h
  have hqueued := ((hok.lines pm side).uncalled h).2
  rw [queued_top] at hqueued
  cases hqueued

theorem CallsOk.enter (hok : CallsOk (s.push [.call pm side (.run fn npm)]))
    (hframes : ∀ pm side, frames.flatMap (queues pm side) = []) :
    CallsOk (s.enter pm side fn frames) := by
  refine ⟨fun q d => ?_, fun q d fn' v hmem => ?_⟩
  · rw [line_enter npm hframes]
    split
    · rename_i h
      obtain ⟨rfl, rfl⟩ := h
      exact (hok.lines pm side).call queued_top
    · exact hok.lines q d
  · have hentry : .called q d fn' v ∈ s.log ∨
        Entry.called q d fn' v = .called pm side fn ((s.promises pm).value side) := by
      simpa [Heap.enter, Heap.note, Heap.push] using hmem
    obtain hold | hnew := hentry
    · exact hok.values q d fn' v hold
    · cases hnew
      exact ⟨hok.state_eq, rfl⟩

theorem CallsOk.all (hok : CallsOk s) (pms : List Ref) : CallsOk (s.all pms) := by
  unfold Heap.all
  split
  · exact hok.throw
  · refine hok.of_eq rfl rfl rfl (fun pm side => ?_)
    have hframes : ∀ f : Nat → Ref → Side → Fn φ,
        (pms.mapIdx (fun idx pm => (.chain pm (f idx pm) : Frame α φ))).flatMap (queues pm side) =
          [] := by
      intro f
      rw [List.flatMap_eq_nil_iff]
      intro frame hmem
      obtain ⟨idx, hidx, rfl⟩ := List.mem_mapIdx.mp hmem
      rfl
    simp [Heap.push, hframes]

theorem CallsOk.act (hok : CallsOk s) (a : Action α φ) : CallsOk (s.act A a) := by
  cases a with
  | make => exact hok.of_eq rfl rfl rfl (fun _ _ => rfl)
  | settle pm side v => exact hok.noteSettled.settle
  | andThen pm onFulfilled onRejected =>
      cases onRejected with
      | none => exact hok.chain
      | some onRejected => exact hok.chain
  | fail pm onRejected => exact hok.chain
  | all pms => exact hok.all pms
  | race pms =>
      refine hok.of_eq rfl rfl rfl (fun pm side => ?_)
      simp [Heap.act, Heap.race, Heap.push, List.flatMap_map, queues]
  | throw => exact hok.throw

theorem CallsOk.finish (hok : CallsOk s) (ret : Return α) : CallsOk (s.finish A side npm ret) := by
  cases ret with
  | void => exact hok.settle
  | value v => exact hok.settle
  | promise pm => exact hok.chain

theorem CallsOk.fill (hok : CallsOk s) (j idx : Nat) : CallsOk (s.fill A j idx v) := by
  unfold Heap.fill
  split
  · exact hok
  · rename_i joined hj
    have hset : CallsOk { s with
        slots := Function.update s.slots j ((s.slots j).fulfil idx v) } :=
      hok.of_eq rfl rfl rfl (fun _ _ => rfl)
    dsimp only
    split
    · exact hset.settle
    · exact hset

theorem CallsOk.run (hok : CallsOk (s.push [frame])) (h : s.run A frame = some s') :
    CallsOk s' := by
  cases frame with
  | act a =>
      simp only [Heap.run, Option.ite_none_right_eq_some, Option.some.injEq] at h
      obtain ⟨-, rfl⟩ := h
      exact (hok.pop (fun _ _ => rfl)).act a
  | chain pm fn =>
      cases h
      exact (hok.pop (fun _ _ => rfl)).chain
  | returned side npm ret =>
      have hpop := hok.pop (fun _ _ => rfl)
      cases ret with
      | void =>
          cases h
          exact hpop.finish .void
      | value v =>
          cases h
          exact hpop.finish (.value v)
      | promise pm =>
          simp only [Heap.run, Option.ite_none_right_eq_some, Option.some.injEq] at h
          obtain ⟨-, rfl⟩ := h
          exact hpop.finish (.promise pm)
  | call pm side cb =>
      cases cb with
      | pass npm =>
          cases h
          refine (hok.pop (fun q d => ?_)).settle
          simp [queues, functions]
      | run fn npm =>
          have hentered : CallsOk (s.enter pm side fn [.returned side npm .void]) :=
            hok.enter (fun _ _ => rfl)
          cases fn with
          | user f => cases h
          | forward d q =>
              cases h
              exact hentered.settle
          | slot j idx =>
              cases h
              exact hentered.fill j idx

theorem CallsOk.step (hok : CallsOk s) {i : Input α φ} (h : s.step A i = some s') : CallsOk s' := by
  unfold Heap.step at h
  split at h
  · exact CallsOk.run (hok.pushAct _) h
  · rename_i frame stack hstack
    have hpushed : ({ s with stack } : Heap α φ).push [frame] = s := by
      simp [Heap.push, ← hstack]
    exact CallsOk.run (s := { s with stack }) (hpushed ▸ hok) h
  · rename_i pm side f npm stack body ret hstack
    have hpushed : ({ s with stack } : Heap α φ).push [.call pm side (.run (.user f) npm)] = s := by
      simp [Heap.push, ← hstack]
    rw [← hpushed] at hok
    cases h
    refine hok.enter (fun q d => ?_)
    simp [queues, List.flatMap_map]
  · cases h

end

theorem callsOk_start (A : Any α) : CallsOk (Heap.start A : Heap α φ) :=
  ⟨fun _ _ => Line.ok_empty, fun _ _ _ _ h => absurd h List.not_mem_nil⟩

theorem callsOk_of_reachable {A : Any α} {s : Heap α φ} (h : Reachable (heap A φ) s) :
    CallsOk s := by
  refine h.invariant ?_ (fun _ _ _ _ hok hstep => hok.step hstep)
  rintro _ rfl
  exact callsOk_start A

/-! What has been called. -/

section

variable {A : Any α} {s : Heap α φ}

/-- Never on the other side, at most once, with the value of the promise; and once everything has
returned, each function exactly once, the early ones in the order in which they came. -/
theorem called_once (h : Reachable (heap A φ) s) (pm : Ref) (side : Side) :
    ((s.promises pm).state ≠ some side → (line s pm side).called = []) ∧
    (line s pm side).called.Subperm (line s pm side).registered ∧
    (∀ fn v, .called pm side fn v ∈ s.log → v = (s.promises pm).value side) ∧
    (s.stack = [] → s.thrown = false → (s.promises pm).state = some side →
      (line s pm side).called.Perm (line s pm side).registered ∧
      (line s pm side).early.Sublist (line s pm side).called) := by
  have hok := callsOk_of_reachable h
  have hline := hok.lines pm side
  refine ⟨fun hstate => (hline.uncalled hstate).1, ?_,
    fun fn v hmem => (hok.values pm side fn v hmem).2.symm, fun hstack hthrown hstate => ?_⟩
  · by_cases hstate : (s.promises pm).state = some side
    · obtain ⟨lost, hperm, -⟩ := hline.each (.inr hstate)
      refine List.Subperm.trans ?_ hperm.subperm
      simp only [Line.all, List.append_assoc]
      exact (List.sublist_append_left _ _).subperm
    · rw [(hline.uncalled hstate).1]
      exact List.nil_subperm
  · have hall : (line s pm side).all = (line s pm side).called := by
      have hqueued : (line s pm side).queued = [] := by
        simp [line, hstack]
      simp [Line.all, hqueued, hline.cleared hstate]
    obtain ⟨lost, hperm, hlost⟩ := hline.each (.inr hstate)
    rw [hlost hthrown, List.append_nil, hall] at hperm
    refine ⟨hperm, ?_⟩
    rw [← hall]
    exact hline.order (.inr hstate) hthrown

/-- Values are numbers, and a list of them is read in decimal. -/
def decimal : Any Nat := ⟨0, List.foldl (fun n v => 10 * n + v.getD 0) 0⟩

/-- The first of two callbacks registers a third one, which is called before the second. -/
def nesting : List (Input Nat Nat) :=
  [.act .make, .act (.andThen 0 1 none), .act (.andThen 0 2 (some 3)),
    .act (.settle 0 .fulfilled (some 7)), .call [.andThen 0 4 none, .settle 0 .rejected none] .void,
    .run, .call [] (.value 9), .run, .run, .run, .call [] .void, .run]

def nested : Heap Nat Nat :=
  (execute (Heap.step decimal) nesting (.start decimal)).get (by decide)

theorem nested_reachable : Reachable (heap decimal Nat) nested :=
  Reachable.trans (.init rfl) (steps_of_execute (fun _ _ _ => id) (Option.some_get _).symm)

theorem called_once_nested :
    [Fn.user 1, .user 4, .user 2].Perm (line nested 0 .fulfilled).registered ∧
    (line nested 0 .rejected).called = [] :=
  ⟨((called_once nested_reachable 0 .fulfilled).2.2.2 rfl rfl rfl).1,
    (called_once nested_reachable 0 .rejected).1 (by decide)⟩

end

end ArchipelagoHotStuff.Async.Calls
