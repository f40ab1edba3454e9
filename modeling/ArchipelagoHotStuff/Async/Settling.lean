/- Module: ArchipelagoHotStuff/Async/Settling
   source: promise.hpp (Promise, promise_t, all, race; the build without CPPROMISE_USE_STACK_FREE)
   digest: Promises and the calls that settling them sets off, with callbacks that do whatever they
     like. -/

import ArchipelagoHotStuff.General.Join
import ArchipelagoHotStuff.General.Transition
import Mathlib.Logic.Function.Basic

set_option autoImplicit false
set_option relaxedAutoImplicit false

namespace ArchipelagoHotStuff.Async.Settling

open General.Join General.Transition

universe u v

variable {α : Type u} {φ : Type v}

/-- The two ways to settle a promise. -/
inductive Side
  | fulfilled
  | rejected
  deriving DecidableEq

/-- A promise, by the order in which they are made. -/
abbrev Ref := Nat

/-- The functions that `then` is called with: one of the user's, one that settles a promise with
the value it gets, one that fills a slot of `all`. -/
inductive Fn (φ : Type v)
  | user (f : φ)
  | forward (side : Side) (npm : Ref)
  | slot (j idx : Nat)
  deriving DecidableEq

/-- An element of `fulfilled_callbacks` or `rejected_callbacks`: it calls a function, and settles
the new promise once that returns, or it passes the value on to the new promise. -/
inductive Callback (φ : Type v)
  | run (fn : Fn φ) (npm : Ref)
  | pass (npm : Ref)
  deriving DecidableEq

/-- What a function returns. -/
inductive Return (α : Type u)
  | void
  | value (v : α)
  | promise (pm : Ref)

/-- What the user's code can do. -/
inductive Action (α : Type u) (φ : Type v)
  | make
  | settle (pm : Ref) (side : Side) (v : Option α)
  | andThen (pm : Ref) (onFulfilled : φ) (onRejected : Option φ)
  | fail (pm : Ref) (onRejected : φ)
  | all (pms : List Ref)
  | race (pms : List Ref)
  | throw

/-- What is still to be done on the stack of calls. -/
inductive Frame (α : Type u) (φ : Type v)
  | act (a : Action α φ)
  | call (pm : Ref) (side : Side) (cb : Callback φ)
  | returned (side : Side) (npm : Ref) (ret : Return α)
  | chain (pm : Ref) (fn : Side → Fn φ)

/-- A promise; `state` is `none` while it is pending.  `value` holds `result` and `reason`. -/
structure Promise (α : Type u) (φ : Type v) where
  state : Option Side
  value : Side → α
  callbacks : Side → List (Callback φ)

/-- What has happened: a function has been registered, while the promise was pending or later, or
it has been called; the user's code has settled a promise. -/
inductive Entry (α : Type u) (φ : Type v)
  | registered (pm : Ref) (side : Side) (fn : Fn φ) (early : Bool)
  | called (pm : Ref) (side : Side) (fn : Fn φ) (v : α)
  | settled (pm : Ref)
  deriving DecidableEq

/-- The empty `pm_any_t`, and a `values_t` as a `pm_any_t`. -/
structure Any (α : Type u) where
  empty : α
  values : List (Option α) → α

/-- A call of `all`: its promises and the promise it returned. -/
structure Joined where
  pms : List Ref
  npm : Ref

/-- All promises made so far, the calls of `all` and their slots, the stack of calls, and what has
happened. -/
structure Heap (α : Type u) (φ : Type v) where
  promises : Ref → Promise α φ
  size : Ref
  joins : List Joined
  slots : Nat → All α
  stack : List (Frame α φ)
  thrown : Bool
  log : List (Entry α φ)

namespace Heap

/-- `Promise()` for every promise there may be. -/
def start (A : Any α) : Heap α φ :=
  ⟨fun _ => ⟨none, fun _ => A.empty, fun _ => []⟩, 0, [], fun _ => .pending 0, [], false, []⟩

variable (A : Any α) (s : Heap α φ)

def push (frames : List (Frame α φ)) : Heap α φ := { s with stack := frames ++ s.stack }

def note (entries : List (Entry α φ)) : Heap α φ := { s with log := s.log ++ entries }

def modify (pm : Ref) (p : Promise α φ) : Heap α φ :=
  { s with promises := Function.update s.promises pm p }

/-- `resolve` and `reject`: the callbacks of the side are called and forgotten. -/
def settle (pm : Ref) (side : Side) (v : α) : Heap α φ :=
  let p := s.promises pm
  match p.state with
  | none =>
      (s.modify pm ⟨some side, Function.update p.value side v,
        Function.update p.callbacks side []⟩).push ((p.callbacks side).map (.call pm side))
  | some _ => s

/-- The registration of a callback: one that only passes a value on calls no function. -/
def registration (pm : Ref) (early : Bool) (side : Side) : Callback φ → List (Entry α φ)
  | .run fn _ => [.registered pm side fn early]
  | .pass _ => []

/-- The common part of `then` and `fail`: the new promise is made, and the callbacks are stored, or
the one of the side is called at once. -/
def chain (pm : Ref) (cb : Side → Callback φ) : Heap α φ :=
  let p := s.promises pm
  let early := p.state.isNone
  let s := ({ s with size := s.size + 1 } : Heap α φ).note
    (registration pm early .fulfilled (cb .fulfilled) ++
      registration pm early .rejected (cb .rejected))
  match p.state with
  | none => s.modify pm ⟨none, p.value, fun side => p.callbacks side ++ [cb side]⟩
  | some side => s.push [.call pm side (cb side)]

def andThen (pm : Ref) (fn : Side → Fn φ) : Heap α φ :=
  s.chain pm (fun side => .run (fn side) s.size)

/-- `then` with the first function, or `fail`: the other side is passed on. -/
def andThenOn (pm : Ref) (side : Side) (fn : Fn φ) : Heap α φ :=
  s.chain pm (fun d => if d = side then .run fn s.size else .pass s.size)

def throw : Heap α φ := { s with stack := [], thrown := true }

/-- The functions of `all` for one promise. -/
def gather (j idx : Nat) (npm : Ref) : Side → Fn φ
  | .fulfilled => .slot j idx
  | .rejected => .forward .rejected npm

def all (pms : List Ref) : Heap α φ :=
  if pms = [] then s.throw
  else
    ({ s with
      size := s.size + 1
      joins := s.joins ++ [⟨pms, s.size⟩]
      slots := Function.update s.slots s.joins.length (.pending pms.length) } : Heap α φ).push
      (pms.mapIdx (fun idx pm => .chain pm (gather s.joins.length idx s.size)))

def race (pms : List Ref) : Heap α φ :=
  ({ s with size := s.size + 1 } : Heap α φ).push
    (pms.map (fun pm => .chain pm (fun side => .forward side s.size)))

def names : Action α φ → List Ref
  | .make | .throw => []
  | .settle pm _ _ | .andThen pm _ _ | .fail pm _ => [pm]
  | .all pms | .race pms => pms

/-- An action of the user's code. -/
def act : Action α φ → Heap α φ
  | .make => { s with size := s.size + 1 }
  | .settle pm side v => (s.note [.settled pm]).settle pm side (v.getD A.empty)
  | .andThen pm onFulfilled (some onRejected) =>
      s.andThen pm (fun
        | .fulfilled => .user onFulfilled
        | .rejected => .user onRejected)
  | .andThen pm onFulfilled none => s.andThenOn pm .fulfilled (.user onFulfilled)
  | .fail pm onRejected => s.andThenOn pm .rejected (.user onRejected)
  | .all pms => s.all pms
  | .race pms => s.race pms
  | .throw => s.throw

/-- The first function of `all`: it fills its slot, and the last one resolves the promise. -/
def fill (j idx : Nat) (v : α) : Heap α φ :=
  match s.joins[j]? with
  | none => s
  | some joined =>
      let slots := (s.slots j).fulfil idx v
      let s : Heap α φ := { s with slots := Function.update s.slots j slots }
      if slots.size = 0 then s.settle joined.npm .fulfilled (A.values slots.results) else s

def finish (side : Side) (npm : Ref) : Return α → Heap α φ
  | .void => s.settle npm side A.empty
  | .value v => s.settle npm side v
  | .promise pm => s.andThen pm (fun d => .forward d npm)

/-- The call of a function, which then has the given things to do. -/
def enter (pm : Ref) (side : Side) (fn : Fn φ) (frames : List (Frame α φ)) : Heap α φ :=
  (s.note [.called pm side fn ((s.promises pm).value side)]).push frames

/-- What the top of the stack does; code cannot name promises that do not exist. -/
def run : Frame α φ → Option (Heap α φ)
  | .act a => if ∀ pm ∈ names a, pm < s.size then some (s.act A a) else none
  | .chain pm fn => some (s.andThen pm fn)
  | .returned side npm (.promise pm) =>
      if pm < s.size then some (s.finish A side npm (.promise pm)) else none
  | .returned side npm ret => some (s.finish A side npm ret)
  | .call pm side (.pass npm) => some (s.settle npm side ((s.promises pm).value side))
  | .call pm side (.run (.forward d q) npm) =>
      some ((s.enter pm side (.forward d q) [.returned side npm .void]).settle q d
        ((s.promises pm).value side))
  | .call pm side (.run (.slot j idx) npm) =>
      some ((s.enter pm side (.slot j idx) [.returned side npm .void]).fill A j idx
        ((s.promises pm).value side))
  | .call _ _ (.run (.user _) _) => none

end Heap

/-- The user's code acts; the top of the stack is dealt with; a function of the user's is called,
and what it does and returns is anything. -/
inductive Input (α : Type u) (φ : Type v)
  | act (a : Action α φ)
  | run
  | call (body : List (Action α φ)) (ret : Return α)

def Heap.step (A : Any α) (s : Heap α φ) (i : Input α φ) : Option (Heap α φ) :=
  match s.stack, i with
  | [], .act a => s.run A (.act a)
  | frame :: stack, .run => ({ s with stack } : Heap α φ).run A frame
  | .call pm side (.run (.user f) npm) :: stack, .call body ret =>
      some (({ s with stack } : Heap α φ).enter pm side (.user f)
        (body.map .act ++ [.returned side npm ret]))
  | _, _ => none

def heap (A : Any α) (φ : Type v) : System (Heap α φ) (Input α φ) where
  init s := s = .start A
  step s i s' := s.step A i = some s'

end ArchipelagoHotStuff.Async.Settling
