/- Module: ArchipelagoHotStuff/Async/Joins
   source: promise.hpp (all, then, fail, resolve, reject)
   digest: The promise that `all` returns is settled as its promises are, unless the user's code
     settles it. -/

import ArchipelagoHotStuff.Async.Calls

set_option autoImplicit false
set_option relaxedAutoImplicit false

namespace ArchipelagoHotStuff.Async.Joins

open General.Join General.Transition Settling Calls

universe u v

variable {α : Type u} {φ : Type v}

/-! Which promises the callbacks settle. -/

def Chained (s : Heap α φ) (npm : Ref) : Prop :=
  npm < s.size ∧ ∀ joined ∈ s.joins, joined.npm ≠ npm

/-- The function may be called for the given side of the given promise. -/
def FnOk (s : Heap α φ) (pm : Ref) (side : Side) : Fn φ → Prop
  | .user _ => True
  | .forward d q => q < s.size ∧
      ∀ joined ∈ s.joins, joined.npm = q → d = .rejected ∧ side = .rejected ∧ pm ∈ joined.pms
  | .slot j idx => side = .fulfilled ∧
      ∃ joined, s.joins[j]? = some joined ∧ joined.pms[idx]? = some pm

def CallbackOk (s : Heap α φ) (pm : Ref) (side : Side) : Callback φ → Prop
  | .run fn npm => FnOk s pm side fn ∧ Chained s npm
  | .pass npm => Chained s npm

def FrameOk (s : Heap α φ) : Frame α φ → Prop
  | .act _ => True
  | .call pm side cb => CallbackOk s pm side cb
  | .returned _ npm _ => Chained s npm
  | .chain pm fn => ∀ side, FnOk s pm side (fn side)

/-- All callbacks are where they belong. -/
structure PlacesOk (s : Heap α φ) : Prop where
  stored : ∀ pm side, ∀ cb ∈ (s.promises pm).callbacks side, CallbackOk s pm side cb
  stack : ∀ frame ∈ s.stack, FrameOk s frame
  registered : ∀ pm side, ∀ fn ∈ s.log.flatMap (registers pm side), FnOk s pm side fn
  made : ∀ joined ∈ s.joins, joined.npm < s.size
  distinct : (s.joins.map Joined.npm).Nodup
  fresh : ∀ pm, s.size ≤ pm → (s.promises pm).state = none

section places

variable {A : Any α} {s s' : Heap α φ} {pm q npm : Ref} {side d : Side} {v : α} {fn : Fn φ}
  {frame : Frame α φ} {frames : List (Frame α φ)} {cb : Side → Callback φ} {new : List Joined}

/-- More promises, and more calls of `all`, which return new promises. -/
structure Extends (s s' : Heap α φ) : Prop where
  size : s.size ≤ s'.size
  joins : ∃ new, s'.joins = s.joins ++ new ∧ ∀ joined ∈ new, s.size ≤ joined.npm

theorem Extends.of_eq (hsize : s.size ≤ s'.size) (hjoins : s'.joins = s.joins) : Extends s s' :=
  ⟨hsize, [], by rw [hjoins, List.append_nil], fun _ hmem => absurd hmem List.not_mem_nil⟩

theorem Extends.old (h : Extends s s') {joined : Joined} (hmem : joined ∈ s'.joins)
    (hnpm : joined.npm < s.size) : joined ∈ s.joins := by
  obtain ⟨new, hjoins, hnew⟩ := h.joins
  rw [hjoins, List.mem_append] at hmem
  exact hmem.resolve_right (fun hin => absurd (hnew joined hin) (Nat.not_le.mpr hnpm))

theorem Chained.mono (hok : Chained s npm) (h : Extends s s') : Chained s' npm := by
  refine ⟨Nat.lt_of_lt_of_le hok.1 h.size, ?_⟩
  rintro joined hmem rfl
  exact hok.2 joined (h.old hmem hok.1) rfl

theorem FnOk.mono (hok : FnOk s pm side fn) (h : Extends s s') : FnOk s' pm side fn := by
  cases fn with
  | user f => exact trivial
  | forward d q =>
      refine ⟨Nat.lt_of_lt_of_le hok.1 h.size, ?_⟩
      rintro joined hmem rfl
      exact hok.2 joined (h.old hmem hok.1) rfl
  | slot j idx =>
      obtain ⟨hside, joined, hj, hidx⟩ := hok
      obtain ⟨new, hjoins, -⟩ := h.joins
      refine ⟨hside, joined, ?_, hidx⟩
      rw [hjoins, List.getElem?_append_left (List.getElem?_eq_some_iff.mp hj).1]
      exact hj

theorem CallbackOk.mono {cb : Callback φ} (hok : CallbackOk s pm side cb) (h : Extends s s') :
    CallbackOk s' pm side cb := by
  cases cb with
  | run fn npm => exact ⟨hok.1.mono h, hok.2.mono h⟩
  | pass npm => exact Chained.mono hok h

theorem FrameOk.mono (hok : FrameOk s frame) (h : Extends s s') : FrameOk s' frame := by
  cases frame with
  | act a => exact trivial
  | call pm side cb => exact CallbackOk.mono hok h
  | returned side npm ret => exact Chained.mono hok h
  | chain pm fn => exact fun side => (hok side).mono h

theorem PlacesOk.of_eq (hok : PlacesOk s) (hpromises : s'.promises = s.promises)
    (hsize : s.size ≤ s'.size) (hjoins : s'.joins = s.joins)
    (hregistered : ∀ pm side, ∀ fn ∈ s'.log.flatMap (registers pm side),
      fn ∈ s.log.flatMap (registers pm side) ∨ FnOk s' pm side fn)
    (hstack : ∀ frame ∈ s'.stack, frame ∈ s.stack ∨ FrameOk s' frame) : PlacesOk s' := by
  have hext : Extends s s' := .of_eq hsize hjoins
  refine ⟨fun pm side cb hcb => ?_, fun frame hframe => ?_, fun pm side fn hfn => ?_,
    fun joined hmem => ?_, ?_, fun pm hpm => ?_⟩
  · rw [hpromises] at hcb
    exact (hok.stored pm side cb hcb).mono hext
  · exact (hstack frame hframe).elim (fun h => (hok.stack frame h).mono hext) id
  · exact (hregistered pm side fn hfn).elim (fun h => (hok.registered pm side fn h).mono hext) id
  · rw [hjoins] at hmem
    exact Nat.lt_of_lt_of_le (hok.made joined hmem) hsize
  · rw [hjoins]
    exact hok.distinct
  · rw [hpromises]
    exact hok.fresh pm (Nat.le_trans hsize hpm)

theorem PlacesOk.push (hok : PlacesOk s) (hframes : ∀ frame ∈ frames, FrameOk s frame) :
    PlacesOk (s.push frames) :=
  hok.of_eq rfl (Nat.le_refl _) rfl (fun _ _ _ => .inl)
    (fun frame hframe => (List.mem_append.mp hframe).symm.imp_right (hframes frame))

theorem PlacesOk.pop (hok : PlacesOk (s.push [frame])) : PlacesOk s :=
  hok.of_eq rfl (Nat.le_refl _) rfl (fun _ _ _ => .inl)
    (fun _ hframe => .inl (List.mem_cons_of_mem _ hframe))

theorem PlacesOk.top (hok : PlacesOk (s.push [frame])) : FrameOk s frame :=
  hok.stack frame List.mem_cons_self

theorem PlacesOk.settle (hok : PlacesOk s) (hpm : pm < s.size) : PlacesOk (s.settle pm d v) := by
  cases h : (s.promises pm).state with
  | some side =>
      rw [settle_of_some h]
      exact hok
  | none =>
      rw [settle_of_none h]
      have hext : Extends s ((s.modify pm ⟨some d, Function.update (s.promises pm).value d v,
          Function.update (s.promises pm).callbacks d []⟩).push
          (((s.promises pm).callbacks d).map (.call pm d))) := .of_eq (Nat.le_refl _) rfl
      refine ⟨fun q side cb hcb => ?_, fun frame hframe => ?_,
        fun q side fn hfn => (hok.registered q side fn hfn).mono hext, hok.made, hok.distinct,
        fun q hq => ?_⟩
      · refine (hok.stored q side cb ?_).mono hext
        by_cases hq : q = pm
        · subst hq
          by_cases hd : side = d
          · subst hd
            simp [Heap.push, Heap.modify] at hcb
          · simpa [Heap.push, Heap.modify, Function.update_of_ne hd] using hcb
        · simpa [Heap.push, Heap.modify, Function.update_of_ne hq] using hcb
      · refine FrameOk.mono ?_ hext
        obtain hnew | hold := List.mem_append.mp hframe
        · obtain ⟨cb, hcb, rfl⟩ := List.mem_map.mp hnew
          exact hok.stored pm d cb hcb
        · exact hok.stack frame hold
      · have hne : q ≠ pm := by
          rintro rfl
          exact absurd hpm (Nat.not_lt.mpr hq)
        exact (congrArg Promise.state (Function.update_of_ne hne _ _)).trans (hok.fresh q hq)

theorem chain_size : (s.chain pm cb).size = s.size + 1 := by
  cases h : (s.promises pm).state with
  | none => rw [chain_of_none h]; rfl
  | some d => rw [chain_of_some h]; rfl

theorem chain_joins : (s.chain pm cb).joins = s.joins := by
  cases h : (s.promises pm).state with
  | none => rw [chain_of_none h]; rfl
  | some d => rw [chain_of_some h]; rfl

theorem chain_callbacks {cb' : Callback φ}
    (h : cb' ∈ ((s.chain pm cb).promises q).callbacks side) :
    cb' ∈ (s.promises q).callbacks side ∨ q = pm ∧ cb' = cb side := by
  cases hstate : (s.promises pm).state with
  | none =>
      rw [chain_of_none hstate] at h
      by_cases hq : q = pm
      · subst hq
        have hmem : cb' ∈ (s.promises q).callbacks side ++ [cb side] := by
          simpa [Heap.modify] using h
        exact (List.mem_append.mp hmem).imp_right (fun hnew => ⟨rfl, List.mem_singleton.mp hnew⟩)
      · exact .inl (by simpa [Heap.modify, Heap.note, Function.update_of_ne hq] using h)
  | some d =>
      rw [chain_of_some hstate] at h
      exact .inl h

theorem chain_stack (h : frame ∈ (s.chain pm cb).stack) :
    frame ∈ s.stack ∨ ∃ d, frame = .call pm d (cb d) := by
  cases hstate : (s.promises pm).state with
  | none =>
      rw [chain_of_none hstate] at h
      exact .inl h
  | some d =>
      rw [chain_of_some hstate] at h
      obtain hnew | hold := List.mem_append.mp h
      · exact .inr ⟨d, List.mem_singleton.mp hnew⟩
      · exact .inl hold

theorem PlacesOk.chain (hok : PlacesOk s)
    (hcb : ∀ side, CallbackOk { s with size := s.size + 1 } pm side (cb side)) :
    PlacesOk (s.chain pm cb) := by
  have hext : Extends s (s.chain pm cb) := .of_eq (chain_size ▸ Nat.le_succ _) chain_joins
  have hnew : ∀ side, CallbackOk (s.chain pm cb) pm side (cb side) :=
    fun side => (hcb side).mono (.of_eq (chain_size ▸ Nat.le_refl _) chain_joins)
  refine ⟨fun q side cb' hcb' => ?_, fun frame hframe => ?_, fun q side fn hfn => ?_,
    fun joined hmem => ?_, ?_, fun q hq => ?_⟩
  · obtain hold | ⟨rfl, rfl⟩ := chain_callbacks hcb'
    · exact (hok.stored q side cb' hold).mono hext
    · exact hnew side
  · obtain hold | ⟨d, rfl⟩ := chain_stack hframe
    · exact (hok.stack frame hold).mono hext
    · exact hnew d
  · obtain ⟨early, hlog⟩ := chain_log s pm cb
    rw [hlog, List.flatMap_append, List.mem_append, registers_registrations] at hfn
    obtain hold | hfn := hfn
    · exact (hok.registered q side fn hold).mono hext
    · by_cases hq : pm = q
      · subst hq
        rw [if_pos rfl] at hfn
        have hcb' := hnew side
        cases hside : cb side with
        | pass npm => simp [hside, functions] at hfn
        | run fn' npm =>
            rw [hside] at hfn hcb'
            rw [List.mem_singleton.mp hfn]
            exact hcb'.1
      · simp [hq] at hfn
  · rw [chain_joins] at hmem
    rw [chain_size]
    exact Nat.lt_succ_of_lt (hok.made joined hmem)
  · rw [chain_joins]
    exact hok.distinct
  · rw [chain_size] at hq
    rw [chain_kept.1]
    exact hok.fresh q (Nat.le_of_succ_le hq)

theorem PlacesOk.throw (hok : PlacesOk s) : PlacesOk s.throw :=
  hok.of_eq rfl (Nat.le_refl _) rfl (fun _ _ _ => .inl) nofun

theorem PlacesOk.enter (hok : PlacesOk s) (hframes : ∀ frame ∈ frames, FrameOk s frame) :
    PlacesOk (s.enter pm side fn frames) := by
  refine hok.of_eq rfl (Nat.le_refl _) rfl (fun q d fn' hfn => .inl ?_)
    (fun frame hframe => (List.mem_append.mp hframe).symm.imp_right (hframes frame))
  simpa [Heap.enter, Heap.note, Heap.push, registers] using hfn

theorem chained_size (hok : PlacesOk s) : Chained { s with size := s.size + 1 } s.size :=
  ⟨Nat.lt_succ_self _, fun joined hmem => Nat.ne_of_lt (hok.made joined hmem)⟩

theorem PlacesOk.andThen (hok : PlacesOk s) {fn : Side → Fn φ}
    (hfn : ∀ side, FnOk s pm side (fn side)) : PlacesOk (s.andThen pm fn) :=
  hok.chain (fun side => ⟨(hfn side).mono (.of_eq (Nat.le_succ _) rfl), chained_size hok⟩)

theorem PlacesOk.andThenOn (hok : PlacesOk s) (hfn : FnOk s pm side fn) :
    PlacesOk (s.andThenOn pm side fn) := by
  refine hok.chain (fun d => ?_)
  split
  · rename_i hd
    subst hd
    exact ⟨hfn.mono (.of_eq (Nat.le_succ _) rfl), chained_size hok⟩
  · exact chained_size hok

end places

/-! The calls of `all`. -/

def isSlot (j idx : Nat) : Fn φ → Bool
  | .slot j' idx' => j' = j ∧ idx' = idx
  | _ => false

def chains (pm : Ref) (side : Side) : Frame α φ → List (Fn φ)
  | .chain q fn => if q = pm then [fn side] else []
  | _ => []

/-- The functions that listen to one side of a promise, or are about to be registered. -/
def listens (s : Heap α φ) (pm : Ref) (side : Side) : List (Fn φ) :=
  s.log.flatMap (registers pm side) ++ s.stack.flatMap (chains pm side)

/-- Why the promise of a call of `all` is settled. -/
def Cause (A : Any α) (s : Heap α φ) (j : Nat) (joined : Joined) (d : Side) (v : α) : Prop :=
  .settled joined.npm ∈ s.log ∨
  d = .fulfilled ∧ (s.slots j).size = 0 ∧ v = A.values (s.slots j).results ∨
  d = .rejected ∧ ∃ pm ∈ joined.pms, (s.promises pm).state = some .rejected ∧
    (s.promises pm).value .rejected = v

/-- The slots of a call of `all` hold what its promises were fulfilled with.  The promises that are
`due` are about to be settled. -/
structure JoinOk (A : Any α) (s : Heap α φ) (due : Ref → Prop) (j : Nat) (joined : Joined) :
    Prop where
  nonempty : joined.pms ≠ []
  length : (s.slots j).results.length = joined.pms.length
  slots : (s.slots j).Ok
  filled : ∀ (idx : Nat) pm v, joined.pms[idx]? = some pm →
    ((s.slots j).results[idx]? = some (some v) ↔ .called pm .fulfilled (.slot j idx) v ∈ s.log)
  once : ∀ (idx : Nat) pm, joined.pms[idx]? = some pm →
    (listens s pm .fulfilled).countP (isSlot j idx) ≤ 1 ∧
      (s.thrown = false → 0 < (listens s pm .fulfilled).countP (isSlot j idx))
  hears : s.thrown = false → ∀ pm ∈ joined.pms,
    .forward .rejected joined.npm ∈ listens s pm .rejected
  cause : ∀ d, (s.promises joined.npm).state = some d →
    Cause A s j joined d ((s.promises joined.npm).value d)
  full : (s.slots j).size = 0 → due joined.npm ∨ (s.promises joined.npm).state ≠ none

structure JoinsOk (A : Any α) (s : Heap α φ) (due : Ref → Prop) : Prop where
  heard : ∀ pm side d q v, .called pm side (.forward d q) v ∈ s.log →
    due q ∨ (s.promises q).state ≠ none
  joins : ∀ j joined, s.joins[j]? = some joined → JoinOk A s due j joined

def Settled : Ref → Prop := fun _ => False

section joins

variable {A : Any α} {s s' : Heap α φ} {due due' : Ref → Prop} {pm q npm : Ref} {side d : Side}
  {v : α} {fn : Fn φ} {j : Nat} {joined : Joined} {frame : Frame α φ} {frames : List (Frame α φ)}
  {cb : Side → Callback φ}

/-- What stays when other things change. -/
structure Keeps (s s' : Heap α φ) (j : Nat) : Prop where
  promises : ∀ pm, (s.promises pm).state ≠ none →
    (s'.promises pm).state = (s.promises pm).state ∧ (s'.promises pm).value = (s.promises pm).value
  settled : ∀ pm, .settled pm ∈ s.log → .settled pm ∈ s'.log
  called : ∀ pm idx v, .called pm .fulfilled (.slot j idx) v ∈ s'.log ↔
    .called pm .fulfilled (.slot j idx) v ∈ s.log
  slots : s'.slots j = s.slots j
  thrown : s'.thrown = s.thrown
  listens : ∀ pm side, ∃ extra, (listens s' pm side).Perm (listens s pm side ++ extra) ∧
    ∀ fn ∈ extra, ∀ idx, isSlot j idx fn = false

theorem listens_kept (h : (listens s' pm side).Perm (listens s pm side)) :
    ∃ extra, (listens s' pm side).Perm (listens s pm side ++ extra) ∧
      ∀ fn ∈ extra, ∀ idx, isSlot j idx fn = false :=
  ⟨[], by rwa [List.append_nil], fun _ hfn => absurd hfn List.not_mem_nil⟩

theorem Keeps.refl (s : Heap α φ) (j : Nat) : Keeps s s j :=
  ⟨fun _ _ => ⟨rfl, rfl⟩, fun _ => id, fun _ _ _ => Iff.rfl, rfl, rfl,
    fun _ _ => listens_kept (.refl _)⟩

theorem Cause.mono (h : Cause A s j joined d v) (hkeeps : Keeps s s' j) :
    Cause A s' j joined d v := by
  obtain h | ⟨hd, hsize, hv⟩ | ⟨hd, pm, hpm, hstate, hvalue⟩ := h
  · exact .inl (hkeeps.settled _ h)
  · refine .inr (.inl ⟨hd, ?_, ?_⟩)
    · rw [hkeeps.slots]
      exact hsize
    · rw [hkeeps.slots]
      exact hv
  · obtain ⟨hstate', hvalue'⟩ := hkeeps.promises pm (by rw [hstate]; nofun)
    refine .inr (.inr ⟨hd, pm, hpm, hstate'.trans hstate, ?_⟩)
    rw [hvalue']
    exact hvalue

theorem JoinOk.mono (hok : JoinOk A s due j joined) (hkeeps : Keeps s s' j)
    (hcause : (s.promises joined.npm).state = none → ∀ d,
      (s'.promises joined.npm).state = some d →
        Cause A s' j joined d ((s'.promises joined.npm).value d))
    (hdue : due joined.npm → due' joined.npm ∨ (s'.promises joined.npm).state ≠ none) :
    JoinOk A s' due' j joined := by
  have hcount : ∀ pm idx, (listens s' pm .fulfilled).countP (isSlot j idx) =
      (listens s pm .fulfilled).countP (isSlot j idx) := by
    intro pm idx
    obtain ⟨extra, hperm, hextra⟩ := hkeeps.listens pm .fulfilled
    have hzero : extra.countP (isSlot j idx) = 0 :=
      List.countP_eq_zero.mpr (fun fn hfn => by simp [hextra fn hfn idx])
    rw [hperm.countP_eq, List.countP_append, hzero, Nat.add_zero]
  refine ⟨hok.nonempty, ?_, ?_, fun idx pm v hidx => ?_, fun idx pm hidx => ?_,
    fun hthrown pm hpm => ?_, fun d hstate => ?_, fun hsize => ?_⟩
  · rw [hkeeps.slots]
    exact hok.length
  · rw [hkeeps.slots]
    exact hok.slots
  · rw [hkeeps.slots, hkeeps.called]
    exact hok.filled idx pm v hidx
  · rw [hcount, hkeeps.thrown]
    exact hok.once idx pm hidx
  · obtain ⟨extra, hperm, -⟩ := hkeeps.listens pm .rejected
    rw [hkeeps.thrown] at hthrown
    exact hperm.mem_iff.mpr (List.mem_append_left _ (hok.hears hthrown pm hpm))
  · cases hold : (s.promises joined.npm).state with
    | none => exact hcause hold d hstate
    | some d' =>
        obtain ⟨hstate', hvalue⟩ := hkeeps.promises joined.npm (by rw [hold]; nofun)
        obtain rfl : d' = d := Option.some.inj (hold.symm.trans (hstate'.symm.trans hstate))
        rw [hvalue]
        exact (hok.cause d' hold).mono hkeeps
  · rw [hkeeps.slots] at hsize
    obtain h | h := hok.full hsize
    · exact hdue h
    · exact .inr (by rw [(hkeeps.promises _ h).1]; exact h)

theorem JoinsOk.mono (hok : JoinsOk A s due) (hjoins : s'.joins = s.joins)
    (hkeeps : ∀ j < s.joins.length, Keeps s s' j)
    (hstate : ∀ pm, (s'.promises pm).state = (s.promises pm).state)
    (hheard : ∀ pm side d q v, .called pm side (.forward d q) v ∈ s'.log →
      due' q ∨ .called pm side (.forward d q) v ∈ s.log)
    (hdue : ∀ q, due q → due' q) : JoinsOk A s' due' := by
  refine ⟨fun pm side d q v hmem => ?_, fun j joined hj => ?_⟩
  · obtain h | h := hheard pm side d q v hmem
    · exact .inl h
    · rw [hstate]
      exact (hok.heard pm side d q v h).imp_left (hdue q)
  · rw [hjoins] at hj
    refine (hok.joins j joined hj).mono (hkeeps j (List.getElem?_eq_some_iff.mp hj).1)
      (fun hnone d hd => ?_) (fun h => .inl (hdue _ h))
    rw [hstate, hnone] at hd
    cases hd

theorem JoinsOk.weaken (hok : JoinsOk A s due) (hdue : ∀ q, due q → due' q) : JoinsOk A s due' :=
  hok.mono rfl (fun j _ => .refl s j) (fun _ => rfl) (fun _ _ _ _ _ => .inr) hdue

theorem listens_settle : listens (s.settle pm d v) q side = listens s q side := by
  cases h : (s.promises pm).state with
  | some d' => rw [settle_of_some h]
  | none =>
      rw [settle_of_none h]
      have hcalls : (((s.promises pm).callbacks d).map (Frame.call (α := α) pm d)).flatMap
          (chains q side) = [] := by
        simp [List.flatMap_map, chains]
      simp [listens, Heap.push, Heap.modify, hcalls]

theorem settle_slots : (s.settle pm d v).slots = s.slots := by
  cases h : (s.promises pm).state with
  | some d' => rw [settle_of_some h]
  | none => rw [settle_of_none h]; rfl

theorem settle_joins : (s.settle pm d v).joins = s.joins := by
  cases h : (s.promises pm).state with
  | some d' => rw [settle_of_some h]
  | none => rw [settle_of_none h]; rfl

theorem keeps_settle : Keeps s (s.settle pm d v) j := by
  refine ⟨fun q hq => ?_, fun q hq => ?_, fun q idx v => ?_, ?_, settle_thrown,
    fun q side => listens_kept ?_⟩
  · obtain ⟨d', hd'⟩ := Option.ne_none_iff_exists'.mp hq
    rw [settle_kept hd']
    exact ⟨rfl, rfl⟩
  · rw [settle_log]
    exact hq
  · rw [settle_log]
  · rw [settle_slots]
  · rw [listens_settle]

theorem settle_promises (h : (s.promises pm).state = none) :
    (s.settle pm d v).promises q =
      if q = pm then ⟨some d, Function.update (s.promises pm).value d v,
        Function.update (s.promises pm).callbacks d []⟩
      else s.promises q := by
  rw [settle_of_none h]
  exact Function.update_apply _ _ _ _

theorem settle_state_ne_none : ((s.settle pm d v).promises pm).state ≠ none := by
  cases h : (s.promises pm).state with
  | some d' =>
      rw [settle_of_some h, h]
      nofun
  | none =>
      rw [settle_promises h, if_pos rfl]
      nofun

theorem JoinsOk.settle (hok : JoinsOk A s due) (hdue : ∀ r, due r → r = q)
    (hcause : ∀ j joined, s.joins[j]? = some joined → joined.npm = q →
      (s.promises q).state = none → Cause A s j joined d v) :
    JoinsOk A (s.settle q d v) Settled := by
  have hsettled : ∀ r, due r → ((s.settle q d v).promises r).state ≠ none := by
    intro r hr
    rw [hdue r hr]
    exact settle_state_ne_none
  refine ⟨fun pm side d' r w hmem => .inr ?_, fun j joined hj => ?_⟩
  · rw [settle_log] at hmem
    obtain h | h := hok.heard pm side d' r w hmem
    · exact hsettled r h
    · rw [((keeps_settle (j := 0)).promises r h).1]
      exact h
  · rw [settle_joins] at hj
    refine (hok.joins j joined hj).mono keeps_settle (fun hnone d' hd' => ?_)
      (fun h => .inr (hsettled _ h))
    cases hq : (s.promises q).state with
    | some side =>
        rw [settle_of_some hq, hnone] at hd'
        cases hd'
    | none =>
        rw [settle_promises hq] at hd' ⊢
        by_cases hnpm : joined.npm = q
        · rw [if_pos hnpm] at hd' ⊢
          cases hd'
          dsimp only
          rw [Function.update_self]
          exact (hcause j joined hj hnpm hq).mono keeps_settle
        · rw [if_neg hnpm, hnone] at hd'
          cases hd'

theorem chain_slots : (s.chain pm cb).slots = s.slots := by
  cases h : (s.promises pm).state with
  | none => rw [chain_of_none h]; rfl
  | some d => rw [chain_of_some h]; rfl

theorem listens_chain : (listens (s.chain pm cb) q side).Perm
    (listens s q side ++ if pm = q then functions (cb side) else []) := by
  obtain ⟨early, hlog⟩ := chain_log s pm cb
  have hstack : (s.chain pm cb).stack.flatMap (chains q side) =
      s.stack.flatMap (chains q side) := by
    cases h : (s.promises pm).state with
    | none => rw [chain_of_none h]; rfl
    | some d =>
        rw [chain_of_some h]
        simp [Heap.push, Heap.note, chains]
  simp only [listens, hlog, hstack, List.flatMap_append, registers_registrations, List.append_assoc]
  exact List.perm_append_comm.append_left _

theorem keeps_chain (hcb : ∀ side, ∀ fn ∈ functions (cb side), ∀ idx, isSlot j idx fn = false) :
    Keeps s (s.chain pm cb) j := by
  obtain ⟨early, hlog⟩ := chain_log s pm cb
  refine ⟨fun _ _ => chain_kept, fun q hq => ?_, fun q idx v => ?_, ?_, chain_thrown,
    fun q side => ⟨_, listens_chain, fun fn hfn => ?_⟩⟩
  · rw [hlog]
    exact List.mem_append_left _ hq
  · rw [hlog, List.mem_append]
    exact or_iff_left (called_notMem_registrations early)
  · rw [chain_slots]
  · split at hfn
    · exact hcb side fn hfn
    · cases hfn

theorem JoinsOk.chain (hok : JoinsOk A s due)
    (hcb : ∀ side, ∀ fn ∈ functions (cb side), ∀ j idx, isSlot j idx fn = false) :
    JoinsOk A (s.chain pm cb) due := by
  obtain ⟨early, hlog⟩ := chain_log s pm cb
  refine hok.mono chain_joins (fun j _ => keeps_chain (fun side fn hfn => hcb side fn hfn j))
    (fun _ => chain_kept.1) (fun q side d r v hmem => .inr ?_) (fun _ => id)
  rw [hlog, List.mem_append] at hmem
  exact hmem.resolve_right (called_notMem_registrations early)

/-- A function of `all` or `race` that is about to be registered is registered. -/
theorem JoinsOk.chainFrame {fn : Side → Fn φ} (hok : JoinsOk A (s.push [.chain pm fn]) due) :
    JoinsOk A (s.andThen pm fn) due := by
  obtain ⟨early, hlog⟩ := chain_log s pm (fun side => .run (fn side) s.size)
  have hcalled : ∀ {q side fn' v}, .called q side fn' v ∈ (s.andThen pm fn).log ↔
      .called q side fn' v ∈ s.log := by
    intro q side fn' v
    rw [Heap.andThen, hlog, List.mem_append]
    exact or_iff_left (called_notMem_registrations early)
  refine hok.mono chain_joins (fun j _ => ?_) (fun _ => chain_kept.1)
    (fun q side d r v hmem => .inr (hcalled.mp hmem)) (fun _ => id)
  refine ⟨fun _ _ => chain_kept, fun q hq => ?_, fun q idx v => hcalled, ?_, chain_thrown,
    fun q side => listens_kept ?_⟩
  · rw [Heap.andThen, hlog]
    exact List.mem_append_left _ hq
  · rw [Heap.andThen, chain_slots]
    rfl
  · refine listens_chain.trans ?_
    have hpush : listens (s.push [.chain pm fn]) q side = s.log.flatMap (registers q side) ++
        ((if pm = q then [fn side] else []) ++ s.stack.flatMap (chains q side)) := by
      simp [listens, Heap.push, chains]
    rw [hpush, listens, List.append_assoc]
    exact List.perm_append_comm.append_left _

theorem JoinsOk.of_stack (hok : JoinsOk A s due) (hpromises : s'.promises = s.promises)
    (hjoins : s'.joins = s.joins) (hslots : s'.slots = s.slots) (hthrown : s'.thrown = s.thrown)
    (hlog : s'.log = s.log ∨ ∃ q, s'.log = s.log ++ [.settled q])
    (hstack : ∀ pm side, s'.stack.flatMap (chains pm side) = s.stack.flatMap (chains pm side)) :
    JoinsOk A s' due := by
  have hcalled : ∀ {q side fn v}, .called q side fn v ∈ s'.log ↔ .called q side fn v ∈ s.log := by
    intro q side fn v
    obtain h | ⟨r, h⟩ := hlog
    · rw [h]
    · simp [h]
  have hregisters : ∀ pm side, s'.log.flatMap (registers pm side) =
      s.log.flatMap (registers pm side) := by
    intro pm side
    obtain h | ⟨r, h⟩ := hlog
    · rw [h]
    · simp [h, registers]
  refine hok.mono hjoins (fun j _ => ?_) (fun _ => by rw [hpromises])
    (fun _ _ _ _ _ hmem => .inr (hcalled.mp hmem)) (fun _ => id)
  refine ⟨fun _ _ => by rw [hpromises]; exact ⟨rfl, rfl⟩, fun q hq => ?_, fun _ _ _ => hcalled,
    by rw [hslots], hthrown, fun pm side => listens_kept ?_⟩
  · obtain h | ⟨r, h⟩ := hlog
    · rw [h]
      exact hq
    · rw [h]
      exact List.mem_append_left _ hq
  · rw [listens, hregisters, hstack, listens]

theorem JoinsOk.push (hok : JoinsOk A s due)
    (hframes : ∀ pm side, frames.flatMap (chains pm side) = []) : JoinsOk A (s.push frames) due :=
  hok.of_stack rfl rfl rfl rfl (.inl rfl)
    (fun pm side => by simp [Heap.push, hframes pm side])

theorem JoinsOk.pop (hok : JoinsOk A (s.push [frame]) due)
    (hframe : ∀ pm side, chains pm side frame = []) : JoinsOk A s due :=
  hok.of_stack rfl rfl rfl rfl (.inl rfl) (fun pm side => by simp [Heap.push, hframe pm side])

theorem JoinsOk.throw (hok : JoinsOk A s due) : JoinsOk A s.throw due := by
  refine ⟨hok.heard, fun j joined hj => ?_⟩
  have hj' := hok.joins j joined hj
  refine ⟨hj'.nonempty, hj'.length, hj'.slots, hj'.filled, fun idx pm hidx => ⟨?_, nofun⟩, nofun,
    hj'.cause, hj'.full⟩
  have hsub : (listens s.throw pm .fulfilled).Sublist (listens s pm .fulfilled) := by
    simp [listens, Heap.throw]
  exact Nat.le_trans hsub.countP_le (hj'.once idx pm hidx).1

theorem listens_enter (hframes : ∀ pm side, frames.flatMap (chains pm side) = []) :
    listens (s.enter pm side fn frames) q d = listens s q d := by
  simp [listens, Heap.enter, Heap.note, Heap.push, registers, hframes q d]

theorem JoinsOk.enter (hok : JoinsOk A s Settled)
    (hframes : ∀ pm side, frames.flatMap (chains pm side) = [])
    (hfn : ∀ j idx, fn ≠ .slot j idx) :
    JoinsOk A (s.enter pm side fn frames) (fun q => ∃ d, fn = .forward d q) := by
  have hlog : ∀ entry, entry ∈ (s.enter pm side fn frames).log ↔
      entry ∈ s.log ∨ entry = .called pm side fn ((s.promises pm).value side) := by
    simp [Heap.enter, Heap.note, Heap.push]
  refine hok.mono rfl (fun j _ => ?_) (fun _ => rfl) (fun q d d' r v hmem => ?_)
    (fun _ => False.elim)
  · refine ⟨fun _ _ => ⟨rfl, rfl⟩, fun q hq => (hlog _).mpr (.inl hq), fun q idx v => ?_, rfl, rfl,
      fun q d => listens_kept ?_⟩
    · rw [hlog]
      refine or_iff_left ?_
      rintro heq
      cases heq
      exact hfn j idx rfl
    · rw [listens_enter hframes]
  · obtain hold | hnew := (hlog _).mp hmem
    · exact .inr hold
    · cases hnew
      exact .inl ⟨d', rfl⟩

theorem slot_uncalled {idx : Nat}
    (hcalls : CallsOk (s.push [.call pm .fulfilled (.run (.slot j idx) npm)]))
    (honce : (listens s pm .fulfilled).countP (isSlot j idx) ≤ 1) :
    .called pm .fulfilled (.slot j idx) v ∉ s.log := by
  intro hmem
  have hcalled : Fn.slot j idx ∈ s.log.flatMap (calls pm .fulfilled) :=
    List.mem_flatMap.mpr ⟨_, hmem, by simp [calls]⟩
  obtain ⟨lost, hperm, -⟩ := (hcalls.lines pm .fulfilled).each (.inr hcalls.state_eq)
  have hcount := hperm.countP_eq (isSlot j idx)
  simp only [Line.all, queued_top, List.countP_append, List.countP_cons] at hcount
  have hpos : 0 < (s.log.flatMap (calls pm .fulfilled)).countP (isSlot j idx) :=
    List.countP_pos_iff.mpr ⟨_, hcalled, by simp [isSlot]⟩
  have hself : isSlot j idx (Fn.slot j idx : Fn φ) = true := by
    simp [isSlot]
  have hle : (s.log.flatMap (registers pm .fulfilled)).countP (isSlot j idx) ≤ 1 := by
    rw [listens, List.countP_append] at honce
    omega
  have hcalled' : (line (s.push [.call pm .fulfilled (.run (.slot j idx) npm)]) pm
      .fulfilled).called = s.log.flatMap (calls pm .fulfilled) := rfl
  have hregistered : (line (s.push [.call pm .fulfilled (.run (.slot j idx) npm)]) pm
      .fulfilled).registered = s.log.flatMap (registers pm .fulfilled) := rfl
  rw [hcalled', hregistered, if_pos hself] at hcount
  omega

/-- The heap in which a slot has been filled, and the last one not yet noticed. -/
def filled (s : Heap α φ) (pm npm : Ref) (j idx : Nat) : Heap α φ :=
  let v := (s.promises pm).value .fulfilled
  { s.enter pm .fulfilled (.slot j idx) [.returned .fulfilled npm .void] with
    slots := Function.update s.slots j ((s.slots j).fulfil idx v) }

theorem JoinsOk.filled {idx : Nat} (hok : JoinsOk A s Settled)
    (hcalls : CallsOk (s.push [.call pm .fulfilled (.run (.slot j idx) npm)]))
    (hj : s.joins[j]? = some joined) (hidx : joined.pms[idx]? = some pm) :
    JoinsOk A (filled s pm npm j idx) (fun q =>
      q = joined.npm ∧ ((filled s pm npm j idx).slots j).size = 0) := by
  have hlog : ∀ entry, entry ∈ (Joins.filled s pm npm j idx).log ↔ entry ∈ s.log ∨
      entry = .called pm .fulfilled (.slot j idx) ((s.promises pm).value .fulfilled) := by
    simp [Joins.filled, Heap.enter, Heap.note, Heap.push]
  have hlistens : ∀ q d, listens (Joins.filled s pm npm j idx) q d = listens s q d :=
    fun q d => listens_enter (fun _ _ => rfl)
  refine ⟨fun q d d' r v hmem => ?_, fun j' joined' hj' => ?_⟩
  · obtain hold | hnew := (hlog _).mp hmem
    · exact .inr ((hok.heard q d d' r v hold).resolve_left id)
    · cases hnew
  by_cases hne : j' = j
  swap
  · -- the other calls of `all` are not concerned
    refine (hok.joins j' joined' hj').mono ?_ (fun hnone d hd => ?_) False.elim
    · refine ⟨fun _ _ => ⟨rfl, rfl⟩, fun q hq => (hlog _).mpr (.inl hq), fun q idx' v => ?_,
        Function.update_of_ne hne _ _, rfl, fun q d => listens_kept ?_⟩
      · rw [hlog]
        refine or_iff_left ?_
        rintro heq
        cases heq
        exact hne rfl
      · rw [hlistens]
    · rw [show ((Joins.filled s pm npm j idx).promises joined'.npm).state = none from hnone] at hd
      cases hd
  subst hne
  obtain rfl : joined = joined' := Option.some.inj (hj.symm.trans hj')
  have hold := hok.joins j' joined hj
  have huncalled : ∀ v, .called pm .fulfilled (.slot j' idx) v ∉ s.log :=
    fun v => slot_uncalled hcalls (hold.once idx pm hidx).1
  have hlt : idx < (s.slots j').results.length := by
    rw [hold.length]
    exact (List.getElem?_eq_some_iff.mp hidx).1
  have hempty : (s.slots j').results[idx]? = some none := by
    cases hslot : (s.slots j').results[idx]? with
    | none => exact absurd hlt (Nat.not_lt.mpr (List.getElem?_eq_none_iff.mp hslot))
    | some slot =>
        cases slot with
        | none => rfl
        | some w => exact absurd ((hold.filled idx pm w hidx).mp hslot) (huncalled w)
  have hsize : (s.slots j').size ≠ 0 := by
    rw [hold.slots.count]
    exact Nat.ne_of_gt (List.countP_pos_iff.mpr ⟨none, List.mem_of_getElem? hempty, rfl⟩)
  have hslots : (Joins.filled s pm npm j' idx).slots j' =
      (s.slots j').fulfil idx ((s.promises pm).value .fulfilled) := Function.update_self _ _ _
  refine ⟨hold.nonempty, ?_, ?_, fun idx' pm' v hidx' => ?_, fun idx' pm' hidx' => ?_,
    fun hthrown q hq => ?_, fun d hd => ?_, fun hzero => .inl ⟨rfl, hzero⟩⟩
  · rw [hslots, All.length_fulfil]
    exact hold.length
  · rw [hslots]
    exact hold.slots.fulfil hempty
  · rw [hslots, All.get_fulfil hlt, hlog]
    by_cases hsame : idx = idx'
    · subst hsame
      obtain rfl : pm = pm' := Option.some.inj (hidx.symm.trans hidx')
      rw [if_pos rfl, or_iff_right (huncalled v)]
      constructor
      · intro h
        rw [Option.some.inj (Option.some.inj h)]
      · intro h
        rw [(Entry.called.inj h).2.2.2]
    · rw [if_neg hsame, hold.filled idx' pm' v hidx']
      refine (or_iff_left ?_).symm
      intro h
      exact hsame (Fn.slot.inj (Entry.called.inj h).2.2.1).2.symm
  · rw [hlistens]
    exact hold.once idx' pm' hidx'
  · rw [hlistens]
    exact hold.hears hthrown q hq
  · obtain h | ⟨-, h, -⟩ | h := hold.cause d hd
    · exact .inl ((hlog _).mpr (.inl h))
    · exact absurd h hsize
    · exact .inr (.inr h)

/-! New calls of `all` and `race`. -/

theorem PlacesOk.listens (hok : PlacesOk s) (h : fn ∈ listens s pm side) : FnOk s pm side fn := by
  obtain h | h := List.mem_append.mp h
  · exact hok.registered pm side fn h
  · obtain ⟨frame, hframe, hmem⟩ := List.mem_flatMap.mp h
    have hframeOk := hok.stack frame hframe
    cases frame with
    | chain q fns =>
        by_cases hq : q = pm
        · subst hq
          rw [chains, if_pos rfl, List.mem_singleton] at hmem
          rw [hmem]
          exact hframeOk side
        · simp [chains, hq] at hmem
    | _ => cases hmem

theorem FnOk.isSlot_eq_false (hfn : FnOk s pm side fn) (hj : s.joins.length ≤ j) (idx : Nat) :
    isSlot j idx fn = false := by
  cases fn with
  | slot j' idx' =>
      obtain ⟨-, joined, hjoined, -⟩ := hfn
      have hlt := (List.getElem?_eq_some_iff.mp hjoined).1
      have hne : j' ≠ j := by omega
      simp [isSlot, hne]
  | _ => rfl

theorem called_registered (hcalls : CallsOk s) (h : .called pm side fn v ∈ s.log) :
    fn ∈ s.log.flatMap (registers pm side) := by
  obtain ⟨lost, hperm, -⟩ :=
    (hcalls.lines pm side).each (.inr (hcalls.values pm side fn v h).1)
  have hcalled : fn ∈ (line s pm side).called :=
    List.mem_flatMap.mpr ⟨_, h, by simp [calls]⟩
  refine hperm.subset (List.mem_append_left _ ?_)
  simp [Line.all, hcalled]

theorem count_gather (pm npm : Ref) (pms : List Ref) (n k m : Nat) :
    ((pms.mapIdx (fun i p => (.chain p (Heap.gather n (i + k) npm) : Frame α φ))).flatMap
      (chains pm .fulfilled)).countP (isSlot n m) =
      if k ≤ m ∧ pms[m - k]? = some pm then 1 else 0 := by
  induction pms generalizing k with
  | nil => simp
  | cons p pms ih =>
      have hrest : pms.mapIdx (fun i p => (.chain p (Heap.gather n (i + 1 + k) npm) : Frame α φ)) =
          pms.mapIdx (fun i p => .chain p (Heap.gather n (i + (k + 1)) npm)) := by
        congr
        funext i p
        rw [Nat.add_assoc, Nat.add_comm 1 k]
      rw [List.mapIdx_cons, List.flatMap_cons, List.countP_append, hrest, ih (k + 1)]
      by_cases hkm : k = m
      · subst hkm
        have hno : ¬ k + 1 ≤ k := Nat.not_succ_le_self k
        by_cases hp : p = pm
        · simp [chains, Heap.gather, isSlot, hp, hno]
        · simp [chains, hp, hno]
      · have hhead : (chains (α := α) pm .fulfilled (.chain p (Heap.gather n (0 + k) npm) :
            Frame α φ)).countP (isSlot n m) = 0 := by
          by_cases hp : p = pm
          · simp [chains, Heap.gather, isSlot, hp, hkm]
          · simp [chains, hp]
        rw [hhead, Nat.zero_add]
        by_cases hlt : k < m
        · obtain ⟨i, rfl⟩ : ∃ i, m = k + 1 + i := ⟨m - (k + 1), by omega⟩
          have hi : k + 1 + i - k = i + 1 := by omega
          have hi' : k + 1 + i - (k + 1) = i := by omega
          have hle : k ≤ k + 1 + i := by omega
          have hle' : k + 1 ≤ k + 1 + i := by omega
          simp [hi, hi', hle]
        · have hno : ¬ k ≤ m := by omega
          have hno' : ¬ k + 1 ≤ m := by omega
          simp [hno, hno']

/-- What a call of `all` does. -/
structure AllOf (s s' : Heap α φ) (pms : List Ref) : Prop where
  promises : s'.promises = s.promises
  size : s'.size = s.size + 1
  joins : s'.joins = s.joins ++ [⟨pms, s.size⟩]
  slots : s'.slots = Function.update s.slots s.joins.length (.pending pms.length)
  stack : s'.stack =
    pms.mapIdx (fun idx pm => .chain pm (Heap.gather s.joins.length idx s.size)) ++ s.stack
  thrown : s'.thrown = s.thrown
  log : s'.log = s.log

theorem allOf_all {pms : List Ref} (hne : pms ≠ []) : AllOf s (s.all pms) pms := by
  rw [Heap.all, if_neg hne]
  exact ⟨rfl, rfl, rfl, rfl, rfl, rfl, rfl⟩

theorem PlacesOk.allOf (hok : PlacesOk s) {pms : List Ref} (h : AllOf s s' pms) : PlacesOk s' := by
  have hext : Extends s s' := by
    refine ⟨?_, _, h.joins, fun joined hmem => ?_⟩
    · rw [h.size]
      exact Nat.le_succ _
    · cases List.mem_singleton.mp hmem
      exact Nat.le_refl _
  have hnew : ∀ joined, joined ∈ s'.joins ↔ joined ∈ s.joins ∨ joined = ⟨pms, s.size⟩ := by
    intro joined
    rw [h.joins, List.mem_append, List.mem_singleton]
  refine ⟨fun pm side cb hcb => ?_, fun frame hframe => ?_, fun pm side fn hfn => ?_,
    fun joined hmem => ?_, ?_, fun pm hpm => ?_⟩
  · rw [h.promises] at hcb
    exact (hok.stored pm side cb hcb).mono hext
  · rw [h.stack] at hframe
    obtain hframe | hold := List.mem_append.mp hframe
    · obtain ⟨idx, hidx, rfl⟩ := List.mem_mapIdx.mp hframe
      rintro (_ | _)
      · refine ⟨rfl, ⟨pms, s.size⟩, ?_, List.getElem?_eq_getElem hidx⟩
        rw [h.joins]
        simp
      · refine ⟨?_, fun joined hmem hnpm => ⟨rfl, rfl, ?_⟩⟩
        · rw [h.size]
          exact Nat.lt_succ_self _
        · obtain hold | rfl := (hnew joined).mp hmem
          · exact absurd hnpm (Nat.ne_of_lt (hok.made joined hold))
          · exact List.getElem_mem hidx
    · exact (hok.stack frame hold).mono hext
  · rw [h.log] at hfn
    exact (hok.registered pm side fn hfn).mono hext
  · rw [h.size]
    obtain hold | rfl := (hnew joined).mp hmem
    · exact Nat.lt_succ_of_lt (hok.made joined hold)
    · exact Nat.lt_succ_self _
  · rw [h.joins, List.map_append, List.map_singleton]
    refine List.nodup_append.mpr ⟨hok.distinct, by simp, fun npm hmem r hr => ?_⟩
    obtain ⟨joined, hjoined, rfl⟩ := List.mem_map.mp hmem
    rw [List.mem_singleton.mp hr]
    exact Nat.ne_of_lt (hok.made joined hjoined)
  · rw [h.size] at hpm
    rw [h.promises]
    exact hok.fresh pm (Nat.le_of_succ_le hpm)

theorem listens_allOf {pms : List Ref} (h : AllOf s s' pms) :
    (listens s' pm side).Perm (listens s pm side ++
      (pms.mapIdx (fun idx p => (.chain p (Heap.gather s.joins.length idx s.size) :
        Frame α φ))).flatMap (chains pm side)) := by
  simp only [Joins.listens, h.log, h.stack, List.flatMap_append, List.append_assoc]
  exact List.perm_append_comm.append_left _

theorem keeps_allOf {pms : List Ref} (h : AllOf s s' pms) (hj : j < s.joins.length) :
    Keeps s s' j := by
  refine ⟨fun pm _ => by rw [h.promises]; exact ⟨rfl, rfl⟩, fun pm hpm => by rw [h.log]; exact hpm,
    fun pm idx v => by rw [h.log], ?_, h.thrown,
    fun pm side => ⟨_, listens_allOf h, fun fn hfn idx => ?_⟩⟩
  · rw [h.slots]
    exact Function.update_of_ne (Nat.ne_of_lt hj) _ _
  · obtain ⟨frame, hframe, hmem⟩ := List.mem_flatMap.mp hfn
    obtain ⟨i, hi, rfl⟩ := List.mem_mapIdx.mp hframe
    rw [chains] at hmem
    split at hmem
    · rw [List.mem_singleton.mp hmem]
      cases side with
      | fulfilled => simp [Heap.gather, isSlot, Nat.ne_of_gt hj]
      | rejected => rfl
    · cases hmem

/-- The new call has empty slots, and a function for each of them on its way. -/
theorem joinOk_allOf {pms : List Ref} (hplaces : PlacesOk s) (hcalls : CallsOk s) (hne : pms ≠ [])
    (h : AllOf s s' pms) : JoinOk A s' due s.joins.length ⟨pms, s.size⟩ := by
  have hslots : s'.slots s.joins.length = .pending pms.length := by
    rw [h.slots]
    exact Function.update_self _ _ _
  have hpos : 0 < pms.length := List.length_pos_iff.mpr hne
  have hcount : ∀ (idx : Nat) pm, pms[idx]? = some pm →
      (listens s' pm .fulfilled).countP (isSlot s.joins.length idx) = 1 := by
    intro idx pm hidx
    have hold : (listens s pm .fulfilled).countP (isSlot s.joins.length idx) = 0 := by
      refine List.countP_eq_zero.mpr (fun fn hfn => ?_)
      rw [(hplaces.listens hfn).isSlot_eq_false (Nat.le_refl _)]
      exact Bool.false_ne_true
    have hnew := count_gather (α := α) (φ := φ) pm s.size pms s.joins.length 0 idx
    rw [(listens_allOf h).countP_eq, List.countP_append, hold, Nat.zero_add]
    simpa [hidx] using hnew
  refine ⟨hne, ?_, ?_, fun idx pm v hidx => ?_, fun idx pm hidx => ?_, fun _ pm hpm => ?_,
    fun d hd => ?_, fun hzero => ?_⟩
  · rw [hslots]
    exact List.length_replicate
  · rw [hslots]
    exact All.ok_pending hpos
  · rw [hslots, h.log]
    constructor
    · intro hget
      have hmem := List.mem_of_getElem? hget
      cases List.eq_of_mem_replicate hmem
    · intro hcalled
      obtain ⟨-, joined, hj, -⟩ := hplaces.registered pm _ _ (called_registered hcalls hcalled)
      exact absurd (List.getElem?_eq_some_iff.mp hj).1 (Nat.lt_irrefl _)
  · rw [hcount idx pm hidx]
    exact ⟨Nat.le_refl _, fun _ => Nat.one_pos⟩
  · refine (listens_allOf h).symm.subset (List.mem_append_right _ ?_)
    obtain ⟨idx, hidx, rfl⟩ := List.mem_iff_getElem.mp hpm
    refine List.mem_flatMap.mpr ⟨_, List.mem_mapIdx.mpr ⟨idx, hidx, rfl⟩, ?_⟩
    simp [chains, Heap.gather]
  · rw [h.promises, hplaces.fresh _ (Nat.le_refl _)] at hd
    cases hd
  · rw [hslots] at hzero
    exact absurd hzero (Nat.ne_of_gt hpos)

theorem JoinsOk.allOf (hok : JoinsOk A s due) (hplaces : PlacesOk s) (hcalls : CallsOk s)
    {pms : List Ref} (hne : pms ≠ []) (h : AllOf s s' pms) : JoinsOk A s' due := by
  refine ⟨fun pm side d q v hmem => ?_, fun j joined hj => ?_⟩
  · rw [h.log] at hmem
    rw [h.promises]
    exact hok.heard pm side d q v hmem
  · rw [h.joins] at hj
    by_cases hlt : j < s.joins.length
    · rw [List.getElem?_append_left hlt] at hj
      refine (hok.joins j joined hj).mono (keeps_allOf h hlt) (fun hnone d hd => ?_) .inl
      rw [h.promises, hnone] at hd
      cases hd
    · obtain rfl : j = s.joins.length := by
        have hlen := (List.getElem?_eq_some_iff.mp hj).1
        rw [List.length_append, List.length_singleton] at hlen
        omega
      obtain rfl : ⟨pms, s.size⟩ = joined := by
        simpa using hj
      exact joinOk_allOf hplaces hcalls hne h

theorem PlacesOk.race (hok : PlacesOk s) (pms : List Ref) : PlacesOk (s.race pms) := by
  refine hok.of_eq rfl (Nat.le_succ _) rfl (fun _ _ _ => .inl) (fun frame hframe => ?_)
  obtain hnew | hold := List.mem_append.mp hframe
  · obtain ⟨pm, -, rfl⟩ := List.mem_map.mp hnew
    refine .inr (fun side => ⟨Nat.lt_succ_self _, fun joined hmem hnpm => ?_⟩)
    exact absurd hnpm (Nat.ne_of_lt (hok.made joined hmem))
  · exact .inl hold

theorem JoinsOk.race (hok : JoinsOk A s due) (pms : List Ref) : JoinsOk A (s.race pms) due := by
  refine hok.mono rfl (fun j _ => ?_) (fun _ => rfl) (fun _ _ _ _ _ => .inr) (fun _ => id)
  refine ⟨fun _ _ => ⟨rfl, rfl⟩, fun _ => id, fun _ _ _ => Iff.rfl, rfl, rfl,
    fun pm side => ⟨(pms.map (fun pm => (.chain pm (fun side => .forward side s.size) :
      Frame α φ))).flatMap (chains pm side), ?_, fun fn hfn idx => ?_⟩⟩
  · simp only [Joins.listens, Heap.race, Heap.push, List.flatMap_append, List.append_assoc]
    exact List.perm_append_comm.append_left _
  · obtain ⟨frame, hframe, hmem⟩ := List.mem_flatMap.mp hfn
    obtain ⟨q, -, rfl⟩ := List.mem_map.mp hframe
    rw [chains] at hmem
    split at hmem
    · rw [List.mem_singleton.mp hmem]
      rfl
    · cases hmem

end joins

/-! The steps of the heap. -/

structure HeapOk (A : Any α) (s : Heap α φ) : Prop where
  calls : CallsOk s
  places : PlacesOk s
  joins : JoinsOk A s Settled

section steps

variable {A : Any α} {s s' : Heap α φ} {pm q npm : Ref} {side d : Side} {v : α} {fn : Fn φ}
  {frame : Frame α φ} {frames : List (Frame α φ)}

theorem HeapOk.pushAct (hok : HeapOk A s) (a : Action α φ) : HeapOk A (s.push [.act a]) := by
  refine ⟨hok.calls.pushAct a, hok.places.push (fun frame hframe => ?_),
    hok.joins.push (fun _ _ => rfl)⟩
  rw [List.mem_singleton.mp hframe]
  exact trivial

theorem HeapOk.pop (hok : HeapOk A (s.push [frame]))
    (hqueues : ∀ pm side, queues pm side frame = [])
    (hchains : ∀ pm side, chains pm side frame = []) : HeapOk A s :=
  ⟨hok.calls.pop hqueues, hok.places.pop, hok.joins.pop hchains⟩

theorem HeapOk.settle (hok : HeapOk A s) (hq : Chained s q) : HeapOk A (s.settle q d v) := by
  refine ⟨hok.calls.settle, hok.places.settle hq.1,
    hok.joins.settle (fun r => False.elim) (fun j joined hj hnpm _ => ?_)⟩
  exact absurd hnpm (hq.2 joined (List.mem_of_getElem? hj))

theorem HeapOk.andThen (hok : HeapOk A s) {fn : Side → Fn φ}
    (hfn : ∀ side, FnOk s pm side (fn side))
    (hslot : ∀ side j idx, isSlot j idx (fn side) = false) :
    HeapOk A (s.andThen pm fn) := by
  refine ⟨hok.calls.chain, hok.places.andThen hfn, hok.joins.chain (fun side fn' hfn' => ?_)⟩
  rw [List.mem_singleton.mp hfn']
  exact hslot side

theorem HeapOk.andThenOn (hok : HeapOk A s) (f : φ) :
    HeapOk A (s.andThenOn pm side (.user f)) := by
  refine ⟨hok.calls.chain, hok.places.andThenOn trivial, hok.joins.chain (fun d fn hfn => ?_)⟩
  split at hfn
  · rw [List.mem_singleton.mp hfn]
    exact fun _ _ => rfl
  · cases hfn

theorem HeapOk.throw (hok : HeapOk A s) : HeapOk A s.throw :=
  ⟨hok.calls.throw, hok.places.throw, hok.joins.throw⟩

theorem HeapOk.act (hok : HeapOk A s) {a : Action α φ} (hnames : ∀ pm ∈ Heap.names a, pm < s.size) :
    HeapOk A (s.act A a) := by
  cases a with
  | make =>
      exact ⟨hok.calls.of_eq rfl rfl rfl (fun _ _ => rfl),
        hok.places.of_eq rfl (Nat.le_succ _) rfl (fun _ _ _ => .inl) (fun _ => .inl),
        hok.joins.of_stack rfl rfl rfl rfl (.inl rfl) (fun _ _ => rfl)⟩
  | settle pm side v =>
      have hlt : pm < s.size := hnames pm List.mem_cons_self
      have hplaces : PlacesOk (s.note [.settled pm]) :=
        hok.places.of_eq rfl (Nat.le_refl _) rfl
          (fun _ _ _ hfn => .inl (by simpa [Heap.note, registers] using hfn)) (fun _ => .inl)
      have hjoins : JoinsOk A (s.note [.settled pm]) Settled :=
        hok.joins.of_stack rfl rfl rfl rfl (.inr ⟨pm, rfl⟩) (fun _ _ => rfl)
      refine ⟨hok.calls.noteSettled.settle, hplaces.settle hlt,
        hjoins.settle (fun r => False.elim) (fun j joined hj hnpm _ => .inl ?_)⟩
      rw [hnpm]
      exact List.mem_append_right _ List.mem_cons_self
  | andThen pm onFulfilled onRejected =>
      cases onRejected with
      | none => exact hok.andThenOn onFulfilled
      | some onRejected =>
          refine hok.andThen (fun side => ?_) (fun side j idx => ?_)
          · cases side <;> exact trivial
          · cases side <;> rfl
  | fail pm onRejected => exact hok.andThenOn onRejected
  | all pms =>
      by_cases hne : pms = []
      · subst hne
        exact hok.throw
      · have hall := allOf_all (s := s) hne
        exact ⟨hok.calls.all pms, hok.places.allOf hall,
          hok.joins.allOf hok.places hok.calls hne hall⟩
  | race pms => exact ⟨hok.calls.act (.race pms), hok.places.race pms, hok.joins.race pms⟩
  | throw => exact hok.throw

theorem HeapOk.finish (hok : HeapOk A s) (hnpm : Chained s npm) (ret : Return α) :
    HeapOk A (s.finish A side npm ret) := by
  cases ret with
  | void => exact hok.settle hnpm
  | value v => exact hok.settle hnpm
  | promise pm =>
      refine hok.andThen (fun d => ⟨hnpm.1, fun joined hmem h => ?_⟩) (fun _ _ _ => rfl)
      exact absurd h (hnpm.2 joined hmem)

theorem HeapOk.forward (hok : HeapOk A (s.push [.call pm side (.run (.forward d q) npm)])) :
    HeapOk A ((s.enter pm side (.forward d q) [.returned side npm .void]).settle q d
      ((s.promises pm).value side)) := by
  obtain ⟨⟨hq, hnamed⟩, hchained⟩ := hok.places.top
  have hplaces : PlacesOk (s.enter pm side (.forward d q) [.returned side npm .void]) := by
    refine hok.places.pop.enter (fun frame hframe => ?_)
    rw [List.mem_singleton.mp hframe]
    exact hchained
  have hjoins : JoinsOk A (s.enter pm side (.forward d q) [.returned side npm .void])
      (fun r => ∃ d', .forward d q = (.forward d' r : Fn φ)) :=
    (hok.joins.pop (fun _ _ => rfl)).enter (fun _ _ => rfl) nofun
  refine ⟨(hok.calls.enter (fun _ _ => rfl)).settle, hplaces.settle hq,
    hjoins.settle (fun r hr => ?_) (fun j joined hj hnpm _ => ?_)⟩
  · obtain ⟨d', heq⟩ := hr
    exact (Fn.forward.inj heq).2.symm
  · obtain ⟨rfl, rfl, hpm⟩ := hnamed joined (List.mem_of_getElem? hj) hnpm
    exact .inr (.inr ⟨rfl, pm, hpm, hok.calls.state_eq, rfl⟩)

theorem HeapOk.slot {j idx : Nat}
    (hok : HeapOk A (s.push [.call pm side (.run (.slot j idx) npm)])) :
    HeapOk A ((s.enter pm side (.slot j idx) [.returned side npm .void]).fill A j idx
      ((s.promises pm).value side)) := by
  obtain ⟨⟨rfl, joined, hj, hidx⟩, hchained⟩ := hok.places.top
  have hcalls : CallsOk (s.enter pm .fulfilled (.slot j idx) [.returned .fulfilled npm .void]) :=
    hok.calls.enter (fun _ _ => rfl)
  have hplaces : PlacesOk (s.enter pm .fulfilled (.slot j idx)
      [.returned .fulfilled npm .void]) := by
    refine hok.places.pop.enter (fun frame hframe => ?_)
    rw [List.mem_singleton.mp hframe]
    exact hchained
  have hjoins := (hok.joins.pop (fun _ _ => rfl)).filled hok.calls hj hidx
  have hfilled : CallsOk (filled s pm npm j idx) := hcalls.of_eq rfl rfl rfl (fun _ _ => rfl)
  have hfilled' : PlacesOk (filled s pm npm j idx) :=
    hplaces.of_eq rfl (Nat.le_refl _) rfl (fun _ _ _ => .inl) (fun _ => .inl)
  have hslots : (filled s pm npm j idx).slots j =
      (s.slots j).fulfil idx ((s.promises pm).value .fulfilled) := Function.update_self _ _ _
  have hfill : (s.enter pm .fulfilled (.slot j idx) [.returned .fulfilled npm .void]).fill A j idx
      ((s.promises pm).value .fulfilled) =
        if ((filled s pm npm j idx).slots j).size = 0 then
          (filled s pm npm j idx).settle joined.npm .fulfilled
            (A.values ((filled s pm npm j idx).slots j).results)
        else filled s pm npm j idx := by
    have hj' : (s.enter pm .fulfilled (.slot j idx)
        [.returned .fulfilled npm .void]).joins[j]? = some joined := hj
    rw [Heap.fill, hj', hslots]
    rfl
  rw [hfill]
  split
  · rename_i hzero
    refine ⟨hfilled.settle, hfilled'.settle (hok.places.made joined (List.mem_of_getElem? hj)),
      hjoins.settle (fun r hr => hr.1) (fun j' joined' hj' hnpm _ => ?_)⟩
    obtain rfl : j' = j := by
      have hget : (s.joins.map Joined.npm)[j']? = (s.joins.map Joined.npm)[j]? := by
        rw [List.getElem?_map, List.getElem?_map, hj, show s.joins[j']? = some joined' from hj']
        exact congrArg some hnpm
      refine (List.getElem?_inj ?_ hok.places.distinct).mp hget
      rw [List.length_map]
      exact (List.getElem?_eq_some_iff.mp hj').1
    exact .inr (.inl ⟨rfl, hzero, rfl⟩)
  · rename_i hzero
    exact ⟨hfilled, hfilled', hjoins.weaken (fun r hr => hzero hr.2)⟩

theorem HeapOk.run (hok : HeapOk A (s.push [frame])) (h : s.run A frame = some s') :
    HeapOk A s' := by
  cases frame with
  | act a =>
      simp only [Heap.run, Option.ite_none_right_eq_some, Option.some.injEq] at h
      obtain ⟨hnames, rfl⟩ := h
      exact (hok.pop (fun _ _ => rfl) (fun _ _ => rfl)).act hnames
  | chain pm fn =>
      cases h
      have hcalls : CallsOk s := hok.calls.pop (fun _ _ => rfl)
      exact ⟨hcalls.chain, hok.places.pop.andThen hok.places.top, hok.joins.chainFrame⟩
  | returned side npm ret =>
      have hpop := hok.pop (fun _ _ => rfl) (fun _ _ => rfl)
      cases ret with
      | void =>
          cases h
          exact hpop.finish hok.places.top .void
      | value v =>
          cases h
          exact hpop.finish hok.places.top (.value v)
      | promise pm =>
          simp only [Heap.run, Option.ite_none_right_eq_some, Option.some.injEq] at h
          obtain ⟨-, rfl⟩ := h
          exact hpop.finish hok.places.top (.promise pm)
  | call pm side cb =>
      cases cb with
      | pass npm =>
          cases h
          refine (hok.pop (fun q d => ?_) (fun _ _ => rfl)).settle hok.places.top
          simp [queues, functions]
      | run fn npm =>
          cases fn with
          | user f => cases h
          | forward d q =>
              cases h
              exact hok.forward
          | slot j idx =>
              cases h
              exact hok.slot

theorem HeapOk.call {f : φ} (hok : HeapOk A (s.push [.call pm side (.run (.user f) npm)]))
    (body : List (Action α φ)) (ret : Return α) :
    HeapOk A (s.enter pm side (.user f) (body.map .act ++ [.returned side npm ret])) := by
  have hjoins : JoinsOk A (s.enter pm side (.user f) (body.map .act ++ [.returned side npm ret]))
      (fun r => ∃ d, .user f = (.forward d r : Fn φ)) :=
    (hok.joins.pop (fun _ _ => rfl)).enter (fun q d => by simp [chains, List.flatMap_map]) nofun
  refine ⟨hok.calls.enter (fun q d => by simp [queues, List.flatMap_map]),
    hok.places.pop.enter (fun frame hframe => ?_), ?_⟩
  · obtain hact | hret := List.mem_append.mp hframe
    · obtain ⟨a, -, rfl⟩ := List.mem_map.mp hact
      exact trivial
    · rw [List.mem_singleton.mp hret]
      exact hok.places.top.2
  · refine hjoins.weaken ?_
    rintro r ⟨d, heq⟩
    cases heq

theorem HeapOk.step (hok : HeapOk A s) {i : Input α φ} (h : s.step A i = some s') :
    HeapOk A s' := by
  unfold Heap.step at h
  split at h
  · exact HeapOk.run (hok.pushAct _) h
  · rename_i frame stack hstack
    have hpushed : ({ s with stack } : Heap α φ).push [frame] = s := by
      simp [Heap.push, ← hstack]
    exact HeapOk.run (s := { s with stack }) (hpushed ▸ hok) h
  · rename_i pm side f npm stack body ret hstack
    have hpushed : ({ s with stack } : Heap α φ).push [.call pm side (.run (.user f) npm)] = s := by
      simp [Heap.push, ← hstack]
    cases h
    exact HeapOk.call (hpushed ▸ hok) body ret
  · cases h

end steps

theorem heapOk_start (A : Any α) : HeapOk A (Heap.start A : Heap α φ) := by
  refine ⟨callsOk_start A, ⟨?_, nofun, ?_, nofun, List.nodup_nil, fun _ _ => rfl⟩, ⟨nofun, ?_⟩⟩
  · intro pm side cb hcb
    cases hcb
  · intro pm side fn hfn
    cases hfn
  · intro j joined hj
    cases hj

theorem heapOk_of_reachable {A : Any α} {s : Heap α φ} (h : Reachable (heap A φ) s) :
    HeapOk A s := by
  refine h.invariant ?_ (fun _ _ _ _ hok hstep => hok.step hstep)
  rintro _ rfl
  exact heapOk_start A

/-! What `all` returns. -/

section

variable {A : Any α} {s : Heap α φ} {pm : Ref} {side : Side} {fn : Fn φ} {j : Nat}
  {joined : Joined}

/-- Once everything has returned, the functions that listen have been called. -/
theorem called_of_listens (h : Reachable (heap A φ) s) (hstack : s.stack = [])
    (hthrown : s.thrown = false) (hstate : (s.promises pm).state = some side)
    (hfn : fn ∈ listens s pm side) : ∃ v, .called pm side fn v ∈ s.log := by
  have hregistered : fn ∈ (line s pm side).registered := by
    rw [listens, hstack, List.flatMap_nil, List.append_nil] at hfn
    exact hfn
  obtain ⟨-, -, -, hidle⟩ := called_once h pm side
  have hcalled : fn ∈ s.log.flatMap (calls pm side) :=
    (hidle hstack hthrown hstate).1.symm.subset hregistered
  obtain ⟨entry, hentry, hmem⟩ := List.mem_flatMap.mp hcalled
  cases entry with
  | called q d fn' v =>
      by_cases hq : q = pm ∧ d = side
      · obtain ⟨rfl, rfl⟩ := hq
        simp only [calls, and_self, if_true, List.mem_singleton] at hmem
        exact ⟨v, hmem ▸ hentry⟩
      · simp [calls, hq] at hmem
  | _ => cases hmem

theorem results_of_full (hok : HeapOk A s) (hj : s.joins[j]? = some joined)
    (hfull : (s.slots j).size = 0) :
    (∀ pm ∈ joined.pms, (s.promises pm).state = some .fulfilled) ∧
    (s.slots j).results = joined.pms.map (fun pm => some ((s.promises pm).value .fulfilled)) := by
  have hjoin := hok.joins.joins j joined hj
  have hslot : ∀ (idx : Nat) pm, joined.pms[idx]? = some pm →
      (s.promises pm).state = some .fulfilled ∧
        (s.slots j).results[idx]? = some (some ((s.promises pm).value .fulfilled)) := by
    intro idx pm hidx
    have hlt : idx < (s.slots j).results.length := by
      rw [hjoin.length]
      exact (List.getElem?_eq_some_iff.mp hidx).1
    have hmem := List.getElem_mem hlt
    cases hget : (s.slots j).results[idx] with
    | none =>
        rw [hjoin.slots.count, List.countP_eq_zero] at hfull
        exact absurd rfl (hfull _ (hget ▸ hmem))
    | some v =>
        have hsome : (s.slots j).results[idx]? = some (some v) := by
          rw [List.getElem?_eq_getElem hlt, hget]
        have hcalled := (hjoin.filled idx pm v hidx).mp hsome
        obtain ⟨hstate, hvalue⟩ := hok.calls.values pm _ _ v hcalled
        rw [hvalue]
        exact ⟨hstate, hsome⟩
  refine ⟨fun pm hpm => ?_, List.ext_getElem? (fun idx => ?_)⟩
  · obtain ⟨idx, hidx⟩ := List.mem_iff_getElem?.mp hpm
    exact (hslot idx pm hidx).1
  · rw [List.getElem?_map]
    cases hidx : joined.pms[idx]? with
    | none =>
        rw [List.getElem?_eq_none_iff, ← hjoin.length] at hidx
        exact List.getElem?_eq_none hidx
    | some pm => exact (hslot idx pm hidx).2

/-- Once everything has returned, the slot of a promise holds a value if it is fulfilled. -/
theorem filled_of_fulfilled (h : Reachable (heap A φ) s) (hstack : s.stack = [])
    (hthrown : s.thrown = false) (hj : s.joins[j]? = some joined) {idx : Nat}
    (hidx : joined.pms[idx]? = some pm) (hstate : (s.promises pm).state = some .fulfilled) :
    (s.slots j).results[idx]? = some (some ((s.promises pm).value .fulfilled)) := by
  have hok := heapOk_of_reachable h
  have hjoin := hok.joins.joins j joined hj
  obtain ⟨fn, hfn, hslot⟩ := List.countP_pos_iff.mp ((hjoin.once idx pm hidx).2 hthrown)
  obtain rfl : fn = .slot j idx := by
    cases fn with
    | slot j' idx' =>
        obtain ⟨rfl, rfl⟩ : j' = j ∧ idx' = idx := by simpa [isSlot] using hslot
        rfl
    | _ => cases hslot
  obtain ⟨v, hcalled⟩ := called_of_listens h hstack hthrown hstate hfn
  rw [(hok.calls.values pm _ _ v hcalled).2]
  exact (hjoin.filled idx pm v hidx).mpr hcalled

/-- Unless the user's code settles it, the promise that `all` returned is fulfilled with the values
of its promises once they are all fulfilled, and rejected as one of them is; it is pending as long
as they are not all settled and none is rejected. -/
theorem all_settles (h : Reachable (heap A φ) s) (hj : s.joins[j]? = some joined)
    (hown : .settled joined.npm ∉ s.log) :
    ((s.promises joined.npm).state = some .fulfilled →
      (∀ pm ∈ joined.pms, (s.promises pm).state = some .fulfilled) ∧
      (s.promises joined.npm).value .fulfilled =
        A.values (joined.pms.map (fun pm => some ((s.promises pm).value .fulfilled)))) ∧
    ((s.promises joined.npm).state = some .rejected →
      ∃ pm ∈ joined.pms, (s.promises pm).state = some .rejected ∧
        (s.promises joined.npm).value .rejected = (s.promises pm).value .rejected) ∧
    (s.stack = [] → s.thrown = false → (s.promises joined.npm).state = none →
      (∃ pm ∈ joined.pms, (s.promises pm).state = none) ∧
      ∀ pm ∈ joined.pms, (s.promises pm).state ≠ some .rejected) := by
  have hok := heapOk_of_reachable h
  have hjoin := hok.joins.joins j joined hj
  refine ⟨fun hstate => ?_, fun hstate => ?_, fun hstack hthrown hpending => ?_⟩
  · obtain hsettled | ⟨-, hfull, hvalue⟩ | ⟨hside, -⟩ := hjoin.cause .fulfilled hstate
    · exact absurd hsettled hown
    · obtain ⟨hall, hresults⟩ := results_of_full hok hj hfull
      rw [hvalue, hresults]
      exact ⟨hall, rfl⟩
    · cases hside
  · obtain hsettled | ⟨hside, -⟩ | ⟨-, pm, hpm, hrejected, hvalue⟩ := hjoin.cause .rejected hstate
    · exact absurd hsettled hown
    · cases hside
    · exact ⟨pm, hpm, hrejected, hvalue.symm⟩
  · have hnone : ∀ pm ∈ joined.pms, (s.promises pm).state ≠ some .rejected := by
      intro pm hpm hrejected
      obtain ⟨v, hcalled⟩ :=
        called_of_listens h hstack hthrown hrejected (hjoin.hears hthrown pm hpm)
      exact (hok.joins.heard pm .rejected _ _ v hcalled).elim id (absurd hpending)
    refine ⟨?_, hnone⟩
    by_contra hall
    have hfulfilled : ∀ pm ∈ joined.pms, (s.promises pm).state = some .fulfilled := by
      intro pm hpm
      cases hstate : (s.promises pm).state with
      | none => exact absurd ⟨pm, hpm, hstate⟩ hall
      | some side =>
          cases side with
          | fulfilled => rfl
          | rejected => exact absurd hstate (hnone pm hpm)
    have hfull : (s.slots j).size = 0 := by
      rw [hjoin.slots.count, List.countP_eq_zero]
      intro slot hmem
      obtain ⟨idx, hidx⟩ := List.mem_iff_getElem?.mp hmem
      have hlt : idx < joined.pms.length := by
        rw [← hjoin.length]
        exact (List.getElem?_eq_some_iff.mp hidx).1
      have hvalue := filled_of_fulfilled h hstack hthrown hj (List.getElem?_eq_getElem hlt)
        (hfulfilled _ (List.getElem_mem hlt))
      obtain rfl : slot = some _ := Option.some.inj (hidx.symm.trans hvalue)
      exact Bool.false_ne_true
    exact (hjoin.full hfull).elim id (absurd hpending)

/-- Two promises are gathered, and then fulfilled in the other order. -/
def gathering : List (Input Nat Nat) :=
  [.act .make, .act .make, .act (.all [0, 1]), .run, .run,
    .act (.settle 1 .fulfilled (some 6)), .run, .run,
    .act (.settle 0 .fulfilled (some 5)), .run, .run]

def gathered : Heap Nat Nat :=
  (execute (Heap.step decimal) gathering (.start decimal)).get (by decide)

theorem gathered_reachable : Reachable (heap decimal Nat) gathered :=
  Reachable.trans (.init rfl) (steps_of_execute (fun _ _ _ => id) (Option.some_get _).symm)

theorem all_settles_gathered : (gathered.promises 2).value .fulfilled = 56 :=
  ((all_settles gathered_reachable (show gathered.joins[0]? = some ⟨[0, 1], 2⟩ from rfl)
    (by decide)).1 rfl).2

/-- Once everything has returned, the slots are those of the plain join of the values that there
are, whatever the callbacks did and in which order. -/
theorem slots_eq_settle (h : Reachable (heap A φ) s) (hstack : s.stack = [])
    (hthrown : s.thrown = false) (hj : s.joins[j]? = some joined) :
    s.slots j = (All.pending joined.pms.length).settle 0 (joined.pms.map (fun pm =>
      if (s.promises pm).state = some .fulfilled then some ((s.promises pm).value .fulfilled)
      else none)) := by
  have hok := heapOk_of_reachable h
  have hjoin := hok.joins.joins j joined hj
  refine hjoin.slots.ext (All.ok_pending (List.length_pos_iff.mpr hjoin.nonempty)).settle ?_
  generalize hvs : joined.pms.map (fun pm =>
    if (s.promises pm).state = some .fulfilled then some ((s.promises pm).value .fulfilled)
    else none) = vs
  have hlen : joined.pms.length = vs.length := by
    rw [← hvs, List.length_map]
  rw [hlen, All.results_settle_pending, ← hvs]
  refine List.ext_getElem? (fun idx => ?_)
  rw [List.getElem?_map]
  cases hidx : joined.pms[idx]? with
  | none =>
      rw [List.getElem?_eq_none_iff, ← hjoin.length] at hidx
      exact List.getElem?_eq_none hidx
  | some pm =>
      rw [Option.map_some]
      split
      · rename_i hstate
        exact filled_of_fulfilled h hstack hthrown hj hidx hstate
      · rename_i hstate
        have hlt : idx < (s.slots j).results.length := by
          rw [hjoin.length]
          exact (List.getElem?_eq_some_iff.mp hidx).1
        rw [List.getElem?_eq_getElem hlt]
        cases hget : (s.slots j).results[idx] with
        | none => rfl
        | some v =>
            have hsome : (s.slots j).results[idx]? = some (some v) := by
              rw [List.getElem?_eq_getElem hlt, hget]
            have hcalled := (hjoin.filled idx pm v hidx).mp hsome
            exact absurd (hok.calls.values pm _ _ v hcalled).1 hstate

theorem slots_eq_settle_gathered :
    (gathered.slots 0).results = ((All.pending 2).settle 0 [some 5, some 6]).results :=
  congrArg All.results
    (slots_eq_settle gathered_reachable rfl rfl
      (show gathered.joins[0]? = some ⟨[0, 1], 2⟩ from rfl))

end

end ArchipelagoHotStuff.Async.Joins
