/- Module: ArchipelagoHotStuff/Consensus/Stages
   source: consensus.cpp (update_hqc, update)
   digest: `update` in two stages, raising and committing, for both builds: what each reads, and
     that neither has anything left to do when it runs again. -/

import ArchipelagoHotStuff.Consensus.CommitLog

set_option autoImplicit false
set_option relaxedAutoImplicit false

namespace ArchipelagoHotStuff.Consensus.Stages

open Crypto.Wire Crypto.Certificates State Handlers Effects Consensus.Tree Trails CommitLog
open General.ParentTree

variable {K : Secp256k1} {env : Env K} {c c' c₁ : HotStuffCore K} {b h n p t x : Uint256}

/-- The block whose certificate `n` carries, while it is not decided. -/
def certified (c : HotStuffCore K) (n : Uint256) : Option Uint256 :=
  (c.blk n).qcRef.filter (fun t => !(c.blk t).decision)

/-- As `certified`, for the first parent only. -/
def direct (c : HotStuffCore K) (n : Uint256) : Option Uint256 :=
  (certified c n).filter (fun t => (c.blk n).parents.head? == some t)

/-- The block that `update` on `n` considers to lock. -/
def lockable (env : Env K) (c : HotStuffCore K) (n : Uint256) : Option Uint256 :=
  if env.twoStep then certified c n else (certified c n).bind (certified c)

/-- The block that `update` on `n` commits. -/
def target (env : Env K) (c : HotStuffCore K) (n : Uint256) : Option Uint256 :=
  if env.twoStep then (certified c n).bind (direct c)
  else ((certified c n).bind (direct c)).bind (direct c)

/-- The core once `update` on `n` has raised the certificate and the lock. -/
def raised (env : Env K) (c : HotStuffCore K) (n : Uint256) : HotStuffCore K :=
  let c' := (certified c n).elim c (fun t => c.updateHqc t (c.blk n).data.qc)
  (lockable env c n).elim c' c'.raiseLock

theorem certified_eq_some : certified c n = some t ↔
    (c.blk n).qcRef = some t ∧ (c.blk t).decision = false := by
  simp [certified, Option.filter_eq_some_iff]

theorem direct_eq_some : direct c n = some t ↔
    (c.blk n).qcRef = some t ∧ (c.blk t).decision = false ∧
      (c.blk n).parents.head? = some t := by
  simp [direct, Option.filter_eq_some_iff, certified_eq_some, and_assoc]

theorem certified_none (hq : (c.blk n).qcRef = none) : certified c n = none := by
  simp [certified, hq]

theorem certified_some (hq : (c.blk n).qcRef = some t) :
    certified c n = if (c.blk t).decision then none else some t := by
  cases hdec : (c.blk t).decision <;> simp [certified, hq, Option.filter_some, hdec]

theorem direct_none (hc : certified c n = none) : direct c n = none := by
  simp [direct, hc]

theorem direct_some (hc : certified c n = some t) :
    direct c n = if (c.blk n).parents.head? = some t then some t else none := by
  by_cases hp : (c.blk n).parents.head? = some t <;>
    simp [direct, hc, Option.filter_some, hp]

/-! The two builds. -/

theorem updateTwoStep_eq (henv : env.twoStep = true) (c : HotStuffCore K) (n : Uint256) :
    c.updateTwoStep n = match target env c n with
      | none => .ok (raised env c n)
      | some b => (raised env c n).commit b := by
  unfold HotStuffCore.updateTwoStep raised target lockable
  simp only [henv, if_true]
  cases hq : (c.blk n).qcRef with
  | none => simp [certified_none hq]
  | some blk1 =>
  rw [certified_some hq]
  cases hdec : (c.blk blk1).decision with
  | true => simp [hdec]
  | false =>
  simp only [Bool.false_eq_true, if_false, Option.elim_some, Option.bind_some, hdec,
    blk_raiseLock, blk_updateHqc]
  cases hq1 : (c.blk blk1).qcRef with
  | none => simp [direct_none (certified_none hq1)]
  | some blk =>
  have hcert := certified_some hq1
  cases hdec1 : (c.blk blk).decision with
  | true =>
      rw [hdec1, if_pos rfl] at hcert
      simp [direct_none hcert, hdec1]
  | false =>
      rw [hdec1, if_neg Bool.false_ne_true] at hcert
      rw [direct_some hcert]
      by_cases hp : (c.blk blk1).parents.head? = some blk <;> simp [hp, hdec1]

theorem updateThreeStep_eq (henv : env.twoStep = false) (c : HotStuffCore K) (n : Uint256) :
    c.updateThreeStep n = match target env c n with
      | none => .ok (raised env c n)
      | some b => (raised env c n).commit b := by
  unfold HotStuffCore.updateThreeStep raised target lockable
  simp only [henv, Bool.false_eq_true, if_false]
  cases hq : (c.blk n).qcRef with
  | none => simp [certified_none hq]
  | some blk2 =>
  rw [certified_some hq]
  cases hdec : (c.blk blk2).decision with
  | true => simp [hdec]
  | false =>
  simp only [Bool.false_eq_true, if_false, Option.elim_some, Option.bind_some, hdec,
    blk_raiseLock, blk_updateHqc]
  cases hq2 : (c.blk blk2).qcRef with
  | none => simp [certified_none hq2, direct_none (certified_none hq2)]
  | some blk1 =>
  have hcert2 := certified_some hq2
  cases hdec2 : (c.blk blk1).decision with
  | true =>
      rw [hdec2, if_pos rfl] at hcert2
      simp [hcert2, direct_none hcert2, hdec2]
  | false =>
  rw [hdec2, if_neg Bool.false_ne_true] at hcert2
  rw [hcert2, direct_some hcert2]
  simp only [Bool.false_eq_true, if_false, Option.elim_some, hdec2]
  cases hq1 : (c.blk blk1).qcRef with
  | none =>
      have hnone := direct_none (certified_none hq1)
      by_cases hp2 : (c.blk blk2).parents.head? = some blk1 <;> simp [hp2, hnone]
  | some blk =>
  have hcert1 := certified_some hq1
  cases hdec1 : (c.blk blk).decision with
  | true =>
      rw [hdec1, if_pos rfl] at hcert1
      have hnone := direct_none hcert1
      by_cases hp2 : (c.blk blk2).parents.head? = some blk1 <;> simp [hp2, hnone, hdec1]
  | false =>
      rw [hdec1, if_neg Bool.false_ne_true] at hcert1
      have hdir := direct_some hcert1
      by_cases hp2 : (c.blk blk2).parents.head? = some blk1 <;>
        by_cases hp1 : (c.blk blk1).parents.head? = some blk <;>
          simp [hp2, hp1, hdir, hdec1]

/-- `update` raises the certificate and the lock, and commits if a chain ends at a block to
commit. -/
theorem update_eq (env : Env K) (c : HotStuffCore K) (n : Uint256) :
    c.update env n = match target env c n with
      | none => .ok (raised env c n)
      | some b => (raised env c n).commit b := by
  unfold HotStuffCore.update
  cases henv : env.twoStep with
  | true => exact updateTwoStep_eq henv c n
  | false => exact updateThreeStep_eq henv c n

/-! What the stages read. -/

section reads

theorem certified_congr (hsame : ∀ x, c'.blk x = c.blk x) : certified c' n = certified c n := by
  simp only [certified, hsame]

theorem direct_congr (hsame : ∀ x, c'.blk x = c.blk x) : direct c' n = direct c n := by
  simp only [direct, certified_congr hsame, hsame]

theorem lockable_congr (env : Env K) (hsame : ∀ x, c'.blk x = c.blk x) :
    lockable env c' n = lockable env c n := by
  have hcert : certified c' = certified c := funext (fun _ => certified_congr hsame)
  simp only [lockable, hcert]

theorem target_congr (env : Env K) (hsame : ∀ x, c'.blk x = c.blk x) :
    target env c' n = target env c n := by
  have hcert : certified c' = certified c := funext (fun _ => certified_congr hsame)
  have hdir : direct c' = direct c := funext (fun _ => direct_congr hsame)
  simp only [target, hcert, hdir]

/-- The blocks are where they were, and more of them may be decided. -/
structure Decides (c c' : HotStuffCore K) : Prop where
  node_eq : ∀ x, node (c'.blk x) = node (c.blk x)
  decision : ∀ x, (c.blk x).decision = true → (c'.blk x).decision = true

theorem Decides.qcRef (h : Decides c c') (x : Uint256) : (c'.blk x).qcRef = (c.blk x).qcRef :=
  congrArg Node.qcRef (h.node_eq x)

theorem Decides.parents (h : Decides c c') (x : Uint256) :
    (c'.blk x).parents = (c.blk x).parents :=
  congrArg Node.parents (h.node_eq x)

theorem Decides.height (h : Decides c c') (x : Uint256) :
    (c'.blk x).height = (c.blk x).height :=
  congrArg Node.height (h.node_eq x)

theorem Decides.checkAncestry (h : Decides c c') (x y : Uint256) :
    c'.checkAncestry x y = c.checkAncestry x y := by
  have hwalk : ∀ floor fuel z, c'.walk floor fuel z = c.walk floor fuel z :=
    HotStuffCore.walk_congr h.height (fun z => by rw [h.parents z])
  unfold HotStuffCore.checkAncestry HotStuffCore.descend
  rw [h.height x, h.height y, hwalk]

theorem Decides.undecided (h : Decides c c') (hx : (c'.blk x).decision = false) :
    (c.blk x).decision = false := by
  cases hdec : (c.blk x).decision with
  | false => rfl
  | true =>
      rw [h.decision x hdec] at hx
      cases hx

theorem Decides.certified (h : Decides c c') (hc : certified c' n = some t) :
    certified c n = some t := by
  rw [certified_eq_some, h.qcRef] at hc
  exact certified_eq_some.mpr ⟨hc.1, h.undecided hc.2⟩

theorem Decides.direct (h : Decides c c') (hc : direct c' n = some t) : direct c n = some t := by
  rw [direct_eq_some, h.qcRef, h.parents] at hc
  exact direct_eq_some.mpr ⟨hc.1, h.undecided hc.2.1, hc.2.2⟩

theorem Decides.lockable (h : Decides c c') (hp : lockable env c' n = some p) :
    lockable env c n = some p := by
  unfold Stages.lockable at hp ⊢
  split at hp
  · rename_i henv
    rw [if_pos henv]
    exact h.certified hp
  · rename_i henv
    rw [if_neg henv]
    obtain ⟨t, ht, hp⟩ := Option.bind_eq_some_iff.mp hp
    exact Option.bind_eq_some_iff.mpr ⟨t, h.certified ht, h.certified hp⟩

theorem Decides.target (h : Decides c c') (hb : target env c' n = some b) :
    target env c n = some b := by
  unfold Stages.target at hb ⊢
  split at hb
  · rename_i henv
    rw [if_pos henv]
    obtain ⟨t, ht, hb⟩ := Option.bind_eq_some_iff.mp hb
    exact Option.bind_eq_some_iff.mpr ⟨t, h.certified ht, h.direct hb⟩
  · rename_i henv
    rw [if_neg henv]
    obtain ⟨p, hp, hb⟩ := Option.bind_eq_some_iff.mp hb
    obtain ⟨t, ht, hp⟩ := Option.bind_eq_some_iff.mp hp
    exact Option.bind_eq_some_iff.mpr ⟨p, Option.bind_eq_some_iff.mpr
      ⟨t, h.certified ht, h.direct hp⟩, h.direct hb⟩

theorem undecided_of_target (hb : target env c n = some b) : (c.blk b).decision = false := by
  unfold target at hb
  split at hb
  · obtain ⟨t, _, hb⟩ := Option.bind_eq_some_iff.mp hb
    exact (direct_eq_some.mp hb).2.1
  · obtain ⟨t, _, hb⟩ := Option.bind_eq_some_iff.mp hb
    exact (direct_eq_some.mp hb).2.1

theorem delivered_of_target (htree : TreeOk env c) (hb : target env c n = some b) :
    (c.blk b).delivered = true := by
  have hdir : ∀ {x y}, direct c x = some y → (c.blk y).delivered = true := by
    intro x y hxy
    obtain ⟨hq, _, hp⟩ := direct_eq_some.mp hxy
    rw [← firstParent_eq (htree.delivered_of_qcRef hq)] at hp
    exact (htree.delivered_firstParent hp).1
  unfold target at hb
  split at hb
  · obtain ⟨t, _, hb⟩ := Option.bind_eq_some_iff.mp hb
    exact hdir hb
  · obtain ⟨t, _, hb⟩ := Option.bind_eq_some_iff.mp hb
    exact hdir hb

end reads

/-! Raising. -/

section raising

variable (env) (c) (n)

theorem raised_spec : (raised env c n).storage = c.storage ∧ (raised env c n).bExec = c.bExec ∧
    (raised env c n).vheight = c.vheight ∧ (raised env c n).tails = c.tails ∧
    (raised env c n).config = c.config ∧ (raised env c n).qcWaiting = c.qcWaiting := by
  have hqc : ∀ t qc, (c.updateHqc t qc).storage = c.storage ∧
      (c.updateHqc t qc).bExec = c.bExec ∧ (c.updateHqc t qc).vheight = c.vheight ∧
      (c.updateHqc t qc).tails = c.tails ∧ (c.updateHqc t qc).config = c.config ∧
      (c.updateHqc t qc).qcWaiting = c.qcWaiting := by
    intro t qc
    unfold HotStuffCore.updateHqc
    split <;> exact ⟨rfl, rfl, rfl, rfl, rfl, rfl⟩
  have hlock : ∀ (d : HotStuffCore K) p, (d.raiseLock p).storage = d.storage ∧
      (d.raiseLock p).bExec = d.bExec ∧ (d.raiseLock p).vheight = d.vheight ∧
      (d.raiseLock p).tails = d.tails ∧ (d.raiseLock p).config = d.config ∧
      (d.raiseLock p).qcWaiting = d.qcWaiting := by
    intro d p
    unfold HotStuffCore.raiseLock
    split <;> exact ⟨rfl, rfl, rfl, rfl, rfl, rfl⟩
  unfold raised
  cases certified c n with
  | none =>
      cases lockable env c n with
      | none => exact ⟨rfl, rfl, rfl, rfl, rfl, rfl⟩
      | some p => exact hlock c p
  | some t =>
      cases lockable env c n with
      | none => exact hqc t _
      | some p =>
          simpa only [Option.elim_some, hqc t] using
            hlock (c.updateHqc t (c.blk n).data.qc) p

theorem blk_raised : (raised env c n).blk x = c.blk x := by
  unfold HotStuffCore.blk
  rw [(raised_spec env c n).1]

end raising

/-- Nothing is left to raise for a block. -/
structure Settled (env : Env K) (c : HotStuffCore K) (n : Uint256) : Prop where
  cert : ∀ t, certified c n = some t → (c.blk t).height ≤ (c.blk c.hqc.1).height
  lock : ∀ p, lockable env c n = some p → (c.blk p).height ≤ (c.blk c.bLock).height

theorem Settled.raised (h : Settled env c n) : raised env c n = c := by
  unfold Stages.raised
  have hcert : (certified c n).elim c (fun t => c.updateHqc t (c.blk n).data.qc) = c := by
    cases hc : certified c n with
    | none => rfl
    | some t =>
        have hle := h.cert t hc
        unfold Option.elim HotStuffCore.updateHqc
        simp [Nat.not_lt.mpr hle]
  rw [hcert]
  cases hp : lockable env c n with
  | none => rfl
  | some p =>
      have hle := h.lock p hp
      unfold Option.elim HotStuffCore.raiseLock
      simp [Nat.not_lt.mpr hle]

theorem settled_raised (env : Env K) (c : HotStuffCore K) (n : Uint256) :
    Settled env (raised env c n) n := by
  have hblk : ∀ x, (Stages.raised env c n).blk x = c.blk x := fun x => blk_raised env c n
  have hhqc : (Stages.raised env c n).hqc =
      ((certified c n).elim c (fun t => c.updateHqc t (c.blk n).data.qc)).hqc := by
    unfold Stages.raised
    cases lockable env c n with
    | none => rfl
    | some p => exact hqc_raiseLock _ p
  constructor
  · intro t ht
    rw [certified_congr hblk] at ht
    rw [hblk, hblk, hhqc, ht]
    exact height_le_updateHqc c t _
  · intro p hp
    rw [lockable_congr env hblk] at hp
    rw [hblk, hblk]
    unfold Stages.raised
    rw [hp]
    simp only [Option.elim_some]
    generalize hd : (certified c n).elim c (fun t => c.updateHqc t (c.blk n).data.qc) = d
    have hsame : ∀ x, d.blk x = c.blk x := by
      intro x
      rw [← hd]
      cases certified c n with
      | none => rfl
      | some t => exact blk_updateHqc c t x _
    have hle := height_le_raiseLock d p
    rw [hsame, hsame] at hle
    exact hle

/-- Whether anything is left to raise is read off the blocks, the certificate and the lock. -/
theorem Settled.congr (h : Settled env c n) (hdec : Decides c c') (hhqc : c'.hqc.1 = c.hqc.1)
    (hlock : c'.bLock = c.bLock) : Settled env c' n := by
  constructor
  · intro t ht
    rw [hhqc, hdec.height, hdec.height]
    exact h.cert t (hdec.certified ht)
  · intro p hp
    rw [hlock, hdec.height, hdec.height]
    exact h.lock p (hdec.lockable hp)

/-! Committing. -/

theorem decides_commitAll (queue : List Uint256) (c : HotStuffCore K) :
    Decides c (queue.foldl HotStuffCore.commitBlk c) :=
  ⟨fun x => node_blk_eq (map_node_commitAll queue x),
    fun _ hx => (decision_commitAll queue).mpr (.inl hx)⟩

theorem commit_ok (hres : c.commit b = .ok c') :
    ∃ queue, c.descend (c.blk c.bExec).height b = some (queue, c.bExec) ∧
      c' = { queue.reverse.foldl HotStuffCore.commitBlk c with bExec := b } := by
  unfold HotStuffCore.commit at hres
  split at hres
  · cases hres
  · rename_i queue x hdesc
    split at hres
    · rename_i hx
      subst hx
      exact ⟨queue, hdesc, (Except.ok.inj hres).symm⟩
    · cases hres

theorem update_raised (hup : c.update env n = .ok c') :
    (∀ x, (c'.blk x).height = (c.blk x).height) ∧ Decides (raised env c n) c' ∧
      ∃ x, registers c' = { registers (raised env c n) with bExec := x } := by
  rw [update_eq] at hup
  have hblk : ∀ x, (raised env c n).blk x = c.blk x := fun x => blk_raised env c n
  cases htarget : target env c n with
  | none =>
      rw [htarget] at hup
      cases hup
      exact ⟨fun x => by rw [hblk], ⟨fun _ => rfl, fun _ => id⟩, _, rfl⟩
  | some t =>
      rw [htarget] at hup
      obtain ⟨queue, _, rfl⟩ := commit_ok hup
      have hdec := decides_commitAll queue.reverse (raised env c n)
      refine ⟨fun x => ?_, ⟨hdec.node_eq, hdec.decision⟩, t, ?_⟩
      · exact (hdec.height x).trans (congrArg Block.height (hblk x))
      · have hregs := registers_commitAll (raised env c n) queue.reverse
        exact congrArg (fun r : Registers K => { r with bExec := t }) hregs

theorem commit_error {e : Exn} (hres : c.commit b = .error (e, c')) :
    c' = c ∧ (c.descend (c.blk c.bExec).height b = none ∧ e = .undefinedBehaviour ∨
      ∃ queue x, c.descend (c.blk c.bExec).height b = some (queue, x) ∧ x ≠ c.bExec ∧
        e = .safetyBreached) := by
  unfold HotStuffCore.commit at hres
  split at hres
  · rename_i hnone
    cases hres
    exact ⟨rfl, .inl ⟨hnone, rfl⟩⟩
  · rename_i queue x hdesc
    split at hres
    · cases hres
    · rename_i hx
      cases hres
      exact ⟨rfl, .inr ⟨queue, x, hdesc, hx, rfl⟩⟩

theorem mem_of_walk {floor fuel : Nat} {queue : List Uint256}
    (h : c.walk floor fuel b = some (queue, x)) : b = x ∨ b ∈ queue := by
  cases fuel with
  | zero =>
      rw [HotStuffCore.walk_zero] at h
      split at h
      · exact .inl (Prod.mk.inj (Option.some.inj h)).2
      · cases h
  | succ fuel =>
      rw [HotStuffCore.walk_succ] at h
      split at h
      · exact .inl (Prod.mk.inj (Option.some.inj h)).2
      · split at h
        · cases h
        · obtain ⟨r, _, hr⟩ := Option.map_eq_some_iff.mp h
          rw [← (Prod.mk.inj hr).1]
          exact .inr List.mem_cons_self

theorem decided_of_commit (hexec : (c.blk c.bExec).decision = true)
    (hs : (c.storage b).isSome) (hres : c.commit b = .ok c') :
    Decides c c' ∧ (c'.blk b).decision = true := by
  obtain ⟨queue, hdesc, rfl⟩ := commit_ok hres
  have hdec := decides_commitAll queue.reverse c
  refine ⟨⟨hdec.node_eq, hdec.decision⟩, ?_⟩
  show ((queue.reverse.foldl HotStuffCore.commitBlk c).blk b).decision = true
  rw [decision_commitAll]
  rcases mem_of_walk hdesc with rfl | hmem
  · exact .inl hexec
  · exact .inr ⟨List.mem_reverse.mpr hmem, hs⟩

theorem settled_of_update (htree : TreeOk env c) (hok : CommitOk env c)
    (hup : c.update env n = .ok c') : Settled env c' n ∧ target env c' n = none := by
  rw [update_eq] at hup
  have hblk : ∀ x, (raised env c n).blk x = c.blk x := fun x => blk_raised env c n
  have hsettled := settled_raised env c n
  cases hb : target env c n with
  | none =>
      rw [hb] at hup
      cases hup
      exact ⟨hsettled, (target_congr env hblk).trans hb⟩
  | some b =>
      rw [hb] at hup
      obtain ⟨hstorage, hexec, _⟩ := raised_spec env c n
      obtain ⟨hdec, hb'⟩ := decided_of_commit (c := raised env c n)
        (by rw [hblk, hexec]; exact hok.bExec_decided)
        (by rw [hstorage]; exact isSome_of_delivered (delivered_of_target htree hb)) hup
      have hregs : c'.hqc = (raised env c n).hqc ∧ c'.bLock = (raised env c n).bLock := by
        obtain ⟨queue, _, rfl⟩ := commit_ok hup
        have hregs := registers_commitAll (raised env c n) queue.reverse
        exact ⟨congrArg Registers.hqc hregs, congrArg Registers.bLock hregs⟩
      refine ⟨hsettled.congr hdec (congrArg Prod.fst hregs.1) hregs.2, ?_⟩
      -- The one block there was to commit is decided.
      cases hb'' : target env c' n with
      | none => rfl
      | some b'' =>
          have hsame := (target_congr env hblk).symm.trans (hdec.target hb'')
          rw [hb] at hsame
          cases hsame
          rw [undecided_of_target hb''] at hb'
          cases hb'

theorem update_of_settled (h : Settled env c n) (htarget : target env c n = none) :
    c.update env n = .ok c := by
  rw [update_eq, htarget, h.raised]

/-- An `update` that throws has raised what there is to raise, and throws again. -/
theorem update_error_again {e : Exn} (hup : c.update env n = .error (e, c')) :
    Settled env c' n ∧ ∃ b, target env c' n = some b ∧ c'.commit b = .error (e, c') := by
  rw [update_eq] at hup
  cases hb : target env c n with
  | none =>
      rw [hb] at hup
      cases hup
  | some b =>
      rw [hb] at hup
      obtain ⟨rfl, _⟩ := commit_error hup
      exact ⟨settled_raised env c n, b,
        (target_congr env (fun x => blk_raised env c n)).trans hb, hup⟩

end ArchipelagoHotStuff.Consensus.Stages
