/- Module: ArchipelagoHotStuff/Consensus/AnyOrder
   source: consensus.cpp (update_hqc, update, on_receive_proposal)
   digest: A family of proposals ends alike in whatever order they are processed: what `update`
     skips because of an earlier decision would have changed nothing. -/

import ArchipelagoHotStuff.Consensus.CommitLog

set_option autoImplicit false
set_option relaxedAutoImplicit false

namespace ArchipelagoHotStuff.Consensus.AnyOrder

open Crypto.Wire Crypto.Certificates State Handlers Effects Consensus.Tree Trails Machine CommitLog
open General.Transition General.ParentTree

variable {K : Secp256k1} {env : Env K} {c c' c₀ c₁ : HotStuffCore K} {e : Effect K}
  {b h n p q t : Uint256} {k : Nat}

/-! What `update` does to one block. -/

/-- `b` is the block at the end of the chain that starts with the certificate in `n`. -/
def Heads (env : Env K) (c : HotStuffCore K) (n b : Uint256) : Prop :=
  ∃ t, (c.blk n).qcRef = some t ∧ Linked c (chainLength env) t b

/-- What `update` on `n` has raised before it comes to the commit. -/
structure Raised (env : Env K) (c : HotStuffCore K) (n : Uint256) (c₁ : HotStuffCore K) :
    Prop where
  storage : c₁.storage = c.storage
  bExec : c₁.bExec = c.bExec
  hqc : c₁.hqc.1 = c.hqc.1 ∨ (c.blk n).qcRef = some c₁.hqc.1
  hqcHeight : (c.blk c.hqc.1).height ≤ (c.blk c₁.hqc.1).height
  lock : c₁.bLock = c.bLock ∨ lockRef env c n = some c₁.bLock
  lockHeight : (c.blk c.bLock).height ≤ (c.blk c₁.bLock).height

theorem Raised.blk (hr : Raised env c n c₁) (x : Uint256) : c₁.blk x = c.blk x := by
  unfold HotStuffCore.blk
  rw [hr.storage]

theorem Raised.refl (env : Env K) (c : HotStuffCore K) (n : Uint256) : Raised env c n c :=
  ⟨rfl, rfl, .inl rfl, le_rfl, .inl rfl, le_rfl⟩

theorem Raised.updateHqc (env : Env K) (ht : (c.blk n).qcRef = some t) (qc : QuorumCert K) :
    Raised env c n (c.updateHqc t qc) := by
  rcases updateHqc_cases c t qc with ⟨heq, _⟩ | ⟨hlt, heq⟩
  · rw [heq]
    exact .refl env c n
  · rw [heq]
    exact ⟨rfl, rfl, .inr ht, hlt.le, .inl rfl, le_rfl⟩

theorem Raised.raiseLock (hr : Raised env c n c₁) (hp : lockRef env c n = some p) :
    Raised env c n (c₁.raiseLock p) := by
  unfold HotStuffCore.raiseLock
  split
  · rename_i hlt
    rw [hr.blk, hr.blk] at hlt
    exact ⟨hr.storage, hr.bExec, hr.hqc, hr.hqcHeight, .inr hp, hr.lockHeight.trans hlt.le⟩
  · exact hr

/-- `update` stops at a decided block, from which the rest of the chain hangs, or where there is
no chain; else it commits the block at its end. -/
def Concludes (env : Env K) (c : HotStuffCore K) (n : Uint256) (res : Result K) : Prop :=
  ∃ c₁, Raised env c n c₁ ∧
    ((res = .ok c₁ ∧ ∀ b, Heads env c n b → ∃ x k, (c.blk x).decision = true ∧ Linked c k x b) ∨
      ∃ b, res = c₁.commit b ∧ Heads env c n b ∧ (c.blk b).decision = false)

theorem Concludes.stop (hr : Raised env c n c₁)
    (hdec : ∀ b, Heads env c n b → ∃ x k, (c.blk x).decision = true ∧ Linked c k x b) :
    Concludes env c n (.ok c₁) :=
  ⟨c₁, hr, .inl ⟨rfl, hdec⟩⟩

theorem heads_threeStep (henv : env.twoStep = false) : Heads env c n b ↔
    ∃ t, (c.blk n).qcRef = some t ∧ ∃ p, (c.blk t).qcRef = some p ∧
      (c.blk t).parents.head? = some p ∧ (c.blk p).qcRef = some b ∧
      (c.blk p).parents.head? = some b := by
  have hlen : chainLength env = 2 := by simp [chainLength, henv]
  unfold Heads
  rw [hlen]
  constructor
  · rintro ⟨t, ht, p, hq, hp, _, hq', hp', rfl⟩
    exact ⟨t, ht, p, hq, hp, hq', hp'⟩
  · rintro ⟨t, ht, p, hq, hp, hq', hp'⟩
    exact ⟨t, ht, p, hq, hp, b, hq', hp', rfl⟩

theorem heads_twoStep (henv : env.twoStep = true) : Heads env c n b ↔
    ∃ t, (c.blk n).qcRef = some t ∧ (c.blk t).qcRef = some b ∧
      (c.blk t).parents.head? = some b := by
  have hlen : chainLength env = 1 := by simp [chainLength, henv]
  unfold Heads
  rw [hlen]
  constructor
  · rintro ⟨t, ht, _, hq, hp, rfl⟩
    exact ⟨t, ht, hq, hp⟩
  · rintro ⟨t, ht, hq, hp⟩
    exact ⟨t, ht, b, hq, hp, rfl⟩

theorem updateThreeStep_concludes (henv : env.twoStep = false) (c : HotStuffCore K)
    (n : Uint256) : Concludes env c n (c.updateThreeStep n) := by
  unfold HotStuffCore.updateThreeStep
  split
  · rename_i hnone
    refine .stop (.refl env c n) (fun b hb => ?_)
    obtain ⟨t, ht, _⟩ := hb
    rw [hnone] at ht
    cases ht
  rename_i blk2 hblk2
  split
  · rename_i hdec
    refine .stop (.refl env c n) (fun b hb => ?_)
    obtain ⟨t, ht, hlink⟩ := hb
    rw [hblk2] at ht
    cases ht
    exact ⟨blk2, _, hdec, hlink⟩
  have hr₁ := Raised.updateHqc env hblk2 (c.blk n).data.qc
  have hblk₁ := hr₁.blk
  dsimp only
  generalize c.updateHqc blk2 (c.blk n).data.qc = c₁ at hr₁ hblk₁ ⊢
  simp only [hblk₁]
  -- The middle block of a chain is the one that the second block certifies.
  have hmid : ∀ b, Heads env c n b → ∃ p, (c.blk blk2).qcRef = some p ∧
      (c.blk blk2).parents.head? = some p ∧ (c.blk p).qcRef = some b ∧
      (c.blk p).parents.head? = some b := by
    intro b hb
    obtain ⟨t, ht, hrest⟩ := (heads_threeStep henv).mp hb
    rw [hblk2] at ht
    cases ht
    exact hrest
  split
  · rename_i hnone
    refine .stop hr₁ (fun b hb => ?_)
    obtain ⟨p, hq, _⟩ := hmid b hb
    rw [hnone] at hq
    cases hq
  rename_i blk1 hblk1
  split
  · rename_i hdec
    refine .stop hr₁ (fun b hb => ?_)
    obtain ⟨p, hq, _, hq', hp'⟩ := hmid b hb
    rw [hblk1] at hq
    cases hq
    exact ⟨blk1, 1, hdec, b, hq', hp', rfl⟩
  have hlock : lockRef env c n = some blk1 := by
    simp [lockRef, henv, hblk2, hblk1]
  have hr₂ := hr₁.raiseLock hlock
  have hblk₂ := hr₂.blk
  generalize c₁.raiseLock blk1 = c₂ at hr₂ hblk₂ ⊢
  simp only [hblk₂]
  split
  · rename_i hnone
    refine .stop hr₂ (fun b hb => ?_)
    obtain ⟨p, hq, _, hq', _⟩ := hmid b hb
    rw [hblk1] at hq
    cases hq
    rw [hnone] at hq'
    cases hq'
  rename_i blk hblk0
  split
  · rename_i hdec
    refine .stop hr₂ (fun b hb => ?_)
    obtain ⟨p, hq, _, hq', _⟩ := hmid b hb
    rw [hblk1] at hq
    cases hq
    rw [hblk0] at hq'
    cases hq'
    exact ⟨blk, 0, hdec, rfl⟩
  rename_i hdec
  split
  · rename_i hgap
    refine .stop hr₂ (fun b hb => ?_)
    obtain ⟨p, hq, hp, hq', hp'⟩ := hmid b hb
    rw [hblk1] at hq
    cases hq
    rw [hblk0] at hq'
    cases hq'
    rcases hgap with hgap | hgap
    · exact absurd hp hgap
    · exact absurd hp' hgap
  · rename_i hdirect
    obtain ⟨hp2, hp1⟩ := not_or.mp hdirect
    exact ⟨c₂, hr₂, .inr ⟨blk, rfl,
      (heads_threeStep henv).mpr ⟨blk2, hblk2, blk1, hblk1, not_not.mp hp2, hblk0, not_not.mp hp1⟩,
      by simpa using hdec⟩⟩

theorem updateTwoStep_concludes (henv : env.twoStep = true) (c : HotStuffCore K)
    (n : Uint256) : Concludes env c n (c.updateTwoStep n) := by
  unfold HotStuffCore.updateTwoStep
  split
  · rename_i hnone
    refine .stop (.refl env c n) (fun b hb => ?_)
    obtain ⟨t, ht, _⟩ := hb
    rw [hnone] at ht
    cases ht
  rename_i blk1 hblk1
  split
  · rename_i hdec
    refine .stop (.refl env c n) (fun b hb => ?_)
    obtain ⟨t, ht, hlink⟩ := hb
    rw [hblk1] at ht
    cases ht
    exact ⟨blk1, _, hdec, hlink⟩
  have hlock : lockRef env c n = some blk1 := by
    simp [lockRef, henv, hblk1]
  have hr := (Raised.updateHqc env hblk1 (c.blk n).data.qc).raiseLock hlock
  have hblk := hr.blk
  dsimp only
  generalize (c.updateHqc blk1 (c.blk n).data.qc).raiseLock blk1 = c₁ at hr hblk ⊢
  simp only [hblk]
  have hend : ∀ b, Heads env c n b → (c.blk blk1).qcRef = some b ∧
      (c.blk blk1).parents.head? = some b := by
    intro b hb
    obtain ⟨t, ht, hrest⟩ := (heads_twoStep henv).mp hb
    rw [hblk1] at ht
    cases ht
    exact hrest
  split
  · rename_i hnone
    refine .stop hr (fun b hb => ?_)
    rw [(hend b hb).1] at hnone
    cases hnone
  rename_i blk hblk0
  split
  · rename_i hdec
    refine .stop hr (fun b hb => ?_)
    have hq := (hend b hb).1
    rw [hblk0] at hq
    cases hq
    exact ⟨blk, 0, hdec, rfl⟩
  rename_i hdec
  split
  · rename_i hgap
    refine .stop hr (fun b hb => ?_)
    obtain ⟨hq, hp⟩ := hend b hb
    rw [hblk0] at hq
    cases hq
    exact absurd hp hgap
  · rename_i hdirect
    exact ⟨c₁, hr, .inr ⟨blk, rfl,
      (heads_twoStep henv).mpr ⟨blk1, hblk1, hblk0, not_not.mp hdirect⟩, by simpa using hdec⟩⟩

theorem update_concludes (env : Env K) (c : HotStuffCore K) (n : Uint256) :
    Concludes env c n (c.update env n) := by
  unfold HotStuffCore.update
  cases henv : env.twoStep with
  | true => exact updateTwoStep_concludes henv c n
  | false => exact updateThreeStep_concludes henv c n

/-! Two cores with the same tree. -/

/-- Every hash holds the same node in both. -/
def SameTree (c c' : HotStuffCore K) : Prop := ∀ x, node (c'.blk x) = node (c.blk x)

section sameTree

variable (hs : SameTree c c')

include hs

theorem SameTree.qcRef (x : Uint256) : (c'.blk x).qcRef = (c.blk x).qcRef :=
  congrArg Node.qcRef (hs x)

theorem SameTree.height (x : Uint256) : (c'.blk x).height = (c.blk x).height :=
  congrArg Node.height (hs x)

theorem SameTree.parents (x : Uint256) : (c'.blk x).parents = (c.blk x).parents :=
  congrArg Node.parents (hs x)

theorem SameTree.delivered (x : Uint256) : (c'.blk x).delivered = (c.blk x).delivered :=
  congrArg Node.delivered (hs x)

theorem SameTree.firstParent : firstParent c' = firstParent c := by
  funext x
  unfold Tree.firstParent
  rw [hs.delivered, hs.parents]

theorem SameTree.linked (k : Nat) (t b : Uint256) : Linked c' k t b ↔ Linked c k t b := by
  induction k generalizing t with
  | zero => exact Iff.rfl
  | succ k ih =>
      unfold Linked
      simp only [hs.qcRef, hs.parents, ih]

theorem SameTree.heads (n b : Uint256) : Heads env c' n b ↔ Heads env c n b := by
  unfold Heads
  simp only [hs.qcRef, hs.linked]

theorem SameTree.lockRef (n : Uint256) : lockRef env c' n = lockRef env c n := by
  unfold Effects.lockRef
  simp only [hs.qcRef]

end sameTree

/-! Families of proposals. -/

/-- A finite set of delivered blocks that together with the genesis block is closed under parents
and certified blocks, in which the certified block is a proper ancestor, no two blocks of one
height are certified, and all ends of chains lie on one branch. -/
structure Family (env : Env K) (c : HotStuffCore K) (S : Finset Uint256) : Prop where
  delivered : ∀ h ∈ S, (c.blk h).delivered = true
  proper : env.genesisHash ∉ S
  parents : ∀ h ∈ S, ∀ p ∈ (c.blk h).parents, p = env.genesisHash ∨ p ∈ S
  qcRef : ∀ h ∈ S, ∀ q, (c.blk h).qcRef = some q → q = env.genesisHash ∨ q ∈ S
  ancestor : ∀ h ∈ S, ∀ q, (c.blk h).qcRef = some q →
    ∃ p, (c.blk h).parents.head? = some p ∧ Extends (firstParent c) p q
  certified : ∀ h ∈ S, ∀ h' ∈ S, ∀ q q', (c.blk h).qcRef = some q → (c.blk h').qcRef = some q' →
    (c.blk q).height = (c.blk q').height → q = q'
  branch : ∀ h ∈ S, ∀ h' ∈ S, ∀ b b', Heads env c h b → Heads env c h' b' →
    Extends (firstParent c) b b' ∨ Extends (firstParent c) b' b

theorem linked_extends (htree : TreeOk env c) (ht : (c.blk t).delivered = true)
    (hlink : Linked c k t b) : Extends (firstParent c) t b := by
  induction k generalizing t with
  | zero =>
      cases hlink
      exact .refl _
  | succ k ih =>
      obtain ⟨p, _, hp, hrest⟩ := hlink
      rw [← firstParent_eq ht] at hp
      exact .step hp (ih (htree.delivered_firstParent hp).1 hrest)

theorem linked_height_lt (htree : TreeOk env c) (ht : (c.blk t).delivered = true)
    (hlink : Linked c (k + 1) t b) :
    (c.blk b).delivered = true ∧ (c.blk b).height < (c.blk t).height := by
  obtain ⟨p, _, hp, hrest⟩ := hlink
  rw [← firstParent_eq ht] at hp
  obtain ⟨hpd, hph⟩ := htree.delivered_firstParent hp
  obtain ⟨hbd, hbp⟩ := htree.height_le_of_extends hpd (linked_extends htree hpd hrest)
  exact ⟨hbd, by omega⟩

theorem linked_unique {b' : Uint256} (hb : Linked c k t b) (hb' : Linked c k t b') : b = b' := by
  induction k generalizing t with
  | zero => exact hb.symm.trans hb'
  | succ k ih =>
      obtain ⟨p, _, hp, hrest⟩ := hb
      obtain ⟨p', _, hp', hrest'⟩ := hb'
      rw [hp] at hp'
      cases hp'
      exact ih hrest hrest'

theorem heads_unique {b' : Uint256} (hb : Heads env c n b) (hb' : Heads env c n b') : b = b' := by
  obtain ⟨t, ht, hlink⟩ := hb
  obtain ⟨t', ht', hlink'⟩ := hb'
  rw [ht] at ht'
  cases ht'
  exact linked_unique hlink hlink'

/-- The end of a chain is lower than the block to lock and the one certified. -/
theorem heads_lt (htree : TreeOk env c)
    (hd : ∀ t, (c.blk n).qcRef = some t → (c.blk t).delivered = true) (hb : Heads env c n b) :
    ∃ t p, (c.blk n).qcRef = some t ∧ lockRef env c n = some p ∧
      (c.blk b).delivered = true ∧ (c.blk b).height < (c.blk p).height ∧
      (c.blk b).height < (c.blk t).height := by
  obtain ⟨t, ht, hlink⟩ := hb
  have htd := hd t ht
  cases henv : env.twoStep with
  | true =>
      have hlen : chainLength env = 0 + 1 := by simp [chainLength, henv]
      have hlock : lockRef env c n = some t := by simp [lockRef, henv, ht]
      rw [hlen] at hlink
      obtain ⟨hbd, hbt⟩ := linked_height_lt htree htd hlink
      exact ⟨t, t, ht, hlock, hbd, hbt, hbt⟩
  | false =>
      have hlen : chainLength env = 1 + 1 := by simp [chainLength, henv]
      rw [hlen] at hlink
      have hbt := (linked_height_lt htree htd hlink).2
      obtain ⟨p, hq, hp, hrest⟩ := hlink
      have hlock : lockRef env c n = some p := by simp [lockRef, henv, ht, hq]
      rw [← firstParent_eq htd] at hp
      obtain ⟨hbd, hbp⟩ := linked_height_lt htree (htree.delivered_firstParent hp).1 hrest
      exact ⟨t, p, ht, hlock, hbd, hbp, hbt⟩

section family

variable {S : Finset Uint256} (htree : TreeOk env c) (hfam : Family env c S)

include htree hfam

theorem Family.delivered_qcRef (hn : n ∈ S) (ht : (c.blk n).qcRef = some t) :
    (c.blk t).delivered = true := by
  rcases hfam.qcRef n hn t ht with rfl | hmem
  · exact htree.genesis.delivered
  · exact hfam.delivered t hmem

/-- The block that a member's certificate certifies refers to a block no higher than itself. -/
theorem Family.qcRef_le (hn : n ∈ S) (ht : (c.blk n).qcRef = some t)
    (hp : (c.blk t).qcRef = some p) :
    (p = env.genesisHash ∨ ∃ m ∈ S, (c.blk m).qcRef = some p) ∧
      (c.blk p).height ≤ (c.blk t).height := by
  rcases hfam.qcRef n hn t ht with rfl | hmem
  · rw [htree.genesis.qcRef] at hp
    cases hp
    exact ⟨.inl rfl, le_rfl⟩
  · have hd := hfam.delivered t hmem
    obtain ⟨x, hx, hext⟩ := hfam.ancestor t hmem p hp
    rw [← firstParent_eq hd] at hx
    exact ⟨.inr ⟨t, hmem, hp⟩, (htree.height_le_of_extends hd (.step hx hext)).2⟩

/-- The block to lock is certified too, and no higher than the one the member certifies. -/
theorem Family.lockRef_le (hn : n ∈ S) (ht : (c.blk n).qcRef = some t)
    (hp : lockRef env c n = some p) :
    (p = env.genesisHash ∨ ∃ m ∈ S, (c.blk m).qcRef = some p) ∧
      (c.blk p).height ≤ (c.blk t).height := by
  unfold lockRef at hp
  rw [ht] at hp
  split at hp
  · cases hp
    exact ⟨.inr ⟨n, hn, ht⟩, le_rfl⟩
  · exact hfam.qcRef_le htree hn ht hp

end family

/-! What the processed blocks add up to. -/

/-- `x` is the genesis block or one of the candidates, and no candidate is higher. -/
structure Best (env : Env K) (c : HotStuffCore K) (A : Uint256 → Prop) (x : Uint256) : Prop where
  chosen : x = env.genesisHash ∨ A x
  highest : ∀ y, A y → (c.blk y).height ≤ (c.blk x).height

section best

variable {A B : Uint256 → Prop} {x y : Uint256}

theorem Best.height_le (htree : TreeOk env c) (hx : Best env c A x) (hy : Best env c B y)
    (hAB : ∀ z, A z → B z) : (c.blk x).height ≤ (c.blk y).height := by
  rcases hx.chosen with rfl | hA
  · rw [htree.genesis.height]
    exact Nat.zero_le _
  · exact hy.highest x (hAB x hA)

/-- More candidates come in, one of which may take the place of the best so far. -/
theorem Best.extend (hx : Best env c A x) (hxy : (c.blk x).height ≤ (c.blk y).height)
    (hy : y = x ∨ B y) (hB : ∀ z, B z → (c.blk z).height ≤ (c.blk y).height) :
    Best env c (fun z => B z ∨ A z) y := by
  refine ⟨?_, fun z hz => ?_⟩
  · rcases hy with rfl | hnew
    · exact hx.chosen.imp_right .inr
    · exact .inr (.inl hnew)
  · rcases hz with hz | hz
    · exact hB z hz
    · exact (hx.highest z hz).trans hxy

theorem Best.congr (hx : Best env c A x) (hAB : ∀ z, A z ↔ B z) : Best env c B x :=
  ⟨hx.chosen.imp_right (hAB x).mp, fun y hy => hx.highest y ((hAB y).mpr hy)⟩

end best

/-- `hqc`, `b_lock` and `b_exec` are the highest blocks that the processed ones certify, lock and
commit. -/
structure Gathered (env : Env K) (c₀ : HotStuffCore K) (done : List Uint256)
    (c : HotStuffCore K) : Prop where
  hqc : Best env c₀ (fun t => ∃ n ∈ done, (c₀.blk n).qcRef = some t) c.hqc.1
  lock : Best env c₀ (fun p => ∃ n ∈ done, lockRef env c₀ n = some p) c.bLock
  exec : Best env c₀ (fun b => ∃ n ∈ done, Heads env c₀ n b) c.bExec

theorem Gathered.congr {done : List Uint256} (hg : Gathered env c₀ done c)
    (hhqc : c'.hqc = c.hqc) (hlock : c'.bLock = c.bLock) (hexec : c'.bExec = c.bExec) :
    Gathered env c₀ done c' := by
  refine ⟨?_, ?_, ?_⟩
  · rw [hhqc]
    exact hg.hqc
  · rw [hlock]
    exact hg.lock
  · rw [hexec]
    exact hg.exec

section gathered

variable {S : Finset Uint256} {done done' : List Uint256} (htree : TreeOk env c₀)
  (hfam : Family env c₀ S)

include htree hfam

theorem Gathered.bExec_delivered (hsub : ∀ n ∈ done, n ∈ S) (hg : Gathered env c₀ done c) :
    (c₀.blk c.bExec).delivered = true := by
  rcases hg.exec.chosen with heq | ⟨n, hn, hhead⟩
  · rw [heq]
    exact htree.genesis.delivered
  · obtain ⟨_, _, _, _, hd, _⟩ :=
      heads_lt htree (fun _ => hfam.delivered_qcRef htree (hsub n hn)) hhead
    exact hd

/-- The executed block is no higher than the locked one and the one certified. -/
theorem Gathered.bExec_le (hsub : ∀ n ∈ done, n ∈ S) (hg : Gathered env c₀ done c) :
    (c₀.blk c.bExec).height ≤ (c₀.blk c.hqc.1).height ∧
      (c₀.blk c.bExec).height ≤ (c₀.blk c.bLock).height := by
  rcases hg.exec.chosen with heq | ⟨n, hn, hhead⟩
  · rw [heq, htree.genesis.height]
    exact ⟨Nat.zero_le _, Nat.zero_le _⟩
  · obtain ⟨t, p, ht, hp, _, hbp, hbt⟩ :=
      heads_lt htree (fun _ => hfam.delivered_qcRef htree (hsub n hn)) hhead
    exact ⟨hbt.le.trans (hg.hqc.highest t ⟨n, hn, ht⟩),
      hbp.le.trans (hg.lock.highest p ⟨n, hn, hp⟩)⟩

omit hfam in
theorem genesis_of_height_zero (hd : (c₀.blk h).delivered = true)
    (hzero : (c₀.blk h).height = 0) : h = env.genesisHash := by
  by_contra hne
  have hpos := htree.height_pos hd hne
  omega

/-- Among the genesis block and the certified blocks, the height tells which block it is. -/
theorem Family.unique
    (hq : q = env.genesisHash ∨ ∃ m ∈ S, (c₀.blk m).qcRef = some q)
    (hp : p = env.genesisHash ∨ ∃ m ∈ S, (c₀.blk m).qcRef = some p)
    (heq : (c₀.blk q).height = (c₀.blk p).height) : q = p := by
  have hgenesis := htree.genesis.height
  rcases hq with rfl | ⟨m, hm, hmq⟩
  · rcases hp with rfl | ⟨m, hm, hmp⟩
    · rfl
    · have hd := hfam.delivered_qcRef htree hm hmp
      exact (genesis_of_height_zero htree hd (by omega)).symm
  · rcases hp with rfl | ⟨m', hm', hmp⟩
    · have hd := hfam.delivered_qcRef htree hm hmq
      exact genesis_of_height_zero htree hd (by omega)
    · exact hfam.certified m hm m' hm' q p hmq hmp heq

theorem Gathered.lock_certified (hsub : ∀ n ∈ done, n ∈ S) (hg : Gathered env c₀ done c) :
    c.bLock = env.genesisHash ∨ ∃ m ∈ S, (c₀.blk m).qcRef = some c.bLock := by
  rcases hg.lock.chosen with heq | ⟨n, hn, hp⟩
  · exact .inl heq
  · obtain ⟨t, ht⟩ : ∃ t, (c₀.blk n).qcRef = some t := by
      cases hq : (c₀.blk n).qcRef with
      | none => simp [lockRef, hq] at hp
      | some t => exact ⟨t, rfl⟩
    exact (hfam.lockRef_le htree (hsub n hn) ht hp).1

/-- Processing the same blocks leads to the same `hqc`, `b_lock` and `b_exec`. -/
theorem Gathered.unique (hdone : ∀ n, n ∈ done ↔ n ∈ S) (hdone' : ∀ n, n ∈ done' ↔ n ∈ S)
    (hg : Gathered env c₀ done c) (hg' : Gathered env c₀ done' c') :
    c.hqc.1 = c'.hqc.1 ∧ c.bLock = c'.bLock ∧ c.bExec = c'.bExec := by
  have hsub : ∀ n ∈ done, n ∈ S := fun n => (hdone n).mp
  have hsub' : ∀ n ∈ done', n ∈ S := fun n => (hdone' n).mp
  have hto : ∀ n, n ∈ done → n ∈ done' := fun n hn => (hdone' n).mpr (hsub n hn)
  have hfrom : ∀ n, n ∈ done' → n ∈ done := fun n hn => (hdone n).mpr (hsub' n hn)
  refine ⟨?_, ?_, ?_⟩
  · refine hfam.unique htree ?_ ?_ (le_antisymm
      (hg.hqc.height_le htree hg'.hqc (fun _ ⟨n, hn, hq⟩ => ⟨n, hto n hn, hq⟩))
      (hg'.hqc.height_le htree hg.hqc (fun _ ⟨n, hn, hq⟩ => ⟨n, hfrom n hn, hq⟩)))
    · exact hg.hqc.chosen.imp_right (fun ⟨n, hn, hq⟩ => ⟨n, hsub n hn, hq⟩)
    · exact hg'.hqc.chosen.imp_right (fun ⟨n, hn, hq⟩ => ⟨n, hsub' n hn, hq⟩)
  · exact hfam.unique htree (hg.lock_certified htree hfam hsub)
      (hg'.lock_certified htree hfam hsub') (le_antisymm
        (hg.lock.height_le htree hg'.lock (fun _ ⟨n, hn, hp⟩ => ⟨n, hto n hn, hp⟩))
        (hg'.lock.height_le htree hg.lock (fun _ ⟨n, hn, hp⟩ => ⟨n, hfrom n hn, hp⟩)))
  · have heq := le_antisymm
      (hg.exec.height_le htree hg'.exec (fun _ ⟨n, hn, hb⟩ => ⟨n, hto n hn, hb⟩))
      (hg'.exec.height_le htree hg.exec (fun _ ⟨n, hn, hb⟩ => ⟨n, hfrom n hn, hb⟩))
    have hd := hg.bExec_delivered htree hfam hsub
    have hd' := hg'.bExec_delivered htree hfam hsub'
    have hgenesis := htree.genesis.height
    rcases hg.exec.chosen with hgen | ⟨n, hn, hb⟩
    · rw [hgen, hgenesis] at heq
      rw [hgen]
      exact (genesis_of_height_zero htree hd' heq.symm).symm
    · rcases hg'.exec.chosen with hgen' | ⟨n', hn', hb'⟩
      · rw [hgen', hgenesis] at heq
        rw [hgen']
        exact genesis_of_height_zero htree hd heq
      · rcases hfam.branch n (hsub n hn) n' (hsub' n' hn') _ _ hb hb' with hext | hext
        · exact extends_eq htree hd hext heq.le
        · exact (extends_eq htree hd' hext heq.ge).symm

end gathered

/-! Processing one more block. -/

/-- What handling proposals keeps besides: the tree, the log, and that no exception is thrown. -/
structure Carried (env : Env K) (c₀ c : HotStuffCore K) : Prop where
  tree : TreeOk env c
  log : CommitOk env c
  same : SameTree c₀ c
  sameId : c.id = c₀.id
  waiting : c.qcWaiting = ∅
  threw : ∀ e, .threw e ∈ c.trace → .threw e ∈ c₀.trace

/-- The effects of handling a proposal without an exception. -/
def Handles : Effect K → Prop
  | .raiseHqc _ _ | .raiseLock _ | .commit _ _ | .accept _ _ | .sign _ | .note _ | .wake _
  | .sendVote _ _ => True
  | _ => False

/-- Those of them that leave `hqc`, `b_lock` and `b_exec` alone. -/
def AfterUpdate : Effect K → Prop
  | .accept _ _ | .sign _ | .note _ | .wake _ | .sendVote _ _ => True
  | _ => False

theorem Carried.apply (hc : Carried env c₀ c) (hP : Handles e) (he : Allowed env c e) :
    Carried env c₀ (Effects.apply env c e) := by
  have hshape : ¬ Shapes e := by
    cases e <;> first | exact id | exact absurd hP id
  refine ⟨hc.tree.apply he, hc.log.apply hc.tree he, fun x => ?_, ?_, ?_, fun err hmem => ?_⟩
  · exact (node_blk_eq (map_node_apply hshape x)).trans (hc.same x)
  · exact (id_apply env c).trans hc.sameId
  · by_cases hwake : ∃ k, e = .wake k
    · obtain ⟨k, rfl⟩ := hwake
      show c.qcWaiting.erase k = ∅
      rw [hc.waiting, Finset.erase_empty]
    · rw [qcWaiting_apply env c (by rintro k rfl; exact hP) (fun k heq => hwake ⟨k, heq⟩)]
      exact hc.waiting
  · rw [trace_eq, List.mem_append, mem_newEvents id] at hmem
    refine hc.threw err (hmem.resolve_left (fun hevent => ?_))
    cases e <;> first | exact hP | cases hevent

theorem Carried.of_trail (hc : Carried env c₀ c) (htrail : Trail env Handles c c') :
    Carried env c₀ c' :=
  Trail.invariant (I := fun d => Carried env c₀ d) htrail hc
    (fun _ _ hP hd he => hd.apply hP he)

theorem handles_of_afterUpdate (he : AfterUpdate e) : Handles e := by
  cases e <;> first | exact trivial | exact absurd he id

theorem Gathered.of_trail {done : List Uint256} (hg : Gathered env c₀ done c)
    (htrail : Trail env AfterUpdate c c') : Gathered env c₀ done c' := by
  refine Trail.invariant (I := fun d => Gathered env c₀ done d) htrail hg ?_
  intro d e hP hd _
  refine hd.congr (hqc_apply env d ?_) (bLock_apply env d ?_) (bExec_apply env d ?_)
  all_goals
    intros
    rintro rfl
    exact hP

theorem Carried.height_le (hc : Carried env c₀ c) (hdec : (c.blk h).decision = true) :
    (c₀.blk h).height ≤ (c₀.blk c.bExec).height := by
  have hheight := hc.same.height
  rw [← hheight, ← hheight]
  exact hc.log.height_le_of_decided hc.tree hdec

theorem Carried.decided_of_extends (hc : Carried env c₀ c)
    (hext : Extends (firstParent c) c.bExec h) : (c.blk h).decision = true :=
  hc.log.decided_of_extends hc.tree hext

theorem Raised.descend (hr : Raised env c n c₁) (floor : Nat) (x : Uint256) :
    c₁.descend floor x = c.descend floor x := by
  unfold HotStuffCore.descend
  rw [hr.blk]
  exact HotStuffCore.walk_congr (fun y => by rw [hr.blk]) (fun y => by rw [hr.blk]) _ _ _

theorem Raised.commit (hr : Raised env c n c₁) (htree : TreeOk env c)
    (hd : (c.blk b).delivered = true) (hext : Extends (firstParent c) b c.bExec) :
    ∃ c', c₁.commit b = .ok c' ∧ c'.hqc = c₁.hqc ∧ c'.bLock = c₁.bLock ∧ c'.bExec = b := by
  obtain ⟨queue, hdesc⟩ := checkAncestry_iff.mp (htree.checkAncestry_of_extends hd hext)
  have hdesc' : c₁.descend (c₁.blk c₁.bExec).height b = some (queue, c₁.bExec) := by
    rw [hr.descend, hr.blk, hr.bExec]
    exact hdesc
  refine ⟨{ queue.reverse.foldl HotStuffCore.commitBlk c₁ with bExec := b }, ?_, ?_, ?_, rfl⟩
  · unfold HotStuffCore.commit
    rw [hdesc']
    dsimp only
    rw [if_pos rfl]
  · exact congrArg Registers.hqc (registers_commitAll c₁ queue.reverse)
  · exact congrArg Registers.bLock (registers_commitAll c₁ queue.reverse)

section step

variable {S : Finset Uint256} {done : List Uint256} (htree : TreeOk env c₀)
  (hfam : Family env c₀ S)

include htree hfam

/-- The chain of a member ends at a block that lies above `b_exec` or is decided. -/
theorem Gathered.extends_bExec (hsub : ∀ n ∈ done, n ∈ S) (hc : Carried env c₀ c)
    (hg : Gathered env c₀ done c) (hn : n ∈ S) (hb : Heads env c₀ n b)
    (hdec : (c.blk b).decision = false) : Extends (firstParent c) b c.bExec := by
  obtain ⟨_, _, _, _, hd, _⟩ := heads_lt htree (fun _ => hfam.delivered_qcRef htree hn) hb
  rcases hg.exec.chosen with heq | ⟨m, hm, hm'⟩
  · rw [heq, hc.same.firstParent]
    exact (htree.depth hd).extends_root
  · rcases hfam.branch n hn m (hsub m hm) b c.bExec hb hm' with hext | hext
    · rw [hc.same.firstParent]
      exact hext
    · rw [← hc.same.firstParent] at hext
      rw [hc.decided_of_extends hext] at hdec
      cases hdec

theorem Gathered.ends (hsub : ∀ n ∈ done, n ∈ S) (hc : Carried env c₀ c)
    (hg : Gathered env c₀ done c) (hn : n ∈ S) :
    ∃ c₁ c', Raised env c n c₁ ∧ c.update env n = .ok c' ∧ c'.hqc = c₁.hqc ∧
      c'.bLock = c₁.bLock ∧ (c'.bExec = c.bExec ∨ Heads env c₀ n c'.bExec) ∧
      (c₀.blk c.bExec).height ≤ (c₀.blk c'.bExec).height ∧
      ∀ b, Heads env c₀ n b → (c₀.blk b).height ≤ (c₀.blk c'.bExec).height := by
  obtain ⟨c₁, hr, hend⟩ := update_concludes env c n
  have hheight := hc.same.height
  rcases hend with ⟨heq, hstop⟩ | ⟨b, heq, hb, hdec⟩
  · refine ⟨c₁, c₁, hr, heq, rfl, rfl, .inl hr.bExec, by rw [hr.bExec], fun b hb => ?_⟩
    obtain ⟨x, k, hx, hlink⟩ := hstop b ((hc.same.heads n b).mpr hb)
    have hxd : (c.blk x).delivered = true := by
      rcases (hc.log.decided x).mp hx with rfl | hmem
      · exact hc.tree.genesis.delivered
      · exact hc.log.delivered hmem
    have hbx := (hc.tree.height_le_of_extends hxd (linked_extends hc.tree hxd hlink)).2
    rw [hheight, hheight] at hbx
    rw [hr.bExec]
    exact hbx.trans (hc.height_le hx)
  · have hb₀ := (hc.same.heads n b).mp hb
    have hext := hg.extends_bExec htree hfam hsub hc hn hb₀ hdec
    obtain ⟨_, _, _, _, hd, _⟩ := heads_lt htree (fun _ => hfam.delivered_qcRef htree hn) hb₀
    rw [← hc.same.delivered] at hd
    obtain ⟨c', hcommit, hhqc, hlock, hexec⟩ := hr.commit hc.tree hd hext
    have hle := (hc.tree.height_le_of_extends hd hext).2
    rw [hheight, hheight] at hle
    refine ⟨c₁, c', hr, heq.trans hcommit, hhqc, hlock, .inr (hexec ▸ hb₀), hexec ▸ hle,
      fun z hz => ?_⟩
    rw [hexec, heads_unique hz hb₀]

/-- Once a member is processed, `hqc` and `b_lock` are as high as it asks for: a decision that
made `update` skip it was made on a block no higher than these. -/
theorem Carried.certified_le (hc : Carried env c₀ c) (hn : n ∈ S) (hproc : Processed env c n)
    (hexec : ((c₀.blk c.bExec).height ≤ (c₀.blk c.hqc.1).height ∧
      (c₀.blk c.bExec).height ≤ (c₀.blk c.bLock).height) ∨ Heads env c₀ n c.bExec)
    (ht : (c₀.blk n).qcRef = some t) :
    (c₀.blk t).height ≤ (c₀.blk c.hqc.1).height ∧
      ∀ p, lockRef env c₀ n = some p → (c₀.blk p).height ≤ (c₀.blk c.bLock).height := by
  have hheight := hc.same.height
  -- If `b_exec` ends the chain of this member, nothing of the chain above it is decided.
  have hchain : Heads env c₀ n c.bExec → (c.blk t).decision = false ∧
      ∀ p, lockRef env c₀ n = some p → (c.blk p).decision = false := by
    intro hhead
    obtain ⟨t', p', ht', hp', _, hbp, hbt⟩ :=
      heads_lt htree (fun _ => hfam.delivered_qcRef htree hn) hhead
    rw [ht] at ht'
    cases ht'
    refine ⟨?_, fun p hp => ?_⟩
    · by_contra hdec
      exact absurd hbt (Nat.not_lt_of_le (hc.height_le (by simpa using hdec)))
    · rw [hp'] at hp
      cases hp
      by_contra hdec
      exact absurd hbp (Nat.not_lt_of_le (hc.height_le (by simpa using hdec)))
  rcases hproc t ((hc.same.qcRef n).trans ht) with hdec | ⟨hle, hall⟩
  · have hlow := hc.height_le hdec
    rcases hexec with ⟨hhqc, hlock⟩ | hhead
    · exact ⟨hlow.trans hhqc,
        fun p hp => (hfam.lockRef_le htree hn ht hp).2.trans (hlow.trans hlock)⟩
    · rw [(hchain hhead).1] at hdec
      cases hdec
  · rw [hheight, hheight] at hle
    refine ⟨hle, fun p hp => ?_⟩
    rcases hall p ((hc.same.lockRef n).trans hp) with hdec | hle'
    · rcases hexec with ⟨_, hlock⟩ | hhead
      · exact (hc.height_le hdec).trans hlock
      · rw [(hchain hhead).2 p hp] at hdec
        cases hdec
    · rw [hheight, hheight] at hle'
      exact hle'

theorem Gathered.update (hsub : ∀ n ∈ done, n ∈ S) (hc : Carried env c₀ c)
    (hg : Gathered env c₀ done c) (hn : n ∈ S) :
    ∃ c', c.update env n = .ok c' ∧ Processed env c' n ∧ Carried env c₀ c' ∧
      Gathered env c₀ (n :: done) c' := by
  obtain ⟨c₁, c', hr, hup, hhqc, hlock, hexec, hexecHeight, hexecMax⟩ :=
    hg.ends htree hfam hsub hc hn
  have hheight := hc.same.height
  have hd : (c.blk n).delivered = true := by
    rw [hc.same.delivered]
    exact hfam.delivered n hn
  obtain ⟨htrail, hproc, _⟩ := update_ok hd hup
  have hc' : Carried env c₀ c' := by
    refine hc.of_trail (htrail.mono (fun e he => ?_))
    cases e <;> first | exact trivial | exact absurd he id
  refine ⟨c', hup, hproc, hc', ?_⟩
  have hhqcHeight : (c₀.blk c.hqc.1).height ≤ (c₀.blk c'.hqc.1).height := by
    rw [← hheight, ← hheight, hhqc]
    exact hr.hqcHeight
  have hlockHeight : (c₀.blk c.bLock).height ≤ (c₀.blk c'.bLock).height := by
    rw [← hheight, ← hheight, hlock]
    exact hr.lockHeight
  obtain ⟨hexecHqc, hexecLock⟩ := hg.bExec_le htree hfam hsub
  have hcertified : ∀ t, (c₀.blk n).qcRef = some t →
      (c₀.blk t).height ≤ (c₀.blk c'.hqc.1).height ∧
      ∀ p, lockRef env c₀ n = some p → (c₀.blk p).height ≤ (c₀.blk c'.bLock).height := by
    intro t ht
    refine hc'.certified_le htree hfam hn hproc (hexec.imp_left (fun heq => ?_)) ht
    rw [heq]
    exact ⟨hexecHqc.trans hhqcHeight, hexecLock.trans hlockHeight⟩
  have hcons : ∀ (A : Uint256 → Uint256 → Prop) (z : Uint256),
      (A n z ∨ ∃ m ∈ done, A m z) ↔ ∃ m ∈ n :: done, A m z := by
    intro A z
    simp
  refine ⟨?_, ?_, ?_⟩
  · refine (hg.hqc.extend hhqcHeight ?_ (fun t ht => (hcertified t ht).1)).congr
      (hcons (fun n t => (c₀.blk n).qcRef = some t))
    rw [hhqc]
    exact hr.hqc.imp_right (fun hq => (hc.same.qcRef n).symm.trans hq)
  · refine (hg.lock.extend hlockHeight ?_ (fun p hp => ?_)).congr
      (hcons (fun n p => lockRef env c₀ n = some p))
    · rw [hlock]
      exact hr.lock.imp_right (fun hp => (hc.same.lockRef n).symm.trans hp)
    · obtain ⟨t, ht⟩ : ∃ t, (c₀.blk n).qcRef = some t := by
        cases hq : (c₀.blk n).qcRef with
        | none => simp [lockRef, hq] at hp
        | some t => exact ⟨t, rfl⟩
      exact (hcertified t ht).2 p hp
  · exact (hg.exec.extend hexecHeight hexec hexecMax).congr (hcons (Heads env c₀))

/-! The step and the run. -/

omit htree hfam in
theorem decideVote_ok (hc : Carried env c₀ c) (hd : (c.blk h).delivered = true)
    (hproc : Processed env c h) :
    ∃ opinion c', c.decideVote h = .ok (opinion, c') ∧
      (opinion = true → .accept h ∈ c'.trace) ∧ Trail env AfterUpdate c c' := by
  have hspec := decideVote_spec hd hproc
  cases hres : c.decideVote h with
  | ok r =>
      obtain ⟨opinion, c'⟩ := r
      rw [hres] at hspec
      refine ⟨opinion, c', rfl, ?_⟩
      rcases hspec with ⟨rfl, rfl⟩ | ⟨rfl, _, offLock, hallow, rfl, _⟩
      · exact ⟨(fun hf => by cases hf), .refl⟩
      · exact ⟨fun _ => List.mem_cons_self, Trail.single (e := .accept h offLock) trivial hallow⟩
  | error r =>
      exfalso
      obtain ⟨queue, x, hdesc⟩ := hc.tree.descend_isSome hd (c.blk c.bLock).height
      unfold HotStuffCore.decideVote at hres
      rw [hdesc] at hres
      dsimp only at hres
      split at hres
      · cases hres
      · split at hres
        · cases hres
        · split at hres <;> cases hres

theorem step_gathers {r : Replica K} {prop : Proposal} (hsub : ∀ n ∈ done, n ∈ S)
    (hstack : r.stack = []) (hc : Carried env c₀ r.core) (hg : Gathered env c₀ done r.core)
    (hn : prop.blk ∈ S) :
    ∃ r', r.step env (.receiveProposal prop) = some r' ∧ r'.stack = [] ∧
      Carried env c₀ r'.core ∧ Gathered env c₀ (prop.blk :: done) r'.core := by
  obtain ⟨c₁, hup, hproc, hc₁, hg₁⟩ := hg.update htree hfam hsub hc hn
  have hd : (r.core.blk prop.blk).delivered = true := by
    rw [hc.same.delivered]
    exact hfam.delivered _ hn
  have hd₁ : (c₁.blk prop.blk).delivered = true := by
    rw [hc₁.same.delivered]
    exact hfam.delivered _ hn
  obtain ⟨opinion, c₂, hvote, hacc, htrail⟩ := decideVote_ok hc₁ hd₁ hproc
  have hc₂ := hc₁.of_trail (htrail.mono (fun _ => handles_of_afterUpdate))
  -- Nobody waits for a certificate, so that no callback proposes.
  have hreceive : r.core.onReceiveProposal env prop = .ok (opinion, false, c₂) := by
    unfold HotStuffCore.onReceiveProposal
    rw [if_pos hd]
    simp only [bind, Except.bind, hup, hvote]
    cases hq : (c₂.blk prop.blk).qcRef with
    | none => rfl
    | some q => simp [HotStuffCore.onQcFinish, hc₂.waiting, pure, Except.pure]
  have hfinish : Trail env AfterUpdate c₂ (Replica.finishReceive c₂ prop opinion []).core := by
    refine (noteProposal_trail trivial).trans (castVote_trail ?_ trivial (fun _ _ => trivial))
    rw [trace_noteProposal]
    exact hacc
  refine ⟨Replica.finishReceive c₂ prop opinion [], ?_, rfl, ?_, ?_⟩
  · simp only [Replica.step, hstack, List.isEmpty_nil, if_true, hreceive]
    rfl
  · exact hc₂.of_trail (hfinish.mono (fun _ => handles_of_afterUpdate))
  · exact hg₁.of_trail (htrail.trans hfinish)

theorem execute_gathers {r : Replica K} {props : List Proposal} (hsub : ∀ n ∈ done, n ∈ S)
    (hprops : ∀ prop ∈ props, prop.blk ∈ S) (hstack : r.stack = [])
    (hc : Carried env c₀ r.core) (hg : Gathered env c₀ done r.core) :
    ∃ r', execute (Replica.step env) (props.map .receiveProposal) r = some r' ∧
      r'.stack = [] ∧ Carried env c₀ r'.core ∧
      Gathered env c₀ ((props.map (·.blk)).reverse ++ done) r'.core := by
  induction props generalizing r done with
  | nil => exact ⟨r, rfl, hstack, hc, hg⟩
  | cons prop props ih =>
      have hn := hprops prop List.mem_cons_self
      obtain ⟨r₁, hstep, hstack₁, hc₁, hg₁⟩ :=
        step_gathers htree hfam hsub hstack hc hg hn
      have hsub₁ : ∀ n ∈ prop.blk :: done, n ∈ S := List.forall_mem_cons.mpr ⟨hn, hsub⟩
      obtain ⟨r', hrun, hend⟩ := ih hsub₁ (fun p hp => hprops p (List.mem_cons_of_mem _ hp))
        hstack₁ hc₁ hg₁
      refine ⟨r', ?_, ?_⟩
      · rw [List.map_cons, execute, hstep]
        exact hrun
      · simpa using hend

end step

/-! From the initial state. -/

/-- Blocks arrive and are delivered, and nothing else happens. -/
def Arrives (_ : Replica K) : Input K → Prop
  | .fetch _ | .deliver _ => True
  | _ => False

instance (r : Replica K) (i : Input K) : Decidable (Arrives r i) :=
  match i with
  | .fetch _ | .deliver _ => isTrue trivial
  | .propose _ _ _ | .receiveProposal _ | .receiveVote _ | .wait _ | .resume => isFalse id

/-- The effects of that. -/
def Arriving : Effect K → Prop
  | .store _ | .deliver _ | .spoil _ _ _ | .throw _ | .broadcast _ | .sendVote _ _ => True
  | _ => False

/-- Nothing has been certified, locked or committed, and nobody waits. -/
structure Fresh (env : Env K) (c : HotStuffCore K) : Prop where
  hqc : c.hqc.1 = env.genesisHash
  bLock : c.bLock = env.genesisHash
  bExec : c.bExec = env.genesisHash
  qcWaiting : c.qcWaiting = ∅

section initial

variable {config : ReplicaConfig K} {rid : ReplicaID} {key : K.PrivKey} {voteDisabled : Bool}
  {r : Replica K}

theorem fresh_of_reachable
    (hr : Reachable ((machine env config rid key voteDisabled).restrict Arrives) r) :
    Fresh env r.core := by
  refine invariant_of_covered (P := Arriving) hr ?_
    ⟨fun _ => trivial, fun _ => trivial, fun _ _ => trivial⟩ ⟨rfl, rfl, rfl, rfl⟩ ?_
  · intro r i hi
    cases i with
    | fetch data => exact trivial
    | deliver h =>
        intro e he
        cases e <;> first | exact trivial | exact absurd he id
    | _ => exact absurd hi id
  · intro c e _ _ hP hc _
    have hkeep : (apply env c e).hqc = c.hqc ∧ (apply env c e).bLock = c.bLock ∧
        (apply env c e).bExec = c.bExec ∧ (apply env c e).qcWaiting = c.qcWaiting := by
      refine ⟨hqc_apply env c ?_, bLock_apply env c ?_, bExec_apply env c ?_,
        qcWaiting_apply env c ?_ ?_⟩
      all_goals
        intros
        rintro rfl
        exact hP
    obtain ⟨hhqc, hlock, hexec, hwaiting⟩ := hkeep
    exact ⟨by rw [hhqc, hc.hqc], by rw [hlock, hc.bLock], by rw [hexec, hc.bExec],
      by rw [hwaiting, hc.qcWaiting]⟩

theorem idle_of_reachable
    (hr : Reachable ((machine env config rid key voteDisabled).restrict Arrives) r) :
    r.stack = [] := by
  refine hr.invariant (I := fun r => r.stack = []) ?_ ?_
  · rintro r rfl
    rfl
  · intro r i r' _ _ hstep
    cases i with
    | fetch data => rw [(step_fetch hstep.2).2]
    | deliver h =>
        obtain ⟨_, _, ⟨_, _, _, _, heq⟩ | ⟨_, _, heq⟩⟩ := step_deliver hstep.2 <;> rw [heq]
    | _ => exact absurd hstep.1 id

theorem best_genesis (env : Env K) (c : HotStuffCore K) {A : Uint256 → Prop}
    (hA : ∀ y, ¬ A y) : Best env c A env.genesisHash :=
  ⟨.inl rfl, fun y hy => absurd hy (hA y)⟩

theorem gathered_nil (hfresh : Fresh env c) : Gathered env c₀ [] c := by
  have hnone : ∀ (A : Uint256 → Uint256 → Prop) (y : Uint256), ¬ ∃ n ∈ [], A n y := by
    intro A y hy
    obtain ⟨n, hn, _⟩ := hy
    cases hn
  refine ⟨?_, ?_, ?_⟩
  · rw [hfresh.hqc]
    exact best_genesis env c₀ (hnone _)
  · rw [hfresh.bLock]
    exact best_genesis env c₀ (hnone _)
  · rw [hfresh.bExec]
    exact best_genesis env c₀ (hnone _)

/-- The decisions a replica has reported are determined by its tree and `b_exec`. -/
theorem outputs_eq (hc : Carried env c₀ c) (hc' : Carried env c₀ c') (heq : c.bExec = c'.bExec) :
    outputs c = outputs c' := by
  have hcommits : commits c = commits c' := by
    have hpath := hc'.log.path
    rw [hc'.same.firstParent, ← hc.same.firstParent] at hpath
    refine hc.log.path.unique hc.tree.firstParent_genesis hpath ?_
    rw [hc.log.last, hc'.log.last, heq]
  rw [hc.log.reported, hc'.log.reported, hcommits]
  refine List.flatMap_congr (fun b _ => ?_)
  rw [finalities_congr (hc.sameId.trans hc'.sameId.symm)
    ((hc.same b).trans (hc'.same b).symm)]

/-- Order independence: handling the proposals of a family of blocks, in whatever order and
however often each, goes through without an exception and ends with the same `hqc`, `b_lock` and
`b_exec`, and with the same calls of `do_consensus` and `do_decide` made in the same order. -/
theorem order_independent {r₀ : Replica K} {S : Finset Uint256} {props props' : List Proposal}
    (hr : Reachable ((machine env config rid key voteDisabled).restrict Arrives) r₀)
    (hfam : Family env r₀.core S)
    (hprops : ∀ h, h ∈ props.map (·.blk) ↔ h ∈ S)
    (hprops' : ∀ h, h ∈ props'.map (·.blk) ↔ h ∈ S) :
    ∃ r r', execute (Replica.step env) (props.map .receiveProposal) r₀ = some r ∧
      execute (Replica.step env) (props'.map .receiveProposal) r₀ = some r' ∧
      (∀ e, .threw e ∈ r.core.trace → .threw e ∈ r₀.core.trace) ∧
      (∀ e, .threw e ∈ r'.core.trace → .threw e ∈ r₀.core.trace) ∧
      r.core.hqc.1 = r'.core.hqc.1 ∧ r.core.bLock = r'.core.bLock ∧
      r.core.bExec = r'.core.bExec ∧ outputs r.core = outputs r'.core := by
  have htree := (replicaOk_of_reachable hr.of_restrict).tree
  have hfresh := fresh_of_reachable hr
  have hstack := idle_of_reachable hr
  have hcarried : Carried env r₀.core r₀.core :=
    ⟨htree, commitOk_of_reachable hr.of_restrict, fun _ => rfl, rfl, hfresh.qcWaiting,
      fun _ => id⟩
  have hrun : ∀ {props : List Proposal}, (∀ h, h ∈ props.map (·.blk) ↔ h ∈ S) →
      ∃ r done, execute (Replica.step env) (props.map .receiveProposal) r₀ = some r ∧
        Carried env r₀.core r.core ∧ Gathered env r₀.core done r.core ∧
        ∀ n, n ∈ done ↔ n ∈ S := by
    intro props hprops
    have hmem : ∀ prop ∈ props, prop.blk ∈ S :=
      fun prop hprop => (hprops prop.blk).mp (List.mem_map_of_mem hprop)
    obtain ⟨r, hexec, _, hc, hg⟩ := execute_gathers htree hfam (fun _ hn => by cases hn) hmem
      hstack hcarried (gathered_nil hfresh)
    refine ⟨r, _, hexec, hc, hg, fun n => ?_⟩
    rw [List.append_nil, List.mem_reverse]
    exact hprops n
  obtain ⟨r, done, hexec, hc, hg, hdone⟩ := hrun hprops
  obtain ⟨r', done', hexec', hc', hg', hdone'⟩ := hrun hprops'
  obtain ⟨hhqc, hlock, hbExec⟩ := hg.unique htree hfam hdone hdone' hg'
  exact ⟨r, r', hexec, hexec', hc.threw, hc'.threw, hhqc, hlock, hbExec, outputs_eq hc hc' hbExec⟩

end initial

/-! Four blocks on top of one another and one beside the third, which certifies the first. -/

/-- Where a block of the family hangs: its parent and the block it certifies. -/
def forkedPlace (h : Uint256) : Uint256 × Uint256 := if h = 5 then (2, 1) else (h - 1, h - 1)

def forkedData (h : Uint256) : BlockData clearScheme :=
  { parentHashes := [(forkedPlace h).1], cmds := [h],
    qc := QuorumCert.create soleConfig (forkedPlace h).2, extra := [] }

def forked : Replica clearScheme :=
  (execute (guarded Arrives (Replica.step (clearEnv false)))
    (([1, 2, 3, 4, 5] : List Uint256).flatMap (fun h => [.fetch (forkedData h), .deliver h]))
    ⟨.start (clearEnv false) soleConfig 0 (0 : Nat) false, []⟩).get (by decide +kernel)

theorem forked_reachable : Reachable (soleMachine.restrict Arrives) forked :=
  Reachable.trans (.init rfl)
    (steps_of_execute (fun _ _ _ hstep => guarded_eq_some hstep) (Option.some_get _).symm)

theorem forked_tree : ∀ h ∈ ({1, 2, 3, 4, 5} : Finset Uint256),
    (forked.core.blk h).delivered = true ∧ (forked.core.blk h).parents = [(forkedPlace h).1] ∧
      (forked.core.blk h).qcRef = some (forkedPlace h).2 := by
  simp only [Finset.forall_mem_insert, Finset.mem_singleton, forall_eq]
  decide +kernel

theorem forked_heads : ∀ h ∈ ({1, 2, 3, 4, 5} : Finset Uint256),
    ((forked.core.blk h).qcRef.bind (fun t => (forked.core.blk t).qcRef.bind
      (fun p => (forked.core.blk p).qcRef))) ∈ [some 0, some 1] := by
  simp only [Finset.forall_mem_insert, Finset.mem_singleton, forall_eq]
  decide +kernel

theorem forked_family : Family (clearEnv false) forked.core {1, 2, 3, 4, 5} := by
  have hfirst : firstParent forked.core 1 = some 0 := by decide +kernel
  have hsecond : firstParent forked.core 2 = some 1 := by decide +kernel
  have hends : ∀ h ∈ ({1, 2, 3, 4, 5} : Finset Uint256), ∀ b,
      Heads (clearEnv false) forked.core h b → b = 0 ∨ b = 1 := by
    intro h hmem b hb
    obtain ⟨t, ht, p, hp, _, hq, _⟩ := (heads_threeStep rfl).mp hb
    have hcases := forked_heads h hmem
    rw [ht, Option.bind_some, hp, Option.bind_some, hq] at hcases
    simpa using hcases
  refine ⟨fun h hmem => (forked_tree h hmem).1, by decide, ?_, ?_, ?_, ?_, ?_⟩
  · intro h hmem p hp
    rw [(forked_tree h hmem).2.1, List.mem_singleton] at hp
    subst hp
    revert h
    simp only [Finset.forall_mem_insert, Finset.mem_singleton, forall_eq]
    decide
  · intro h hmem q hq
    rw [(forked_tree h hmem).2.2] at hq
    cases hq
    revert h
    simp only [Finset.forall_mem_insert, Finset.mem_singleton, forall_eq]
    decide
  · intro h hmem q hq
    rw [(forked_tree h hmem).2.2] at hq
    cases hq
    refine ⟨(forkedPlace h).1, by rw [(forked_tree h hmem).2.1]; rfl, ?_⟩
    by_cases hfork : h = 5
    · subst hfork
      exact .step hsecond (.refl _)
    · simp only [forkedPlace, if_neg hfork]
      exact .refl _
  · intro h hmem h' hmem' q q' hq hq'
    rw [(forked_tree h hmem).2.2] at hq
    rw [(forked_tree h' hmem').2.2] at hq'
    cases hq
    cases hq'
    revert h h'
    simp only [Finset.forall_mem_insert, Finset.mem_singleton, forall_eq]
    decide +kernel
  · intro h hmem h' hmem' b b' hb hb'
    rcases hends h hmem b hb with rfl | rfl <;> rcases hends h' hmem' b' hb' with rfl | rfl
    · exact .inl (.refl _)
    · exact .inr (.step hfirst (.refl _))
    · exact .inl (.step hfirst (.refl _))
    · exact .inl (.refl _)

/-- The five proposals in order, and with the last ones first and one of them twice. -/
theorem order_independent_forked : ∃ r r',
    execute (Replica.step (clearEnv false))
      (([⟨0, 1⟩, ⟨0, 2⟩, ⟨0, 3⟩, ⟨0, 4⟩, ⟨0, 5⟩] : List Proposal).map .receiveProposal) forked =
        some r ∧
    execute (Replica.step (clearEnv false))
      (([⟨0, 5⟩, ⟨0, 4⟩, ⟨0, 2⟩, ⟨0, 4⟩, ⟨0, 1⟩, ⟨0, 3⟩] : List Proposal).map .receiveProposal)
      forked = some r' ∧
    (∀ e, .threw e ∈ r.core.trace → .threw e ∈ forked.core.trace) ∧
    (∀ e, .threw e ∈ r'.core.trace → .threw e ∈ forked.core.trace) ∧
    r.core.hqc.1 = r'.core.hqc.1 ∧ r.core.bLock = r'.core.bLock ∧
    r.core.bExec = r'.core.bExec ∧ outputs r.core = outputs r'.core :=
  order_independent forked_reachable forked_family
    (by intro h; simp) (by intro h; simp; tauto)

end ArchipelagoHotStuff.Consensus.AnyOrder
