/- Module: ArchipelagoHotStuff/Consensus/Trails
   digest: Every function of the protocol core is a run of effects; for each, which effects and
     what holds where it ends. -/

import ArchipelagoHotStuff.Consensus.Tree
import Mathlib.Data.List.TakeWhile

set_option autoImplicit false
set_option relaxedAutoImplicit false

namespace ArchipelagoHotStuff.Consensus.Trails

open Crypto.Wire Crypto.Certificates State Handlers Effects Consensus.Tree

variable {K : Secp256k1} {env : Env K} {c c' : HotStuffCore K}

/-! Raising the certificate and the lock. -/

section raising

variable (c) (h x : Uint256) (qc : QuorumCert K)

theorem updateHqc_cases :
    (c.updateHqc h qc = c ∧ (c.blk h).height ≤ (c.blk c.hqc.1).height) ∨
      ((c.blk c.hqc.1).height < (c.blk h).height ∧
        c.updateHqc h qc = ({ c with hqc := (h, qc) } : HotStuffCore K).onHqcUpdate) := by
  unfold HotStuffCore.updateHqc
  split
  · rename_i hlt
    exact .inr ⟨hlt, rfl⟩
  · rename_i hle
    exact .inl ⟨rfl, Nat.le_of_not_lt hle⟩

@[simp] theorem storage_updateHqc : (c.updateHqc h qc).storage = c.storage := by
  unfold HotStuffCore.updateHqc
  split <;> rfl

@[simp] theorem blk_updateHqc : (c.updateHqc h qc).blk x = c.blk x := by
  unfold HotStuffCore.blk
  rw [storage_updateHqc]

theorem hqc_updateHqc : (c.updateHqc h qc).hqc = c.hqc ∨ (c.updateHqc h qc).hqc = (h, qc) := by
  rcases updateHqc_cases c h qc with ⟨heq, _⟩ | ⟨_, heq⟩
  · exact .inl (by rw [heq])
  · exact .inr (by rw [heq]; rfl)

theorem height_le_updateHqc :
    (c.blk h).height ≤ (c.blk (c.updateHqc h qc).hqc.1).height := by
  rcases updateHqc_cases c h qc with ⟨heq, hle⟩ | ⟨_, heq⟩
  · rw [heq]
    exact hle
  · rw [heq]
    exact le_rfl

@[simp] theorem blk_raiseLock : (c.raiseLock h).blk x = c.blk x := by
  unfold HotStuffCore.raiseLock
  split <;> rfl

@[simp] theorem hqc_raiseLock : (c.raiseLock h).hqc = c.hqc := by
  unfold HotStuffCore.raiseLock
  split <;> rfl

theorem height_le_raiseLock :
    (c.blk h).height ≤ (c.blk (c.raiseLock h).bLock).height := by
  unfold HotStuffCore.raiseLock
  split
  · exact le_rfl
  · rename_i hle
    exact Nat.le_of_not_lt hle

end raising

/-- The effects `update` has on `n` short of a commit. -/
def RaisesFor (c : HotStuffCore K) (n : Uint256) : Effect K → Prop
  | .raiseHqc h _ => (c.blk n).qcRef = some h
  | .raiseLock _ => True
  | _ => False

theorem updateHqc_trail (env : Env K) {n t : Uint256} (hd : (c.blk n).delivered = true)
    (ht : (c.blk n).qcRef = some t) :
    Trail env (RaisesFor c n) c (c.updateHqc t (c.blk n).data.qc) := by
  rcases updateHqc_cases c t (c.blk n).data.qc with ⟨heq, _⟩ | ⟨hlt, heq⟩
  · rw [heq]
    exact .refl
  · rw [heq]
    exact Trail.single (e := .raiseHqc t (c.blk n).data.qc) ht ⟨hlt, .inl ⟨n, hd, ht, rfl⟩⟩

theorem raiseLock_trail {P : Effect K → Prop} {n t p : Uint256} (hP : P (.raiseLock p))
    (hd : (c.blk n).delivered = true) (ht : (c.blk n).qcRef = some t)
    (hle : (c.blk t).height ≤ (c.blk c.hqc.1).height) (hp : lockRef env c n = some p) :
    Trail env P c (c.raiseLock p) := by
  unfold HotStuffCore.raiseLock
  split
  · rename_i hlt
    exact Trail.single (e := .raiseLock p) hP ⟨hlt, n, t, hd, ht, hle, hp⟩
  · exact .refl

theorem commit_spec {h : Uint256} (hready : CommitReady env c h) :
    match c.commit h with
    | .ok c' => ∃ queue, Allowed env c (.commit queue h) ∧ c' = apply env c (.commit queue h)
    | .error (e, c') => c' = c ∧ Allowed env c (.throw e) := by
  unfold HotStuffCore.commit
  cases hdesc : c.descend (c.blk c.bExec).height h with
  | none => exact ⟨rfl, fun he => nomatch he⟩
  | some r =>
      obtain ⟨queue, b⟩ := r
      dsimp only
      by_cases hb : b = c.bExec
      · rw [if_pos hb]
        subst hb
        exact ⟨queue, ⟨hready, hdesc⟩, rfl⟩
      · rw [if_neg hb]
        exact ⟨rfl, fun _ => ⟨h, queue, b, hready, hdesc, hb⟩⟩

/-- What `update` does: it raises the certificate and the lock, and then commits, stops or
throws. -/
def UpdateSpec (env : Env K) (c : HotStuffCore K) (n : Uint256) : Result K → Prop
  | .ok c' => ∃ c₁, Trail env (RaisesFor c n) c c₁ ∧ Processed env c₁ n ∧
      (c' = c₁ ∨ ∃ queue h, Allowed env c₁ (.commit queue h) ∧
        c' = apply env c₁ (.commit queue h))
  | .error (e, c') => Trail env (RaisesFor c n) c c' ∧ Allowed env c' (.throw e) ∧
      ∃ h, CommitReady env c' h ∧ c'.commit h = .error (e, c')

private theorem updateSpec_commit {n h : Uint256} {c₁ : HotStuffCore K}
    (htrail : Trail env (RaisesFor c n) c c₁) (hproc : Processed env c₁ n)
    (hready : CommitReady env c₁ h) : UpdateSpec env c n (c₁.commit h) := by
  have hspec := commit_spec hready
  cases hres : c₁.commit h with
  | ok c' =>
      rw [hres] at hspec
      obtain ⟨queue, hallow, heq⟩ := hspec
      exact ⟨c₁, htrail, hproc, .inr ⟨queue, h, hallow, heq⟩⟩
  | error r =>
      obtain ⟨e, c'⟩ := r
      rw [hres] at hspec
      obtain ⟨rfl, hallow⟩ := hspec
      exact ⟨htrail, hallow, h, hready, hres⟩

private theorem updateSpec_stop {n : Uint256} {c₁ : HotStuffCore K}
    (htrail : Trail env (RaisesFor c n) c c₁) (hproc : Processed env c₁ n) :
    UpdateSpec env c n (.ok c₁) :=
  ⟨c₁, htrail, hproc, .inl rfl⟩

theorem updateThreeStep_spec (henv : env.twoStep = false) {n : Uint256}
    (hd : (c.blk n).delivered = true) : UpdateSpec env c n (c.updateThreeStep n) := by
  have hlockRef : ∀ d : HotStuffCore K,
      lockRef env d n = (d.blk n).qcRef.bind (fun t => (d.blk t).qcRef) := by
    intro d
    simp [lockRef, henv]
  unfold HotStuffCore.updateThreeStep
  split
  · rename_i hnone
    exact updateSpec_stop .refl (fun t ht => by rw [hnone] at ht; cases ht)
  rename_i blk2 hblk2
  split
  · rename_i hdec
    refine updateSpec_stop .refl (fun t ht => ?_)
    rw [hblk2] at ht
    cases ht
    exact .inl hdec
  rename_i hdec2
  have htrail₁ := updateHqc_trail env hd hblk2
  have hqc := height_le_updateHqc c blk2 (c.blk n).data.qc
  generalize hc₁ : c.updateHqc blk2 (c.blk n).data.qc = c₁ at htrail₁ hqc
  have hblk : ∀ x, c₁.blk x = c.blk x := fun x => by rw [← hc₁, blk_updateHqc]
  dsimp only
  -- Without a block to lock, or with a decided one, the certificate is all there is to raise.
  have hproc₁ : (∀ p, (c₁.blk blk2).qcRef = some p → (c₁.blk p).decision = true) →
      Processed env c₁ n := by
    intro hall t ht
    rw [hblk, hblk2] at ht
    cases ht
    refine .inr ⟨by rw [hblk, hblk]; exact hqc, fun p hp => .inl (hall p ?_)⟩
    rw [hlockRef, hblk n, hblk2] at hp
    exact hp
  split
  · rename_i hnone
    exact updateSpec_stop htrail₁ (hproc₁ (fun p hp => by rw [hnone] at hp; cases hp))
  rename_i blk1 hblk1
  split
  · rename_i hdec
    refine updateSpec_stop htrail₁ (hproc₁ (fun p hp => ?_))
    rw [hblk1] at hp
    cases hp
    exact hdec
  rename_i hdec1
  have hqc₁ : (c₁.blk blk2).height ≤ (c₁.blk c₁.hqc.1).height := by
    rw [hblk, hblk]
    exact hqc
  have hlock₁ : lockRef env c₁ n = some blk1 := by
    rw [hlockRef, hblk n, hblk2]
    exact hblk1
  have htrail₂ : Trail env (RaisesFor c n) c (c₁.raiseLock blk1) :=
    htrail₁.trans (raiseLock_trail trivial (by rw [hblk]; exact hd) (by rw [hblk]; exact hblk2)
      hqc₁ hlock₁)
  have hle := height_le_raiseLock c₁ blk1
  generalize hc₂ : c₁.raiseLock blk1 = c₂ at htrail₂ hle
  have hblk' : ∀ x, c₂.blk x = c₁.blk x := fun x => by rw [← hc₂, blk_raiseLock]
  have hhqc' : c₂.hqc = c₁.hqc := by rw [← hc₂, hqc_raiseLock]
  have hlock₂ : lockRef env c₂ n = some blk1 := by
    rw [hlockRef, hblk', hblk, hblk2]
    show (c₂.blk blk2).qcRef = some blk1
    rw [hblk']
    exact hblk1
  have hproc₂ : Processed env c₂ n := by
    intro t ht
    rw [hblk', hblk, hblk2] at ht
    cases ht
    refine .inr ⟨by rw [hblk', hblk', hhqc']; exact hqc₁, fun p hp => .inr ?_⟩
    rw [hlock₂] at hp
    cases hp
    rw [hblk', hblk']
    exact hle
  split
  · exact updateSpec_stop htrail₂ hproc₂
  rename_i blk hblk0
  split
  · exact updateSpec_stop htrail₂ hproc₂
  rename_i hdec0
  split
  · exact updateSpec_stop htrail₂ hproc₂
  rename_i hdirect
  obtain ⟨hp2, hp1⟩ := not_or.mp hdirect
  have hp2' : (c₂.blk blk2).parents.head? = some blk1 := not_not.mp hp2
  have hp1' : (c₂.blk blk1).parents.head? = some blk := not_not.mp hp1
  have hblk1' : (c₂.blk blk2).qcRef = some blk1 := (hblk' blk2).symm ▸ hblk1
  refine updateSpec_commit htrail₂ hproc₂
    ⟨by simpa using hdec0, n, blk2, blk1, ?_, ?_, ?_, ?_, hlock₂, ?_, hp1', ?_⟩
  · rw [hblk', hblk]
    exact hd
  · rw [hblk', hblk]
    exact hblk2
  · rw [hblk', hblk]
    simpa using hdec2
  · have hlen : chainLength env = 2 := by simp [chainLength, henv]
    rw [hlen]
    exact ⟨blk1, hblk1', hp2', blk, hblk0, hp1', rfl⟩
  · rw [hblk']
    simpa using hdec1
  · rw [hblk', hblk']
    exact hle

theorem updateTwoStep_spec (henv : env.twoStep = true) {n : Uint256}
    (hd : (c.blk n).delivered = true) : UpdateSpec env c n (c.updateTwoStep n) := by
  have hlockRef : ∀ d : HotStuffCore K, lockRef env d n = (d.blk n).qcRef := by
    intro d
    simp [lockRef, henv]
  unfold HotStuffCore.updateTwoStep
  split
  · rename_i hnone
    exact updateSpec_stop .refl (fun t ht => by rw [hnone] at ht; cases ht)
  rename_i blk1 hblk1
  split
  · rename_i hdec
    refine updateSpec_stop .refl (fun t ht => ?_)
    rw [hblk1] at ht
    cases ht
    exact .inl hdec
  rename_i hdec1
  have htrail₁ := updateHqc_trail env hd hblk1
  have hqc := height_le_updateHqc c blk1 (c.blk n).data.qc
  generalize hc₁ : c.updateHqc blk1 (c.blk n).data.qc = c₁ at htrail₁ hqc
  have hblk : ∀ x, c₁.blk x = c.blk x := fun x => by rw [← hc₁, blk_updateHqc]
  have hqc₁ : (c₁.blk blk1).height ≤ (c₁.blk c₁.hqc.1).height := by
    rw [hblk, hblk]
    exact hqc
  have htrail₂ : Trail env (RaisesFor c n) c (c₁.raiseLock blk1) :=
    htrail₁.trans (raiseLock_trail trivial (by rw [hblk]; exact hd) (by rw [hblk]; exact hblk1)
      hqc₁ (by rw [hlockRef, hblk]; exact hblk1))
  have hle := height_le_raiseLock c₁ blk1
  dsimp only
  generalize hc₂ : c₁.raiseLock blk1 = c₂ at htrail₂ hle
  have hblk' : ∀ x, c₂.blk x = c₁.blk x := fun x => by rw [← hc₂, blk_raiseLock]
  have hhqc' : c₂.hqc = c₁.hqc := by rw [← hc₂, hqc_raiseLock]
  have hlock₂ : lockRef env c₂ n = some blk1 := by
    rw [hlockRef, hblk', hblk]
    exact hblk1
  have hproc₂ : Processed env c₂ n := by
    intro t ht
    rw [hblk', hblk, hblk1] at ht
    cases ht
    refine .inr ⟨by rw [hblk', hblk', hhqc']; exact hqc₁, fun p hp => .inr ?_⟩
    rw [hlock₂] at hp
    cases hp
    rw [hblk', hblk']
    exact hle
  split
  · exact updateSpec_stop htrail₂ hproc₂
  rename_i blk hblk0
  split
  · exact updateSpec_stop htrail₂ hproc₂
  rename_i hdec0
  split
  · exact updateSpec_stop htrail₂ hproc₂
  rename_i hdirect
  have hp1' : (c₂.blk blk1).parents.head? = some blk := not_not.mp hdirect
  refine updateSpec_commit htrail₂ hproc₂
    ⟨by simpa using hdec0, n, blk1, blk1, ?_, ?_, ?_, ?_, hlock₂, ?_, hp1', ?_⟩
  · rw [hblk', hblk]
    exact hd
  · rw [hblk', hblk]
    exact hblk1
  · rw [hblk', hblk]
    simpa using hdec1
  · have hlen : chainLength env = 1 := by simp [chainLength, henv]
    rw [hlen]
    exact ⟨blk, hblk0, hp1', rfl⟩
  · rw [hblk', hblk]
    simpa using hdec1
  · rw [hblk', hblk']
    exact hle

theorem update_spec (env : Env K) {n : Uint256} (hd : (c.blk n).delivered = true) :
    UpdateSpec env c n (c.update env n) := by
  unfold HotStuffCore.update
  cases henv : env.twoStep with
  | true => exact updateTwoStep_spec henv hd
  | false => exact updateThreeStep_spec henv hd

def Updates (c : HotStuffCore K) (n : Uint256) : Effect K → Prop
  | .raiseHqc h _ => (c.blk n).qcRef = some h
  | .raiseLock _ => True
  | .commit _ _ => True
  | _ => False

theorem decision_commitBlk {h x : Uint256} : ((c.commitBlk h).blk x).decision = true ↔
    (c.blk x).decision = true ∨ (x = h ∧ (c.storage x).isSome) := by
  show ((c.modifyBlk h (fun b => { b with decision := true })).blk x).decision = true ↔ _
  by_cases heq : x = h
  · subst heq
    unfold HotStuffCore.blk
    rw [HotStuffCore.storage_modifyBlk, if_pos rfl]
    cases hs : c.storage x with
    | none => simp
    | some b => simp
  · rw [c.blk_modifyBlk_ne heq]
    simp [heq]

/-- The loop over the commit queue decides the blocks of the queue and no others. -/
theorem decision_commitAll (queue : List Uint256) {x : Uint256} :
    ((queue.foldl HotStuffCore.commitBlk c).blk x).decision = true ↔
      (c.blk x).decision = true ∨ (x ∈ queue ∧ (c.storage x).isSome) := by
  induction queue generalizing c with
  | nil => simp
  | cons h queue ih =>
      have hsome : ((c.commitBlk h).storage x).isSome = (c.storage x).isSome :=
        isSome_eq (map_node_commitBlk h x)
      rw [List.foldl_cons, ih, decision_commitBlk, hsome, List.mem_cons]
      tauto

theorem processed_commit {n h : Uint256} {queue : List Uint256} (hp : Processed env c n) :
    Processed env (apply env c (.commit queue h)) n := by
  have hnode : ∀ x, node ((apply env c (.commit queue h)).blk x) = node (c.blk x) :=
    fun x => node_blk_eq (map_node_apply id x)
  have hqcRef : ∀ x, ((apply env c (.commit queue h)).blk x).qcRef = (c.blk x).qcRef :=
    fun x => congrArg Node.qcRef (hnode x)
  have hheight : ∀ x, ((apply env c (.commit queue h)).blk x).height = (c.blk x).height :=
    fun x => congrArg Node.height (hnode x)
  have hlock : lockRef env (apply env c (.commit queue h)) n = lockRef env c n := by
    unfold lockRef
    simp only [hqcRef]
  have hhqc := hqc_apply env c (e := .commit queue h) nofun
  have hbLock := bLock_apply env c (e := .commit queue h) nofun
  intro t ht
  rw [hqcRef] at ht
  rcases hp t ht with hdec | ⟨hle, hall⟩
  · exact .inl ((decision_commitAll _).mpr (.inl hdec))
  · refine .inr ⟨by rw [hheight, hheight, hhqc]; exact hle, fun p hlp => ?_⟩
    rw [hlock] at hlp
    rcases hall p hlp with hdec | hle'
    · exact .inl ((decision_commitAll _).mpr (.inl hdec))
    · exact .inr (by rw [hheight, hheight, hbLock]; exact hle')

theorem hqc_of_updates {P : Effect K → Prop} {n : Uint256} (h : Trail env P c c')
    (hd : (c.blk n).delivered = true)
    (hP : ∀ h qc, P (.raiseHqc h qc) → (c.blk n).qcRef = some h) :
    c'.hqc = c.hqc ∨ (c'.blk n).qcRef = some c'.hqc.1 := by
  have hqcRef := (grows_of_trail h).qcRef hd
  rw [hqcRef]
  refine Trail.invariant (I := fun d => d.hqc = c.hqc ∨ (c.blk n).qcRef = some d.hqc.1) h
    (.inl rfl) ?_
  intro d e hPe hinv _
  by_cases hr : ∃ h qc, e = .raiseHqc h qc
  · obtain ⟨t, qc, rfl⟩ := hr
    exact .inr (hP t qc hPe)
  · rw [hqc_apply env d (fun t qc heq => hr ⟨t, qc, heq⟩)]
    exact hinv

theorem update_ok {n : Uint256} (hd : (c.blk n).delivered = true)
    (h : c.update env n = .ok c') :
    Trail env (Updates c n) c c' ∧ Processed env c' n ∧
      (c'.hqc = c.hqc ∨ (c'.blk n).qcRef = some c'.hqc.1) := by
  have hspec := update_spec env hd
  rw [h] at hspec
  obtain ⟨c₁, htrail, hproc, hend⟩ := hspec
  have htrail₁ : Trail env (Updates c n) c c₁ := by
    refine htrail.mono (fun e he => ?_)
    cases e <;> first | exact he | exact absurd he id
  have htrail' : Trail env (Updates c n) c c' := by
    rcases hend with rfl | ⟨queue, t, hallow, rfl⟩
    · exact htrail₁
    · exact htrail₁.trans (Trail.single (e := .commit queue t) trivial hallow)
  refine ⟨htrail', ?_, hqc_of_updates htrail' hd (fun _ _ he => he)⟩
  rcases hend with rfl | ⟨queue, t, _, rfl⟩
  · exact hproc
  · exact processed_commit hproc

theorem update_error {n : Uint256} {e : Exn} (hd : (c.blk n).delivered = true)
    (h : c.update env n = .error (e, c')) :
    Trail env (RaisesFor c n) c c' ∧ Allowed env c' (.throw e) := by
  have hspec := update_spec env hd
  rw [h] at hspec
  exact ⟨hspec.1, hspec.2.1⟩

theorem commit_of_update_error {n : Uint256} {e : Exn} (hd : (c.blk n).delivered = true)
    (h : c.update env n = .error (e, c')) :
    ∃ b, CommitReady env c' b ∧ c'.commit b = .error (e, c') := by
  have hspec := update_spec env hd
  rw [h] at hspec
  exact hspec.2.2

/-! Delivery and votes. -/

/-- Delivery succeeds on blocks that are deliverable, and spoils the others. -/
theorem onDeliverBlk_spec (env : Env K) {h : Uint256} (hs : (c.storage h).isSome) :
    match c.onDeliverBlk env h with
    | .ok (_, c') => ((c.blk h).delivered = true ∧ c' = c) ∨
        (Allowed env c (.deliver h) ∧ c' = apply env c (.deliver h))
    | .error (e, c') => ((c.blk h).delivered = false ∧ ¬ Deliverable c h) ∧
        (e ≠ .undefinedBehaviour → (c.blk h).data.parentHashes ≠ []) ∧
        e ≠ .safetyBreached ∧ ∃ parents height, c' = apply env c (.spoil h parents height) := by
  unfold HotStuffCore.onDeliverBlk
  cases hd : (c.blk h).delivered with
  | true => exact .inl ⟨rfl, rfl⟩
  | false =>
      simp only [Bool.false_eq_true, if_false]
      generalize hps : (c.blk h).data.parentHashes.takeWhile (fun p => (c.blk p).delivered) = ps
      have hkeep : ∀ parents : List Uint256, c.modifyBlk h (fun b => { b with parents }) =
          apply env c (.spoil h parents (c.blk h).height) :=
        fun parents => c.modifyBlk_congr rfl
      by_cases hlt : ps.length < (c.blk h).data.parentHashes.length
      · rw [if_pos hlt]
        refine ⟨⟨trivial, fun hok => ?_⟩, fun _ hnil => ?_, nofun, ps, _, hkeep ps⟩
        swap
        · rw [hnil] at hlt
          cases hlt
        have hall : (c.blk h).data.parentHashes.takeWhile (fun p => (c.blk p).delivered) =
            (c.blk h).data.parentHashes := List.takeWhile_eq_self_iff.mpr hok.2.1
        rw [← hps, hall] at hlt
        exact lt_irrefl _ hlt
      · rw [if_neg hlt]
        have hall : ps = (c.blk h).data.parentHashes := by
          rw [← hps]
          refine (List.takeWhile_prefix _).eq_of_length_le ?_
          rw [hps]
          exact Nat.le_of_not_lt hlt
        have hdel : ∀ p ∈ (c.blk h).data.parentHashes, (c.blk p).delivered = true :=
          List.takeWhile_eq_self_iff.mp (hps.trans hall)
        cases ps with
        | nil =>
            exact ⟨⟨trivial, fun hok => hok.1 hall.symm⟩, fun hne => absurd rfl hne, nofun, [], _,
              hkeep []⟩
        | cons p ps =>
            dsimp only
            have hne : (c.blk h).data.parentHashes ≠ [] := by
              rw [← hall]
              exact List.cons_ne_nil _ _
            by_cases hqc : (c.storage (c.blk h).data.qc.objHash).isSome
            · rw [if_pos hqc]
              refine .inr ⟨⟨hs, hd, hne, hdel, hqc⟩, ?_⟩
              show _ = deliverBlk env c h
              unfold deliverBlk
              dsimp only
              rw [← hall]
              rfl
            · rw [if_neg hqc]
              exact ⟨⟨trivial, fun hok => hqc hok.2.2⟩, fun _ => hne, nofun, p :: ps, _, rfl⟩

def Votes (vote : Vote K) (own : Bool) : Effect K → Prop
  | .count v o _ => v = vote ∧ o = own
  | .miscount v => v = vote
  | .raiseHqc h _ => h = vote.blkHash
  | .wake h => h = vote.blkHash
  | _ => False

theorem onQcFinish_trail (env : Env K) (c : HotStuffCore K) {P : Effect K → Prop} (h : Uint256)
    (hP : P (.wake h)) :
    Trail env P c (c.onQcFinish h).2 ∧ ((c.onQcFinish h).1 = true → h ∈ c.qcWaiting) := by
  unfold HotStuffCore.onQcFinish
  split
  · rename_i hmem
    exact ⟨Trail.single (e := .wake h) hP trivial, fun _ => hmem⟩
  · exact ⟨.refl, fun hf => by cases hf⟩

@[simp] theorem hqc_onQcFinish (c : HotStuffCore K) (h : Uint256) :
    (c.onQcFinish h).2.hqc = c.hqc := by
  unfold HotStuffCore.onQcFinish
  split <;> rfl

/-- A signature is refused for another hash, or its signer is beyond the bitmap. -/
theorem addPart_error {qc : QuorumCert K} {rid : ReplicaID} {pc : PartCert K} {e : Exn}
    (h : qc.addPart rid pc = .error e) :
    (e = .certMismatch ∧ pc.objHash ≠ qc.objHash) ∨ e = .undefinedBehaviour := by
  unfold QuorumCert.addPart at h
  split at h
  · rename_i hne
    cases h
    exact .inl ⟨rfl, hne⟩
  · split at h
    · cases h
      exact .inr rfl
    · cases h

theorem qcWaiting_updateHqc (h : Uint256) (qc : QuorumCert K) :
    (c.updateHqc h qc).qcWaiting = c.qcWaiting := by
  unfold HotStuffCore.updateHqc
  split <;> rfl

theorem onReceiveVote_spec (env : Env K) (vote : Vote K) (own : Bool)
    (hown : own = true → vote = ⟨c.id, vote.blkHash, PartCert.create c.privKey vote.blkHash⟩ ∧
      .accept vote.blkHash ∈ c.trace) :
    match c.onReceiveVote vote with
    | .ok (woken, c') => Trail env (Votes vote own) c c' ∧
        (c'.hqc = c.hqc ∨ c'.hqc.1 = vote.blkHash) ∧
        (woken = true → vote.blkHash ∈ c.qcWaiting)
    | .error (e, c') => e ≠ .safetyBreached ∧
        (e ≠ .undefinedBehaviour → Trail env (Votes vote own) c c') := by
  unfold HotStuffCore.onReceiveVote
  by_cases hd : (c.blk vote.blkHash).delivered = true
  swap
  · rw [if_neg hd]
    exact ⟨nofun, fun _ => .refl⟩
  rw [if_pos hd]
  dsimp only
  by_cases hfew : c.config.nmajority ≤ (c.blk vote.blkHash).voted.card
  · rw [if_pos hfew]
    exact ⟨.refl, .inl rfl, nofun⟩
  rw [if_neg hfew]
  by_cases hnew : vote.voter ∈ (c.blk vote.blkHash).voted
  · rw [if_pos hnew]
    exact ⟨.refl, .inl rfl, nofun⟩
  rw [if_neg hnew]
  have hs := isSome_of_delivered hd
  cases hadd : ((c.blk vote.blkHash).selfQc.getD
      (QuorumCert.create c.config vote.blkHash)).addPart vote.voter vote.cert with
  | error e =>
      rcases addPart_error hadd with ⟨rfl, hmis⟩ | rfl
      swap
      · exact ⟨nofun, fun hne => absurd rfl hne⟩
      refine ⟨nofun, fun _ => ?_⟩
      have heq : c.modifyBlk vote.blkHash (fun b =>
          { b with
            voted := insert vote.voter b.voted
            selfQc := some ((c.blk vote.blkHash).selfQc.getD
              (QuorumCert.create c.config vote.blkHash)) }) = apply env c (.miscount vote) :=
        c.modifyBlk_congr rfl
      rw [heq]
      exact Trail.single (e := .miscount vote) rfl ⟨hd, Nat.lt_of_not_le hfew, hnew, hmis⟩
  | ok qc =>
      have hcount : Trail env (Votes vote own) c (countVote c vote qc) :=
        Trail.single (e := .count vote own qc) ⟨rfl, rfl⟩
          ⟨hd, Nat.lt_of_not_le hfew, hnew, hadd, hown⟩
      dsimp only
      rw [HotStuffCore.modifyBlk_modifyBlk]
      dsimp only
      by_cases hlast : (c.blk vote.blkHash).voted.card + 1 = c.config.nmajority
      · have heq : (c.modifyBlk vote.blkHash (fun b =>
            { b with voted := insert vote.voter b.voted, selfQc := some qc })).emit
              (.quorum vote.blkHash qc) = countVote c vote qc := by
          unfold countVote
          rw [if_pos hlast]
        rw [if_pos hlast, heq]
        have hblk : (countVote c vote qc).blk vote.blkHash =
            { c.blk vote.blkHash with
              voted := insert vote.voter (c.blk vote.blkHash).voted, selfQc := some qc } := by
          rw [← heq, HotStuffCore.blk_emit, c.blk_modifyBlk_self hs]
        have hfields : (countVote c vote qc).config = c.config ∧
            (countVote c vote qc).qcWaiting = c.qcWaiting ∧
            (countVote c vote qc).hqc = c.hqc := by
          rw [← heq]
          exact ⟨rfl, rfl, rfl⟩
        generalize countVote c vote qc = c₁ at hcount hblk hfields
        obtain ⟨hconfig, hwaiting, hhqc⟩ := hfields
        have hraise : Trail env (Votes vote own) c₁ (c₁.updateHqc vote.blkHash qc) := by
          rcases updateHqc_cases c₁ vote.blkHash qc with ⟨hsame, _⟩ | ⟨hlt, hsame⟩
          · rw [hsame]
            exact .refl
          · rw [hsame]
            refine Trail.single (e := .raiseHqc vote.blkHash qc) rfl ⟨hlt, .inr ⟨?_, ?_, ?_⟩⟩
            · rw [hblk]
              exact hd
            · rw [hblk]
            · rw [hblk, hconfig]
              show (insert vote.voter (c.blk vote.blkHash).voted).card = _
              rw [Finset.card_insert_of_notMem hnew]
              exact hlast
        have hfin := onQcFinish_trail env (c₁.updateHqc vote.blkHash qc)
          (P := Votes vote own) vote.blkHash rfl
        have hsame := hqc_onQcFinish (c₁.updateHqc vote.blkHash qc) vote.blkHash
        generalize (c₁.updateHqc vote.blkHash qc).onQcFinish vote.blkHash = res at hfin hsame ⊢
        obtain ⟨woken, c'⟩ := res
        refine ⟨hcount.trans (hraise.trans hfin.1), ?_, fun hw => ?_⟩
        · rcases hqc_updateHqc c₁ vote.blkHash qc with h | h
          · exact .inl (hsame.trans (h.trans hhqc))
          · exact .inr (by rw [hsame, h])
        · have := hfin.2 hw
          rwa [qcWaiting_updateHqc, hwaiting] at this
      · have heq : c.modifyBlk vote.blkHash (fun b =>
            { b with voted := insert vote.voter b.voted, selfQc := some qc }) =
              countVote c vote qc := by
          unfold countVote
          rw [if_neg hlast]
        rw [if_neg hlast, heq]
        refine ⟨hcount, .inl ?_, nofun⟩
        rw [← heq]
        rfl

/-! Proposing. -/

/-- The effects of storing and delivering the block that `on_propose` builds in state `c`. -/
def Inserts (env : Env K) (c : HotStuffCore K) (data : BlockData K) : Effect K → Prop
  | .create d => d = data
  | .resetSelfQc h voted =>
      h = env.getHash data ∧ (c.storage h).isSome ∧ voted = (c.blk h).voted ∧
        data.parentHashes ≠ []
  | .deliver h => h = env.getHash data ∧ (c.storage h).isSome
  | .spoil h _ _ => h = env.getHash data ∧ (c.storage h).isSome ∧
      (c.blk h).delivered = false ∧ ¬ Deliverable c h ∧ data.parentHashes ≠ []
  | _ => False

private theorem create_eq (env : Env K) {data : BlockData K}
    (hnone : c.storage (env.getHash data) = none)
    (hparents : ∀ p ∈ data.parentHashes, (c.blk p).delivered = true) :
    deliverBlk env ((c.addNew (env.getHash data) data).modifyBlk (env.getHash data)
      (fun b => { b with selfQc := some (QuorumCert.create c.config (env.getHash data)) }))
        (env.getHash data) = createBlk env c data := by
  have hs : ((c.addNew (env.getHash data) data).storage (env.getHash data)).isSome := by
    simp [HotStuffCore.addNew, HotStuffCore.addBlk, hnone]
  have hne : ∀ p ∈ data.parentHashes, p ≠ env.getHash data := by
    rintro p hp rfl
    have := isSome_of_delivered (hparents _ hp)
    rw [hnone] at this
    cases this
  have hother : ∀ p, p ≠ env.getHash data →
      (c.addNew (env.getHash data) data).blk p = c.blk p := by
    intro p hp
    simp [HotStuffCore.addNew, HotStuffCore.addBlk, HotStuffCore.blk, hnone, hp]
  have hdata : ((c.addNew (env.getHash data) data).blk (env.getHash data)).data = data := by
    simp [HotStuffCore.addNew, HotStuffCore.addBlk, HotStuffCore.blk, hnone]
  have hheight : ∀ l : List Uint256, (∀ p ∈ l, p ≠ env.getHash data) →
      l.head?.elim 0 (fun p => (((c.addNew (env.getHash data) data).modifyBlk (env.getHash data)
        (fun b => { b with
          selfQc := some (QuorumCert.create c.config (env.getHash data)) })).blk p).height) =
      l.head?.elim 0 (fun p => (c.blk p).height) := by
    intro l hl
    cases l with
    | nil => rfl
    | cons p l =>
        show (((c.addNew _ data).modifyBlk _ _).blk p).height = (c.blk p).height
        rw [HotStuffCore.blk_modifyBlk_ne _ (hl p List.mem_cons_self),
          hother p (hl p List.mem_cons_self)]
  unfold deliverBlk createBlk
  dsimp only
  rw [HotStuffCore.blk_modifyBlk_self _ hs, hdata, hheight _ hne,
    HotStuffCore.modifyBlk_modifyBlk]
  congr 2
  simp [HotStuffCore.addNew, HotStuffCore.addBlk, HotStuffCore.modifyBlk, HotStuffCore.emit,
    hnone]

theorem config_addNew (c : HotStuffCore K) (h : Uint256) (data : BlockData K) :
    (c.addNew h data).config = c.config := by
  unfold HotStuffCore.addNew
  split
  · rfl
  · exact congrArg Registers.config (registers_addBlk _ _ _)

theorem insert_fresh (env : Env K) {data : BlockData K}
    (hst : c.storage (env.getHash data) = none) (hne : data.parentHashes ≠ [])
    (hparents : ∀ p ∈ data.parentHashes, (c.blk p).delivered = true)
    (hstored : (c.storage data.qc.objHash).isSome) :
    ∃ b, ((c.addNew (env.getHash data) data).modifyBlk (env.getHash data)
      (fun b => { b with selfQc := some (QuorumCert.create c.config (env.getHash data)) })
        ).onDeliverBlk env (env.getHash data) = .ok (b, createBlk env c data) := by
  have heq := create_eq env hst hparents
  have hnew : ((c.addNew (env.getHash data) data).modifyBlk (env.getHash data)
      (fun b => { b with
        selfQc := some (QuorumCert.create c.config (env.getHash data)) })).storage =
      Function.update c.storage (env.getHash data) (some
        { data
          parents := data.parentHashes
          qcRef := some c.hqc.1
          selfQc := some (QuorumCert.create c.config (env.getHash data))
          height := (data.parentHashes.head?.elim 0 (fun p => (c.blk p).height)) + 1
          delivered := false
          decision := false
          voted := ∅ }) := by
    simp [HotStuffCore.addNew, HotStuffCore.addBlk, HotStuffCore.modifyBlk,
      HotStuffCore.emit, hst]
  generalize (c.addNew (env.getHash data) data).modifyBlk (env.getHash data)
      (fun b => { b with
        selfQc := some (QuorumCert.create c.config (env.getHash data)) }) = c₁ at heq hnew ⊢
  have hblk : c₁.blk (env.getHash data) =
      { data
        parents := data.parentHashes
        qcRef := some c.hqc.1
        selfQc := some (QuorumCert.create c.config (env.getHash data))
        height := (data.parentHashes.head?.elim 0 (fun p => (c.blk p).height)) + 1
        delivered := false
        decision := false
        voted := ∅ } := by
    simp [HotStuffCore.blk, hnew]
  have hs' : (c₁.storage (env.getHash data)).isSome := by simp [hnew]
  have hok : Deliverable c₁ (env.getHash data) := by
    refine ⟨by rw [hblk]; exact hne, fun p hp => ?_, ?_⟩
    · rw [hblk] at hp
      have hpne : p ≠ env.getHash data := by
        rintro rfl
        have := isSome_of_delivered (hparents _ hp)
        rw [hst] at this
        cases this
      have : c₁.blk p = c.blk p := by
        simp [HotStuffCore.blk, hnew, hpne]
      rw [this]
      exact hparents p hp
    · rw [hblk, hnew]
      by_cases hx : data.qc.objHash = env.getHash data
      · simp [hx]
      · simpa [Function.update_apply, hx] using hstored
  have hspec := onDeliverBlk_spec env hs'
  cases hres : c₁.onDeliverBlk env (env.getHash data) with
  | ok r =>
      obtain ⟨b, c'⟩ := r
      rw [hres] at hspec
      rcases hspec with ⟨hd, rfl⟩ | ⟨_, rfl⟩
      · rw [hblk] at hd
        cases hd
      · exact ⟨b, congrArg (fun d => Except.ok (b, d)) heq⟩
  | error r =>
      obtain ⟨e, c'⟩ := r
      rw [hres] at hspec
      exact absurd hok hspec.1.2

theorem insert_spec (env : Env K) {data : BlockData K} (hne : data.parentHashes ≠ [])
    (hparents : ∀ p ∈ data.parentHashes, (c.blk p).delivered = true) (hqc : data.qc = c.hqc.2)
    (hstored : (c.storage data.qc.objHash).isSome) :
    match ((c.addNew (env.getHash data) data).modifyBlk (env.getHash data)
      (fun b => { b with selfQc := some (QuorumCert.create c.config (env.getHash data)) })
        ).onDeliverBlk env (env.getHash data) with
    | .ok (_, c') => Trail env (Inserts env c data) c c' ∧
        (c'.blk (env.getHash data)).delivered = true
    | .error (e, c') => Trail env (Inserts env c data) c c' ∧ e ≠ .safetyBreached := by
  cases hst : c.storage (env.getHash data) with
  | some b =>
      have hs : (c.storage (env.getHash data)).isSome := by rw [hst]; rfl
      have hsame : c.addNew (env.getHash data) data = c := by
        simp [HotStuffCore.addNew, hs]
      rw [hsame]
      have hreset : Trail env (Inserts env c data) c
          (apply env c (.resetSelfQc (env.getHash data) (c.blk (env.getHash data)).voted)) :=
        Trail.single ⟨rfl, hs, rfl, hne⟩ ⟨hs, rfl⟩
      have hnode : ∀ x, node ((apply env c (.resetSelfQc (env.getHash data)
          (c.blk (env.getHash data)).voted)).blk x) = node (c.blk x) :=
        fun x => node_blk_eq (map_node_apply id x)
      have hstorage : ∀ x, ((apply env c (.resetSelfQc (env.getHash data)
          (c.blk (env.getHash data)).voted)).storage x).isSome = (c.storage x).isSome :=
        fun x => isSome_eq (map_node_apply id x)
      have hs' := (hstorage (env.getHash data)).trans hs
      have hspec := onDeliverBlk_spec env hs'
      generalize hc₁ : apply env c (.resetSelfQc (env.getHash data)
        (c.blk (env.getHash data)).voted) = c₁ at hreset hnode hstorage hs' hspec
      have hshow : c.modifyBlk (env.getHash data) (fun b => { b with
          selfQc := some (QuorumCert.create c.config (env.getHash data)) }) = c₁ := hc₁
      rw [hshow]
      cases hres : c₁.onDeliverBlk env (env.getHash data) with
      | ok r =>
          obtain ⟨b, c'⟩ := r
          rw [hres] at hspec
          rcases hspec with ⟨hd, rfl⟩ | ⟨hallow, rfl⟩
          · exact ⟨hreset, hd⟩
          · refine ⟨hreset.trans (Trail.single (e := .deliver (env.getHash data))
              ⟨rfl, hs⟩ hallow), ?_⟩
            show ((deliverBlk env c₁ _).blk _).delivered = true
            rw [blk_deliverBlk_self env hs']
      | error r =>
          obtain ⟨e, c'⟩ := r
          rw [hres] at hspec
          obtain ⟨⟨hund, hnot⟩, _, hne', parents, height, rfl⟩ := hspec
          refine ⟨hreset.trans (Trail.single
            (e := .spoil (env.getHash data) parents height) ⟨rfl, hs, ?_, ?_, hne⟩ hund), hne'⟩
          · exact (congrArg Node.delivered (hnode _)).symm.trans hund
          · intro hok
            have hdata : (c₁.blk (env.getHash data)).data = (c.blk (env.getHash data)).data :=
              congrArg Node.data (hnode _)
            refine hnot ⟨?_, ?_, ?_⟩
            · rw [hdata]
              exact hok.1
            · intro p hp
              rw [hdata] at hp
              exact (congrArg Node.delivered (hnode p)).trans (hok.2.1 p hp)
            · rw [hdata, hstorage]
              exact hok.2.2
  | none =>
      obtain ⟨b, hres⟩ := insert_fresh env hst hne hparents hstored
      rw [hres]
      refine ⟨Trail.single (e := .create data) rfl ⟨hst, hqc, hne, hparents, hstored⟩, ?_⟩
      rw [blk_createBlk_self]

/-- The effects of `on_propose` on the block it builds in state `c`, up to its vote. -/
def Builds (env : Env K) (c : HotStuffCore K) (data : BlockData K) : Effect K → Prop
  | .eraseTails _ => True
  | .raiseHqc _ _ => True
  | .raiseLock _ => True
  | .commit _ _ => True
  | e => Inserts env c data e

/-- Where `on_propose` stands before it votes for the block it has built in state `c`. -/
structure Built (env : Env K) (c c' : HotStuffCore K) (h : Uint256) : Prop where
  delivered : (c'.blk h).delivered = true
  processed : Processed env c' h
  hqc : c'.hqc = c.hqc ∨ (c'.blk h).qcRef = some c'.hqc.1
  vheight : c'.vheight = c.vheight
  qcWaiting : c'.qcWaiting = c.qcWaiting

/-- The vote for the block built in state `c` goes to a block that is not on the branch of the
block the replica is locked on by then. -/
def BuildsOffLock (env : Env K) (c : HotStuffCore K) (data : BlockData K) : Prop :=
  ∃ d, c.build env data = .ok d ∧ d.vheight < (d.blk (env.getHash data)).height ∧
    d.checkAncestry d.bLock (env.getHash data) = false

/-- The effects of `on_propose` on the block it builds in state `c`. -/
def Proposes (env : Env K) (c : HotStuffCore K) (data : BlockData K) : Effect K → Prop
  | .acceptOwn h d offLock =>
      h = env.getHash data ∧ d = data ∧ (offLock = true → BuildsOffLock env c data)
  | .sign h => h = env.getHash data
  | .count vote own _ => vote.blkHash = env.getHash data ∧ own = true
  | .miscount vote => vote.blkHash = env.getHash data ∧ vote.cert.objHash = vote.blkHash
  | .wake h => h = env.getHash data
  | e => Builds env c data e

/-- What holds once the replica has counted its own vote for the block it built in state `c`. -/
structure Proposed (env : Env K) (c c' : HotStuffCore K) (h : Uint256) : Prop where
  delivered : (c'.blk h).delivered = true
  accepted : .accept h ∈ c'.trace
  higher : c.vheight < (c'.blk h).height
  hqc : c'.hqc.1 = h ∨ c'.hqc = c.hqc ∨ (c'.blk h).qcRef = some c'.hqc.1

theorem allowed_throw {e : Exn} (he : e ≠ .safetyBreached) : Allowed env c (.throw e) :=
  fun h => absurd h he

theorem proposes_of_builds {data : BlockData K} {e : Effect K} (he : Builds env c data e) :
    Proposes env c data e := by
  cases e <;> first | exact he | exact absurd he id

theorem createBlk_eraseTails (env : Env K) (c : HotStuffCore K) (data : BlockData K) :
    createBlk env (c.eraseTails data.parentHashes) data = createBlk env c data := by
  unfold createBlk HotStuffCore.eraseTails HotStuffCore.emit
  simp only [List.filter_filter, Bool.and_self]
  rfl

theorem build_fresh (env : Env K) {data : BlockData K}
    (hst : c.storage (env.getHash data) = none) (hne : data.parentHashes ≠ [])
    (hparents : ∀ p ∈ data.parentHashes, (c.blk p).delivered = true)
    (hstored : (c.storage data.qc.objHash).isSome) :
    c.build env data = (createBlk env c data).update env (env.getHash data) := by
  obtain ⟨b, hins⟩ := insert_fresh (c := c.eraseTails data.parentHashes) env hst hne hparents
    hstored
  unfold HotStuffCore.build
  simp only [bind, Except.bind]
  rw [config_addNew, hins, createBlk_eraseTails]

theorem build_spec (env : Env K) {data : BlockData K} (hne : data.parentHashes ≠ [])
    (hparents : ∀ p ∈ data.parentHashes, (c.blk p).delivered = true) (hqc : data.qc = c.hqc.2)
    (hstored : (c.storage c.hqc.2.objHash).isSome) :
    match c.build env data with
    | .ok c' => Trail env (Builds env c data) c c' ∧ Built env c c' (env.getHash data)
    | .error (e, c') => Trail env (Builds env c data) c c' ∧ Allowed env c' (.throw e) := by
  unfold HotStuffCore.build
  simp only [bind, Except.bind]
  have herase : Trail env (Builds env c data) c (c.eraseTails data.parentHashes) :=
    Trail.single (e := .eraseTails data.parentHashes) trivial trivial
  have hinsert := insert_spec (c := c.eraseTails data.parentHashes) env hne hparents hqc
    (by rw [hqc]; exact hstored)
  have hmono : ∀ e, Inserts env (c.eraseTails data.parentHashes) data e → Builds env c data e := by
    intro e he
    cases e <;> first | exact he | exact absurd he id
  rw [config_addNew]
  cases hres : (((c.eraseTails data.parentHashes).addNew (env.getHash data) data).modifyBlk
      (env.getHash data) (fun b => { b with
        selfQc := some (QuorumCert.create (c.eraseTails data.parentHashes).config
          (env.getHash data)) })).onDeliverBlk env (env.getHash data) with
  | error r =>
      obtain ⟨e, c₁⟩ := r
      rw [hres] at hinsert
      exact ⟨herase.trans (hinsert.1.mono hmono), allowed_throw hinsert.2⟩
  | ok r =>
      obtain ⟨b, c₁⟩ := r
      rw [hres] at hinsert
      obtain ⟨hins, hd₁⟩ := hinsert
      have hregs : c₁.hqc = c.hqc ∧ c₁.vheight = c.vheight ∧ c₁.qcWaiting = c.qcWaiting := by
        refine Trail.invariant (I := fun d => d.hqc = c.hqc ∧ d.vheight = c.vheight ∧
          d.qcWaiting = c.qcWaiting) hins ⟨rfl, rfl, rfl⟩ ?_
        intro d e hPe hinv _
        rw [hqc_apply, vheight_apply, qcWaiting_apply]
        · exact hinv
        all_goals
          intros
          rintro rfl
          exact hPe
      replace hins := herase.trans (hins.mono hmono)
      dsimp only
      cases hup : c₁.update env (env.getHash data) with
      | error r =>
          obtain ⟨e, c₂⟩ := r
          obtain ⟨htrail, hallow⟩ := update_error hd₁ hup
          refine ⟨hins.trans (htrail.mono (fun e he => ?_)), hallow⟩
          cases e <;> first | exact trivial | exact absurd he id
      | ok c₂ =>
          obtain ⟨htrail, hproc, hhqc⟩ := update_ok hd₁ hup
          have hregs₂ : c₂.vheight = c.vheight ∧ c₂.qcWaiting = c.qcWaiting := by
            refine Trail.invariant (I := fun d => d.vheight = c.vheight ∧
              d.qcWaiting = c.qcWaiting) htrail hregs.2 ?_
            intro d e hPe hinv _
            rw [vheight_apply, qcWaiting_apply]
            · exact hinv
            all_goals
              intros
              rintro rfl
              exact hPe
          refine ⟨hins.trans (htrail.mono (fun e he => ?_)),
            (grows_of_trail htrail).delivered hd₁, hproc, ?_, hregs₂.1, hregs₂.2⟩
          · cases e <;> first | exact trivial | exact absurd he id
          · rcases hhqc with h | h
            · exact .inl (h.trans hregs.1)
            · exact .inr h

theorem onPropose_spec (env : Env K) (cmds : List Uint256) {parents : List Uint256}
    (extra : List UInt8)
    (hparents : ∀ p ∈ parents, (c.blk p).delivered = true)
    (hstored : (c.storage c.hqc.2.objHash).isSome) :
    match c.onPropose env cmds parents extra with
    | .ok (woken, c') => Trail env (Proposes env c (c.newData cmds parents extra)) c c' ∧
        Proposed env c c' (env.getHash (c.newData cmds parents extra)) ∧
        (woken = true → env.getHash (c.newData cmds parents extra) ∈ c.qcWaiting)
    | .error (e, c') => e ≠ .undefinedBehaviour →
        Trail env (Proposes env c (c.newData cmds parents extra)) c c' ∧
          Allowed env c' (.throw e) := by
  unfold HotStuffCore.onPropose
  cases hempty : parents.isEmpty with
  | true => exact fun _ => ⟨.refl, allowed_throw nofun⟩
  | false =>
  have hne : parents ≠ [] := by
    rintro rfl
    cases hempty
  simp only [Bool.false_eq_true, if_false, bind, Except.bind]
  have hhashes : (c.newData cmds parents extra).parentHashes = parents := rfl
  have hdata : (c.newData cmds parents extra).qc = c.hqc.2 := rfl
  generalize c.newData cmds parents extra = data at hhashes hdata ⊢
  have hbuild := build_spec env (by rw [hhashes]; exact hne) (by rw [hhashes]; exact hparents)
    hdata hstored
  cases hres : c.build env data with
  | error r =>
      obtain ⟨e, c₁⟩ := r
      rw [hres] at hbuild
      exact fun _ => ⟨hbuild.1.mono (fun _ => proposes_of_builds), hbuild.2⟩
  | ok d =>
      rw [hres] at hbuild
      obtain ⟨htrail, hbuilt⟩ := hbuild
      replace htrail := htrail.mono (fun _ => proposes_of_builds)
      dsimp only
      by_cases hlow : (d.blk (env.getHash data)).height ≤ d.vheight
      · rw [if_pos hlow]
        exact fun _ => ⟨htrail, allowed_throw nofun⟩
      rw [if_neg hlow]
      have hhigh := Nat.lt_of_not_le hlow
      have haccept : Trail env (Proposes env c data) d (apply env d
          (.acceptOwn (env.getHash data) data (!d.checkAncestry d.bLock (env.getHash data)))) := by
        refine Trail.single ⟨rfl, rfl, fun hoff => ⟨d, hres, hhigh, by simpa using hoff⟩⟩
          ⟨hbuilt.delivered, hhigh, hbuilt.processed, rfl, ?_, fun hon => by simpa using hon⟩
        rcases hbuilt.hqc with h | h
        · exact .inl (by rw [hdata, h])
        · exact .inr h
      have hsign : Trail env (Proposes env c data) (d.accept (env.getHash data))
          (apply env (d.accept (env.getHash data)) (.sign (env.getHash data))) :=
        Trail.single rfl List.mem_cons_self
      have hvote := onReceiveVote_spec
        (c := (d.accept (env.getHash data)).emit (.partCert (env.getHash data))) env
        ⟨d.id, env.getHash data, PartCert.create d.privKey (env.getHash data)⟩ true
        (fun _ => ⟨rfl, List.mem_cons_of_mem _ List.mem_cons_self⟩)
      have hmono : ∀ e, Votes ⟨d.id, env.getHash data,
          PartCert.create d.privKey (env.getHash data)⟩ true e → Proposes env c data e := by
        intro e he
        cases e <;> first
          | exact trivial
          | exact absurd he id
          | exact he
          | (obtain ⟨rfl, ho⟩ := he; exact ⟨rfl, ho⟩)
          | (obtain rfl := he; exact ⟨rfl, rfl⟩)
      have hall := htrail.trans (haccept.trans hsign)
      cases hvres : ((d.accept (env.getHash data)).emit
          (.partCert (env.getHash data))).onReceiveVote
          ⟨d.id, env.getHash data, PartCert.create d.privKey (env.getHash data)⟩ with
      | error r =>
          obtain ⟨e, c'⟩ := r
          rw [hvres] at hvote
          exact fun hne => ⟨hall.trans ((hvote.2 hne).mono hmono), allowed_throw hvote.1⟩
      | ok r =>
          obtain ⟨woken, c'⟩ := r
          rw [hvres] at hvote
          obtain ⟨hvtrail, hvhqc, hvwoken⟩ := hvote
          have hgrows := grows_of_trail hvtrail
          refine ⟨hall.trans (hvtrail.mono hmono), ⟨?_, ?_, ?_, ?_⟩, fun hw => ?_⟩
          · exact hgrows.delivered hbuilt.delivered
          · exact hgrows.trace.subset (List.mem_cons_of_mem _ List.mem_cons_self)
          · rw [hgrows.height hbuilt.delivered, ← hbuilt.vheight]
            exact hhigh
          · rcases hvhqc with h | h
            · rcases hbuilt.hqc with h' | h'
              · exact .inr (.inl (h.trans h'))
              · refine .inr (.inr ?_)
                rw [hgrows.qcRef hbuilt.delivered, h]
                exact h'
            · exact .inl h
          · exact hbuilt.qcWaiting ▸ hvwoken hw

/-! Receiving proposals. -/

/-- On receiving the block in state `c` the replica votes although the block is not on the branch
of the block it is locked on by then: only the liveness condition speaks for it. -/
def VotesOffLock (env : Env K) (c : HotStuffCore K) (h : Uint256) : Prop :=
  ∃ c₁, c.update env h = .ok c₁ ∧ c₁.vheight < (c₁.blk h).height ∧ c₁.qcAboveLock h = true ∧
    c₁.checkAncestry c₁.bLock h = false

/-- The effects of `on_receive_proposal` on a block in state `c`. -/
def Receives (env : Env K) (c : HotStuffCore K) (h : Uint256) : Effect K → Prop
  | .raiseHqc q _ => (c.blk h).qcRef = some q
  | .raiseLock _ => True
  | .commit _ _ => True
  | .accept k offLock => k = h ∧ (offLock = true → VotesOffLock env c h)
  | .wake _ => True
  | _ => False

theorem decideVote_spec {h : Uint256} (hd : (c.blk h).delivered = true)
    (hproc : Processed env c h) :
    match c.decideVote h with
    | .ok (opinion, c') => (opinion = false ∧ c' = c) ∨
        (opinion = true ∧ c.vheight < (c.blk h).height ∧
          ∃ offLock, Allowed env c (.accept h offLock) ∧ c' = apply env c (.accept h offLock) ∧
            (offLock = true → c.qcAboveLock h = true ∧ c.checkAncestry c.bLock h = false))
    | .error (e, c') => c' = c ∧ e ≠ .safetyBreached := by
  unfold HotStuffCore.decideVote
  by_cases hlow : (c.blk h).height ≤ c.vheight
  · rw [if_pos hlow]
    exact .inl ⟨rfl, rfl⟩
  rw [if_neg hlow]
  have hhigh : c.vheight < (c.blk h).height := Nat.lt_of_not_le hlow
  cases hlive : c.qcAboveLock h with
  | true =>
      rw [if_pos rfl]
      refine .inr ⟨rfl, hhigh, !c.checkAncestry c.bLock h, ⟨hd, hhigh, hproc, ?_, ?_⟩, rfl, ?_⟩
      · intro ho
        simpa using ho
      · exact fun _ => hlive
      · intro ho
        exact ⟨rfl, by simpa using ho⟩
  | false =>
      simp only [Bool.false_eq_true, if_false]
      cases hdesc : c.descend (c.blk c.bLock).height h with
      | none => exact ⟨rfl, nofun⟩
      | some r =>
          obtain ⟨queue, b⟩ := r
          dsimp only
          by_cases hb : b = c.bLock
          · rw [if_pos hb]
            subst hb
            exact .inr ⟨rfl, hhigh, false,
              ⟨hd, hhigh, hproc, fun _ => checkAncestry_iff.mpr ⟨queue, hdesc⟩, nofun⟩,
              rfl, nofun⟩
          · rw [if_neg hb]
            exact .inl ⟨rfl, rfl⟩

theorem onReceiveProposal_spec (env : Env K) (c : HotStuffCore K) (prop : Proposal) :
    match c.onReceiveProposal env prop with
    | .ok (opinion, _, c') => (c.blk prop.blk).delivered = true ∧
        Trail env (Receives env c prop.blk) c c' ∧ (opinion = true → .accept prop.blk ∈ c'.trace)
    | .error (e, c') => Trail env (Receives env c prop.blk) c c' ∧
        Allowed env c' (.throw e) := by
  unfold HotStuffCore.onReceiveProposal
  by_cases hd : (c.blk prop.blk).delivered = true
  swap
  · rw [if_neg hd]
    exact ⟨.refl, allowed_throw nofun⟩
  rw [if_pos hd]
  simp only [bind, Except.bind]
  cases hup : c.update env prop.blk with
  | error r =>
      obtain ⟨e, c₁⟩ := r
      obtain ⟨htrail, hallow⟩ := update_error hd hup
      refine ⟨htrail.mono (fun e he => ?_), hallow⟩
      cases e <;> first | exact he | exact absurd he id
  | ok c₁ =>
      obtain ⟨htrail, hproc, _⟩ := update_ok hd hup
      have hd₁ := (grows_of_trail htrail).delivered hd
      replace htrail : Trail env (Receives env c prop.blk) c c₁ := by
        refine htrail.mono (fun e he => ?_)
        cases e <;> first | exact he | exact absurd he id
      have hspec := decideVote_spec hd₁ hproc
      dsimp only
      cases hres : c₁.decideVote prop.blk with
      | error r =>
          obtain ⟨e, c₂⟩ := r
          rw [hres] at hspec
          obtain ⟨rfl, hne⟩ := hspec
          exact ⟨htrail, allowed_throw hne⟩
      | ok r =>
          obtain ⟨opinion, c₂⟩ := r
          rw [hres] at hspec
          have hvote : Trail env (Receives env c prop.blk) c c₂ ∧
              (opinion = true → .accept prop.blk ∈ c₂.trace) := by
            rcases hspec with ⟨rfl, rfl⟩ | ⟨rfl, hhigh, offLock, hallow, rfl, hoff⟩
            · exact ⟨htrail, nofun⟩
            · refine ⟨htrail.trans (Trail.single (e := .accept prop.blk offLock)
                ⟨rfl, fun ho => ?_⟩ hallow), fun _ => List.mem_cons_self⟩
              obtain ⟨hlive, hnot⟩ := hoff ho
              exact ⟨c₁, hup, hhigh, hlive, hnot⟩
          obtain ⟨htrail₂, hacc⟩ := hvote
          dsimp only
          cases hq : (c₂.blk prop.blk).qcRef with
          | none => exact ⟨hd, htrail₂, hacc⟩
          | some q =>
              have hfin := onQcFinish_trail env c₂ (P := Receives env c prop.blk) q trivial
              have htrace : (c₂.onQcFinish q).2.trace = c₂.trace := by
                unfold HotStuffCore.onQcFinish
                split <;> rfl
              dsimp only
              generalize c₂.onQcFinish q = res at hfin htrace ⊢
              obtain ⟨woken, c'⟩ := res
              refine ⟨hd, htrail₂.trans hfin.1, fun ho => ?_⟩
              rw [htrace]
              exact hacc ho

/-! The remaining entry points. -/

section entries

variable {P : Effect K → Prop}

theorem addBlk_trail {data : BlockData K}
    (hP : c.storage (env.getHash data) = none → P (.store data)) :
    Trail env P c (c.addBlk (env.getHash data) (.fetched data)) := by
  cases hs : c.storage (env.getHash data) with
  | none => exact Trail.single (e := .store data) (hP hs) hs
  | some b =>
      rw [c.addBlk_of_isSome (by rw [hs]; rfl)]
      exact .refl

theorem asyncQcFinish_trail {h : Uint256} (hP : P (.wait h)) :
    Trail env P c (c.asyncQcFinish h) := by
  unfold HotStuffCore.asyncQcFinish
  split
  · exact .refl
  · exact Trail.single (e := .wait h) hP trivial

theorem noteProposal_trail {h : Uint256} (hP : P (.note h)) :
    Trail env P c (c.noteProposal h) := by
  unfold HotStuffCore.noteProposal
  cases hb : c.checkAncestry c.hqc.1 h && decide ((c.blk c.hqcTail).height < (c.blk h).height) with
  | false => exact .refl
  | true =>
      rw [Bool.and_eq_true, decide_eq_true_eq] at hb
      exact Trail.single (e := .note h) hP hb

theorem castVote_trail {prop : Proposal} {opinion : Bool}
    (hacc : opinion = true → .accept prop.blk ∈ c.trace) (hsign : P (.sign prop.blk))
    (hsend : ∀ r v, P (.sendVote r v)) : Trail env P c (c.castVote prop opinion) := by
  unfold HotStuffCore.castVote
  split
  · rename_i hb
    rw [Bool.and_eq_true] at hb
    exact (Trail.single (e := .sign prop.blk) hsign (hacc hb.1)).trans
      (Trail.single (e := .sendVote prop.proposer
        ⟨c.id, prop.blk, PartCert.create c.privKey prop.blk⟩) (hsend _ _) trivial)
  · exact .refl

theorem trace_noteProposal (h : Uint256) : (c.noteProposal h).trace = c.trace := by
  unfold HotStuffCore.noteProposal
  split <;> rfl

end entries

end ArchipelagoHotStuff.Consensus.Trails
