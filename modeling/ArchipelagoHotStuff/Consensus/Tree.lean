/- Module: ArchipelagoHotStuff/Consensus/Tree
   digest: What the effects make of the block tree: delivered blocks never change, and they hang
     together from the genesis block. -/

import ArchipelagoHotStuff.Consensus.Effects
import ArchipelagoHotStuff.General.ParentTree

set_option autoImplicit false
set_option relaxedAutoImplicit false

namespace ArchipelagoHotStuff.Consensus.Tree

open Crypto.Wire Crypto.Certificates State Handlers Effects General.ParentTree

variable {K : Secp256k1}

/-- The part of a block that delivery settles. -/
structure Node (K : Secp256k1) where
  data : BlockData K
  parents : List Uint256
  qcRef : Option Uint256
  height : Nat
  delivered : Bool

def node (b : Block K) : Node K := ⟨b.data, b.parents, b.qcRef, b.height, b.delivered⟩

/-- The effects that change the shape of the tree. -/
def Shapes : Effect K → Prop
  | .store _ | .create _ | .deliver _ | .spoil _ _ _ => True
  | _ => False

def firstParent (c : HotStuffCore K) (h : Uint256) : Option Uint256 :=
  if (c.blk h).delivered then (c.blk h).parents.head? else none

section nodes

variable {env : Env K} {c c' : HotStuffCore K} {h x : Uint256} {e : Effect K}

theorem map_node_modifyBlk (h x : Uint256) {f : Block K → Block K}
    (hf : ∀ b, node (f b) = node b) :
    ((c.modifyBlk h f).storage x).map node = (c.storage x).map node := by
  rw [HotStuffCore.storage_modifyBlk]
  split
  · rename_i heq
    subst heq
    rw [Option.map_map]
    congr 1
    funext b
    exact hf b
  · rfl

theorem map_node_commitBlk (h x : Uint256) :
    ((c.commitBlk h).storage x).map node = (c.storage x).map node :=
  map_node_modifyBlk (c := c) h x (fun _ => rfl)

theorem map_node_commitAll (queue : List Uint256) (x : Uint256) :
    ((queue.foldl HotStuffCore.commitBlk c).storage x).map node = (c.storage x).map node := by
  induction queue generalizing c with
  | nil => rfl
  | cons h queue ih =>
      rw [List.foldl_cons, ih]
      exact map_node_commitBlk h x

theorem map_node_apply (he : ¬ Shapes e) (x : Uint256) :
    ((apply env c e).storage x).map node = (c.storage x).map node := by
  cases e with
  | store _ | create _ | deliver _ | spoil _ _ _ => exact absurd trivial he
  | resetSelfQc h voted => exact map_node_modifyBlk h x (fun _ => rfl)
  | miscount vote => exact map_node_modifyBlk vote.blkHash x (fun _ => rfl)
  | count vote own qc =>
      show ((countVote c vote qc).storage x).map node = _
      unfold countVote
      dsimp only
      split
      · exact map_node_modifyBlk vote.blkHash x (fun _ => rfl)
      · exact map_node_modifyBlk vote.blkHash x (fun _ => rfl)
  | commit queue h => exact map_node_commitAll queue.reverse x
  | _ => rfl

theorem node_blk_eq (h : (c'.storage x).map node = (c.storage x).map node) :
    node (c'.blk x) = node (c.blk x) := by
  unfold HotStuffCore.blk
  cases hs : c.storage x with
  | none =>
      rw [hs] at h
      rw [Option.map_eq_none_iff.mp h]
  | some b =>
      rw [hs] at h
      obtain ⟨b', hb', hn⟩ := Option.map_eq_some_iff.mp h
      rw [hb']
      exact hn

theorem isSome_eq (h : (c'.storage x).map node = (c.storage x).map node) :
    (c'.storage x).isSome = (c.storage x).isSome := by
  rw [← Option.isSome_map (f := node), h, Option.isSome_map]

end nodes

/-! Events. -/

/-- The events of committing one block, the latest first. -/
def commitEvents (c : HotStuffCore K) (h : Uint256) : List (Event K) :=
  (c.finalities h).reverse ++ [.consensus h]

def newEvents (env : Env K) (c : HotStuffCore K) : Effect K → List (Event K)
  | .create data => [.created (env.getHash data)]
  | .raiseHqc h _ => [.hqcUpdate h]
  | .commit queue _ => queue.flatMap (commitEvents c)
  | .accept h _ => [.accept h]
  | .acceptOwn h _ _ => [.accept h]
  | .sign h => [.partCert h]
  | .count vote _ qc =>
      if (c.blk vote.blkHash).voted.card + 1 = c.config.nmajority then
        [.quorum vote.blkHash qc]
      else []
  | .announce h => [.propose h]
  | .broadcast h => [.broadcast ⟨c.id, h⟩]
  | .sendVote lastProposer vote => [.vote lastProposer vote]
  | .throw e => [.threw e]
  | _ => []

section events

variable {c c' : HotStuffCore K}

theorem finalities_congr {h : Uint256} (hid : c'.id = c.id)
    (hnode : node (c'.blk h) = node (c.blk h)) : c'.finalities h = c.finalities h := by
  have hdata : (c'.blk h).data = (c.blk h).data := congrArg Node.data hnode
  have hheight : (c'.blk h).height = (c.blk h).height := congrArg Node.height hnode
  simp only [HotStuffCore.finalities, hid, hdata, hheight]

private theorem trace_commitAll (queue : List Uint256) (c : HotStuffCore K) :
    (queue.foldl HotStuffCore.commitBlk c).trace =
      queue.reverse.flatMap (commitEvents c) ++ c.trace := by
  induction queue generalizing c with
  | nil => rfl
  | cons h queue ih =>
      have hsame : commitEvents (c.commitBlk h) = commitEvents c := by
        funext x
        have hfin : (c.commitBlk h).finalities x = c.finalities x :=
          finalities_congr rfl (node_blk_eq (map_node_commitBlk h x))
        unfold commitEvents
        rw [hfin]
      rw [List.foldl_cons, ih, hsame, List.reverse_cons, List.flatMap_append]
      simp [HotStuffCore.commitBlk, commitEvents]

theorem trace_eq (env : Env K) (c : HotStuffCore K) (e : Effect K) :
    (apply env c e).trace = newEvents env c e ++ c.trace := by
  cases e with
  | store data =>
      show (c.addBlk _ _).trace = _
      unfold HotStuffCore.addBlk
      split <;> rfl
  | commit queue h =>
      show (queue.reverse.foldl HotStuffCore.commitBlk c).trace = _
      rw [trace_commitAll, List.reverse_reverse]
      rfl
  | count vote own qc =>
      show (countVote c vote qc).trace = _
      unfold countVote newEvents
      dsimp only
      split <;> rfl
  | _ => rfl

theorem mem_commitEvents {h : Uint256} {x : Event K} (hx : x ∈ commitEvents c h) :
    x = .consensus h ∨ ∃ fin, x = .decide fin := by
  unfold commitEvents HotStuffCore.finalities at hx
  rcases List.mem_append.mp hx with hx | hx
  · rw [List.mem_reverse, List.mem_mapIdx] at hx
    obtain ⟨i, hi, rfl⟩ := hx
    exact .inr ⟨_, rfl⟩
  · exact .inl (List.mem_singleton.mp hx)

/-- The event of an effect other than a commit and the counting of a vote. -/
def eventOf (env : Env K) (c : HotStuffCore K) : Effect K → Option (Event K)
  | .create data => some (.created (env.getHash data))
  | .raiseHqc h _ => some (.hqcUpdate h)
  | .accept h _ => some (.accept h)
  | .acceptOwn h _ _ => some (.accept h)
  | .sign h => some (.partCert h)
  | .announce h => some (.propose h)
  | .broadcast h => some (.broadcast ⟨c.id, h⟩)
  | .sendVote lastProposer vote => some (.vote lastProposer vote)
  | .throw e => some (.threw e)
  | _ => none

/-- The events of commits and of counted votes. -/
def Tallied : Event K → Prop
  | .quorum _ _ | .consensus _ | .decide _ => True
  | _ => False

theorem mem_newEvents {env : Env K} {e : Effect K} {a : Event K} (ha : ¬ Tallied a) :
    a ∈ newEvents env c e ↔ eventOf env c e = some a := by
  cases e with
  | commit queue k =>
      refine ⟨fun hmem => ?_, nofun⟩
      obtain ⟨x, _, hx⟩ := List.mem_flatMap.mp hmem
      rcases mem_commitEvents hx with rfl | ⟨fin, rfl⟩ <;> exact absurd trivial ha
  | count vote own qc =>
      refine ⟨fun hmem => ?_, nofun⟩
      simp only [newEvents] at hmem
      split at hmem
      · rw [List.mem_singleton.mp hmem] at ha
        exact absurd trivial ha
      · cases hmem
  | _ => simp [newEvents, eventOf, eq_comm]

end events

/-! What is neither a block nor an event. -/

/-- The state of a core apart from its blocks and events. -/
structure Registers (K : Secp256k1) where
  hqc : Uint256 × QuorumCert K
  bLock : Uint256
  bExec : Uint256
  vheight : Nat
  privKey : K.PrivKey
  tails : List Uint256
  config : ReplicaConfig K
  qcWaiting : Finset Uint256
  voteDisabled : Bool
  id : ReplicaID
  hqcTail : Uint256

def registers (c : HotStuffCore K) : Registers K :=
  { hqc := c.hqc, bLock := c.bLock, bExec := c.bExec, vheight := c.vheight, privKey := c.privKey,
    tails := c.tails, config := c.config, qcWaiting := c.qcWaiting,
    voteDisabled := c.voteDisabled, id := c.id, hqcTail := c.hqcTail }

section registers

variable (env : Env K) (c : HotStuffCore K) {e : Effect K}

theorem registers_addBlk (h : Uint256) (b : Block K) : registers (c.addBlk h b) = registers c := by
  unfold HotStuffCore.addBlk
  split <;> rfl

theorem registers_countVote (vote : Vote K) (qc : QuorumCert K) :
    registers (countVote c vote qc) = registers c := by
  unfold countVote
  dsimp only
  split <;> rfl

theorem registers_commitAll (queue : List Uint256) :
    registers (queue.foldl HotStuffCore.commitBlk c) = registers c := by
  induction queue generalizing c with
  | nil => rfl
  | cons h queue ih =>
      rw [List.foldl_cons, ih]
      rfl

theorem hqc_apply (he : ∀ h qc, e ≠ .raiseHqc h qc) : (apply env c e).hqc = c.hqc := by
  cases e with
  | store data => exact congrArg Registers.hqc (registers_addBlk c _ _)
  | count vote own qc => exact congrArg Registers.hqc (registers_countVote c vote qc)
  | commit queue h => exact congrArg Registers.hqc (registers_commitAll c queue.reverse)
  | raiseHqc h qc => exact absurd rfl (he h qc)
  | _ => rfl

theorem bLock_apply (he : ∀ h, e ≠ .raiseLock h) : (apply env c e).bLock = c.bLock := by
  cases e with
  | store data => exact congrArg Registers.bLock (registers_addBlk c _ _)
  | count vote own qc => exact congrArg Registers.bLock (registers_countVote c vote qc)
  | commit queue h => exact congrArg Registers.bLock (registers_commitAll c queue.reverse)
  | raiseLock h => exact absurd rfl (he h)
  | _ => rfl

theorem bExec_apply (he : ∀ queue h, e ≠ .commit queue h) : (apply env c e).bExec = c.bExec := by
  cases e with
  | store data => exact congrArg Registers.bExec (registers_addBlk c _ _)
  | count vote own qc => exact congrArg Registers.bExec (registers_countVote c vote qc)
  | commit queue h => exact absurd rfl (he queue h)
  | _ => rfl

theorem vheight_apply (he : ∀ h o, e ≠ .accept h o) (he' : ∀ h d o, e ≠ .acceptOwn h d o) :
    (apply env c e).vheight = c.vheight := by
  cases e with
  | store data => exact congrArg Registers.vheight (registers_addBlk c _ _)
  | count vote own qc => exact congrArg Registers.vheight (registers_countVote c vote qc)
  | commit queue h => exact congrArg Registers.vheight (registers_commitAll c queue.reverse)
  | accept h o => exact absurd rfl (he h o)
  | acceptOwn h d o => exact absurd rfl (he' h d o)
  | _ => rfl

theorem config_apply : (apply env c e).config = c.config := by
  cases e with
  | store data => exact congrArg Registers.config (registers_addBlk c _ _)
  | count vote own qc => exact congrArg Registers.config (registers_countVote c vote qc)
  | commit queue h => exact congrArg Registers.config (registers_commitAll c queue.reverse)
  | _ => rfl

theorem id_apply : (apply env c e).id = c.id := by
  cases e with
  | store data => exact congrArg Registers.id (registers_addBlk c _ _)
  | count vote own qc => exact congrArg Registers.id (registers_countVote c vote qc)
  | commit queue h => exact congrArg Registers.id (registers_commitAll c queue.reverse)
  | _ => rfl

theorem privKey_apply : (apply env c e).privKey = c.privKey := by
  cases e with
  | store data => exact congrArg Registers.privKey (registers_addBlk c _ _)
  | count vote own qc => exact congrArg Registers.privKey (registers_countVote c vote qc)
  | commit queue h => exact congrArg Registers.privKey (registers_commitAll c queue.reverse)
  | _ => rfl

theorem qcWaiting_apply (he : ∀ h, e ≠ .wait h) (he' : ∀ h, e ≠ .wake h) :
    (apply env c e).qcWaiting = c.qcWaiting := by
  cases e with
  | store data => exact congrArg Registers.qcWaiting (registers_addBlk c _ _)
  | count vote own qc => exact congrArg Registers.qcWaiting (registers_countVote c vote qc)
  | commit queue h => exact congrArg Registers.qcWaiting (registers_commitAll c queue.reverse)
  | wait h => exact absurd rfl (he h)
  | wake h => exact absurd rfl (he' h)
  | _ => rfl

end registers

/-! Delivered blocks keep their place in the tree. -/

/-- Nothing delivered is undone: delivered blocks keep their node, stored blocks stay stored with
their data, and events are not forgotten. -/
structure Grows (c c' : HotStuffCore K) : Prop where
  node_eq : ∀ h, (c.blk h).delivered = true → node (c'.blk h) = node (c.blk h)
  stored : ∀ h, (c.storage h).isSome → (c'.storage h).isSome
  trace : c.trace <:+ c'.trace

section grows

variable {env : Env K} {c c' c'' : HotStuffCore K} {h : Uint256} {e : Effect K}

theorem isSome_of_delivered (hd : (c.blk h).delivered = true) : (c.storage h).isSome := by
  unfold HotStuffCore.blk at hd
  cases hs : c.storage h with
  | none =>
      rw [hs] at hd
      cases hd
  | some b => rfl

theorem Grows.refl (c : HotStuffCore K) : Grows c c :=
  ⟨fun _ _ => rfl, fun _ => id, List.suffix_rfl⟩

theorem Grows.delivered (hg : Grows c c') (hd : (c.blk h).delivered = true) :
    (c'.blk h).delivered = true := by
  have := congrArg Node.delivered (hg.node_eq h hd)
  exact this.trans hd

theorem Grows.height (hg : Grows c c') (hd : (c.blk h).delivered = true) :
    (c'.blk h).height = (c.blk h).height :=
  congrArg Node.height (hg.node_eq h hd)

theorem Grows.qcRef (hg : Grows c c') (hd : (c.blk h).delivered = true) :
    (c'.blk h).qcRef = (c.blk h).qcRef :=
  congrArg Node.qcRef (hg.node_eq h hd)

theorem Grows.parents (hg : Grows c c') (hd : (c.blk h).delivered = true) :
    (c'.blk h).parents = (c.blk h).parents :=
  congrArg Node.parents (hg.node_eq h hd)

theorem Grows.data (hg : Grows c c') (hd : (c.blk h).delivered = true) :
    (c'.blk h).data = (c.blk h).data :=
  congrArg Node.data (hg.node_eq h hd)

theorem Grows.trans (hg : Grows c c') (hg' : Grows c' c'') : Grows c c'' where
  node_eq h hd := (hg'.node_eq h (hg.delivered hd)).trans (hg.node_eq h hd)
  stored h hs := hg'.stored h (hg.stored h hs)
  trace := hg.trace.trans hg'.trace

theorem trace_apply (env : Env K) (c : HotStuffCore K) (e : Effect K) :
    c.trace <:+ (apply env c e).trace := by
  rw [trace_eq]
  exact List.suffix_append _ _

theorem storage_createBlk (data : BlockData K) (x : Uint256) :
    (createBlk env c data).storage x =
      if x = env.getHash data then
        some
          { data
            parents := data.parentHashes
            qcRef := some data.qc.objHash
            selfQc := some (QuorumCert.create c.config (env.getHash data))
            height := (data.parentHashes.head?.elim 0 (fun p => (c.blk p).height)) + 1
            delivered := true
            decision := false
            voted := ∅ }
      else c.storage x := by
  simp [createBlk, Function.update_apply]

theorem blk_createBlk_ne {data : BlockData K} {x : Uint256} (hne : x ≠ env.getHash data) :
    (createBlk env c data).blk x = c.blk x := by
  simp [HotStuffCore.blk, storage_createBlk, hne]

theorem blk_createBlk_self (env : Env K) (data : BlockData K) :
    (createBlk env c data).blk (env.getHash data) =
      { data
        parents := data.parentHashes
        qcRef := some data.qc.objHash
        selfQc := some (QuorumCert.create c.config (env.getHash data))
        height := (data.parentHashes.head?.elim 0 (fun p => (c.blk p).height)) + 1
        delivered := true
        decision := false
        voted := ∅ } := by
  simp [HotStuffCore.blk, storage_createBlk]

theorem blk_deliverBlk_ne {x : Uint256} (hne : x ≠ h) :
    (deliverBlk env c h).blk x = c.blk x := by
  show ((c.modifyBlk h _).blk x) = _
  exact c.blk_modifyBlk_ne hne _

theorem blk_deliverBlk_self (env : Env K) (hs : (c.storage h).isSome) :
    (deliverBlk env c h).blk h =
      { c.blk h with
        parents := (c.blk h).data.parentHashes
        height := ((c.blk h).data.parentHashes.head?.elim 0 (fun p => (c.blk p).height)) + 1
        qcRef := some (c.blk h).data.qc.objHash
        delivered := true } := by
  show ((c.modifyBlk h _).blk h) = _
  exact c.blk_modifyBlk_self hs _

theorem blk_store_ne {data : BlockData K} (hnone : c.storage (env.getHash data) = none)
    {x : Uint256} (hne : x ≠ env.getHash data) :
    (c.addBlk (env.getHash data) (.fetched data)).blk x = c.blk x := by
  simp [HotStuffCore.blk, c.storage_addBlk_of_none hnone, hne]

theorem blk_store_self (env : Env K) {data : BlockData K}
    (hnone : c.storage (env.getHash data) = none) :
    (c.addBlk (env.getHash data) (.fetched data)).blk (env.getHash data) = .fetched data := by
  simp [HotStuffCore.blk, c.storage_addBlk_of_none hnone]

theorem grows_apply (he : Allowed env c e) : Grows c (apply env c e) := by
  by_cases hshape : Shapes e
  · have hfresh : ∀ {k h : Uint256}, (c.blk h).delivered = true → c.storage k = none → h ≠ k := by
      rintro k h hd hnone rfl
      have hs := isSome_of_delivered hd
      rw [hnone] at hs
      cases hs
    cases e with
    | store data =>
        refine ⟨fun h hd => ?_, fun h hs => ?_, trace_apply env c _⟩
        · exact congrArg node (blk_store_ne he (hfresh hd he))
        · show ((c.addBlk _ _).storage h).isSome
          rw [c.storage_addBlk_of_none he]
          split
          · rfl
          · exact hs
    | create data =>
        refine ⟨fun h hd => ?_, fun h hs => ?_, trace_apply env c _⟩
        · exact congrArg node (blk_createBlk_ne (hfresh hd he.1))
        · show ((createBlk env c data).storage h).isSome
          rw [storage_createBlk]
          split
          · rfl
          · exact hs
    | deliver k =>
        refine ⟨fun h hd => ?_, fun h hs => ?_, trace_apply env c _⟩
        · refine congrArg node (blk_deliverBlk_ne ?_)
          rintro rfl
          rw [he.2.1] at hd
          cases hd
        · show ((c.modifyBlk k _).storage h).isSome
          rw [c.isSome_modifyBlk]
          exact hs
    | spoil k parents height =>
        refine ⟨fun h hd => ?_, fun h hs => ?_, trace_apply env c _⟩
        · refine congrArg node (c.blk_modifyBlk_ne ?_ _)
          rintro rfl
          have hund : (c.blk h).delivered = false := he
          rw [hund] at hd
          cases hd
        · show ((c.modifyBlk k _).storage h).isSome
          rw [c.isSome_modifyBlk]
          exact hs
    | _ => exact absurd hshape id
  · refine ⟨fun h _ => node_blk_eq (map_node_apply hshape h), fun h hs => ?_, trace_apply env c e⟩
    rw [isSome_eq (map_node_apply hshape h)]
    exact hs

theorem grows_of_trail {P : Effect K → Prop} (h : Trail env P c c') : Grows c c' := by
  refine Trail.invariant h (Grows.refl c) ?_
  intro d e _ hgrows he
  exact hgrows.trans (grows_apply he)

end grows

/-! Which effects bring or deliver a block. -/

/-- The effect brings block `x` into the storage. -/
def StoresAt (env : Env K) (x : Uint256) : Effect K → Prop
  | .store data => env.getHash data = x
  | .create data => env.getHash data = x
  | _ => False

/-- The effect delivers block `x`. -/
def DeliversAt (env : Env K) (x : Uint256) : Effect K → Prop
  | .create data => env.getHash data = x
  | .deliver h => h = x
  | _ => False

section places

variable {env : Env K} {c c' : HotStuffCore K} {e : Effect K} {P : Effect K → Prop} {x : Uint256}

theorem stored_apply (he : Allowed env c e) (hx : ¬ StoresAt env x e) :
    ((apply env c e).storage x).isSome = (c.storage x).isSome := by
  by_cases hshape : Shapes e
  swap
  · exact isSome_eq (map_node_apply hshape x)
  cases e with
  | store data =>
      show ((c.addBlk _ _).storage x).isSome = _
      rw [c.storage_addBlk_of_none he, if_neg (fun heq => hx heq.symm)]
  | create data =>
      show ((createBlk env c data).storage x).isSome = _
      rw [storage_createBlk, if_neg (fun heq => hx heq.symm)]
  | deliver h => exact c.isSome_modifyBlk h x _
  | spoil h parents height => exact c.isSome_modifyBlk h x _
  | _ => exact absurd hshape id

theorem delivered_apply (he : Allowed env c e) (hx : ¬ DeliversAt env x e) :
    ((apply env c e).blk x).delivered = (c.blk x).delivered := by
  by_cases hshape : Shapes e
  swap
  · exact congrArg Node.delivered (node_blk_eq (map_node_apply hshape x))
  cases e with
  | store data =>
      by_cases heq : x = env.getHash data
      · subst heq
        exact (congrArg Block.delivered (blk_store_self env he)).trans
          (congrArg Block.delivered (c.blk_of_none he)).symm
      · exact congrArg Block.delivered (blk_store_ne he heq)
  | create data =>
      exact congrArg Block.delivered (blk_createBlk_ne (fun heq => hx heq.symm))
  | deliver h => exact congrArg Block.delivered (blk_deliverBlk_ne (fun heq => hx heq.symm))
  | spoil h parents height => exact c.field_modifyBlk Block.delivered h x (fun _ => rfl)
  | _ => exact absurd hshape id

theorem isSome_apply_cases (he : Allowed env c e) (hs : ((apply env c e).storage x).isSome) :
    (c.storage x).isSome ∨ ∃ data, x = env.getHash data ∧ (e = .store data ∨ e = .create data) := by
  by_cases hx : StoresAt env x e
  · cases e with
    | store data => exact .inr ⟨data, hx.symm, .inl rfl⟩
    | create data => exact .inr ⟨data, hx.symm, .inr rfl⟩
    | _ => exact absurd hx id
  · rw [stored_apply he hx] at hs
    exact .inl hs

theorem delivered_apply_cases (he : Allowed env c e)
    (hd : ((apply env c e).blk x).delivered = true) :
    (c.blk x).delivered = true ∨ e = .deliver x ∨
      ∃ data, e = .create data ∧ x = env.getHash data := by
  by_cases hx : DeliversAt env x e
  · cases e with
    | create data => exact .inr (.inr ⟨data, rfl, hx.symm⟩)
    | deliver k =>
        obtain rfl := hx
        exact .inr (.inl rfl)
    | _ => exact absurd hx id
  · rw [delivered_apply he hx] at hd
    exact .inl hd

theorem stored_of_trail (h : Trail env P c c') (hP : ∀ e, P e → ¬ StoresAt env x e) :
    (c'.storage x).isSome = (c.storage x).isSome :=
  Trail.invariant (I := fun d => (d.storage x).isSome = (c.storage x).isSome) h rfl
    (fun _ e hPe heq he => (stored_apply he (hP e hPe)).trans heq)

theorem delivered_of_trail (h : Trail env P c c') (hP : ∀ e, P e → ¬ DeliversAt env x e) :
    (c'.blk x).delivered = (c.blk x).delivered :=
  Trail.invariant (I := fun d => (d.blk x).delivered = (c.blk x).delivered) h rfl
    (fun _ e hPe heq he => (delivered_apply he (hP e hPe)).trans heq)

end places

/-! The shape of the tree. -/

/-- The genesis block as `on_init` leaves it. -/
structure GenesisOk (env : Env K) (c : HotStuffCore K) : Prop where
  delivered : (c.blk env.genesisHash).delivered = true
  height : (c.blk env.genesisHash).height = 0
  qcRef : (c.blk env.genesisHash).qcRef = some env.genesisHash
  parents : (c.blk env.genesisHash).parents = []

/-- A delivered block other than the genesis block. -/
structure DeliveredOk (c : HotStuffCore K) (h : Uint256) : Prop where
  parents : (c.blk h).parents = (c.blk h).data.parentHashes
  nonempty : (c.blk h).parents ≠ []
  delivered : ∀ p ∈ (c.blk h).parents, (c.blk p).delivered = true
  height : ∀ p, (c.blk h).parents.head? = some p → (c.blk h).height = (c.blk p).height + 1
  qcRef : (c.blk h).qcRef = some (c.blk h).data.qc.objHash
  qcStored : (c.storage (c.blk h).data.qc.objHash).isSome

/-- Delivered blocks form a tree over the genesis block; the others refer to no block yet. -/
structure TreeOk (env : Env K) (c : HotStuffCore K) : Prop where
  genesis : GenesisOk env c
  deliveredOk : ∀ h, h ≠ env.genesisHash → (c.blk h).delivered = true → DeliveredOk c h
  undelivered : ∀ h, (c.blk h).delivered = false → (c.blk h).qcRef = none

section tree

variable {env : Env K} {c c' : HotStuffCore K} {h p : Uint256} {e : Effect K}

theorem GenesisOk.grows (hok : GenesisOk env c) (hg : Grows c c') : GenesisOk env c' where
  delivered := hg.delivered hok.delivered
  height := (hg.height hok.delivered).trans hok.height
  qcRef := (hg.qcRef hok.delivered).trans hok.qcRef
  parents := (hg.parents hok.delivered).trans hok.parents

theorem DeliveredOk.grows (hok : DeliveredOk c h) (hd : (c.blk h).delivered = true)
    (hg : Grows c c') : DeliveredOk c' h := by
  have hparents := hg.parents hd
  have hdata := hg.data hd
  refine ⟨?_, ?_, ?_, ?_, ?_, ?_⟩
  · rw [hparents, hdata, hok.parents]
  · rw [hparents]
    exact hok.nonempty
  · intro p hp
    rw [hparents] at hp
    exact hg.delivered (hok.delivered p hp)
  · intro p hp
    rw [hparents] at hp
    rw [hg.height hd, hg.height (hok.delivered p (List.mem_of_head? hp))]
    exact hok.height p hp
  · rw [hg.qcRef hd, hdata, hok.qcRef]
  · rw [hdata]
    exact hg.stored _ hok.qcStored

theorem head?_elim_height {l : List Uint256} {f : Uint256 → Nat} (hp : l.head? = some p) :
    l.head?.elim 0 f = f p := by
  rw [hp]
  rfl

private theorem deliveredOk_create {data : BlockData K} (he : Allowed env c (.create data)) :
    DeliveredOk (createBlk env c data) (env.getHash data) := by
  obtain ⟨hnone, _, hne, hparents, hqc⟩ := he
  have hg : Grows c (createBlk env c data) :=
    grows_apply (e := .create data) ⟨hnone, by assumption, hne, hparents, hqc⟩
  have hblk := blk_createBlk_self (c := c) env data
  refine ⟨by rw [hblk], by rw [hblk]; exact hne, ?_, ?_, by rw [hblk], ?_⟩
  · intro p hp
    rw [hblk] at hp
    exact hg.delivered (hparents p hp)
  · intro p hp
    rw [hblk] at hp
    rw [hblk, hg.height (hparents p (List.mem_of_head? hp))]
    show data.parentHashes.head?.elim 0 _ + 1 = _
    rw [head?_elim_height hp]
  · rw [hblk]
    exact hg.stored _ hqc

private theorem deliveredOk_deliver (he : Allowed env c (.deliver h)) :
    DeliveredOk (deliverBlk env c h) h := by
  have hg : Grows c (deliverBlk env c h) := grows_apply (e := .deliver h) he
  obtain ⟨hs, _, hne, hparents, hqc⟩ := he
  have hblk := blk_deliverBlk_self env hs
  refine ⟨by rw [hblk], by rw [hblk]; exact hne, ?_, ?_, by rw [hblk], ?_⟩
  · intro p hp
    rw [hblk] at hp
    exact hg.delivered (hparents p hp)
  · intro p hp
    rw [hblk] at hp
    rw [hblk, hg.height (hparents p (List.mem_of_head? hp))]
    show (c.blk h).data.parentHashes.head?.elim 0 _ + 1 = _
    rw [head?_elim_height hp]
  · rw [hblk]
    exact hg.stored _ hqc

theorem TreeOk.apply (hok : TreeOk env c) (he : Allowed env c e) :
    TreeOk env (Effects.apply env c e) := by
  have hg := grows_apply he
  -- A block whose node is as before inherits everything from the state before.
  have old : ∀ x, node ((Effects.apply env c e).blk x) = node (c.blk x) →
      (x ≠ env.genesisHash → ((Effects.apply env c e).blk x).delivered = true →
        DeliveredOk (Effects.apply env c e) x) ∧
      (((Effects.apply env c e).blk x).delivered = false →
        ((Effects.apply env c e).blk x).qcRef = none) := by
    intro x hx
    have hdel : ((Effects.apply env c e).blk x).delivered = (c.blk x).delivered :=
      congrArg Node.delivered hx
    have hqc : ((Effects.apply env c e).blk x).qcRef = (c.blk x).qcRef :=
      congrArg Node.qcRef hx
    refine ⟨fun hne hd => ?_, fun hd => ?_⟩
    · rw [hdel] at hd
      exact (hok.deliveredOk x hne hd).grows hd hg
    · rw [hqc]
      exact hok.undelivered x (hdel ▸ hd)
  suffices hall : ∀ x,
      (x ≠ env.genesisHash → ((Effects.apply env c e).blk x).delivered = true →
        DeliveredOk (Effects.apply env c e) x) ∧
      (((Effects.apply env c e).blk x).delivered = false →
        ((Effects.apply env c e).blk x).qcRef = none) from
    ⟨hok.genesis.grows hg, fun x => (hall x).1, fun x => (hall x).2⟩
  intro x
  by_cases hshape : Shapes e
  · cases e with
    | store data =>
        by_cases hx : x = env.getHash data
        · subst hx
          have hblk := blk_store_self env he
          refine ⟨fun _ hd => ?_, fun _ => ?_⟩
          · have hd' : ((c.addBlk (env.getHash data) (.fetched data)).blk
              (env.getHash data)).delivered = true := hd
            rw [hblk] at hd'
            cases hd'
          · show ((c.addBlk (env.getHash data) (.fetched data)).blk _).qcRef = none
            rw [hblk]
            rfl
        · exact old x (congrArg node (blk_store_ne he hx))
    | create data =>
        by_cases hx : x = env.getHash data
        · subst hx
          refine ⟨fun _ _ => deliveredOk_create he, fun hd => ?_⟩
          have hd' : ((createBlk env c data).blk (env.getHash data)).delivered = false := hd
          rw [blk_createBlk_self] at hd'
          cases hd'
        · exact old x (congrArg node (blk_createBlk_ne hx))
    | deliver k =>
        by_cases hx : x = k
        · subst hx
          refine ⟨fun _ _ => deliveredOk_deliver he, fun hd => ?_⟩
          have hd' : ((deliverBlk env c x).blk x).delivered = false := hd
          rw [blk_deliverBlk_self env he.1] at hd'
          cases hd'
        · exact old x (congrArg node (blk_deliverBlk_ne hx))
    | spoil k parents height =>
        by_cases hx : x = k
        · subst hx
          have hd : ((c.modifyBlk x (fun b => { b with parents, height })).blk x).delivered =
              (c.blk x).delivered :=
            c.field_modifyBlk Block.delivered x x (fun _ => rfl)
          have hq : ((c.modifyBlk x (fun b => { b with parents, height })).blk x).qcRef =
              (c.blk x).qcRef :=
            c.field_modifyBlk Block.qcRef x x (fun _ => rfl)
          refine ⟨fun _ hd' => ?_, fun _ => ?_⟩
          · have : (c.blk x).delivered = true := hd.symm.trans hd'
            rw [show (c.blk x).delivered = false from he] at this
            cases this
          · exact hq.trans (hok.undelivered x he)
        · exact old x (congrArg node (c.blk_modifyBlk_ne hx _))
    | _ => exact absurd hshape id
  · exact old x (node_blk_eq (map_node_apply hshape x))

theorem TreeOk.start (env : Env K) (config : ReplicaConfig K) (id : ReplicaID)
    (key : K.PrivKey) (voteDisabled : Bool) :
    TreeOk env (HotStuffCore.start env config id key voteDisabled) := by
  have hg : (HotStuffCore.start env config id key voteDisabled).blk env.genesisHash =
      HotStuffCore.genesis env config := by
    simp [HotStuffCore.blk, HotStuffCore.start]
  have hne : ∀ h, h ≠ env.genesisHash →
      (HotStuffCore.start env config id key voteDisabled).blk h = .absent := by
    intro h hh
    simp [HotStuffCore.blk, HotStuffCore.start, hh]
  refine ⟨⟨by rw [hg]; rfl, by rw [hg]; rfl, by rw [hg]; rfl, by rw [hg]; rfl⟩, ?_, ?_⟩
  · intro h hh hd
    rw [hne h hh] at hd
    cases hd
  · intro h hd
    by_cases hh : h = env.genesisHash
    · rw [hh, hg] at hd
      cases hd
    · rw [hne h hh]
      rfl

theorem firstParent_eq (hd : (c.blk h).delivered = true) :
    firstParent c h = (c.blk h).parents.head? := by
  simp [firstParent, hd]

theorem delivered_of_firstParent (hp : firstParent c h = some p) :
    (c.blk h).delivered = true := by
  unfold firstParent at hp
  split at hp
  · assumption
  · cases hp

theorem firstParent_mono (hg : Grows c c') (hp : firstParent c h = some p) :
    firstParent c' h = some p := by
  have hd := delivered_of_firstParent hp
  rw [firstParent_eq hd] at hp
  rw [firstParent_eq (hg.delivered hd), hg.parents hd, hp]

theorem TreeOk.firstParent_genesis (hok : TreeOk env c) :
    firstParent c env.genesisHash = none := by
  rw [firstParent_eq hok.genesis.delivered, hok.genesis.parents]
  rfl

theorem TreeOk.delivered_firstParent (hok : TreeOk env c) (hp : firstParent c h = some p) :
    (c.blk p).delivered = true ∧ (c.blk h).height = (c.blk p).height + 1 := by
  have hd := delivered_of_firstParent hp
  by_cases hne : h = env.genesisHash
  · rw [hne, hok.firstParent_genesis] at hp
    cases hp
  · have hdel := hok.deliveredOk h hne hd
    rw [firstParent_eq hd] at hp
    exact ⟨hdel.delivered p (List.mem_of_head? hp), hdel.height p hp⟩

theorem TreeOk.firstParent_some (hok : TreeOk env c) (hd : (c.blk h).delivered = true)
    (hne : h ≠ env.genesisHash) : ∃ p, firstParent c h = some p := by
  have hdel := hok.deliveredOk h hne hd
  rw [firstParent_eq hd]
  cases hl : (c.blk h).parents with
  | nil => exact absurd hl hdel.nonempty
  | cons p ps => exact ⟨p, rfl⟩

theorem TreeOk.height_pos (hok : TreeOk env c) (hd : (c.blk h).delivered = true)
    (hne : h ≠ env.genesisHash) : 0 < (c.blk h).height := by
  obtain ⟨p, hp⟩ := hok.firstParent_some hd hne
  rw [(hok.delivered_firstParent hp).2]
  exact Nat.succ_pos _

/-- Heights of delivered blocks are distances from the genesis block. -/
theorem TreeOk.depth (hok : TreeOk env c) (hd : (c.blk h).delivered = true) :
    Depth (firstParent c) env.genesisHash h (c.blk h).height := by
  induction hk : (c.blk h).height generalizing h with
  | zero =>
      by_cases hne : h = env.genesisHash
      · rw [hne]
        exact .root
      · have := hok.height_pos hd hne
        omega
  | succ k ih =>
      have hne : h ≠ env.genesisHash := by
        rintro rfl
        rw [hok.genesis.height] at hk
        cases hk
      obtain ⟨p, hp⟩ := hok.firstParent_some hd hne
      obtain ⟨hpd, hph⟩ := hok.delivered_firstParent hp
      exact .child hp (ih hpd (by omega))

theorem TreeOk.delivered_of_qcRef (hok : TreeOk env c) {q : Uint256}
    (hq : (c.blk h).qcRef = some q) : (c.blk h).delivered = true := by
  cases hd : (c.blk h).delivered with
  | true => rfl
  | false =>
      rw [hok.undelivered h hd] at hq
      cases hq

end tree

/-! Walks down the tree. -/

section walks

variable {env : Env K} {c c' : HotStuffCore K} {floor fuel : Nat} {a b h : Uint256}
  {queue : List Uint256}

/-- A walk lists, from the top, the blocks of a path that starts at the block reached. -/
theorem TreeOk.walk_path (hok : TreeOk env c) (hd : (c.blk b).delivered = true)
    (h : c.walk floor fuel b = some (queue, a)) :
    RootPath (firstParent c) a queue.reverse ∧ tip a queue.reverse = b ∧
      (c.blk a).height ≤ floor ∧ (c.blk a).delivered = true ∧
      ∀ x ∈ queue, floor < (c.blk x).height ∧ (c.blk x).delivered = true := by
  induction fuel generalizing b queue with
  | zero =>
      rw [HotStuffCore.walk_zero] at h
      split at h
      · rename_i hle
        cases h
        exact ⟨rootPath_nil, rfl, hle, hd, nofun⟩
      · cases h
  | succ fuel ih =>
      rw [HotStuffCore.walk_succ] at h
      split at h
      · rename_i hle
        cases h
        exact ⟨rootPath_nil, rfl, hle, hd, nofun⟩
      · rename_i hlt
        split at h
        · cases h
        · rename_i p hp
          rw [← firstParent_eq hd] at hp
          obtain ⟨⟨queue', a'⟩, hrest, heq⟩ := Option.map_eq_some_iff.mp h
          cases heq
          obtain ⟨hpath, htip, hfloor, hda, hall⟩ := ih (hok.delivered_firstParent hp).1 hrest
          rw [List.reverse_cons]
          refine ⟨rootPath_append_singleton.mpr ⟨hpath, ?_⟩, tip_append_singleton _ _ _,
            hfloor, hda, ?_⟩
          · rw [htip]
            exact hp
          · intro x hx
            rcases List.mem_cons.mp hx with rfl | hx
            · exact ⟨by omega, hd⟩
            · exact hall x hx

theorem TreeOk.walk_isSome (hok : TreeOk env c) (hd : (c.blk b).delivered = true)
    (hfuel : (c.blk b).height ≤ fuel) : ∃ queue a, c.walk floor fuel b = some (queue, a) := by
  induction fuel generalizing b with
  | zero => exact ⟨[], b, by rw [HotStuffCore.walk_zero, if_pos (by omega)]⟩
  | succ fuel ih =>
      by_cases hle : (c.blk b).height ≤ floor
      · exact ⟨[], b, by rw [HotStuffCore.walk_succ, if_pos hle]⟩
      · have hne : b ≠ env.genesisHash := by
          rintro rfl
          rw [hok.genesis.height] at hle
          omega
        obtain ⟨p, hp⟩ := hok.firstParent_some hd hne
        obtain ⟨hpd, hph⟩ := hok.delivered_firstParent hp
        obtain ⟨queue, a, hrest⟩ := ih hpd (by omega)
        rw [firstParent_eq hd] at hp
        refine ⟨b :: queue, a, ?_⟩
        rw [HotStuffCore.walk_succ, if_neg hle, hp]
        simp [hrest]

theorem TreeOk.descend_isSome (hok : TreeOk env c) (hd : (c.blk b).delivered = true)
    (floor : Nat) : ∃ queue a, c.descend floor b = some (queue, a) :=
  hok.walk_isSome hd le_rfl

theorem checkAncestry_iff : c.checkAncestry a b = true ↔
    ∃ queue, c.descend (c.blk a).height b = some (queue, a) := by
  unfold HotStuffCore.checkAncestry
  cases c.descend (c.blk a).height b with
  | none => simp
  | some r =>
      obtain ⟨queue, x⟩ := r
      simp only [Option.any_some, beq_iff_eq, Option.some.injEq, Prod.mk.injEq]
      constructor
      · rintro rfl
        exact ⟨queue, rfl, rfl⟩
      · rintro ⟨_, _, heq⟩
        exact heq

theorem TreeOk.extends_of_checkAncestry (hok : TreeOk env c) (hd : (c.blk b).delivered = true)
    (h : c.checkAncestry a b = true) : Extends (firstParent c) b a := by
  obtain ⟨queue, hdesc⟩ := checkAncestry_iff.mp h
  obtain ⟨hpath, htip, _⟩ := hok.walk_path hd hdesc
  rw [← htip]
  exact hpath.tip_extends_root

theorem TreeOk.height_le_of_extends (hok : TreeOk env c) (hd : (c.blk b).delivered = true)
    (h : Extends (firstParent c) b a) :
    (c.blk a).delivered = true ∧ (c.blk a).height ≤ (c.blk b).height := by
  induction h with
  | refl _ => exact ⟨hd, le_rfl⟩
  | step hp _ ih =>
      obtain ⟨hpd, hheight⟩ := hok.delivered_firstParent hp
      obtain ⟨hda, hle⟩ := ih hpd
      exact ⟨hda, by omega⟩

theorem extends_eq (hok : TreeOk env c) (hd : (c.blk b).delivered = true)
    (h : Extends (firstParent c) b a) (hheight : (c.blk b).height ≤ (c.blk a).height) :
    b = a := by
  cases h with
  | refl _ => rfl
  | step hp hrest =>
      obtain ⟨hpd, hph⟩ := hok.delivered_firstParent hp
      have hle := (hok.height_le_of_extends hpd hrest).2
      omega

private theorem TreeOk.walk_of_extends (hok : TreeOk env c) (hd : (c.blk b).delivered = true)
    (h : Extends (firstParent c) b a) (hfuel : (c.blk b).height ≤ fuel) :
    ∃ queue, c.walk (c.blk a).height fuel b = some (queue, a) := by
  induction h generalizing fuel with
  | refl x =>
      refine ⟨[], ?_⟩
      cases fuel with
      | zero => rw [HotStuffCore.walk_zero, if_pos le_rfl]
      | succ fuel => rw [HotStuffCore.walk_succ, if_pos le_rfl]
  | @step x p a hp hpa ih =>
      obtain ⟨hpd, hheight⟩ := hok.delivered_firstParent hp
      have hle := (hok.height_le_of_extends hpd hpa).2
      obtain ⟨k, rfl⟩ : ∃ k, fuel = k + 1 := ⟨fuel - 1, by omega⟩
      obtain ⟨queue, hrest⟩ := ih hpd (by omega : (c.blk p).height ≤ k)
      rw [firstParent_eq hd] at hp
      refine ⟨x :: queue, ?_⟩
      rw [HotStuffCore.walk_succ, if_neg (by omega), hp]
      simp [hrest]

theorem TreeOk.checkAncestry_of_extends (hok : TreeOk env c) (hd : (c.blk b).delivered = true)
    (h : Extends (firstParent c) b a) : c.checkAncestry a b = true :=
  checkAncestry_iff.mpr (hok.walk_of_extends hd h le_rfl)

end walks

end ArchipelagoHotStuff.Consensus.Tree
