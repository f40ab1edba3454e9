/- Module: ArchipelagoHotStuff/Network/Views
   digest: What a replica holds is a part of the forest of named blocks. -/

import ArchipelagoHotStuff.Network.Model

set_option autoImplicit false
set_option relaxedAutoImplicit false

namespace ArchipelagoHotStuff.Network.Views

open Crypto.Wire Crypto.Certificates
open Consensus Consensus.State Consensus.Effects Consensus.Tree Consensus.CommitLog Network.Model
open General.ParentTree General.VoteLedger

variable {K : Secp256k1} {D : Deployment K} {c c' : HotStuffCore K} {e : Effect K}
  {a b h p x : Uint256} {k : Nat}

/-- A stored block has the content its hash stands for; until it is delivered it has no height
and its certificate is as parsed. -/
structure NodeOk (D : Deployment K) (c : HotStuffCore K) (h : Uint256) : Prop where
  named : h ≠ D.env.genesisHash → (c.storage h).isSome →
    D.named h = some ((c.blk h).data.parentHashes, (c.blk h).data.qc.objHash)
  flat : (c.blk h).delivered = false → (c.blk h).height = 0
  wf : (c.storage h).isSome → (c.blk h).delivered = false → (c.blk h).data.qc.Wf

/-- Effects that store named blocks only and spoil none. -/
def Contents (D : Deployment K) : Effect K → Prop
  | .store data => D.Names data ∧ data.qc.Wf
  | .create data => D.Names data
  | .spoil _ _ _ => False
  | _ => True

theorem NodeOk.of_same (hok : NodeOk D c x)
    (hx : (c'.storage x).map node = (c.storage x).map node) : NodeOk D c' x := by
  have hnode := node_blk_eq hx
  have hdata : (c'.blk x).data = (c.blk x).data := congrArg Node.data hnode
  have hdel : (c'.blk x).delivered = (c.blk x).delivered := congrArg Node.delivered hnode
  have hheight : (c'.blk x).height = (c.blk x).height := congrArg Node.height hnode
  refine ⟨?_, ?_, ?_⟩
  · rw [isSome_eq hx, hdata]
    exact hok.named
  · rw [hdel, hheight]
    exact hok.flat
  · rw [isSome_eq hx, hdel, hdata]
    exact hok.wf

theorem NodeOk.apply (hok : NodeOk D c x) (hP : Contents D e) (he : Allowed D.env c e) :
    NodeOk D (Effects.apply D.env c e) x := by
  by_cases hshape : Shapes e
  swap
  · exact hok.of_same (map_node_apply hshape x)
  cases e with
  | store data =>
      have hstorage := c.storage_addBlk_of_none he (.fetched data) x
      by_cases hx : x = D.env.getHash data
      · subst hx
        have hblk : (Effects.apply D.env c (.store data)).blk (D.env.getHash data) =
            .fetched data := blk_store_self D.env he
        refine ⟨fun _ _ => ?_, fun _ => ?_, fun _ _ => ?_⟩
        · rw [hblk]
          exact hP.1
        · rw [hblk]
          rfl
        · rw [hblk]
          exact hP.2
      · rw [if_neg hx] at hstorage
        exact hok.of_same (congrArg _ hstorage)
  | create data =>
      have hstorage : (createBlk D.env c data).storage x = _ := storage_createBlk data x
      by_cases hx : x = D.env.getHash data
      · subst hx
        have hblk : (Effects.apply D.env c (.create data)).blk (D.env.getHash data) = _ :=
          blk_createBlk_self D.env data
        refine ⟨fun _ _ => ?_, fun hd => ?_, fun _ hd => ?_⟩
        · rw [hblk]
          exact hP
        · rw [hblk] at hd
          cases hd
        · rw [hblk] at hd
          cases hd
      · rw [if_neg hx] at hstorage
        exact hok.of_same (congrArg _ hstorage)
  | deliver k =>
      by_cases hx : x = k
      · subst hx
        have hblk : (Effects.apply D.env c (.deliver x)).blk x = _ :=
          blk_deliverBlk_self D.env he.1
        refine ⟨fun hne _ => ?_, fun hd => ?_, fun _ hd => ?_⟩
        · rw [hblk]
          exact hok.named hne he.1
        · rw [hblk] at hd
          cases hd
        · rw [hblk] at hd
          cases hd
      · have hstorage : (Effects.apply D.env c (.deliver k)).storage x = c.storage x := by
          show (c.modifyBlk k _).storage x = _
          rw [c.storage_modifyBlk, if_neg hx]
        exact hok.of_same (congrArg _ hstorage)
  | spoil k parents height => exact absurd hP id
  | _ => exact absurd hshape id

/-- A replica in order, all of whose blocks are named. -/
structure ViewOk (D : Deployment K) (c : HotStuffCore K) : Prop extends LocalOk D.env c where
  nodes : ∀ h, NodeOk D c h

theorem ViewOk.apply (hok : ViewOk D c) (hP : Contents D e) (he : Allowed D.env c e) :
    ViewOk D (Effects.apply D.env c e) :=
  ⟨hok.toLocalOk.apply he, fun h => (hok.nodes h).apply hP he⟩

theorem NodeOk.start (D : Deployment K) (r : ReplicaID) (h : Uint256) :
    NodeOk D (D.start r).core h := by
  by_cases hh : h = D.env.genesisHash
  · subst hh
    have hblk : (D.start r).core.blk D.env.genesisHash =
        HotStuffCore.genesis D.env D.config := by
      simp [Deployment.start, HotStuffCore.start, HotStuffCore.blk]
    refine ⟨fun hne => absurd rfl hne, fun hd => ?_, fun _ hd => ?_⟩ <;>
    · rw [hblk] at hd
      cases hd
  · have hstorage : (D.start r).core.storage h = none := by
      simp [Deployment.start, HotStuffCore.start, hh]
    refine ⟨fun _ hs => ?_, fun _ => ?_, fun hs => ?_⟩
    · rw [hstorage] at hs
      cases hs
    · rw [HotStuffCore.blk_of_none _ hstorage]
      rfl
    · rw [hstorage] at hs
      cases hs

section view

theorem ViewOk.delivered_of_height_pos (hok : ViewOk D c) (hpos : 0 < (c.blk h).height) :
    (c.blk h).delivered = true := by
  cases hd : (c.blk h).delivered with
  | true => rfl
  | false =>
      rw [(hok.nodes h).flat hd] at hpos
      cases hpos

theorem ViewOk.parent (hok : ViewOk D c) (hp : firstParent c h = some p) :
    D.forest.parent h = some p := by
  have hd := delivered_of_firstParent hp
  have hne : h ≠ D.env.genesisHash := by
    rintro rfl
    rw [hok.tree.firstParent_genesis] at hp
    cases hp
  rw [Deployment.parent_forest hne ((hok.nodes h).named hne (isSome_of_delivered hd))]
  rw [firstParent_eq hd, (hok.tree.deliveredOk h hne hd).parents] at hp
  exact hp

theorem ViewOk.firstParent (hok : ViewOk D c) (hd : (c.blk h).delivered = true)
    (hp : D.forest.parent h = some p) : firstParent c h = some p := by
  have hne : h ≠ D.env.genesisHash := by
    rintro rfl
    rw [← Deployment.root_forest, D.forest.root_parent] at hp
    cases hp
  obtain ⟨p', hp'⟩ := hok.tree.firstParent_some hd hne
  rw [hok.parent hp'] at hp
  cases hp
  exact hp'

theorem ViewOk.qcRef (hok : ViewOk D c) (hd : (c.blk h).delivered = true) :
    (c.blk h).qcRef = D.forest.qc h := by
  by_cases hne : h = D.env.genesisHash
  · subst hne
    rw [hok.tree.genesis.qcRef, Deployment.qc_root]
  · rw [(hok.tree.deliveredOk h hne hd).qcRef,
      Deployment.qc_forest hne ((hok.nodes h).named hne (isSome_of_delivered hd))]

theorem ViewOk.extends (hok : ViewOk D c) (hab : Extends (Tree.firstParent c) a b) :
    Extends D.forest.parent a b :=
  hab.mono (fun _ _ hp => hok.parent hp)

/-- Whatever a delivered block descends from in the forest, it does in the view. -/
theorem ViewOk.extends_local (hok : ViewOk D c) (hd : (c.blk a).delivered = true)
    (hab : Extends D.forest.parent a b) : Extends (Tree.firstParent c) a b := by
  induction hab with
  | refl _ => exact .refl _
  | step hp _ ih =>
      have hp' := hok.firstParent hd hp
      exact .step hp' (ih (hok.tree.delivered_firstParent hp').1)

theorem ViewOk.depth (hok : ViewOk D c) (hd : (c.blk h).delivered = true) :
    Depth D.forest.parent D.forest.root h (c.blk h).height :=
  (hok.tree.depth hd).mono (fun _ _ hp => hok.parent hp)

theorem ViewOk.rooted (hok : ViewOk D c) (hd : (c.blk h).delivered = true) : D.forest.Rooted h :=
  ⟨_, hok.depth hd⟩

theorem ViewOk.height (hok : ViewOk D c) (hd : (c.blk h).delivered = true) :
    D.forest.height h = (c.blk h).height :=
  Forest.height_eq (hok.depth hd)

theorem ViewOk.height_le (hok : ViewOk D c) (h : Uint256) :
    (c.blk h).height ≤ D.forest.height h := by
  cases hd : (c.blk h).delivered with
  | true => exact (hok.height hd).ge
  | false =>
      rw [(hok.nodes h).flat hd]
      exact Nat.zero_le _

theorem ViewOk.linked_iff (hok : ViewOk D c) (hd : (c.blk h).delivered = true) :
    General.VoteLedger.Linked D.forest k h b ↔ Effects.Linked c k h b := by
  induction k generalizing h with
  | zero =>
      constructor
      · intro hlink
        cases hlink
        rfl
      · intro hlink
        cases hlink
        exact .zero _
  | succ k ih =>
      constructor
      · intro hlink
        cases hlink with
        | succ hp hq hrest =>
            have hp' := hok.firstParent hd hp
            have hpd := (hok.tree.delivered_firstParent hp').1
            rw [firstParent_eq hd] at hp'
            exact ⟨_, (hok.qcRef hd).trans hq, hp', (ih hpd).mp hrest⟩
      · rintro ⟨p, hq, hp, hrest⟩
        rw [← firstParent_eq hd] at hp
        have hpd := (hok.tree.delivered_firstParent hp).1
        exact .succ (hok.parent hp) ((hok.qcRef hd).symm.trans hq) ((ih hpd).mpr hrest)

theorem ViewOk.decided_le (hok : ViewOk D c) (hdec : (c.blk h).decision = true) :
    D.forest.height h ≤ D.forest.height c.bExec := by
  rcases (hok.commits.decided h).mp hdec with rfl | hmem
  · rw [← Deployment.root_forest, Forest.height_root]
    exact Nat.zero_le _
  · have hext := hok.commits.path.tip_extends hmem
    rw [hok.commits.last] at hext
    have hd := hok.commits.bExec_delivered hok.tree
    exact ((hok.rooted hd).of_extends (hok.extends hext)).2.1

end view

end ArchipelagoHotStuff.Network.Views
