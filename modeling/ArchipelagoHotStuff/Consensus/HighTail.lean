/- Module: ArchipelagoHotStuff/Consensus/HighTail
   source: liveness.h (PMHighTail, PMWaitQC, PMRoundRobinProposer), consensus.cpp (on_propose)
   digest: The tail a pacemaker proposes on descends from the highest certified block, whatever
     a replica receives, so that its blocks lie above the blocks they certify. -/

import ArchipelagoHotStuff.Consensus.VoteCount
import ArchipelagoHotStuff.Consensus.Voting

set_option autoImplicit false
set_option relaxedAutoImplicit false

namespace ArchipelagoHotStuff.Consensus.HighTail

open Crypto.Wire Crypto.Certificates State Handlers Effects Consensus.Tree Ballots Trails Machine
open Voting VoteCount General.Transition General.ParentTree

variable {K : Secp256k1} {env : Env K} {c c' : HotStuffCore K} {e : Effect K} {h t x : Uint256}

/-! The effects on tails. -/

theorem propose_mem_newEvents : .propose h ∈ newEvents env c e ↔ e = .announce h := by
  rw [mem_newEvents id]
  cases e <;> simp [eventOf]

theorem mem_tails_apply (ht : t ∈ (apply env c e).tails) :
    t ∈ c.tails ∨ e = .deliver t ∨ ∃ data, e = .create data ∧ t = env.getHash data := by
  cases e with
  | store data =>
      have htails : (c.addBlk (env.getHash data) (.fetched data)).tails = c.tails :=
        congrArg Registers.tails (registers_addBlk c _ _)
      exact .inl (htails ▸ ht)
  | create data =>
      rcases HotStuffCore.mem_tails_insertTail _ |>.mp ht with rfl | hold
      · exact .inr (.inr ⟨data, rfl, rfl⟩)
      · exact .inl (HotStuffCore.mem_tails_eraseTails _ |>.mp hold).1
  | deliver k =>
      rcases HotStuffCore.mem_tails_insertTail _ |>.mp ht with rfl | hold
      · exact .inr (.inl rfl)
      · exact .inl (HotStuffCore.mem_tails_eraseTails _ |>.mp hold).1
  | eraseTails hs => exact .inl (HotStuffCore.mem_tails_eraseTails _ |>.mp ht).1
  | count vote own qc =>
      have htails : (countVote c vote qc).tails = c.tails :=
        congrArg Registers.tails (registers_countVote c vote qc)
      exact .inl (htails ▸ ht)
  | commit queue k =>
      have htails : (queue.reverse.foldl HotStuffCore.commitBlk c).tails = c.tails :=
        congrArg Registers.tails (registers_commitAll c queue.reverse)
      exact .inl (htails ▸ ht)
  | _ => exact .inl ht

theorem hqcTail_apply (hraise : ∀ h qc, e ≠ .raiseHqc h qc) (hannounce : ∀ h, e ≠ .announce h)
    (hnote : ∀ h, e ≠ .note h) : (apply env c e).hqcTail = c.hqcTail := by
  cases e with
  | store data => exact congrArg Registers.hqcTail (registers_addBlk c _ _)
  | count vote own qc => exact congrArg Registers.hqcTail (registers_countVote c vote qc)
  | commit queue h => exact congrArg Registers.hqcTail (registers_commitAll c queue.reverse)
  | raiseHqc h qc => exact absurd rfl (hraise h qc)
  | announce h => exact absurd rfl (hannounce h)
  | note h => exact absurd rfl (hnote h)
  | _ => rfl

theorem checkAncestry_congr {a b : Uint256} (hsame : ∀ x, c'.blk x = c.blk x) :
    c'.checkAncestry a b = c.checkAncestry a b := by
  have hwalk : ∀ floor fuel x, c'.walk floor fuel x = c.walk floor fuel x :=
    HotStuffCore.walk_congr (fun x => by rw [hsame x]) (fun x => by rw [hsame x])
  unfold HotStuffCore.checkAncestry HotStuffCore.descend
  rw [hsame a, hsame b, hwalk]

theorem delivered_of_mem_tails (he : Allowed env c e)
    (htails : ∀ t ∈ c.tails, (c.blk t).delivered = true) (ht : t ∈ (apply env c e).tails) :
    ((apply env c e).blk t).delivered = true := by
  rcases mem_tails_apply ht with hold | rfl | ⟨data, rfl, rfl⟩
  · exact (grows_apply he).delivered (htails t hold)
  · have hblk : (apply env c (.deliver t)).blk t = _ := blk_deliverBlk_self env he.1
    rw [hblk]
  · have hblk : (apply env c (.create data)).blk (env.getHash data) = _ :=
      blk_createBlk_self env data
    rw [hblk]

theorem data_apply (he : Allowed env c e) (hx : ¬ StoresAt env x e) :
    ((apply env c e).blk x).data = (c.blk x).data := by
  by_cases hshape : Shapes e
  swap
  · exact congrArg Node.data (node_blk_eq (map_node_apply hshape x))
  cases e with
  | store data => exact congrArg Block.data (blk_store_ne he (fun heq => hx heq.symm))
  | create data => exact congrArg Block.data (blk_createBlk_ne (fun heq => hx heq.symm))
  | deliver h => exact c.field_modifyBlk Block.data h x (fun _ => rfl)
  | spoil h parents height => exact c.field_modifyBlk Block.data h x (fun _ => rfl)
  | _ => exact absurd hshape id

/-! Blocks without a place in the tree have no height. -/

/-- Blocks that are not delivered have no height yet. -/
def Flat (c : HotStuffCore K) : Prop := ∀ h, (c.blk h).delivered = false → (c.blk h).height = 0

/-- Effects other than failed deliveries and those with which the pacemaker turns to a block. -/
def Unannounced : Effect K → Prop
  | .announce _ => False
  | .wait _ => False
  | .spoil _ _ _ => False
  | _ => True

theorem Flat.apply (hflat : Flat c) (hP : Unannounced e) (he : Allowed env c e) :
    Flat (Effects.apply env c e) := by
  intro x hd
  by_cases hshape : Shapes e
  swap
  · have hnode : node ((Effects.apply env c e).blk x) = node (c.blk x) :=
      node_blk_eq (map_node_apply hshape x)
    have hheight : ((Effects.apply env c e).blk x).height = (c.blk x).height :=
      congrArg Node.height hnode
    have hdel : ((Effects.apply env c e).blk x).delivered = (c.blk x).delivered :=
      congrArg Node.delivered hnode
    rw [hdel] at hd
    exact hheight.trans (hflat x hd)
  cases e with
  | store data =>
      by_cases hx : x = env.getHash data
      · subst hx
        exact congrArg Block.height (blk_store_self env he)
      · have hblk : (Effects.apply env c (.store data)).blk x = c.blk x := blk_store_ne he hx
        rw [hblk] at hd ⊢
        exact hflat x hd
  | create data =>
      by_cases hx : x = env.getHash data
      · subst hx
        have hblk : (Effects.apply env c (.create data)).blk (env.getHash data) = _ :=
          blk_createBlk_self env data
        rw [hblk] at hd
        cases hd
      · have hblk : (Effects.apply env c (.create data)).blk x = c.blk x := blk_createBlk_ne hx
        rw [hblk] at hd ⊢
        exact hflat x hd
  | deliver k =>
      by_cases hx : x = k
      · subst hx
        have hblk : (Effects.apply env c (.deliver x)).blk x = _ := blk_deliverBlk_self env he.1
        rw [hblk] at hd
        cases hd
      · have hblk : (Effects.apply env c (.deliver k)).blk x = c.blk x := blk_deliverBlk_ne hx
        rw [hblk] at hd ⊢
        exact hflat x hd
  | spoil k parents height => exact absurd hP id
  | _ => exact absurd hshape id

theorem Flat.delivered (hflat : Flat c) (hpos : 0 < (c.blk h).height) :
    (c.blk h).delivered = true := by
  cases hd : (c.blk h).delivered with
  | true => rfl
  | false =>
      rw [hflat h hd] at hpos
      cases hpos

/-! The tails of a replica. -/

/-- The block certified in a delivered block is a proper ancestor of it. -/
def QcBelow (c : HotStuffCore K) (h : Uint256) : Prop :=
  ∃ q p, (c.blk h).qcRef = some q ∧ firstParent c h = some p ∧ Extends (firstParent c) p q

theorem QcBelow.grows (hq : QcBelow c h) (hg : Grows c c') : QcBelow c' h := by
  obtain ⟨q, p, hqc, hp, hext⟩ := hq
  refine ⟨q, p, ?_, firstParent_mono hg hp, hext.mono (fun _ _ => firstParent_mono hg)⟩
  rw [hg.qcRef (delivered_of_firstParent hp)]
  exact hqc

/-- The tails, the one `hqc_tail` holds among them, are delivered, and that one descends from the
highest certified block; whoever waits for a certificate waits for an accepted block; announced
blocks are accepted and lie above the blocks they certify. -/
structure TailsOk (env : Env K) (c : HotStuffCore K) : Prop where
  flat : Flat c
  tails : ∀ t ∈ c.tails, (c.blk t).delivered = true
  delivered : (c.blk c.hqcTail).delivered = true
  above : Extends (firstParent c) c.hqcTail c.hqc.1
  waiting : ∀ h ∈ c.qcWaiting, h = env.genesisHash ∨ .accept h ∈ c.trace
  announced : ∀ h, .propose h ∈ c.trace → .accept h ∈ c.trace
  own : ∀ h, .propose h ∈ c.trace → QcBelow c h

theorem TailsOk.of_same (hok : TailsOk env c) (hP : Unannounced e) (he : Allowed env c e)
    (hraise : ∀ h qc, e ≠ .raiseHqc h qc) (hnote : ∀ h, e ≠ .note h) :
    TailsOk env (Effects.apply env c e) := by
  have hg := grows_apply he
  have hannounce : ∀ h, e ≠ .announce h := by
    rintro h rfl
    exact hP
  have htail : (Effects.apply env c e).hqcTail = c.hqcTail :=
    hqcTail_apply hraise hannounce hnote
  have hold : ∀ h, .propose h ∈ (Effects.apply env c e).trace → .propose h ∈ c.trace := by
    intro h hp
    rw [trace_eq, List.mem_append, propose_mem_newEvents] at hp
    exact hp.resolve_left (hannounce h)
  refine ⟨hok.flat.apply hP he, fun t ht => delivered_of_mem_tails he hok.tails ht, ?_, ?_,
    fun h hw => ?_, fun h hp => hg.trace.subset (hok.announced h (hold h hp)),
    fun h hp => (hok.own h (hold h hp)).grows hg⟩
  · rw [htail]
    exact hg.delivered hok.delivered
  · rw [htail, hqc_apply env c hraise]
    exact hok.above.mono (fun _ _ => firstParent_mono hg)
  · have hwaits : h ∈ c.qcWaiting := by
      by_cases hwake : ∃ k, e = .wake k
      · obtain ⟨k, rfl⟩ := hwake
        exact Finset.mem_of_mem_erase hw
      · rw [qcWaiting_apply env c (by rintro k rfl; exact hP)
          (fun k hk => hwake ⟨k, hk⟩)] at hw
        exact hw
    exact (hok.waiting h hwaits).imp_right (fun hacc => hg.trace.subset hacc)

/-- The callback of `on_hqc_update` selects a tail above the new certified block. -/
theorem TailsOk.raiseHqc {qc : QuorumCert K} (htree : TreeOk env c) (hok : TailsOk env c)
    (he : Allowed env c (.raiseHqc h qc)) :
    TailsOk env (Effects.apply env c (.raiseHqc h qc)) := by
  have hd : (c.blk h).delivered = true := hok.flat.delivered (Nat.zero_lt_of_lt he.1)
  -- The selection reads blocks only, which are as before.
  have hselect : ((c.blk (Effects.apply env c (.raiseHqc h qc)).hqcTail).delivered = true) ∧
      Extends (firstParent c) (Effects.apply env c (.raiseHqc h qc)).hqcTail h := by
    refine List.foldlRecOn (motive := fun best => (c.blk best).delivered = true ∧
      Extends (firstParent c) best h) c.tails _ ⟨hd, .refl h⟩ ?_
    intro best hbest t ht
    split
    · rename_i hcond
      rw [Bool.and_eq_true] at hcond
      have htd := hok.tails t ht
      have hsame : (show HotStuffCore K from { c with hqc := (h, qc) }).checkAncestry h t =
          c.checkAncestry h t := checkAncestry_congr (fun _ => rfl)
      exact ⟨htd, htree.extends_of_checkAncestry htd (hsame.symm.trans hcond.1)⟩
    · exact hbest
  have hg := grows_apply he
  have hold : ∀ x, .propose x ∈ (Effects.apply env c (.raiseHqc h qc)).trace →
      .propose x ∈ c.trace := by
    intro x hx
    rw [trace_eq, List.mem_append, propose_mem_newEvents] at hx
    exact hx.resolve_left (fun heq => by cases heq)
  exact ⟨hok.flat, hok.tails, hselect.1, hselect.2,
    fun x hx => (hok.waiting x hx).imp_right (fun hacc => hg.trace.subset hacc),
    fun x hx => hg.trace.subset (hok.announced x (hold x hx)),
    fun x hx => (hok.own x (hold x hx)).grows hg⟩

theorem TailsOk.note (htree : TreeOk env c) (hok : TailsOk env c) (he : Allowed env c (.note h)) :
    TailsOk env (Effects.apply env c (.note h)) := by
  have hd : (c.blk h).delivered = true := hok.flat.delivered (Nat.zero_lt_of_lt he.2)
  exact ⟨hok.flat, hok.tails, hd, htree.extends_of_checkAncestry hd he.1, hok.waiting,
    hok.announced, hok.own⟩

theorem TailsOk.apply (htree : TreeOk env c) (hok : TailsOk env c) (hP : Unannounced e)
    (he : Allowed env c e) : TailsOk env (Effects.apply env c e) := by
  cases e with
  | raiseHqc h qc => exact hok.raiseHqc htree he
  | note h => exact hok.note htree he
  | _ => exact hok.of_same hP he (fun _ _ h => by cases h) (fun _ h => by cases h)

theorem tailsOk_trail (htree : TreeOk env c) (hok : TailsOk env c)
    (htrail : Trail env Unannounced c c') : TreeOk env c' ∧ TailsOk env c' :=
  Trail.invariant (I := fun d => TreeOk env d ∧ TailsOk env d) htrail ⟨htree, hok⟩
    (fun _ _ hP hinv he => ⟨hinv.1.apply he, hinv.2.apply hinv.1 hP he⟩)

theorem TailsOk.start (env : Env K) (config : ReplicaConfig K) (rid : ReplicaID)
    (key : K.PrivKey) (voteDisabled : Bool) :
    TailsOk env (HotStuffCore.start env config rid key voteDisabled) := by
  have hd : ((HotStuffCore.start env config rid key voteDisabled).blk
      env.genesisHash).delivered = true :=
    (TreeOk.start env config rid key voteDisabled).genesis.delivered
  refine ⟨fun h hnot => ?_, fun t ht => ?_, hd, .refl _, fun _ hw => ?_, fun _ hp => ?_,
    fun _ hp => ?_⟩
  · by_cases hh : h = env.genesisHash
    · rw [hh, hd] at hnot
      cases hnot
    · have hstorage : (HotStuffCore.start env config rid key voteDisabled).storage h = none := by
        simp [HotStuffCore.start, hh]
      rw [HotStuffCore.blk_of_none _ hstorage]
      rfl
  · rw [List.mem_singleton.mp ht]
    exact hd
  · exact absurd hw (Finset.notMem_empty _)
  · cases hp
  · cases hp

/-! The steps of a replica that keeps to the policy. -/

/-- The new block's hash is not that of another block. -/
def Distinct (env : Env K) (c : HotStuffCore K) (data : BlockData K) : Prop :=
  env.getHash data ≠ env.genesisHash → (c.storage (env.getHash data)).isSome →
    (c.blk (env.getHash data)).data.parentHashes = data.parentHashes ∧
      (c.blk (env.getHash data)).data.qc.objHash = data.qc.objHash

/-- Blocks are delivered once their parents are and the certified block is fetched; the replica
proposes on `get_parents()`, and its pacemaker waits for certificates of the genesis block and of
blocks it has seen proposed. -/
def Paced (env : Env K) (r : Replica K) : Input K → Prop
  | .deliver h =>
      (∀ p ∈ (r.core.blk h).data.parentHashes, (r.core.blk p).delivered = true) ∧
        (r.core.storage (r.core.blk h).data.qc.objHash).isSome
  | .propose cmds parents extra =>
      parents = r.core.getParents ∧ Distinct env r.core (r.core.newData cmds parents extra)
  | .wait h => h = env.genesisHash ∨ .propose h ∈ r.core.trace
  | .fetch _ | .receiveProposal _ | .receiveVote _ | .resume => True

instance (env : Env K) (c : HotStuffCore K) (data : BlockData K) :
    Decidable (Distinct env c data) := inferInstanceAs (Decidable (_ → _ → _ ∧ _))

instance (env : Env K) (r : Replica K) (i : Input K) : Decidable (Paced env r i) :=
  match i with
  | .deliver _ => @instDecidableAnd _ _ (List.decidableBAll _ _) _
  | .propose _ _ _ => inferInstanceAs (Decidable (_ ∧ Distinct _ _ _))
  | .wait h => inferInstanceAs (Decidable (h = env.genesisHash ∨ .propose h ∈ r.core.trace))
  | .fetch _ | .receiveProposal _ | .receiveVote _ | .resume => isTrue trivial

/-- No call of `on_propose` is interrupted between its own vote and its announcement. -/
structure PacedOk (env : Env K) (r : Replica K) : Prop where
  tails : TailsOk env r.core
  calm : ∀ h, .proposed h ∉ r.stack

theorem unannounced_outputs : Outputs (Unannounced : Effect K → Prop) :=
  ⟨fun _ => trivial, fun _ => trivial, fun _ _ => trivial⟩

section steps

variable {r r' : Replica K}

theorem data_of_proposes {data : BlockData K} (hdist : Distinct env c data)
    (hne : env.getHash data ≠ env.genesisHash) (htrail : Trail env (Proposes env c data) c c')
    (hs : (c'.storage (env.getHash data)).isSome) :
    (c'.blk (env.getHash data)).data.parentHashes = data.parentHashes ∧
      (c'.blk (env.getHash data)).data.qc.objHash = data.qc.objHash := by
  refine Trail.invariant (I := fun d => (d.storage (env.getHash data)).isSome →
    (d.blk (env.getHash data)).data.parentHashes = data.parentHashes ∧
      (d.blk (env.getHash data)).data.qc.objHash = data.qc.objHash) htrail (hdist hne) ?_ hs
  intro d e hP hd he hstored
  by_cases hat : StoresAt env (env.getHash data) e
  · cases e with
    | create data' =>
        obtain rfl : data' = data := hP
        have hblk : (apply env d (.create data')).blk (env.getHash data') = _ :=
          blk_createBlk_self env data'
        rw [hblk]
        exact ⟨rfl, rfl⟩
    | store data' => exact absurd hP id
    | _ => exact absurd hat id
  · rw [data_apply he hat]
    rw [stored_apply he hat] at hstored
    exact hd hstored

theorem unannounced_of_proposes {cmds : List Uint256} {extra : List UInt8}
    (htree : TreeOk env c) (hcerts : CertsOk c) (hok : TailsOk env c)
    (hdist : Distinct env c (c.newData cmds c.getParents extra))
    (he : Proposes env c (c.newData cmds c.getParents extra) e) : Unannounced e := by
  cases e with
  | spoil k ps height =>
      obtain ⟨rfl, hs, hund, hnot, _⟩ := he
      have hne : env.getHash (c.newData cmds c.getParents extra) ≠ env.genesisHash := by
        intro heq
        rw [heq, htree.genesis.delivered] at hund
        cases hund
      obtain ⟨hps, hqc⟩ := hdist hne hs
      refine absurd ⟨?_, ?_, ?_⟩ hnot
      · rw [hps]
        exact List.cons_ne_nil _ _
      · rw [hps]
        intro p hp
        rw [List.mem_singleton.mp hp]
        exact hok.delivered
      · rw [hqc]
        show (c.storage c.hqc.2.objHash).isSome
        rw [hcerts.hqc_hash]
        exact hcerts.hqc_stored
  | announce k => exact absurd he id
  | wait k => exact absurd he id
  | _ => exact trivial

/-- Announcing the block just proposed keeps the tail above the highest certified block. -/
theorem TailsOk.announce (hok : TailsOk env c) (hd : (c.blk h).delivered = true)
    (hacc : .accept h ∈ c.trace) (habove : Extends (firstParent c) h c.hqc.1)
    (hown : QcBelow c h) : TailsOk env (c.announce h) := by
  refine ⟨hok.flat, hok.tails, hd, habove, fun x hx => ?_, fun x hx => ?_, fun x hx => ?_⟩
  · exact (hok.waiting x hx).imp_right (List.mem_cons_of_mem _)
  · rcases List.mem_cons.mp hx with heq | hold
    · cases heq
      exact List.mem_cons_of_mem _ hacc
    · exact List.mem_cons_of_mem _ (hok.announced x hold)
  · rcases List.mem_cons.mp hx with heq | hold
    · cases heq
      exact hown
    · exact hok.own x hold

theorem links_of_proposed {cmds : List Uint256} {extra : List UInt8} (hcerts : CertsOk c)
    (hdist : Distinct env c (c.newData cmds c.getParents extra)) (htree : TreeOk env c')
    (htrail : Trail env (Proposes env c (c.newData cmds c.getParents extra)) c c')
    (hprop : Proposed env c c' (env.getHash (c.newData cmds c.getParents extra))) :
    env.getHash (c.newData cmds c.getParents extra) ≠ env.genesisHash ∧
      firstParent c' (env.getHash (c.newData cmds c.getParents extra)) = some c.hqcTail ∧
      (c'.blk (env.getHash (c.newData cmds c.getParents extra))).qcRef = some c.hqc.1 := by
  have hne : env.getHash (c.newData cmds c.getParents extra) ≠ env.genesisHash := by
    intro heq
    have hhigh := hprop.higher
    rw [heq, htree.genesis.height] at hhigh
    exact absurd hhigh (Nat.not_lt_zero _)
  obtain ⟨hps, hqc⟩ := data_of_proposes hdist hne htrail (isSome_of_delivered hprop.delivered)
  have hdel := htree.deliveredOk _ hne hprop.delivered
  refine ⟨hne, ?_, ?_⟩
  · rw [firstParent_eq hprop.delivered, hdel.parents, hps]
    rfl
  · rw [hdel.qcRef, hqc]
    show some c.hqc.2.objHash = _
    rw [hcerts.hqc_hash]

theorem PacedOk.propose {cmds : List Uint256} {extra : List UInt8} (hok : ReplicaOk env r)
    (hvoting : VotingOk r.core) (hpace : PacedOk env r)
    (hdist : Distinct env r.core (r.core.newData cmds r.core.getParents extra))
    (hstep : r.step env (.propose cmds r.core.getParents extra) = some r') : PacedOk env r' := by
  have hstored : (r.core.storage r.core.hqc.2.objHash).isSome := by
    rw [hok.certs.hqc_hash]
    exact hok.certs.hqc_stored
  obtain ⟨_, hend⟩ := step_propose hstored hstep
  have hcover : ∀ e, Proposes env r.core (r.core.newData cmds r.core.getParents extra) e →
      Unannounced e :=
    fun _ => unannounced_of_proposes hok.tree hok.certs hpace.tails hdist
  rcases hend with ⟨e, c, htrail, hthrow, rfl⟩ | ⟨c, htrail, hprop, hend⟩
  · obtain ⟨_, htails⟩ := tailsOk_trail hok.tree hpace.tails (htrail.mono hcover)
    exact ⟨htails.of_same (e := .throw e) trivial hthrow (fun _ _ h => by cases h)
      (fun _ h => by cases h), fun _ => List.not_mem_nil⟩
  obtain ⟨htree, htails⟩ := tailsOk_trail hok.tree hpace.tails (htrail.mono hcover)
  have hg := grows_of_trail htrail
  obtain ⟨hne, hparent, hqcRef⟩ := links_of_proposed hok.certs hdist htree htrail hprop
  generalize hnew : env.getHash (r.core.newData cmds r.core.getParents extra) = b
    at hend hprop hne hparent hqcRef
  have hold : Extends (firstParent c) r.core.hqcTail r.core.hqc.1 :=
    hpace.tails.above.mono (fun _ _ => firstParent_mono hg)
  have habove : Extends (firstParent c) b c.hqc.1 := by
    rcases hprop.hqc with heq | heq | href
    · rw [heq]
      exact .refl _
    · rw [heq]
      exact .step hparent hold
    · rw [hqcRef] at href
      rw [← Option.some.inj href]
      exact .step hparent hold
  rcases hend with ⟨hwaiting, _⟩ | rfl
  · -- Whoever waits for the new block would have accepted it before.
    rcases hpace.tails.waiting _ hwaiting with heq | hacc
    · exact absurd heq hne
    · have hle := hvoting.height_le hacc
      rw [← hg.height (hvoting.delivered _ hacc)] at hle
      exact absurd hprop.higher (Nat.not_lt_of_le hle)
  · refine ⟨htails.announce hprop.delivered hprop.accepted habove ⟨_, _, hqcRef, hparent, hold⟩,
      fun h hmem => ?_⟩
    rcases List.mem_cons.mp hmem with heq | hrest
    · cases heq
    · exact hpace.calm h hrest

theorem PacedOk.wait (hpace : PacedOk env r)
    (hwait : h = env.genesisHash ∨ .propose h ∈ r.core.trace)
    (hstep : r.step env (.wait h) = some r') : PacedOk env r' := by
  cases hstep
  refine ⟨?_, hpace.calm⟩
  show TailsOk env (r.core.asyncQcFinish h)
  unfold HotStuffCore.asyncQcFinish
  split
  · exact hpace.tails
  · have htails := hpace.tails
    refine ⟨htails.flat, htails.tails, htails.delivered, htails.above, fun x hx => ?_,
      htails.announced, htails.own⟩
    rcases Finset.mem_insert.mp hx with rfl | hold
    · exact hwait.imp_right (htails.announced x)
    · exact htails.waiting x hold

theorem PacedOk.resume (hok : ReplicaOk env r) (hpace : PacedOk env r)
    (hstep : r.step env .resume = some r') : PacedOk env r' := by
  have hcalm : ∀ {frame : Frame} {stack : List Frame}, r.stack = frame :: stack →
      ∀ h, .proposed h ∉ stack := by
    intro frame stack heq h hmem
    refine hpace.calm h ?_
    rw [heq]
    exact List.mem_cons_of_mem _ hmem
  rcases step_resume hstep with ⟨h, stack, heq, rfl⟩ | ⟨h, stack, heq, rfl⟩ |
    ⟨prop, opinion, stack, heq, rfl⟩
  · refine absurd ?_ (hpace.calm h)
    rw [heq]
    exact List.mem_cons_self
  · exact ⟨hpace.tails.of_same (e := .broadcast h) trivial trivial (fun _ _ h => by cases h)
      (fun _ h => by cases h), hcalm heq⟩
  · have hacc : opinion = true → .accept prop.blk ∈ r.core.trace := by
      rintro rfl
      refine hok.frames prop ?_
      rw [heq]
      exact List.mem_cons_self
    have htrail : Trail env Unannounced r.core
        ((r.core.noteProposal prop.blk).castVote prop opinion) :=
      (noteProposal_trail trivial).trans
        (castVote_trail (by rw [trace_noteProposal]; exact hacc) trivial (fun _ _ => trivial))
    exact ⟨(tailsOk_trail hok.tree hpace.tails htrail).2, hcalm heq⟩

/-- Whatever the replica receives and proposes, the policy keeps the tail in place. -/
theorem PacedOk.step {i : Input K} (hok : ReplicaOk env r) (hvoting : VotingOk r.core)
    (hpace : PacedOk env r) (hpaced : Paced env r i) (hstep : r.step env i = some r') :
    PacedOk env r' := by
  have hmessage : Covers env r Unannounced i → (∀ h, .proposed h ∉ r'.stack) →
      PacedOk env r' := by
    intro hcov hcalm
    have htrail := (step_trail hok.frames hok.certs hcov unannounced_outputs hstep).1
    exact ⟨(tailsOk_trail hok.tree hpace.tails htrail).2, hcalm⟩
  cases i with
  | fetch data =>
      refine hmessage trivial ?_
      rw [(step_fetch hstep).2]
      exact fun _ => List.not_mem_nil
  | deliver h =>
      refine hmessage (fun e he => ?_) ?_
      · cases e with
        | deliver k => exact trivial
        | spoil k ps height => exact absurd ⟨he.2.1, hpaced.1, hpaced.2⟩ he.2.2
        | _ => exact absurd he id
      · obtain ⟨_, _, ⟨e, c, _, _, heq⟩ | ⟨c, _, heq⟩⟩ := step_deliver hstep <;>
        · rw [heq]
          exact fun _ => List.not_mem_nil
  | propose cmds parents extra =>
      obtain ⟨rfl, hdist⟩ := hpaced
      exact hpace.propose hok hvoting hdist hstep
  | receiveProposal prop =>
      refine hmessage ⟨fun e he => ?_, trivial, trivial⟩ ?_
      · cases e <;> first | exact trivial | exact absurd he id
      · obtain ⟨_, ⟨e, c, _, _, heq⟩ | ⟨c, opinion, _, _, _, heq | heq⟩⟩ :=
          step_receiveProposal hstep
        · rw [heq]
          exact fun _ => List.not_mem_nil
        · rw [heq]
          intro h hmem
          cases List.mem_singleton.mp hmem
        · rw [heq]
          exact fun _ => List.not_mem_nil
  | receiveVote vote =>
      refine hmessage (fun e he => ?_) ?_
      · cases e <;> first | exact trivial | exact absurd he id
      · obtain ⟨_, ⟨e, c, _, _, heq⟩ | ⟨c, _, heq⟩⟩ := step_receiveVote hstep <;>
        · rw [heq]
          exact fun _ => List.not_mem_nil
  | wait h => exact hpace.wait hpaced hstep
  | resume => exact hpace.resume hok hstep

end steps

section reachable

variable {config : ReplicaConfig K} {rid : ReplicaID} {key : K.PrivKey} {voteDisabled : Bool}
  {r : Replica K}

theorem pacedOk_of_reachable
    (hr : Reachable ((machine env config rid key voteDisabled).restrict (Paced env)) r) :
    PacedOk env r := by
  refine hr.invariant ?_ ?_
  · rintro r rfl
    exact ⟨.start _ _ _ _ _, fun _ => List.not_mem_nil⟩
  · intro r i r' hs hpace hstep
    exact hpace.step (replicaOk_of_reachable hs.of_restrict) (votingOk_of_reachable hs.of_restrict)
      hstep.1 hstep.2

/-- The block that `get_parents()` offers is the highest certified block or descends from it,
whenever it is asked for, and every block the replica announces has the block it certifies among
its proper ancestors. -/
theorem proposals_extend_hqc
    (hr : Reachable ((machine env config rid key voteDisabled).restrict (Paced env)) r) :
    Extends (fun h => (r.core.blk h).parents.head?) r.core.hqcTail r.core.hqc.1 ∧
      ∀ h, .propose h ∈ r.core.trace → ∃ q p, (r.core.blk h).qcRef = some q ∧
        (r.core.blk h).parents.head? = some p ∧
        Extends (fun h => (r.core.blk h).parents.head?) p q := by
  have hpace := pacedOk_of_reachable hr
  have hplain : ∀ x p, firstParent r.core x = some p → (r.core.blk x).parents.head? = some p := by
    intro x p hp
    rw [← firstParent_eq (delivered_of_firstParent hp)]
    exact hp
  refine ⟨hpace.tails.above.mono hplain, fun h hmem => ?_⟩
  obtain ⟨q, p, hq, hp, hext⟩ := hpace.tails.own h hmem
  exact ⟨q, p, hq, hplain h p hp, hext.mono hplain⟩

end reachable

/-! A replica proposes a block, learns of a certificate on another branch and proposes there. -/

def jumpRun : List (Input clearScheme) :=
  [.wait 0, .propose [1] [0] [], .resume,
    .fetch { parentHashes := [0], cmds := [2], qc := QuorumCert.create peerConfig 0, extra := [] },
    .deliver 2, .receiveProposal ⟨1, 2⟩,
    .fetch { parentHashes := [2], cmds := [3], qc := QuorumCert.create peerConfig 2, extra := [] },
    .deliver 3, .receiveProposal ⟨1, 3⟩, .wait 1, .propose [4] [3] [], .resume]

def jumped : Replica clearScheme :=
  (execute (guarded (Paced (clearEnv false)) (Replica.step (clearEnv false))) jumpRun
    ⟨.start (clearEnv false) peerConfig 0 (0 : Nat) false, []⟩).get
    (by decide +kernel)

theorem jumped_reachable : Reachable ((machine (clearEnv false) peerConfig 0 (0 : Nat)
    false).restrict (Paced (clearEnv false))) jumped :=
  Reachable.trans (.init rfl)
    (steps_of_execute (fun _ _ _ hstep => guarded_eq_some hstep) (Option.some_get _).symm)

theorem proposals_extend_hqc_jumped : (jumped.core.hqc.1 = 2 ∧ jumped.core.hqcTail = 4) ∧
    Extends (fun h => (jumped.core.blk h).parents.head?) jumped.core.hqcTail jumped.core.hqc.1 ∧
    ∀ h, .propose h ∈ jumped.core.trace → ∃ q p, (jumped.core.blk h).qcRef = some q ∧
      (jumped.core.blk h).parents.head? = some p ∧
      Extends (fun h => (jumped.core.blk h).parents.head?) p q :=
  ⟨by decide +kernel, proposals_extend_hqc jumped_reachable⟩

end ArchipelagoHotStuff.Consensus.HighTail
