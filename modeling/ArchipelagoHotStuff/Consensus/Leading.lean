/- Module: ArchipelagoHotStuff/Consensus/Leading
   source: consensus.cpp (on_propose, on_receive_vote), liveness.h (PMHighTail)
   digest: A replica that builds on its own last block: votes for its blocks leave hqc below that
     block or raise it there, and the next block follows it and certifies it. -/

import ArchipelagoHotStuff.Consensus.AnyOrder
import ArchipelagoHotStuff.Consensus.Levels

set_option autoImplicit false
set_option relaxedAutoImplicit false

namespace ArchipelagoHotStuff.Consensus.Leading

open Crypto.Wire Crypto.Certificates State Handlers Effects Consensus.Tree Trails Machine
open Ballots CommitLog Voting HighTail Stages FailedProposals Duplicates Levels
open General.ParentTree General.Transition

variable {K : Secp256k1} {env : Env K} {c c' d : HotStuffCore K} {b m q t x : Uint256}

/-! Votes. -/

def Complete (c : HotStuffCore K) (m : Uint256) : Prop :=
  c.config.nmajority ≤ (c.blk m).voted.card

instance (c : HotStuffCore K) (m : Uint256) : Decidable (Complete c m) :=
  inferInstanceAs (Decidable (_ ≤ _))

def Foremost (c : HotStuffCore K) (m : Uint256) : Prop :=
  ∀ t ∈ c.tails, c.checkAncestry m t = true → (c.blk t).height ≤ (c.blk m).height

/-- What does not depend on the votes. -/
structure SameBlocks (c c' : HotStuffCore K) : Prop where
  node : ∀ x, node (c'.blk x) = node (c.blk x)
  decision : ∀ x, (c'.blk x).decision = (c.blk x).decision
  vheight : c'.vheight = c.vheight
  bExec : c'.bExec = c.bExec
  config : c'.config = c.config

namespace SameBlocks

variable (h : SameBlocks c c')
include h

theorem height (x : Uint256) : (c'.blk x).height = (c.blk x).height :=
  congrArg Node.height (h.node x)

theorem qcRef (x : Uint256) : (c'.blk x).qcRef = (c.blk x).qcRef := congrArg Node.qcRef (h.node x)

theorem decides : Decides c c' := ⟨h.node, fun x hx => (h.decision x).trans hx⟩

end SameBlocks

theorem same_counted (c : HotStuffCore K) (vote : Vote K) (qc : QuorumCert K) :
    SameBlocks c (counted c vote qc) :=
  ⟨fun x => c.field_modifyBlk node vote.blkHash x (fun _ => rfl),
    fun x => c.field_modifyBlk Block.decision vote.blkHash x (fun _ => rfl), rfl, rfl, rfl⟩

theorem hqcTail_onHqcUpdate {qc : QuorumCert K} (h : Foremost c q) :
    (({ c with hqc := (q, qc) } : HotStuffCore K).onHqcUpdate).hqcTail = q := by
  have hanc : ∀ t, (show HotStuffCore K from { c with hqc := (q, qc) }).checkAncestry q t =
      c.checkAncestry q t := fun t => checkAncestry_congr (fun _ => rfl)
  have hscan : ∀ tails : List Uint256, (∀ t ∈ tails, t ∈ c.tails) →
      tails.foldl (fun best t =>
        if (show HotStuffCore K from { c with hqc := (q, qc) }).checkAncestry q t &&
          decide ((c.blk best).height < (c.blk t).height) then t else best) q = q := by
    intro tails
    induction tails with
    | nil => exact fun _ => rfl
    | cons t tails ih =>
        intro hsub
        rw [List.foldl_cons, if_neg]
        · exact ih (fun x hx => hsub x (List.mem_cons_of_mem t hx))
        · rw [Bool.and_eq_true, hanc, decide_eq_true_eq]
          rintro ⟨habove, hlt⟩
          exact absurd hlt (Nat.not_lt.mpr (h t (hsub t List.mem_cons_self) habove))
  exact hscan c.tails (fun _ => id)

theorem receiveVote_same {vote : Vote K} {woken : Bool}
    (hres : c.onReceiveVote vote = .ok (woken, c')) : SameBlocks c c' := by
  rcases receiveVote_parts hres with rfl | ⟨qc, _, _, _, ⟨_, rfl⟩ | ⟨_, heq⟩⟩
  · exact ⟨fun _ => rfl, fun _ => rfl, rfl, rfl, rfl⟩
  · exact same_counted c vote qc
  have hcounted := same_counted c vote qc
  obtain ⟨woken', w, hfin⟩ := onQcFinish_eq
    (((counted c vote qc).emit (.quorum vote.blkHash qc)).updateHqc vote.blkHash qc) vote.blkHash
  rw [hfin] at heq
  cases heq
  rcases updateHqc_cases ((counted c vote qc).emit (.quorum vote.blkHash qc)) vote.blkHash qc with
    ⟨hsame, _⟩ | ⟨_, hsame⟩
  · rw [hsame]
    exact ⟨hcounted.node, hcounted.decision, rfl, rfl, rfl⟩
  · rw [hsame]
    exact ⟨hcounted.node, hcounted.decision, rfl, rfl, rfl⟩

theorem Foremost.same (hfore : Foremost c m) (h : SameBlocks c c') (htails : c'.tails = c.tails) :
    Foremost c' m := by
  intro t ht habove
  rw [h.decides.checkAncestry] at habove
  rw [h.height, h.height]
  exact hfore t (htails ▸ ht) habove

/-- `hqc` is below the block, which has too few votes, or is the certificate of the block. -/
def Tracks (c : HotStuffCore K) (m : Uint256) : Prop :=
  (¬ Complete c m ∧ (c.blk c.hqc.1).height < (c.blk m).height) ∨ (Complete c m ∧ c.hqc.1 = m)

theorem Tracks.counted {vote : Vote K} (qc : QuorumCert K) (htracks : Tracks c m)
    (hs : (c.storage vote.blkHash).isSome) (hvoted : vote.voter ∉ (c.blk vote.blkHash).voted)
    (hmore : (c.blk vote.blkHash).voted.card < c.config.nmajority)
    (hnot : (c.blk vote.blkHash).voted.card + 1 ≠ c.config.nmajority) :
    Tracks (Levels.counted c vote qc) m ∧
      (Complete (Levels.counted c vote qc) m → Complete c m) := by
  have hheight := (same_counted c vote qc).height
  unfold Tracks Complete at htracks ⊢
  rw [hheight, hheight, voted_counted c vote qc m hs]
  split
  · rename_i hm
    subst hm
    rw [Finset.card_insert_of_notMem hvoted]
    have hfew : ¬ c.config.nmajority ≤ (c.blk vote.blkHash).voted.card + 1 := by omega
    rcases htracks with ⟨_, hlt⟩ | ⟨hmany, _⟩
    · exact ⟨.inl ⟨hfew, hlt⟩, fun h => absurd h hfew⟩
    · exact absurd hmany (Nat.not_le.mpr hmore)
  · exact ⟨htracks, id⟩

/-- The vote is the one that completes the certificate of its block. -/
def Completes (c : HotStuffCore K) (vote : Vote K) : Prop :=
  vote.voter ∉ (c.blk vote.blkHash).voted ∧
    (c.blk vote.blkHash).voted.card + 1 = c.config.nmajority

instance (c : HotStuffCore K) (vote : Vote K) : Decidable (Completes c vote) :=
  inferInstanceAs (Decidable (_ ∧ _))

/-- After a vote for a lower block, or for `m`, the tail is `m` as well where the votes for `m`
suffice, if it was so before and no tail above `m` is higher. -/
theorem Tracks.receiveVote {vote : Vote K} {woken : Bool} (htracks : Tracks c m)
    (hres : c.onReceiveVote vote = .ok (woken, c'))
    (hlower : vote.blkHash ≠ m → Completes c vote →
      (c.blk vote.blkHash).height < (c.blk m).height) :
    Tracks c' m ∧ ((Complete c m → c.hqcTail = m) →
      (vote.blkHash = m → Completes c vote → Foremost c m) →
      Complete c' m → c'.hqcTail = m) := by
  rcases receiveVote_parts hres with
    rfl | ⟨qc, hd, hvoted, hmore, ⟨hnot, rfl⟩ | ⟨hcomplete, heq⟩⟩
  · exact ⟨htracks, fun htail _ => htail⟩
  · obtain ⟨hcounted, hmany⟩ :=
      Tracks.counted qc htracks (isSome_of_delivered hd) hvoted hmore hnot
    exact ⟨hcounted, fun htail _ h => htail (hmany h)⟩
  have hs := isSome_of_delivered hd
  have hsame := same_counted c vote qc
  have hheight := hsame.height
  obtain ⟨woken', w, hfin⟩ := onQcFinish_eq
    (((Levels.counted c vote qc).emit (.quorum vote.blkHash qc)).updateHqc vote.blkHash qc)
    vote.blkHash
  rw [hfin] at heq
  cases heq
  by_cases hm : vote.blkHash = m
  · -- The votes for `m` suffice now, and `hqc` is lower.
    rcases htracks with ⟨_, hlt⟩ | ⟨hmany, _⟩
    swap
    · rw [Complete, ← hm] at hmany
      exact absurd hmany (Nat.not_le.mpr hmore)
    rcases updateHqc_cases ((Levels.counted c vote qc).emit (.quorum vote.blkHash qc))
      vote.blkHash qc with ⟨_, hle⟩ | ⟨_, hraised⟩
    · have hle' : ((Levels.counted c vote qc).blk vote.blkHash).height ≤
          ((Levels.counted c vote qc).blk c.hqc.1).height := hle
      rw [hheight, hheight, hm] at hle'
      exact absurd hle' (Nat.not_le.mpr hlt)
    rw [hraised]
    refine ⟨.inr ⟨?_, hm⟩, fun _ hlast _ => ?_⟩
    · show c.config.nmajority ≤ ((Levels.counted c vote qc).blk m).voted.card
      rw [voted_counted c vote qc m hs, if_pos hm.symm, ← hm,
        Finset.card_insert_of_notMem hvoted, hcomplete]
    · have hfore : Foremost ((Levels.counted c vote qc).emit (.quorum vote.blkHash qc))
          vote.blkHash := by
        rw [hm]
        exact (hlast hm ⟨hvoted, hcomplete⟩).same ⟨hsame.node, hsame.decision, rfl, rfl, rfl⟩ rfl
      exact (hqcTail_onHqcUpdate hfore).trans hm
  have hcount : Complete (Levels.counted c vote qc) m ↔ Complete c m := by
    unfold Complete
    rw [voted_counted c vote qc m hs, if_neg (Ne.symm hm)]
    exact Iff.rfl
  have hbelow := hlower hm ⟨hvoted, hcomplete⟩
  rcases updateHqc_cases ((Levels.counted c vote qc).emit (.quorum vote.blkHash qc))
    vote.blkHash qc with ⟨hkept, _⟩ | ⟨hlt, hraised⟩
  · rw [hkept]
    refine ⟨htracks.imp (fun ⟨hfew, hlt⟩ => ⟨fun h => hfew (hcount.mp h), ?_⟩)
      (fun ⟨hmany, hhqc⟩ => ⟨hcount.mpr hmany, hhqc⟩), fun htail _ h => htail (hcount.mp h)⟩
    show ((Levels.counted c vote qc).blk c.hqc.1).height <
      ((Levels.counted c vote qc).blk m).height
    rwa [hheight, hheight]
  · have hlt' : ((Levels.counted c vote qc).blk c.hqc.1).height <
        ((Levels.counted c vote qc).blk vote.blkHash).height := hlt
    rw [hheight, hheight] at hlt'
    rcases htracks with ⟨hfew, _⟩ | ⟨_, hhqc⟩
    · rw [hraised]
      refine ⟨.inl ⟨fun h => hfew (hcount.mp h), ?_⟩, fun _ _ h => absurd (hcount.mp h) hfew⟩
      show ((Levels.counted c vote qc).blk vote.blkHash).height <
        ((Levels.counted c vote qc).blk m).height
      rwa [hheight, hheight]
    · rw [hhqc] at hlt'
      exact absurd hlt' (Nat.lt_asymm hbelow)

/-! Proposals. -/

/-- The block is the last one that the replica has voted for. -/
structure Leads (env : Env K) (c : HotStuffCore K) (m : Uint256) : Prop where
  accepted : .accept m ∈ c.trace ∨ m = env.genesisHash
  vheight : c.vheight = (c.blk m).height
  tracks : Tracks c m
  tail : Complete c m → c.hqcTail = m

/-- The block follows another one and carries its certificate. -/
def Certifies (c : HotStuffCore K) (b q : Uint256) : Prop :=
  firstParent c b = some q ∧ (c.blk b).qcRef = some q

theorem Certifies.grows (h : Certifies c b q) (hg : Grows c c') : Certifies c' b q :=
  ⟨firstParent_mono hg h.1, (hg.qcRef (delivered_of_firstParent h.1)).trans h.2⟩

/-- What `on_propose` has done for a block `b` on `get_parents()`. -/
structure Produced (env : Env K) (c c' : HotStuffCore K) (b : Uint256) : Prop where
  grows : Grows c c'
  parent : firstParent c' b = some c.hqcTail
  qcRef : (c'.blk b).qcRef = some c.hqc.1
  leads : Leads env c' b
  settled : target env c' b = none
  bExec : c'.bExec = c.bExec ∨ ∃ t, (c'.blk b).qcRef = some t ∧
    (c'.blk t).height = (c'.blk c'.bExec).height + chainLength env

theorem bExec_update {n : Uint256} (htree : TreeOk env c) (hup : c.update env n = .ok c') :
    c'.bExec = c.bExec ∨ ∃ t, (c.blk n).qcRef = some t ∧
      (c.blk t).height = (c.blk c'.bExec).height + chainLength env := by
  rw [update_eq] at hup
  cases hb : target env c n with
  | none =>
      rw [hb] at hup
      cases hup
      exact .inl (raised_spec env c n).2.1
  | some b =>
      rw [hb] at hup
      obtain ⟨queue, _, rfl⟩ := commit_ok hup
      obtain ⟨t, ht, hheight⟩ := height_of_target htree hb
      exact .inr ⟨t, (certified_eq_some.mp ht).1, hheight⟩

/-- The block is built on `hqc_tail` and certifies `hqc`; `update` has committed what it finds, and
the replica has voted for the block. -/
theorem produced_of_propose {cmds : List Uint256} {extra : List UInt8} {woken : Bool}
    (htree : TreeOk env c) (hcerts : CertsOk c) (hcommits : CommitOk env c)
    (htails : TailsOk env c) (hlevel : LevelOk c) (hmajority : 0 < c.config.nmajority)
    (hdist : Distinct env c (c.newData cmds c.getParents extra))
    (hres : c.onPropose env cmds c.getParents extra = .ok (woken, c')) :
    Produced env c (c'.announce (env.getHash (c.newData cmds c.getParents extra)))
      (env.getHash (c.newData cmds c.getParents extra)) := by
  have hall : ∀ p ∈ c.getParents, (c.blk p).delivered = true := by
    intro p hp
    rw [List.mem_singleton.mp hp]
    exact htails.delivered
  have hstored : (c.storage c.hqc.2.objHash).isSome := by
    rw [hcerts.hqc_hash]
    exact hcerts.hqc_stored
  have hspec := onPropose_spec env cmds extra hall hstored
  rw [hres] at hspec
  obtain ⟨htrail, hprop, _⟩ := hspec
  have htree' := (trail_ok htrail htree hcerts).1
  have hgrows := grows_of_trail htrail
  obtain ⟨hne, hparent, hqcRef⟩ := links_of_proposed hcerts hdist htree' htrail hprop
  obtain ⟨_, u, hbuild, hhigh, hvote⟩ := propose_parts hres
  obtain ⟨d, hbuilt, hins, hup⟩ := build_parts (List.cons_ne_nil _ _) hall rfl hstored htree hbuild
  obtain ⟨htree_d, hcommits_d⟩ : TreeOk env d ∧ CommitOk env d :=
    Trail.invariant (I := fun e => TreeOk env e ∧ CommitOk env e) hbuilt ⟨htree, hcommits⟩
      (fun _ _ _ hinv he => ⟨hinv.1.apply he, hinv.2.apply hinv.1 he⟩)
  have hlevel_u := (hlevel.inserted (grows_of_trail hbuilt) hins).update htree_d hup
  have hsettled := (settled_of_update htree_d hcommits_d hup).2
  obtain ⟨b, hb⟩ : ∃ b, env.getHash (c.newData cmds c.getParents extra) = b := ⟨_, rfl⟩
  have hdelivered := hins.delivered
  rw [hb] at hprop hparent hqcRef hup hhigh hvote hsettled hdelivered ⊢
  -- The blocks are the same from the delivery of the new one on.
  obtain ⟨_, hdec, x, hregs⟩ := update_raised hup
  have hsame := receiveVote_same hvote
  have hnode : ∀ x, node (c'.blk x) = node (d.blk x) := fun x =>
    (hsame.node x).trans ((hdec.node_eq x).trans (congrArg node (blk_raised env d b)))
  have hqcRef_d : (d.blk b).qcRef = some d.hqc.1 := by
    rw [show d.hqc = c.hqc from congrArg Registers.hqc hins.registers]
    exact (congrArg Node.qcRef (hnode b)).symm.trans hqcRef
  have hhqc : u.hqc = c.hqc :=
    (hqc_of_update hdelivered hqcRef_d hup).1.trans (congrArg Registers.hqc hins.registers)
  have hconfig : u.config = c.config :=
    (congrArg Registers.config hregs).trans
      ((raised_spec env d b).2.2.2.2.1.trans (congrArg Registers.config hins.registers))
  have hheight : ∀ x, (u.blk x).height = (c'.blk x).height := fun x => (hsame.height x).symm
  have hlt : (u.blk u.hqc.1).height < (u.blk b).height := by
    have hup := (htree'.delivered_firstParent hparent).2
    have hle := (htree.height_le_of_extends htails.delivered htails.above).2
    rw [hhqc, hheight, hheight, hup, hgrows.height hlevel.hqc, hgrows.height htails.delivered]
    exact Nat.lt_succ_of_le hle
  have htracks : Tracks ((u.accept b).emit (.partCert b)) b := by
    refine .inl ⟨fun hmany => ?_, hlt⟩
    exact absurd hlt (Nat.not_lt.mpr (hlevel_u.quorum_le (hconfig ▸ hmajority) b hmany))
  have htracks' := (htracks.receiveVote hvote (fun hne _ => absurd rfl hne)).1
  refine ⟨hgrows.trans ⟨fun _ _ => rfl, fun _ => id, List.suffix_cons _ _⟩, hparent, hqcRef,
    ⟨.inl (List.mem_cons_of_mem _ hprop.accepted), ?_, htracks', fun _ => rfl⟩, ?_, ?_⟩
  · exact hsame.vheight.trans (hsame.height b).symm
  · have hnone : target env ((u.accept b).emit (.partCert b)) b = none :=
      (target_congr env (fun _ => rfl)).trans hsettled
    cases htarget : target env (c'.announce b) b with
    | none => rfl
    | some y =>
        have hy : target env c' b = some y := htarget
        rw [hsame.decides.target hy] at hnone
        cases hnone
  · have hexec : (c'.announce b).bExec = u.bExec := hsame.bExec
    rw [hexec]
    rcases bExec_update htree_d hup with hkept | ⟨t, href, hlen⟩
    · exact .inl (hkept.trans (congrArg Registers.bExec hins.registers))
    · refine .inr ⟨t, (congrArg Node.qcRef (hnode b)).trans href, ?_⟩
      exact (congrArg Node.height (hnode t)).trans
        (hlen.trans (congrArg (· + _) (congrArg Node.height (hnode u.bExec)).symm))

/-! Other calls. -/

/-- What the replica is called with while it builds on its own blocks: no proposals, and of the
votes only its last block, or a lower one, may get its certificate. -/
def Solo (c : HotStuffCore K) (m : Uint256) : Input K → Prop
  | .receiveVote vote => Completes c vote →
      if vote.blkHash = m then Foremost c m
      else (c.blk vote.blkHash).height < (c.blk m).height
  | .propose _ _ _ | .receiveProposal _ => False
  | .fetch _ | .deliver _ | .wait _ | .resume => True

namespace Leads

theorem delivered (hm : Leads env c m) (htree : TreeOk env c) (hvoting : VotingOk c) :
    (c.blk m).delivered = true := by
  rcases hm.accepted with hacc | rfl
  · exact hvoting.delivered m hacc
  · exact htree.genesis.delivered

theorem lower (hm : Leads env c m) (htree : TreeOk env c) (hvoting : VotingOk c)
    (hacc : .accept x ∈ c.trace) (hne : x ≠ m) : (c.blk x).height < (c.blk m).height := by
  have hle := hvoting.height_le hacc
  rw [hm.vheight] at hle
  refine lt_of_le_of_ne hle (fun heq => ?_)
  rcases hm.accepted with hmacc | rfl
  · exact hne (hvoting.unique x m hacc hmacc heq)
  · have hpos := htree.height_pos (hvoting.delivered x hacc) hne
    rw [heq, htree.genesis.height] at hpos
    exact Nat.lt_irrefl 0 hpos

theorem congr (hm : Leads env c m) (hd : (c.blk m).delivered = true)
    (hqc : (c.blk c.hqc.1).delivered = true) (hg : Grows c c')
    (hvoted : (c'.blk m).voted = (c.blk m).voted) (hhqc : c'.hqc = c.hqc)
    (hvheight : c'.vheight = c.vheight) (htail : c'.hqcTail = c.hqcTail)
    (hconfig : c'.config = c.config) : Leads env c' m := by
  have hcount : Complete c' m ↔ Complete c m := by
    unfold Complete
    rw [hvoted, hconfig]
  refine ⟨hm.accepted.imp_left (fun h => hg.trace.subset h), ?_, ?_, fun h => ?_⟩
  · rw [hvheight, hg.height hd]
    exact hm.vheight
  · unfold Tracks
    rw [hcount, hhqc, hg.height hd, hg.height hqc]
    exact hm.tracks
  · rw [htail]
    exact hm.tail (hcount.mp h)

theorem returns {r r' : Replica K} {i : Input K} (hm : Leads env r.core m)
    (htree : TreeOk env r.core) (hvoting : VotingOk r.core)
    (hqc : (r.core.blk r.core.hqc.1).delivered = true) (hg : Grows r.core r'.core)
    (hcalm : ∀ h, .proposed h ∉ r.stack) (hheld : ∀ prop opinion, .received prop opinion ∉ r.stack)
    (hsolo : Solo r.core m i) (hreturns : Returns env r i r') :
    Leads env r'.core m ∧ r'.core.bExec = r.core.bExec := by
  have hd := hm.delivered htree hvoting
  cases hreturns with
  | fetch =>
      rename_i data
      have hregs := registers_addBlk r.core (env.getHash data) (.fetched data)
      refine ⟨hm.congr hd hqc hg ?_ (congrArg Registers.hqc hregs)
        (congrArg Registers.vheight hregs) (congrArg Registers.hqcTail hregs)
        (congrArg Registers.config hregs),
        congrArg Registers.bExec hregs⟩
      cases hs : r.core.storage (env.getHash data) with
      | some b =>
          rw [r.core.addBlk_of_isSome (by rw [hs]; rfl)]
      | none =>
          rw [r.core.blk_addBlk_of_none hs, if_neg]
          rintro rfl
          have hstored := isSome_of_delivered hd
          rw [hs] at hstored
          cases hstored
  | deliver hs hres =>
      have hspec := onDeliverBlk_spec env hs
      rw [hres] at hspec
      rcases hspec with ⟨_, rfl⟩ | ⟨hallow, rfl⟩
      · exact ⟨hm, rfl⟩
      · exact ⟨hm.congr hd hqc hg (voted_apply hallow id m) rfl rfl rfl rfl, rfl⟩
  | propose hall hres => exact hsolo.elim
  | receiveProposal hres => exact hsolo.elim
  | receiveVote hres =>
      rename_i vote woken c'
      have hsame := receiveVote_same hres
      have hlower : vote.blkHash ≠ m → Completes r.core vote →
          (r.core.blk vote.blkHash).height < (r.core.blk m).height := by
        intro hne hlast
        have hlower := hsolo hlast
        rwa [if_neg hne] at hlower
      have hfore : vote.blkHash = m → Completes r.core vote → Foremost r.core m := by
        intro heq hlast
        have hfore := hsolo hlast
        rwa [if_pos heq] at hfore
      obtain ⟨htracks, htail⟩ := hm.tracks.receiveVote hres hlower
      refine ⟨⟨hm.accepted.imp_left (fun h => hg.trace.subset h), ?_, htracks,
        htail hm.tail hfore⟩, hsame.bExec⟩
      exact hsame.vheight.trans (hm.vheight.trans (hsame.height m).symm)
  | wait =>
      rename_i h
      obtain ⟨w, hw⟩ := asyncQcFinish_eq r.core h
      have hw' : (⟨r.core.asyncQcFinish h, r.stack⟩ : Replica K).core = waiting r.core w := hw
      rw [hw'] at hg ⊢
      exact ⟨hm.congr hd hqc hg rfl rfl rfl rfl rfl, rfl⟩
  | resume hstep =>
      rcases step_resume hstep with ⟨h, stack, heq, _⟩ | ⟨h, stack, _, rfl⟩ |
        ⟨prop, opinion, stack, heq, _⟩
      · refine absurd ?_ (hcalm h)
        rw [heq]
        exact List.mem_cons_self
      · exact ⟨hm.congr hd hqc hg rfl rfl rfl rfl rfl, rfl⟩
      · refine absurd ?_ (hheld prop opinion)
        rw [heq]
        exact List.mem_cons_self

end Leads

/-! Rows of blocks. -/

theorem height_of_row {l : List Uint256} (htree : TreeOk env c)
    (hrow : (b :: l).IsChain (Certifies c)) (hm : (b :: l).getLast? = some m) :
    (c.blk b).height = (c.blk m).height + l.length := by
  induction l generalizing b with
  | nil =>
      obtain rfl : b = m := Option.some.inj hm
      rfl
  | cons q l ih =>
      obtain ⟨hb, hrow⟩ := List.isChain_cons_cons.mp hrow
      rw [List.getLast?_cons_cons] at hm
      rw [(htree.delivered_firstParent hb.1).2, ih hrow hm, List.length_cons]
      rfl

theorem Certifies.head (h : Certifies c b q) : (c.blk b).parents.head? = some q :=
  (firstParent_eq (delivered_of_firstParent h.1)).symm.trans h.1

theorem decided_of_row {l : List Uint256} (htree : TreeOk env c) (hcommits : CommitOk env c)
    (hrow : (b :: l).IsChain (Certifies c)) (hm : (b :: l).getLast? = some m)
    (hb : (c.blk b).decision = true) : (c.blk m).decision = true := by
  induction l generalizing b with
  | nil =>
      obtain rfl : b = m := Option.some.inj hm
      exact hb
  | cons q l ih =>
      obtain ⟨hbq, hrow⟩ := List.isChain_cons_cons.mp hrow
      rw [List.getLast?_cons_cons] at hm
      exact ih hrow hm (hcommits.decided_parent htree hb hbq.head).1

/-- When nothing is left for `update` to commit, the block at the end of a row that is long enough
is decided. -/
theorem decided_of_settled {l : List Uint256} (htree : TreeOk env c) (hcommits : CommitOk env c)
    (hnone : target env c b = none) (hrow : (b :: l).IsChain (Certifies c))
    (hlength : l.length = chainLength env + 1) (hm : (b :: l).getLast? = some m) :
    (c.blk m).decision = true := by
  by_contra hnot
  have hundecided : ∀ {q l}, (q :: l).IsChain (Certifies c) → (q :: l).getLast? = some m →
      (c.blk q).decision = false := fun hrow hm =>
    Bool.eq_false_iff.mpr (fun hq => hnot (decided_of_row htree hcommits hrow hm hq))
  unfold chainLength at hlength
  cases htwo : env.twoStep with
  | true =>
      rw [if_pos htwo] at hlength
      obtain ⟨t, p, rfl⟩ := List.length_eq_two.mp hlength
      obtain ⟨hbt, hrow⟩ := List.isChain_cons_cons.mp hrow
      obtain ⟨htp, hrow'⟩ := List.isChain_cons_cons.mp hrow
      rw [List.getLast?_cons_cons] at hm
      have hcert : certified c b = some t := certified_eq_some.mpr ⟨hbt.2, hundecided hrow hm⟩
      rw [List.getLast?_cons_cons] at hm
      have hdirect : direct c t = some p :=
        direct_eq_some.mpr ⟨htp.2, hundecided hrow' hm, htp.head⟩
      rw [target, if_pos htwo, hcert, Option.bind_some, hdirect] at hnone
      cases hnone
  | false =>
      rw [if_neg (Bool.eq_false_iff.mp htwo)] at hlength
      obtain ⟨t, p, q, rfl⟩ := List.length_eq_three.mp hlength
      obtain ⟨hbt, hrow⟩ := List.isChain_cons_cons.mp hrow
      obtain ⟨htp, hrow'⟩ := List.isChain_cons_cons.mp hrow
      obtain ⟨hpq, hrow''⟩ := List.isChain_cons_cons.mp hrow'
      rw [List.getLast?_cons_cons] at hm
      have hcert : certified c b = some t := certified_eq_some.mpr ⟨hbt.2, hundecided hrow hm⟩
      rw [List.getLast?_cons_cons] at hm
      have hdirect : direct c t = some p :=
        direct_eq_some.mpr ⟨htp.2, hundecided hrow' hm, htp.head⟩
      rw [List.getLast?_cons_cons] at hm
      have hdirect' : direct c p = some q :=
        direct_eq_some.mpr ⟨hpq.2, hundecided hrow'' hm, hpq.head⟩
      rw [target, if_neg (Bool.eq_false_iff.mp htwo), hcert, Option.bind_some, hdirect,
        Option.bind_some, hdirect'] at hnone
      cases hnone

/-- A row of blocks that begins with `m`, the latest one first; the first block is decided once the
row is long enough. -/
structure Row (env : Env K) (c : HotStuffCore K) (m : Uint256) (l : List Uint256) : Prop where
  linked : l.IsChain (Certifies c)
  first : l.getLast? = some m
  delivered : (c.blk m).delivered = true
  done : l.length = chainLength env + 2 → (c.blk m).decision = true

/-- The last block of the row leads, and before the row is long enough nothing as high as its first
block is committed. -/
structure Rising (env : Env K) (c : HotStuffCore K) (m : Uint256) (l : List Uint256) : Prop where
  leads : ∀ b ∈ l.head?, Leads env c b
  waits : l.length ≤ chainLength env + 1 → (c.blk c.bExec).height < (c.blk m).height

namespace Row

variable {l : List Uint256}

theorem grows (h : Row env c m l) (hok : CommitOk env c) (hok' : CommitOk env c')
    (hg : Grows c c') : Row env c' m l :=
  ⟨h.linked.imp (fun _ _ hbq => hbq.grows hg), h.first, hg.delivered h.delivered,
    fun hlength => hok.decided_mono hok' hg.trace (h.done hlength)⟩

/-- A block proposed on `get_parents()` begins a row, if there are others to come. -/
theorem begin (hprod : Produced env c c' b) (htree : TreeOk env c) (htree' : TreeOk env c')
    (htails : TailsOk env c) (hlevel : LevelOk c) : Row env c' b [b] ∧ Rising env c' b [b] := by
  have hheight := (htree'.delivered_firstParent hprod.parent).2
  have hle := (htree.height_le_of_extends htails.delivered htails.above).2
  have hlt : (c'.blk c.hqc.1).height < (c'.blk b).height := by
    rw [hheight, hprod.grows.height hlevel.hqc, hprod.grows.height htails.delivered]
    exact Nat.lt_succ_of_le hle
  refine ⟨⟨List.isChain_singleton b, rfl, delivered_of_firstParent hprod.parent, nofun⟩,
    fun x hx => Option.some.inj hx ▸ hprod.leads, fun _ => ?_⟩
  rcases hprod.bExec with hkept | ⟨t, href, hlen⟩
  · rw [hkept, hprod.grows.height hlevel.executed]
    rw [hprod.grows.height hlevel.hqc] at hlt
    exact hlevel.exec_le.trans_lt hlt
  · obtain rfl := Option.some.inj (hprod.qcRef.symm.trans href)
    omega

/-- Once the last block has its certificate the next block prolongs the row, and commits the first
one if it is far enough. -/
theorem prolong {q : Uint256} (hprod : Produced env c c' b) (hrow : Row env c m (q :: l))
    (hrising : Rising env c m (q :: l)) (hq : Complete c q) (hlevel : LevelOk c)
    (htree' : TreeOk env c') (hok : CommitOk env c) (hok' : CommitOk env c')
    (hlength : (q :: l).length ≤ chainLength env + 1) :
    Row env c' m (b :: q :: l) ∧ Rising env c' m (b :: q :: l) := by
  have hlead := hrising.leads q rfl
  have hkept := hrow.grows hok hok' hprod.grows
  have hhqc : c.hqc.1 = q := by
    rcases hlead.tracks with ⟨hfew, _⟩ | ⟨_, hhqc⟩
    · exact absurd hq hfew
    · exact hhqc
  have hparent := hprod.parent
  have hqcRef := hprod.qcRef
  rw [hlead.tail hq] at hparent
  rw [hhqc] at hqcRef
  have hlinked : (b :: q :: l).IsChain (Certifies c') :=
    List.isChain_cons_cons.mpr ⟨⟨hparent, hqcRef⟩, hkept.linked⟩
  have hfirst : (b :: q :: l).getLast? = some m := by
    rw [List.getLast?_cons_cons]
    exact hrow.first
  refine ⟨⟨hlinked, hfirst, hkept.delivered, fun hlong => ?_⟩,
    fun x hx => Option.some.inj hx ▸ hprod.leads, fun hshort => ?_⟩
  · refine decided_of_settled htree' hok' hprod.settled hlinked ?_ hfirst
    rw [List.length_cons] at hlong
    exact Nat.succ.inj hlong
  · rcases hprod.bExec with hexec | ⟨t, href, hlen⟩
    · rw [hexec, hprod.grows.height hlevel.executed, hprod.grows.height hrow.delivered]
      exact hrising.waits hlength
    · obtain rfl := Option.some.inj (hqcRef.symm.trans href)
      have hheight := height_of_row htree' hkept.linked hkept.first
      rw [List.length_cons, List.length_cons] at hshort
      omega

end Row

end ArchipelagoHotStuff.Consensus.Leading
