/- Module: ArchipelagoHotStuff/Consensus/Ballots
   digest: The votes counted for each block, and the hashes that certificates are for. -/

import ArchipelagoHotStuff.Consensus.Tree

set_option autoImplicit false
set_option relaxedAutoImplicit false

namespace ArchipelagoHotStuff.Consensus.Ballots

open Crypto.Wire Crypto.Certificates State Handlers Effects Consensus.Tree

variable {K : Secp256k1} {env : Env K} {c : HotStuffCore K} {e : Effect K} {h x : Uint256}

/-- The votes counted for a block and the certificate they fill. -/
def ballot (b : Block K) : Finset ReplicaID × Option (QuorumCert K) := (b.voted, b.selfQc)

def Counts : Effect K → Prop
  | .create _ | .resetSelfQc _ _ | .count _ _ _ | .miscount _ => True
  | _ => False

theorem ballot_modifyBlk (h x : Uint256) {f : Block K → Block K}
    (hf : ∀ b, ballot (f b) = ballot b) : ballot ((c.modifyBlk h f).blk x) = ballot (c.blk x) :=
  c.field_modifyBlk ballot h x hf

theorem ballot_commitAll (queue : List Uint256) (x : Uint256) :
    ballot ((queue.foldl HotStuffCore.commitBlk c).blk x) = ballot (c.blk x) := by
  induction queue generalizing c with
  | nil => rfl
  | cons h queue ih =>
      rw [List.foldl_cons, ih]
      exact ballot_modifyBlk (c := c) h x (fun _ => rfl)

theorem ballot_apply (he : Allowed env c e) (hc : ¬ Counts e) (x : Uint256) :
    ballot ((apply env c e).blk x) = ballot (c.blk x) := by
  cases e with
  | create _ | resetSelfQc _ _ | count _ _ _ | miscount _ => exact absurd trivial hc
  | store data =>
      by_cases hx : x = env.getHash data
      · subst hx
        have hnew : (apply env c (.store data)).blk (env.getHash data) = .fetched data :=
          blk_store_self env he
        rw [hnew, c.blk_of_none he]
        rfl
      · exact congrArg ballot (blk_store_ne he hx)
  | deliver h =>
      exact ballot_modifyBlk (c := c) h x (fun _ => rfl)
  | spoil h _ _ => exact ballot_modifyBlk (c := c) h x (fun _ => rfl)
  | commit queue h => exact ballot_commitAll queue.reverse x
  | _ => rfl

theorem selfQc_apply (he : Allowed env c e) (hc : ¬ Counts e) (x : Uint256) :
    ((apply env c e).blk x).selfQc = (c.blk x).selfQc :=
  congrArg Prod.snd (ballot_apply he hc x)

theorem voted_apply (he : Allowed env c e) (hc : ¬ Counts e) (x : Uint256) :
    ((apply env c e).blk x).voted = (c.blk x).voted :=
  congrArg Prod.fst (ballot_apply he hc x)

theorem blk_countVote_ne {vote : Vote K} {qc : QuorumCert K} (hx : x ≠ vote.blkHash) :
    (countVote c vote qc).blk x = c.blk x := by
  unfold countVote
  dsimp only
  split
  · exact c.blk_modifyBlk_ne hx _
  · exact c.blk_modifyBlk_ne hx _

theorem blk_countVote_self {vote : Vote K} {qc : QuorumCert K}
    (hs : (c.storage vote.blkHash).isSome) :
    (countVote c vote qc).blk vote.blkHash =
      { c.blk vote.blkHash with
        voted := insert vote.voter (c.blk vote.blkHash).voted, selfQc := some qc } := by
  unfold countVote
  dsimp only
  split
  · exact c.blk_modifyBlk_self hs _
  · exact c.blk_modifyBlk_self hs _

/-- Certificates are for the blocks they are filed under. -/
structure CertsOk (c : HotStuffCore K) : Prop where
  hqc_hash : c.hqc.2.objHash = c.hqc.1
  hqc_stored : (c.storage c.hqc.1).isSome
  selfQc_hash : ∀ h qc, (c.blk h).selfQc = some qc → qc.objHash = h

theorem CertsOk.getD_hash (hok : CertsOk c) (h : Uint256) :
    ((c.blk h).selfQc.getD (QuorumCert.create c.config h)).objHash = h := by
  cases hq : (c.blk h).selfQc with
  | none => rfl
  | some qc => exact hok.selfQc_hash h qc hq

/-- The block an effect raises the certificate to is the one the certificate is for. -/
theorem raiseHqc_hash {qc : QuorumCert K} (htree : TreeOk env c) (hok : CertsOk c)
    (he : Allowed env c (.raiseHqc h qc)) : qc.objHash = h ∧ (c.storage h).isSome := by
  obtain ⟨hlt, ⟨n, hd, hq, hqc⟩ | ⟨hd, hq, _⟩⟩ := he
  · by_cases hn : n = env.genesisHash
    · rw [hn, htree.genesis.qcRef] at hq
      cases hq
      rw [htree.genesis.height] at hlt
      exact absurd hlt (Nat.not_lt_zero _)
    · have hdel := htree.deliveredOk n hn hd
      have hsame := hdel.qcRef
      rw [hq] at hsame
      have hhash : h = (c.blk n).data.qc.objHash := Option.some.inj hsame
      rw [← hqc, hhash]
      exact ⟨rfl, hdel.qcStored⟩
  · exact ⟨hok.selfQc_hash h qc hq, isSome_of_delivered hd⟩

theorem CertsOk.apply (htree : TreeOk env c) (hok : CertsOk c) (he : Allowed env c e) :
    CertsOk (Effects.apply env c e) := by
  have hg := grows_apply he
  have hself : ∀ h qc, ((Effects.apply env c e).blk h).selfQc = some qc → qc.objHash = h := by
    by_cases hc : Counts e
    · intro x q hq
      cases e with
      | create data =>
          by_cases hx : x = env.getHash data
          · subst hx
            have hblk : (Effects.apply env c (.create data)).blk (env.getHash data) = _ :=
              blk_createBlk_self env data
            rw [hblk] at hq
            cases hq
            rfl
          · have hblk : (Effects.apply env c (.create data)).blk x = c.blk x :=
              blk_createBlk_ne hx
            rw [hblk] at hq
            exact hok.selfQc_hash x q hq
      | resetSelfQc h voted =>
          by_cases hx : x = h
          · subst hx
            have hblk : (Effects.apply env c (.resetSelfQc x voted)).blk x = _ :=
              c.blk_modifyBlk_self he.1 _
            rw [hblk] at hq
            cases hq
            rfl
          · have hblk : (Effects.apply env c (.resetSelfQc h voted)).blk x = c.blk x :=
              c.blk_modifyBlk_ne hx _
            rw [hblk] at hq
            exact hok.selfQc_hash x q hq
      | count vote own qc =>
          by_cases hx : x = vote.blkHash
          · subst hx
            have hblk : (Effects.apply env c (.count vote own qc)).blk vote.blkHash = _ :=
              blk_countVote_self (isSome_of_delivered he.1)
            rw [hblk] at hq
            cases hq
            rw [(QuorumCert.addPart_ok he.2.2.2.1).2.1]
            exact hok.getD_hash _
          · have hblk : (Effects.apply env c (.count vote own qc)).blk x = c.blk x :=
              blk_countVote_ne hx
            rw [hblk] at hq
            exact hok.selfQc_hash x q hq
      | miscount vote =>
          by_cases hx : x = vote.blkHash
          · subst hx
            have hblk : (Effects.apply env c (.miscount vote)).blk vote.blkHash = _ :=
              c.blk_modifyBlk_self (isSome_of_delivered he.1) _
            rw [hblk] at hq
            cases hq
            exact hok.getD_hash _
          · have hblk : (Effects.apply env c (.miscount vote)).blk x = c.blk x :=
              c.blk_modifyBlk_ne hx _
            rw [hblk] at hq
            exact hok.selfQc_hash x q hq
      | _ => exact absurd hc id
    · intro x q hq
      rw [selfQc_apply he hc] at hq
      exact hok.selfQc_hash x q hq
  by_cases hr : ∃ h qc, e = .raiseHqc h qc
  · obtain ⟨h, qc, rfl⟩ := hr
    obtain ⟨hhash, hs⟩ := raiseHqc_hash htree hok he
    exact ⟨hhash, hs, hself⟩
  · have hsame := hqc_apply env c (fun h qc heq => hr ⟨h, qc, heq⟩)
    refine ⟨?_, ?_, hself⟩
    · rw [hsame]
      exact hok.hqc_hash
    · rw [hsame]
      exact hg.stored _ hok.hqc_stored

theorem CertsOk.start (env : Env K) (config : ReplicaConfig K) (id : ReplicaID)
    (key : K.PrivKey) (voteDisabled : Bool) :
    CertsOk (HotStuffCore.start env config id key voteDisabled) := by
  refine ⟨rfl, by simp [HotStuffCore.start], ?_⟩
  intro h qc hq
  by_cases hh : h = env.genesisHash
  · subst hh
    simp only [HotStuffCore.blk, HotStuffCore.start, Function.update_self, Option.getD_some] at hq
    cases hq
    rfl
  · simp only [HotStuffCore.blk, HotStuffCore.start, Function.update_of_ne hh,
      Option.getD_none] at hq
    cases hq

end ArchipelagoHotStuff.Consensus.Ballots
