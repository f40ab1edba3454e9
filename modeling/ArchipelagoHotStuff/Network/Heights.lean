/- Module: ArchipelagoHotStuff/Network/Heights
   source: consensus.cpp (update_hqc, update, on_propose)
   digest: Certified blocks are higher than what they certify, the highest certificate is above the
     lock, and the vote of a proposer for its own block keeps the rule for other votes. -/

import ArchipelagoHotStuff.Network.Refinement

set_option autoImplicit false
set_option relaxedAutoImplicit false

namespace ArchipelagoHotStuff.Network.Heights

open Crypto.Wire Crypto.Certificates
open Consensus Consensus.State Consensus.Handlers Consensus.Effects Consensus.Tree
open Consensus.Trails Consensus.Machine Consensus.VoteCount Network.Model Network.Views
open Network.Chains Network.Refinement
open General.Transition General.ParentTree General.VoteLedger

variable {K : Secp256k1} {D : Deployment K} {c d : HotStuffCore K}
  {L : Ledger ReplicaID Uint256} {r r' : ReplicaID} {h q : Uint256} {s : Replicas K}

/-- `nmajority` replicas have valid votes for the block. -/
def Obtains (D : Deployment K) (s : Replicas K) (h : Uint256) : Prop :=
  ∃ A : Finset ReplicaID, D.config.nmajority ≤ A.card ∧ ∀ v ∈ A, ∃ vote : Vote K,
    vote.voter = v ∧ vote.blkHash = h ∧ vote.verify D.config = .ok true ∧
      D.Genuine s v h vote.cert.sig

theorem certified_of_obtains (hj : Joined D s L) (hb : Obtains D s h) :
    Certified D.quorums L h := by
  obtain ⟨A, hcard, hvotes⟩ := hb
  have hvoter : ∀ v ∈ A, v ∈ D.quorums.members ∧ (v ∉ D.quorums.faulty → (v, h) ∈ L) := by
    intro v hv
    obtain ⟨vote, rfl, rfl, hverify, hgen⟩ := hvotes v hv
    obtain ⟨hhash, pubkey, hkey, hvalid⟩ := Vote.verify_true hverify
    refine hj.accepted_of_genuine hgen hkey ?_
    rw [← hhash]
    exact hvalid
  refine ⟨A, ⟨fun v hv => (hvoter v hv).1, ?_⟩, fun v hv hgood => (hvoter v hv).2 hgood⟩
  rw [Deployment.size_quorums]
  exact hcard

theorem decideVote_of_rule (hlt : c.vheight < (c.blk h).height)
    (hrule : c.qcAboveLock h = true ∨ c.checkAncestry c.bLock h = true) :
    c.decideVote h = .ok (true, c.accept h) := by
  unfold HotStuffCore.decideVote
  rw [if_neg (Nat.not_le_of_lt hlt)]
  split
  · rfl
  · rename_i hlow
    obtain ⟨queue, hdesc⟩ := checkAncestry_iff.mp (hrule.resolve_left hlow)
    rw [hdesc]
    exact if_pos rfl

/-- A proposer's own block is certified by the highest certificate, hence above the lock. -/
theorem rule_of_built (hthree : D.env.twoStep = false) (hok : JoinedOk D L r d)
    (hbuilt : Built D.env c d h) (hq : D.forest.qc h = some c.hqc.1) :
    d.qcAboveLock h = true ∨ d.checkAncestry d.bLock h = true := by
  have hqc : (d.blk h).qcRef = some d.hqc.1 := by
    rcases hbuilt.hqc with hsame | hraised
    · rw [hok.view.qcRef hbuilt.delivered, hsame]
      exact hq
    · exact hraised
  rcases hok.chain.lock_lt_hqc hthree with ⟨hlock, _⟩ | hlt
  · refine .inr ?_
    rw [hlock]
    exact hok.view.tree.checkAncestry_of_extends hbuilt.delivered
      (hok.view.tree.depth hbuilt.delivered).extends_root
  · rw [hok.view.height hok.chain.lock_delivered, hok.view.height hok.chain.hqc_delivered] at hlt
    refine .inl ?_
    unfold HotStuffCore.qcAboveLock
    rw [hqc]
    simpa using hlt

/-- Where `on_propose` votes for the block it has built, the ledger knows the replica. -/
theorem joinedOk_of_build (hr : D.Correct r)
    (hL : Reachable (ruledLedgers D (fun _ _ => True)) L) (hok : JoinedOk D L r c)
    {cmds parents : List Uint256} {extra : List UInt8}
    (hnames : D.Names (c.newData cmds parents extra)) (hne : parents ≠ [])
    (hparents : ∀ p ∈ parents, (c.blk p).delivered = true)
    (hbuild : c.build D.env (c.newData cmds parents extra) = .ok d) :
    Built D.env c d (D.env.getHash (c.newData cmds parents extra)) ∧ ∃ L', JoinedOk D L' r d := by
  have hdata : (c.newData cmds parents extra).parentHashes ≠ [] := hne
  have hspec := build_spec D.env hdata hparents rfl hok.hqc_stored
  rw [hbuild] at hspec
  obtain ⟨htrail, hbuilt⟩ := hspec
  have hkeeps : Keeps D (fun _ _ => True) (fun _ : Effect K => True) :=
    fun _ _ _ _ _ _ _ _ _ _ _ => trivial
  obtain ⟨L', _, hok'⟩ := extended_trail hkeeps hr hL hok (htrail.mono (fun e he =>
    ⟨hok.vouched_of_proposes hnames hparents (proposes_of_builds he), trivial⟩))
  exact ⟨hbuilt, L', hok'⟩

/-- Heights in the three-step build, whatever up to a third of the other replicas do: a block
with enough valid votes is higher than the block its certificate is for; the highest certificate
of a correct replica is above its lock unless both are the genesis block; and when a correct
replica votes for its own block, the rule of `on_receive_proposal` makes the same vote. -/
theorem height_order (hthree : D.env.twoStep = false) (hs : Reachable D.network s) :
    (∀ h, Obtains D s h → ∀ r r' q, D.Correct r → D.Correct r' →
      ((s r).core.blk h).delivered = true → ((s r).core.blk h).qcRef = some q →
        ((s r').core.blk q).height < ((s r).core.blk h).height) ∧
    (∀ r, D.Correct r → ((s r).core.bLock = D.env.genesisHash ∧
        (s r).core.hqc.1 = D.env.genesisHash) ∨
      ((s r).core.blk (s r).core.bLock).height < ((s r).core.blk (s r).core.hqc.1).height) ∧
    ∀ r cmds parents extra, D.Correct r → parents ≠ [] →
      (∀ p ∈ parents, ((s r).core.blk p).delivered = true) →
      D.Names ((s r).core.newData cmds parents extra) →
      ∀ d, (s r).core.build D.env ((s r).core.newData cmds parents extra) = .ok d →
        d.vheight < (d.blk (D.env.getHash ((s r).core.newData cmds parents extra))).height →
        d.decideVote (D.env.getHash ((s r).core.newData cmds parents extra)) =
          .ok (true, d.accept (D.env.getHash ((s r).core.newData cmds parents extra))) := by
  obtain ⟨L, hL, hj⟩ := joined_of_reachable hs
  have hvalid := valid_of_ruled hL
  refine ⟨?_, ?_, ?_⟩
  · intro h hb r r' q hr hr' hd hq
    have hcert := certified_of_obtains hj hb
    have hview := (hj r hr).view
    rw [hview.qcRef hd] at hq
    have hlt := hvalid.certified_qc_lt hcert hq
    rw [hview.height hd] at hlt
    exact Nat.lt_of_le_of_lt ((hj r' hr').view.height_le q) hlt
  · intro r hr
    have hok := hj r hr
    have hlt := hok.chain.lock_lt_hqc hthree
    rw [hok.view.height hok.chain.lock_delivered, hok.view.height hok.chain.hqc_delivered] at hlt
    exact hlt
  · intro r cmds parents extra hr hne hparents hnames d hbuild hlt
    obtain ⟨hbuilt, L', hok'⟩ := joinedOk_of_build hr hL (hj r hr) hnames hne hparents hbuild
    refine decideVote_of_rule hlt (rule_of_built hthree hok' hbuilt ?_)
    refine (names_forest (hj r hr).view hnames ?_).2
    intro heq
    rw [heq, hok'.view.tree.genesis.height] at hlt
    exact absurd hlt (Nat.not_lt_zero _)

/-! Two replicas vote for a block after another, each with the votes of the Byzantine one. -/

def climb : Deployment clearScheme :=
  quartet false {3} few_of_three
    [blockOf 1 0 0 [], blockOf 2 1 1 [0, 1, 3], blockOf 3 2 2 [0, 1, 3], blockOf 4 3 3 [0, 1, 3]]

def climbed : Replicas clearScheme :=
  (execute climb.next (handles 0 (blockOf 1 0 0 []) ++ handles 1 (blockOf 1 0 0 []) ++
    handles 0 (blockOf 2 1 1 [0, 1, 3]) ++ handles 1 (blockOf 2 1 1 [0, 1, 3]) ++
    handles 0 (blockOf 3 2 2 [0, 1, 3])) climb.start).get (by decide +kernel)

theorem climbed_reachable : Reachable climb.network climbed :=
  Deployment.reachable_of_run (Option.some_get _).symm

theorem height_order_climbed : (climbed 0).core.bLock = 1 ∧ (((climbed 0).core.bLock = 0 ∧
    (climbed 0).core.hqc.1 = 0) ∨ ((climbed 0).core.blk (climbed 0).core.bLock).height <
      ((climbed 0).core.blk (climbed 0).core.hqc.1).height) :=
  ⟨by decide +kernel, (height_order rfl climbed_reachable).2.1 0 (by decide)⟩

end ArchipelagoHotStuff.Network.Heights
