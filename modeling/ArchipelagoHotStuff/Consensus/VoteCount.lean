/- Module: ArchipelagoHotStuff/Consensus/VoteCount
   source: consensus.cpp (on_propose, on_receive_vote), crypto.h (add_part)
   digest: The votes counted for a block and the certificate they fill agree as long as no block
     is built that has been voted for already. -/

import ArchipelagoHotStuff.Consensus.Machine
import ArchipelagoHotStuff.Consensus.Setup

set_option autoImplicit false
set_option relaxedAutoImplicit false

namespace ArchipelagoHotStuff.Consensus.VoteCount

open Crypto.Wire Crypto.Certificates State Handlers Effects Consensus.Tree Ballots Trails Machine
open Setup
open General.Transition

variable {K : Secp256k1} {env : Env K} {config : ReplicaConfig K} {c : HotStuffCore K}
  {e : Effect K} {h x : Uint256}

/-- The signers of a certificate that may not be there yet. -/
def signersOf (qc : Option (QuorumCert K)) : Finset ReplicaID := qc.elim ∅ QuorumCert.signers

/-- The certificate an event completes for a block. -/
def completedBy (h : Uint256) : Event K → Option (QuorumCert K)
  | .quorum k qc => if k = h then some qc else none
  | _ => none

/-- The certificates `on_receive_vote` has completed for a block, each with its calls of
`update_hqc` and `on_qc_finish`; the latest first. -/
def certificates (c : HotStuffCore K) (h : Uint256) : List (QuorumCert K) :=
  c.trace.filterMap (completedBy h)

theorem signers_create (config : ReplicaConfig K) (h : Uint256) :
    (QuorumCert.create config h).signers = ∅ := rfl

theorem signers_getD (qc : Option (QuorumCert K)) (config : ReplicaConfig K) (h : Uint256) :
    (qc.getD (QuorumCert.create config h)).signers = signersOf qc := by
  cases qc with
  | none => rfl
  | some qc => rfl

theorem certificates_count {vote : Vote K} {own : Bool} {qc : QuorumCert K} :
    certificates (apply env c (.count vote own qc)) x =
      if (c.blk vote.blkHash).voted.card + 1 = c.config.nmajority ∧ vote.blkHash = x then
        qc :: certificates c x
      else certificates c x := by
  have hnew : newEvents env c (.count vote own qc) =
      if (c.blk vote.blkHash).voted.card + 1 = c.config.nmajority then
        [.quorum vote.blkHash qc]
      else [] := rfl
  unfold certificates
  rw [trace_eq, List.filterMap_append, hnew]
  by_cases hlast : (c.blk vote.blkHash).voted.card + 1 = c.config.nmajority
  · rw [if_pos hlast]
    by_cases hx : vote.blkHash = x
    · rw [if_pos ⟨hlast, hx⟩]
      simp [completedBy, hx]
    · rw [if_neg (fun hand => hx hand.2)]
      simp [completedBy, hx]
  · rw [if_neg hlast, if_neg (fun hand => hlast hand.1)]
    rfl

theorem certificates_apply (he : ∀ vote own qc, e ≠ .count vote own qc) :
    certificates (apply env c e) x = certificates c x := by
  have hnone : (newEvents env c e).filterMap (completedBy x) = [] := by
    rw [List.filterMap_eq_nil_iff]
    intro a ha
    cases e with
    | count vote own qc => exact absurd rfl (he vote own qc)
    | commit queue h =>
        obtain ⟨y, _, hy⟩ := List.mem_flatMap.mp ha
        rcases mem_commitEvents hy with rfl | ⟨fin, rfl⟩ <;> rfl
    | create _ | raiseHqc _ _ | accept _ _ | acceptOwn _ _ _ | sign _ | announce _ | broadcast _
    | sendVote _ _ | throw _ =>
        rw [List.mem_singleton.mp ha]
        rfl
    | _ => cases ha
  unfold certificates
  rw [trace_eq, List.filterMap_append, hnone, List.nil_append]

/-- The votes counted for a block and its certificate agree. -/
structure BallotOk (config : ReplicaConfig K) (c : HotStuffCore K) (h : Uint256) : Prop where
  signers : signersOf (c.blk h).selfQc = (c.blk h).voted
  card_le : (c.blk h).voted.card ≤ config.nmajority
  once : (certificates c h).length = if (c.blk h).voted.card = config.nmajority then 1 else 0
  verifies : ∀ qc ∈ certificates c h, qc.objHash = h ∧ qc.verify config = .ok true

/-- All ballots but that of the genesis block are in order, and all certificates being filled
hold valid signatures. -/
structure BallotsOk (env : Env K) (config : ReplicaConfig K) (c : HotStuffCore K) : Prop where
  configured : c.config = config
  ownKey : config.getPubkey c.id = .ok (K.getPubkey c.privKey)
  sound : ∀ h qc, h ≠ env.genesisHash → (c.blk h).selfQc = some qc → qc.Sound config
  agree : ∀ h, h ≠ env.genesisHash → BallotOk config c h

/-- Effects that keep ballots in order: certificates are not thrown away once somebody has voted,
and votes are either the own ones or verified. -/
def Orderly (env : Env K) (config : ReplicaConfig K) : Effect K → Prop
  | .resetSelfQc h voted => h ≠ env.genesisHash → voted = ∅
  | .count vote own _ => own = true ∨ vote.verify config = .ok true
  | .miscount vote => vote.cert.objHash = vote.blkHash
  | _ => True

section step

variable {c' : HotStuffCore K}

private theorem BallotOk.of_same (hok : BallotOk config c x)
    (hballot : ballot (c'.blk x) = ballot (c.blk x))
    (hcerts : certificates c' x = certificates c x) : BallotOk config c' x := by
  have hvoted : (c'.blk x).voted = (c.blk x).voted := congrArg Prod.fst hballot
  have hself : (c'.blk x).selfQc = (c.blk x).selfQc := congrArg Prod.snd hballot
  refine ⟨?_, ?_, ?_, ?_⟩
  · rw [hself, hvoted]
    exact hok.signers
  · rw [hvoted]
    exact hok.card_le
  · rw [hcerts, hvoted]
    exact hok.once
  · rw [hcerts]
    exact hok.verifies

private theorem BallotOk.of_create (hok : BallotOk config c x)
    (hempty : (c.blk x).voted = ∅) (hvoted : (c'.blk x).voted = ∅)
    (hself : (c'.blk x).selfQc = some (QuorumCert.create c.config x))
    (hcerts : certificates c' x = certificates c x) : BallotOk config c' x := by
  have honce := hok.once
  rw [hempty] at honce
  refine ⟨?_, ?_, ?_, ?_⟩
  · rw [hself, hvoted]
    exact signers_create c.config x
  · rw [hvoted]
    exact Nat.zero_le _
  · rw [hcerts, hvoted]
    exact honce
  · rw [hcerts]
    exact hok.verifies

private theorem BallotOk.of_count {qc qc' : QuorumCert K} {rid : ReplicaID} {pc : PartCert K}
    (hok : BallotOk config c x) (hadd : qc.addPart rid pc = .ok qc')
    (hqc : qc.signers = signersOf (c.blk x).selfQc) (hhash : qc.objHash = x)
    (hfew : (c.blk x).voted.card < config.nmajority) (hnew : rid ∉ (c.blk x).voted)
    (hsound : qc'.Sound config) (hvoted : (c'.blk x).voted = insert rid (c.blk x).voted)
    (hself : (c'.blk x).selfQc = some qc')
    (hcerts : certificates c' x =
      if (c.blk x).voted.card + 1 = config.nmajority then qc' :: certificates c x
      else certificates c x) : BallotOk config c' x := by
  have hcard : (c'.blk x).voted.card = (c.blk x).voted.card + 1 := by
    rw [hvoted, Finset.card_insert_of_notMem hnew]
  have hsigners : qc'.signers = (c'.blk x).voted := by
    rw [QuorumCert.signers_addPart hadd, hqc, hok.signers, hvoted]
  have hnone : (certificates c x).length = 0 := by
    rw [hok.once, if_neg (Nat.ne_of_lt hfew)]
  refine ⟨?_, ?_, ?_, ?_⟩
  · rw [hself]
    exact hsigners
  · omega
  · rw [hcerts, hcard]
    split
    · rw [List.length_cons, hnone]
    · exact hnone
  · intro q hq
    rw [hcerts, List.eq_nil_of_length_eq_zero hnone] at hq
    split at hq
    · rename_i hlast
      rw [List.mem_singleton.mp hq, (QuorumCert.addPart_ok hadd).2.1]
      refine ⟨hhash, hsound.verify (by omega) ?_⟩
      rw [hsigners]
      omega
    · cases hq

theorem BallotsOk.apply (hok : BallotsOk env config c) (hcertsOk : CertsOk c)
    (hP : Orderly env config e) (he : Allowed env c e) :
    BallotsOk env config (Effects.apply env c e) := by
  have hconfig : (Effects.apply env c e).config = config := by
    rw [config_apply env c]
    exact hok.configured
  have hkey : config.getPubkey (Effects.apply env c e).id =
      .ok (K.getPubkey (Effects.apply env c e).privKey) := by
    rw [id_apply env c, privKey_apply env c]
    exact hok.ownKey
  suffices hall : ∀ y, y ≠ env.genesisHash →
      (∀ qc, ((Effects.apply env c e).blk y).selfQc = some qc → qc.Sound config) ∧
        BallotOk config (Effects.apply env c e) y from
    ⟨hconfig, hkey, fun y qc hne => (hall y hne).1 qc, fun y hne => (hall y hne).2⟩
  intro y hne
  have hold := hok.agree y hne
  -- A block whose ballot an effect leaves alone.
  have same : ballot ((Effects.apply env c e).blk y) = ballot (c.blk y) →
      certificates (Effects.apply env c e) y = certificates c y →
      (∀ qc, ((Effects.apply env c e).blk y).selfQc = some qc → qc.Sound config) ∧
        BallotOk config (Effects.apply env c e) y := by
    intro hballot hcerts
    refine ⟨fun qc hqc => hok.sound y qc hne ?_, hold.of_same hballot hcerts⟩
    rw [← hqc]
    exact (congrArg Prod.snd hballot).symm
  by_cases hcount : Counts e
  swap
  · refine same (ballot_apply he hcount y) (certificates_apply ?_)
    rintro vote own qc rfl
    exact hcount trivial
  cases e with
  | create data =>
      have hcerts : certificates (Effects.apply env c (.create data)) y = certificates c y :=
        certificates_apply nofun
      by_cases hy : y = env.getHash data
      · subst hy
        have hblk : (Effects.apply env c (.create data)).blk (env.getHash data) = _ :=
          blk_createBlk_self env data
        have hself : ((Effects.apply env c (.create data)).blk (env.getHash data)).selfQc =
            some (QuorumCert.create c.config (env.getHash data)) := by rw [hblk]
        refine ⟨fun qc hqc => ?_, hold.of_create ?_ ?_ hself hcerts⟩
        · rw [hself] at hqc
          cases hqc
          exact QuorumCert.sound_create _ _ _
        · rw [c.blk_of_none he.1]
          rfl
        · rw [hblk]
      · exact same (congrArg ballot (blk_createBlk_ne hy)) hcerts
  | resetSelfQc k voted =>
      have hcerts : certificates (Effects.apply env c (.resetSelfQc k voted)) y =
          certificates c y := certificates_apply nofun
      by_cases hy : y = k
      · subst hy
        have hblk : (Effects.apply env c (.resetSelfQc y voted)).blk y = _ :=
          c.blk_modifyBlk_self he.1 _
        have hself : ((Effects.apply env c (.resetSelfQc y voted)).blk y).selfQc =
            some (QuorumCert.create c.config y) := by rw [hblk]
        have hempty : (c.blk y).voted = ∅ := he.2.trans (hP hne)
        refine ⟨fun qc hqc => ?_, hold.of_create hempty ?_ hself hcerts⟩
        · rw [hself] at hqc
          cases hqc
          exact QuorumCert.sound_create _ _ _
        · rw [hblk]
          exact hempty
      · exact same (congrArg ballot (c.blk_modifyBlk_ne hy _)) hcerts
  | count vote own qc =>
      by_cases hy : y = vote.blkHash
      · subst hy
        obtain ⟨hd, hfew, hnew, hadd, hown⟩ := he
        have hblk : (Effects.apply env c (.count vote own qc)).blk vote.blkHash = _ :=
          blk_countVote_self (isSome_of_delivered hd)
        have hself : ((Effects.apply env c (.count vote own qc)).blk vote.blkHash).selfQc =
            some qc := by rw [hblk]
        have hgetD : ((c.blk vote.blkHash).selfQc.getD
            (QuorumCert.create c.config vote.blkHash)).Sound config := by
          cases hq : (c.blk vote.blkHash).selfQc with
          | none => exact QuorumCert.sound_create _ _ _
          | some q => exact hok.sound vote.blkHash q hne hq
        have hvalid : ∃ pubkey, config.getPubkey vote.voter = .ok pubkey ∧
            vote.cert.verify pubkey = true := by
          rcases hP with hyes | hverified
          · obtain ⟨heq, _⟩ := hown hyes
            rw [heq]
            exact ⟨_, hok.ownKey, K.verify_sign _ _⟩
          · exact (Vote.verify_true hverified).2
        obtain ⟨pubkey, hpub, hsig⟩ := hvalid
        have hsound := hgetD.addPart hadd hpub hsig
        refine ⟨fun q hq => ?_, hold.of_count hadd (signers_getD _ _ _)
          (hcertsOk.getD_hash _) ?_ hnew hsound ?_ hself ?_⟩
        · rw [hself] at hq
          cases hq
          exact hsound
        · rw [← hok.configured]
          exact hfew
        · rw [hblk]
        · rw [certificates_count, hok.configured]
          simp only [and_true]
      · refine same (congrArg ballot (blk_countVote_ne hy)) ?_
        rw [certificates_count, if_neg (fun hand => hy hand.2.symm)]
  | miscount vote =>
      have hmis := he.2.2.2
      rw [hcertsOk.getD_hash] at hmis
      exact absurd hP hmis
  | _ => exact absurd hcount id

theorem BallotsOk.start (env : Env K) (id : ReplicaID) (key : K.PrivKey) (voteDisabled : Bool)
    (hkey : config.getPubkey id = .ok (K.getPubkey key)) (hpos : 0 < config.nmajority) :
    BallotsOk env config (HotStuffCore.start env config id key voteDisabled) := by
  have hblk : ∀ y, y ≠ env.genesisHash →
      (HotStuffCore.start env config id key voteDisabled).blk y = .absent := by
    intro y hne
    simp [HotStuffCore.blk, HotStuffCore.start, hne]
  have hnone : ∀ y, certificates (HotStuffCore.start env config id key voteDisabled) y = [] :=
    fun _ => rfl
  refine ⟨rfl, hkey, fun y qc hne hqc => ?_, fun y hne => ⟨?_, ?_, ?_, fun qc hmem => ?_⟩⟩
  · rw [hblk y hne] at hqc
    cases hqc
  · rw [hblk y hne]
    rfl
  · rw [hblk y hne]
    exact Nat.zero_le _
  · rw [hblk y hne]
    exact (if_neg (Nat.ne_of_lt hpos)).symm
  · rw [hnone y] at hmem
    cases hmem

end step

/-! Runs. -/

/-- Votes are handed to `on_receive_vote` once they have been verified. -/
def Verified (config : ReplicaConfig K) : Input K → Prop
  | .receiveVote vote => vote.verify config = .ok true
  | _ => True

/-- `on_propose` does not build a block for which votes have been counted already. -/
def BuildsAfresh (env : Env K) (r : Replica K) : Input K → Prop
  | .propose cmds parents extra =>
      let h := env.getHash (r.core.newData cmds parents extra)
      parents ≠ [] → h ≠ env.genesisHash → (r.core.blk h).voted = ∅
  | _ => True

theorem covers_orderly {r : Replica K} {i : Input K} (hverified : Verified config i)
    (hfresh : BuildsAfresh env r i) : Covers env r (Orderly env config) i := by
  cases i with
  | fetch data => exact trivial
  | deliver h =>
      intro e he
      cases e <;> first | exact trivial | exact absurd he id
  | propose cmds parents extra =>
      refine ⟨fun e he => ?_, trivial⟩
      cases e with
      | resetSelfQc h voted =>
          obtain ⟨rfl, _, rfl, hne⟩ := he
          exact hfresh hne
      | count vote own qc => exact .inl he.2
      | miscount vote => exact he.2
      | _ => exact trivial
  | receiveProposal prop =>
      refine ⟨fun e he => ?_, trivial, trivial⟩
      cases e <;> first | exact trivial | exact absurd he id
  | receiveVote vote =>
      intro e he
      cases e with
      | count v own qc =>
          obtain ⟨rfl, _⟩ := he
          exact .inr hverified
      | miscount v =>
          obtain rfl := he
          exact (Vote.verify_true hverified).1
      | resetSelfQc h voted => exact absurd he id
      | _ => exact trivial
  | wait h => exact trivial
  | resume => exact ⟨fun _ => trivial, fun _ => trivial, fun _ => trivial⟩

/-- The machine of the replica `id` of a system with the given keys, which verifies votes before
it handles them. -/
def votingMachine (env : Env K) (keys : List K.PrivKey) (id : ReplicaID) (key : K.PrivKey)
    (voteDisabled : Bool) : System (Replica K) (Input K) :=
  (machine env (HotStuffCore.startConfig (keys.map K.getPubkey)) id key voteDisabled).restrict
    (fun _ i => Verified (HotStuffCore.startConfig (keys.map K.getPubkey)) i)

theorem startConfig_pos {keys : List K.PrivKey} {id : ReplicaID} {key : K.PrivKey}
    (hkey : keys[id.val]? = some key) :
    0 < (HotStuffCore.startConfig (keys.map K.getPubkey)).nmajority := by
  refine nmajority_pos ?_
  rw [List.length_map]
  exact Nat.zero_lt_of_lt (List.getElem?_eq_some_iff.mp hkey).1

theorem ballotsOk_start {keys : List K.PrivKey} {id : ReplicaID} {key : K.PrivKey}
    (voteDisabled : Bool) (hkey : keys[id.val]? = some key) :
    BallotsOk env (HotStuffCore.startConfig (keys.map K.getPubkey))
      (HotStuffCore.start env (HotStuffCore.startConfig (keys.map K.getPubkey)) id key
        voteDisabled) := by
  refine .start env id key voteDisabled (getPubkey_startConfig ?_) (startConfig_pos hkey)
  rw [List.getElem?_map, hkey]
  rfl

/-- While no block is built that has votes already, the signers of each certificate are the
voters of its block, never more than needed, and with the last one needed the certificate is
completed, once, and verifies. -/
theorem certificates_formed (keys : List K.PrivKey) {id : ReplicaID} {key : K.PrivKey}
    {voteDisabled : Bool} {r : Replica K} (hkey : keys[id.val]? = some key)
    (hr : Reachable ((votingMachine env keys id key voteDisabled).restrict
      (BuildsAfresh env)) r) (hne : h ≠ env.genesisHash) :
    BallotOk (HotStuffCore.startConfig (keys.map K.getPubkey)) r.core h := by
  have hrestrict : Reachable ((machine env (HotStuffCore.startConfig (keys.map K.getPubkey)) id
      key voteDisabled).restrict (fun s i => BuildsAfresh env s i ∧
        Verified (HotStuffCore.startConfig (keys.map K.getPubkey)) i)) r := by
    induction hr with
    | init hinit => exact .init hinit
    | step _ hs ih => exact .step ih ⟨⟨hs.1, hs.2.1⟩, hs.2.2⟩
  refine BallotsOk.agree (invariant_of_covered hrestrict
    (fun s i hok => covers_orderly hok.2 hok.1) ⟨fun _ => trivial, fun _ => trivial,
      fun _ _ => trivial⟩ (ballotsOk_start voteDisabled hkey) ?_) h hne
  intro d e _ hcerts hP hinv he
  exact hinv.apply hcerts hP he

/-! Replica 0 of four, whose blocks are named by their first command. -/

def peerKeys : List clearScheme.PrivKey := [(0 : Nat), (1 : Nat), (2 : Nat), (3 : Nat)]

def peerConfig : ReplicaConfig clearScheme :=
  HotStuffCore.startConfig (peerKeys.map clearScheme.getPubkey)

/-- A vote as replica `i` creates it for block 1. -/
def voteOf (i : Nat) : Vote clearScheme := ⟨ReplicaID.ofIndex i, 1, PartCert.create i 1⟩

instance (config : ReplicaConfig K) (i : Input K) : Decidable (Verified config i) :=
  match i with
  | .receiveVote vote => inferInstanceAs (Decidable (vote.verify config = .ok true))
  | .fetch _ | .deliver _ | .propose _ _ _ | .receiveProposal _ | .wait _ | .resume =>
      isTrue trivial

instance (env : Env K) (r : Replica K) (i : Input K) : Decidable (BuildsAfresh env r i) :=
  match i with
  | .propose cmds parents extra =>
      inferInstanceAs (Decidable (parents ≠ [] →
        env.getHash (r.core.newData cmds parents extra) ≠ env.genesisHash →
          (r.core.blk (env.getHash (r.core.newData cmds parents extra))).voted = ∅))
  | .receiveVote _ | .fetch _ | .deliver _ | .receiveProposal _ | .wait _ | .resume =>
      isTrue trivial

/-- The replica proposes a block, and two others vote for it. -/
def proposedReplica : Replica clearScheme :=
  (execute (guarded (BuildsAfresh (clearEnv false)) (guarded (fun _ i => Verified peerConfig i)
    (Replica.step (clearEnv false))))
    [.propose [1] [0] [], .resume, .receiveVote (voteOf 1), .receiveVote (voteOf 2)]
    ⟨.start (clearEnv false) peerConfig 0 (0 : Nat) false, []⟩).get (by decide +kernel)

theorem proposedReplica_reachable :
    Reachable ((votingMachine (clearEnv false) peerKeys 0 (0 : Nat) false).restrict
      (BuildsAfresh (clearEnv false))) proposedReplica := by
  refine Reachable.trans (.init rfl) (steps_of_execute ?_ (Option.some_get _).symm)
  intro s i s' hstep
  obtain ⟨hfresh, hstep⟩ := guarded_eq_some hstep
  exact ⟨hfresh, guarded_eq_some hstep⟩

theorem certificates_formed_peer : (certificates proposedReplica.core 1).length = 1 ∧
    BallotOk peerConfig proposedReplica.core 1 :=
  ⟨by decide +kernel, certificates_formed peerKeys rfl proposedReplica_reachable (by decide)⟩

/-- A block like the one the replica is about to propose arrives first, with a vote. -/
def rebuiltReplica : Replica clearScheme :=
  (execute (guarded (fun _ i => Verified peerConfig i) (Replica.step (clearEnv false)))
    [.fetch ⟨[0], [1], QuorumCert.create peerConfig 0, []⟩, .deliver 1, .receiveVote (voteOf 3),
      .propose [1] [0] [], .resume, .receiveVote (voteOf 1)]
    ⟨.start (clearEnv false) peerConfig 0 (0 : Nat) false, []⟩).get (by decide +kernel)

/-- The vote counted first is in no certificate: the one completed does not verify. -/
theorem rebuilt_certificate_fails :
    Reachable (votingMachine (clearEnv false) peerKeys 0 (0 : Nat) false) rebuiltReplica ∧
      ¬ BallotOk peerConfig rebuiltReplica.core 1 ∧
      (certificates rebuiltReplica.core 1).map (fun qc => qc.verify peerConfig) =
        [.ok false] := by
  refine ⟨?_, fun hok => ?_, by decide +kernel⟩
  · refine Reachable.trans (.init rfl) (steps_of_execute ?_ (Option.some_get _).symm)
    exact fun s i s' hstep => guarded_eq_some hstep
  · have hcard : (signersOf (rebuiltReplica.core.blk 1).selfQc).card ≠
        (rebuiltReplica.core.blk 1).voted.card := by decide +kernel
    exact hcard (congrArg Finset.card hok.signers)

end ArchipelagoHotStuff.Consensus.VoteCount
