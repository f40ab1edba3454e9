/- Module: ArchipelagoHotStuff/Base/DeliveredTree
   source: hotstuff.cpp (on_deliver_blk, async_deliver_blk), consensus.cpp (on_deliver_blk,
     on_propose), entity.cpp (Block::verify)
   digest: Every delivered block is linked to the blocks it names, and its certificate verifies as
     long as the replica builds no block anew that it has got already. -/

import ArchipelagoHotStuff.Base.Promises

set_option autoImplicit false
set_option relaxedAutoImplicit false

namespace ArchipelagoHotStuff.Base.DeliveredTree

open Crypto.Wire Crypto.Certificates Consensus Consensus.State Consensus.Effects Consensus.Tree
open Consensus.Ballots Consensus.Trails Consensus.VoteCount General.Transition Delivery Promises
open Consensus.Machine hiding Input

variable {K : Secp256k1}

/-- The certificate is that of the genesis block, or it verifies. -/
def Backed (env : Env K) (config : ReplicaConfig K) (qc : QuorumCert K) : Prop :=
  qc.objHash = env.genesisHash ∨ qc.verify config = .ok true

/-- The certificates of delivered blocks and the one for the next block are backed. -/
structure QcsOk (env : Env K) (config : ReplicaConfig K) (c : HotStuffCore K) : Prop where
  hqc : Backed env config c.hqc.2
  delivered : ∀ h, h ≠ env.genesisHash → (c.blk h).delivered = true →
    Backed env config (c.blk h).data.qc

section step

variable {env : Env K} {config : ReplicaConfig K} {c : HotStuffCore K} {e : Effect K}
  {h : Uint256} {qc : QuorumCert K}

theorem backed_of_verifyBlk {data : BlockData K} (hvalid : verifyBlk env config data = .ok true) :
    Backed env config data.qc := by
  unfold verifyBlk at hvalid
  split at hvalid
  · rename_i hgenesis
    exact .inl hgenesis
  · exact .inr (QuorumCert.verify_of_pooled hvalid)

/-- The certificate that replaces `hqc` comes from a delivered block or from a full ballot. -/
theorem backed_of_raise (htree : TreeOk env c) (hballots : BallotsOk env config c)
    (hpos : 0 < config.nmajority) (hok : QcsOk env config c)
    (he : Allowed env c (.raiseHqc h qc)) : Backed env config qc := by
  obtain ⟨hlt, hfrom⟩ := he
  have hne : h ≠ env.genesisHash := by
    rintro rfl
    rw [htree.genesis.height] at hlt
    exact Nat.not_lt_zero _ hlt
  rcases hfrom with ⟨n, hd, hq, rfl⟩ | ⟨hd, hq, hcard⟩
  · refine hok.delivered n ?_ hd
    rintro rfl
    rw [htree.genesis.qcRef] at hq
    exact hne (Option.some.inj hq).symm
  · have hagree := hballots.agree h hne
    have hsigners : qc.signers = (c.blk h).voted := by
      rw [← hagree.signers, hq]
      rfl
    refine .inr ((hballots.sound h qc hne hq).verify hpos ?_)
    rw [hsigners, hcard, hballots.configured]

/-- Blocks are delivered with backed certificates if those that arrived are. -/
theorem QcsOk.apply (hok : QcsOk env config c) (htree : TreeOk env c)
    (hballots : BallotsOk env config c) (hpos : 0 < config.nmajority)
    (he : Allowed env c e)
    (hdeliver : ∀ k, e = .deliver k → Backed env config (c.blk k).data.qc) :
    QcsOk env config (Effects.apply env c e) := by
  refine ⟨?_, fun x hne hd => ?_⟩
  · by_cases hraise : ∃ h qc, e = .raiseHqc h qc
    · obtain ⟨h, qc, rfl⟩ := hraise
      exact backed_of_raise htree hballots hpos hok he
    · push Not at hraise
      rw [hqc_apply env c hraise]
      exact hok.hqc
  · by_cases hold : (c.blk x).delivered = true
    · rw [(grows_apply he).data hold]
      exact hok.delivered x hne hold
    by_cases hx : DeliversAt env x e
    swap
    · rw [delivered_apply he hx] at hd
      exact absurd hd hold
    cases e with
    | create data =>
        obtain rfl := hx
        have hdata : ((Effects.apply env c (.create data)).blk (env.getHash data)).data = data :=
          congrArg Block.data (blk_createBlk_self env data)
        rw [hdata, he.2.1]
        exact hok.hqc
    | deliver k =>
        obtain rfl := hx
        have hdata : ((Effects.apply env c (.deliver k)).blk k).data = (c.blk k).data :=
          c.field_modifyBlk Block.data k k (fun _ => rfl)
        rw [hdata]
        exact hdeliver k rfl
    | _ => exact absurd hx id

theorem QcsOk.start (env : Env K) (config : ReplicaConfig K) (id : ReplicaID) (key : K.PrivKey)
    (voteDisabled : Bool) :
    QcsOk env config (HotStuffCore.start env config id key voteDisabled) := by
  refine ⟨.inl rfl, fun x hne hd => ?_⟩
  have habsent : (HotStuffCore.start env config id key voteDisabled).blk x = .absent := by
    simp [HotStuffCore.blk, HotStuffCore.start, hne]
  rw [habsent] at hd
  cases hd

end step

/-! Runs of a replica. -/

/-- Blocks are delivered after verification, and one that `on_propose` delivers is the one that it
has built. -/
def DeliversBacked (env : Env K) (config : ReplicaConfig K) (r : Replica K) :
    Consensus.Machine.Input K → Prop
  | .deliver h => Backed env config (r.core.blk h).data.qc
  | .propose cmds parents extra =>
      let data := r.core.newData cmds parents extra
      let h := env.getHash data
      parents ≠ [] → (r.core.storage h).isSome → (r.core.blk h).delivered = false →
        (r.core.blk h).data = data
  | _ => True

/-- An effect does not deliver blocks other than backed ones that are in the storage. -/
def BackedAt (env : Env K) (config : ReplicaConfig K) (c : HotStuffCore K) :
    Effect K → Prop
  | .deliver k =>
      (c.storage k).isSome ∧
        ((c.blk k).delivered = false → Backed env config (c.blk k).data.qc)
  | _ => True

section machine

variable {env : Env K} {config : ReplicaConfig K} {r r' : Replica K}
  {j : Consensus.Machine.Input K}

theorem covers_backed (hok : QcsOk env config r.core)
    (hnil : ∀ cmds parents extra, j = .propose cmds parents extra → parents ≠ [])
    (hstored : ∀ h, j = .deliver h → (r.core.storage h).isSome)
    (hj : DeliversBacked env config r j) :
    Covers env r (BackedAt env config r.core) j := by
  cases j with
  | fetch data => exact trivial
  | deliver h =>
      intro e he
      cases e with
      | deliver k =>
          obtain rfl := he
          exact ⟨hstored k rfl, fun _ => hj⟩
      | _ => exact trivial
  | propose cmds parents extra =>
      refine ⟨fun e he => ?_, trivial⟩
      cases e with
      | deliver k =>
          obtain ⟨rfl, hs⟩ := he
          refine ⟨hs, fun hnew => ?_⟩
          rw [hj (hnil cmds parents extra rfl) hs hnew]
          exact hok.hqc
      | _ => exact trivial
  | receiveProposal prop =>
      refine ⟨fun e he => ?_, trivial, trivial⟩
      cases e with
      | deliver k => exact absurd he id
      | _ => exact trivial
  | receiveVote vote =>
      intro e he
      cases e with
      | deliver k => exact absurd he id
      | _ => exact trivial
  | wait h => exact trivial
  | resume => exact ⟨fun _ => trivial, fun _ => trivial, fun _ => trivial⟩

/-- What holds of a replica whose ballots are in order and whose blocks are backed. -/
structure Sane (env : Env K) (config : ReplicaConfig K) (c : HotStuffCore K) : Prop where
  tree : TreeOk env c
  certs : CertsOk c
  ballots : BallotsOk env config c
  qcs : QcsOk env config c

theorem Sane.apply {c : HotStuffCore K} {e : Effect K} (hok : Sane env config c)
    (hpos : 0 < config.nmajority) (he : Allowed env c e) (horderly : Orderly env config e)
    (hdeliver : ∀ k, e = .deliver k → Backed env config (c.blk k).data.qc) :
    Sane env config (Effects.apply env c e) :=
  ⟨hok.tree.apply he, hok.certs.apply hok.tree he, hok.ballots.apply hok.certs horderly he,
    hok.qcs.apply hok.tree hok.ballots hpos he hdeliver⟩

theorem Sane.step (hok : Sane env config r.core) (hframes : FramesOk r)
    (hpos : 0 < config.nmajority) (hverified : Verified config j) (hfresh : BuildsAfresh env r j)
    (hbacked : DeliversBacked env config r j) (hstep : r.step env j = some r') :
    Sane env config r'.core := by
  by_cases hnil : ∀ cmds parents extra, j = .propose cmds parents extra → parents ≠ []
  · have hstored : ∀ h, j = .deliver h → (r.core.storage h).isSome := by
      rintro h rfl
      exact (step_deliver hstep).2.1
    have hcovers := covers_and (covers_orderly hverified hfresh)
      (covers_backed hok.qcs hnil hstored hbacked)
    have htrail := (step_trail hframes hok.certs hcovers
      ⟨fun _ => ⟨trivial, trivial⟩, fun _ => ⟨trivial, trivial⟩,
        fun _ _ => ⟨trivial, trivial⟩⟩ hstep).1
    -- Stored blocks keep their data, so that what was backed at the start still is.
    refine (Trail.invariant (I := fun d => Sane env config d ∧ CoreLe r.core d) htrail
      ⟨hok, .refl _⟩ (fun d e hP hd he => ?_)).1
    refine ⟨hd.1.apply hpos he hP.1 ?_, hd.2.trans (coreLe_apply he)⟩
    rintro k rfl
    obtain ⟨hs, hsettled⟩ := hP.2
    rw [hd.2.data k hs]
    refine hsettled ((Bool.not_eq_true _).mp (fun hdel => ?_))
    have hnew : (d.blk k).delivered = false := he.2.1
    rw [hd.2.delivered k hdel] at hnew
    cases hnew
  · push Not at hnil
    obtain ⟨cmds, parents, extra, rfl, rfl⟩ := hnil
    obtain rfl := step_propose_nil hstep
    exact hok.apply (e := .throw .emptyParents) hpos (allowed_throw nofun) trivial nofun

end machine

/-! The delivered blocks. -/

/-- `on_propose` builds no block that somebody has voted for already, and delivers no other block
than the one it has built: what the storage holds under its hash is that block. -/
def BuildsOwn (env : Env K) (s : HotStuffBase K) : Input K → Prop
  | .propose cmds parents extra =>
      let data := s.replica.core.newData cmds parents extra
      let h := env.getHash data
      parents ≠ [] → (h ≠ env.genesisHash → (s.blk h).voted = ∅) ∧
        (s.fetched h = true → s.delivered h = false → (s.blk h).data = data)
  | _ => True

/-- A delivered block: its links to other blocks, which are all there, and its certificate. -/
structure Attached (env : Env K) (config : ReplicaConfig K) (s : HotStuffBase K) (h : Uint256) :
    Prop where
  parents : (s.blk h).parents = (s.blk h).data.parentHashes
  delivered : ∀ p ∈ (s.blk h).parents, s.delivered p = true
  height : ∃ p, (s.blk h).parents.head? = some p ∧ (s.blk h).height = (s.blk p).height + 1
  qcRef : (s.blk h).qcRef = some (s.blk h).data.qc.objHash
  qcFetched : s.fetched (s.blk h).data.qc.objHash = true
  backed : Backed env config (s.blk h).data.qc

section base

variable {env : Env K} {keys : List K.PrivKey} {id : ReplicaID} {key : K.PrivKey}
  {voteDisabled : Bool} {s s' : HotStuffBase K} {h : Uint256} {i : Input K}

theorem drives_backed {j : Consensus.Machine.Input K}
    (hs : Reachable (base env keys id key voteDisabled) s) (hbuilds : BuildsOwn env s i)
    (hj : Drives s i j) :
    Verified (HotStuffCore.startConfig (keys.map K.getPubkey)) j ∧
      BuildsAfresh env s.replica j ∧
      DeliversBacked env (HotStuffCore.startConfig (keys.map K.getPubkey)) s.replica j := by
  have hconfig := config_of_base hs
  cases j with
  | fetch data => exact hj.elim
  | deliver h =>
      obtain ⟨rfl, hlookup⟩ := hj
      have hwaits : Waits env s h (some true) true [] :=
        (tablesOk_of_base hs).consistent h _ hlookup
      have hvalid := hwaits.verified true rfl
      rw [hconfig] at hvalid
      exact ⟨trivial, trivial, backed_of_verifyBlk hvalid⟩
  | propose cmds parents extra =>
      obtain rfl := hj
      exact ⟨trivial, fun hne => (hbuilds hne).1, fun hne => (hbuilds hne).2⟩
  | receiveVote vote =>
      have hvalid := hj.2
      rw [hconfig] at hvalid
      exact ⟨hvalid, trivial, trivial⟩
  | receiveProposal _ | wait _ | resume => exact ⟨trivial, trivial, trivial⟩

theorem sane_of_reachable (hkey : keys[id.val]? = some key)
    (hs : Reachable ((base env keys id key voteDisabled).restrict (BuildsOwn env)) s) :
    Sane env (HotStuffCore.startConfig (keys.map K.getPubkey)) s.replica.core := by
  have hmachine := replica_reachable
    (fun r j => Verified (HotStuffCore.startConfig (keys.map K.getPubkey)) j ∧
      BuildsAfresh env r j ∧
      DeliversBacked env (HotStuffCore.startConfig (keys.map K.getPubkey)) r j)
    hs (fun _ _ _ _ _ _ => ⟨trivial, trivial, trivial⟩)
    (fun s i j hs hbuilds hj => drives_backed hs.of_restrict hbuilds hj)
  refine Reachable.invariant
    (I := fun r => Sane env (HotStuffCore.startConfig (keys.map K.getPubkey)) r.core) hmachine ?_
    (fun r j r' hr hok hstep => ?_)
  · rintro r rfl
    exact ⟨.start _ _ _ _ _, .start _ _ _ _ _, ballotsOk_start voteDisabled hkey,
      .start _ _ _ _ _⟩
  · exact hok.step (replicaOk_of_reachable hr.of_restrict).frames (startConfig_pos hkey)
      hstep.1.1 hstep.1.2.1 hstep.1.2.2 hstep.2

theorem Sane.attached {config : ReplicaConfig K} (hok : Sane env config s.replica.core)
    (hne : h ≠ env.genesisHash) (hd : s.delivered h = true) : Attached env config s h := by
  have hdel := hok.tree.deliveredOk h hne hd
  obtain ⟨p, hp⟩ : ∃ p, (s.blk h).parents.head? = some p :=
    Option.ne_none_iff_exists'.mp (fun hnone => hdel.nonempty (List.head?_eq_none_iff.mp hnone))
  exact ⟨hdel.parents, hdel.delivered, ⟨p, hp, hdel.height p hp⟩, hdel.qcRef, hdel.qcStored,
    hok.qcs.delivered h hne hd⟩

end base

/-! When a block is delivered. -/

/-- The steps in which a block may be delivered. -/
def MayDeliver (env : Env K) (s : HotStuffBase K) (i : Input K) (x : Uint256) : Prop :=
  (i = .onReady x ∧ s.deliveries.lookup x = some (.waiting (some true) true [])) ∨
    ∃ cmds parents extra, i = .propose cmds parents extra ∧ parents ≠ [] ∧
      env.getHash (s.replica.core.newData cmds parents extra) = x

section before

variable {env : Env K} {s s' : HotStuffBase K} {i : Input K} {x : Uint256} {r r' : Replica K}

theorem mayDeliver_of_moved (hr : ReplicaOk env s.replica) (hmoved : Moved env s i s')
    (hnew : s.delivered x = false) (hd : s'.delivered x = true) : MayDeliver env s i x := by
  by_contra hnot
  let M : System (Replica K) (Consensus.Machine.Input K) :=
    ⟨fun _ => True, fun r j r' => r.step env j = some r' ∧
      ((∃ data, j = .fetch data) ∨ r = s.replica ∧ Drives s i j)⟩
  have hrun : Steps M s.replica s'.replica :=
    steps_of_moved (fun r data r' _ h => ⟨h, .inl ⟨data, rfl⟩⟩)
      (fun j r' hj h => ⟨h, .inr ⟨rfl, hj⟩⟩) hmoved
  have hkeeps := (Steps.invariant
    (I := fun r => ReplicaOk env r ∧ (r.core.blk x).delivered = false) hrun ⟨hr, hnew⟩ ?_).2
  · rw [show (s'.replica.core.blk x).delivered = true from hd] at hkeeps
    cases hkeeps
  rintro r j r' ⟨hok, hundelivered⟩ ⟨hstep, hj⟩
  refine ⟨(hok.step hstep).1, ?_⟩
  rcases hj with ⟨data, rfl⟩ | ⟨rfl, hj⟩
  · obtain ⟨_, rfl⟩ := step_fetch hstep
    exact (delivered_of_trail (P := fun e => ¬ DeliversAt env x e)
      (addBlk_trail (fun _ => id)) (fun _ => id)).trans hundelivered
  · refine (elsewhere_of_step hok hstep (fun hplaces => hnot ?_)).2.trans hundelivered
    cases j with
    | deliver h =>
        obtain rfl := hplaces
        exact .inl hj
    | propose cmds parents extra => exact .inr ⟨cmds, parents, extra, hj, hplaces⟩
    | fetch data => exact hj.elim
    | receiveProposal _ | receiveVote _ | wait _ | resume => exact hplaces.elim

theorem data_of_propose {cmds parents : List Uint256} {extra : List UInt8}
    (hr : ReplicaOk env r) (hstep : r.step env (.propose cmds parents extra) = some r')
    (hnone : r.core.storage x = none) (hs : (r'.core.storage x).isSome) :
    (r'.core.blk x).data = r.core.newData cmds parents extra := by
  have hcovers : Covers env r (fun e => ∀ d, e = .store d ∨ e = .create d →
      d = r.core.newData cmds parents extra) (.propose cmds parents extra) := by
    refine ⟨fun e he d hd => ?_, nofun⟩
    rcases hd with rfl | rfl
    · exact absurd he id
    · exact he
  have htrail := (step_trail hr.frames hr.certs hcovers ⟨nofun, nofun, nofun⟩ hstep).1
  refine Trail.invariant
    (I := fun d => (d.storage x).isSome → (d.blk x).data = r.core.newData cmds parents extra)
    htrail (fun h => ?_) (fun d e hP hd he h => ?_) hs
  · rw [hnone] at h
    cases h
  by_cases hx : StoresAt env x e
  · cases e with
    | store data =>
        obtain rfl := hx
        exact (congrArg Block.data (blk_store_self env he)).trans (hP data (.inl rfl))
    | create data =>
        obtain rfl := hx
        exact (congrArg Block.data (blk_createBlk_self env data)).trans (hP data (.inr rfl))
    | _ => exact absurd hx id
  · rw [stored_apply he hx] at h
    exact (data_apply he h).trans (hd h)

theorem grows_of_moved (hr : ReplicaOk env s.replica) (hmoved : Moved env s i s') :
    Grows s.replica.core s'.replica.core ∧ CoreLe s.replica.core s'.replica.core := by
  have hrun : Steps (⟨fun _ => True, fun r j r' => r.step env j = some r'⟩ :
      System (Replica K) (Consensus.Machine.Input K)) s.replica s'.replica :=
    steps_of_moved (fun _ _ _ _ h => h) (fun _ _ _ h => h) hmoved
  refine (Steps.invariant (I := fun r => ReplicaOk env r ∧ Grows s.replica.core r.core ∧
    CoreLe s.replica.core r.core) hrun ⟨hr, .refl _, .refl _⟩ ?_).2
  rintro r j r' ⟨hok, hgrows, hle⟩ hstep
  obtain ⟨hok', htrail⟩ := hok.step hstep
  exact ⟨hok', hgrows.trans (grows_of_trail htrail), hle.trans (coreLe_of_trail htrail)⟩

/-- The parents of a block are delivered, and the block its certificate names is there, before the
step that delivers the block. -/
theorem linked_before (hr : ReplicaOk env s.replica) (hok : TablesOk env s)
    (hbuilds : BuildsOwn env s i) (hmoved : Moved env s i s') (hnew : s.delivered x = false)
    (hd : s'.delivered x = true) :
    (∀ p ∈ (s'.blk x).data.parentHashes, s.delivered p = true) ∧
      s.fetched (s'.blk x).data.qc.objHash = true := by
  have hdata : s.fetched x = true → (s'.blk x).data = (s.blk x).data :=
    (grows_of_moved hr hmoved).2.data x
  rcases mayDeliver_of_moved hr hmoved hnew hd with ⟨rfl, hlookup⟩ |
    ⟨cmds, parents, extra, rfl, hne, hhash⟩
  · have hwaits : Waits env s x (some true) true [] := hok.consistent x _ hlookup
    rw [hdata hwaits.fetched]
    exact ⟨fun p hp => (hwaits.hasParents p hp).resolve_left List.not_mem_nil,
      hwaits.hasQc rfl⟩
  · obtain ⟨replica, hstep, rfl⟩ := hmoved
    have hparents := (step_propose (by rw [hr.certs.hqc_hash]; exact hr.certs.hqc_stored)
      hstep).1
    have hsame : (replica.core.blk x).data = s.replica.core.newData cmds parents extra := by
      cases hf : s.fetched x with
      | true =>
          have hown := (hbuilds hne).2
          rw [hhash] at hown
          exact (hdata hf).trans (hown hf hnew)
      | false =>
          exact data_of_propose hr hstep (Option.not_isSome_iff_eq_none.mp
            ((Bool.not_eq_true _).mpr hf)) (isSome_of_delivered hd)
    show (∀ p ∈ (replica.core.blk x).data.parentHashes, s.delivered p = true) ∧
      (s.replica.core.storage (replica.core.blk x).data.qc.objHash).isSome = true
    rw [hsame]
    refine ⟨hparents, ?_⟩
    show (s.replica.core.storage s.replica.core.hqc.2.objHash).isSome = true
    rw [hr.certs.hqc_hash]
    exact hr.certs.hqc_stored

/-- While `on_propose` builds no block that has been voted for, every delivered block is linked to
delivered blocks, with a certificate that verifies; it stays as it is, and all it is linked to is
there before the step that delivers it. -/
theorem delivered_attached {keys : List K.PrivKey} {id : ReplicaID} {key : K.PrivKey}
    {voteDisabled : Bool} (hkey : keys[id.val]? = some key)
    (hs : Reachable ((base env keys id key voteDisabled).restrict (BuildsOwn env)) s) :
    (∀ h, h ≠ env.genesisHash → s.delivered h = true →
      Attached env (HotStuffCore.startConfig (keys.map K.getPubkey)) s h) ∧
    ∀ i s', BuildsOwn env s i → s.step env i = some s' → ∀ h,
      (s.delivered h = true → node (s'.blk h) = node (s.blk h)) ∧
      (s.delivered h = false → s'.delivered h = true →
        (∀ p ∈ (s'.blk h).parents, s.delivered p = true) ∧
          s.fetched (s'.blk h).data.qc.objHash = true) := by
  refine ⟨fun h hne hd => (sane_of_reachable hkey hs).attached hne hd, ?_⟩
  intro i s' hbuilds hstep h
  have hr := replicaOk_of_base hs.of_restrict
  have hmoved := moved_of_step hstep
  refine ⟨(grows_of_moved hr hmoved).1.node_eq h, fun hnew hd => ?_⟩
  have hsane := sane_of_reachable hkey (hs.step ⟨hbuilds, hstep⟩)
  have hne : h ≠ env.genesisHash := by
    rintro rfl
    rw [show s.delivered env.genesisHash = true from hr.tree.genesis.delivered] at hnew
    cases hnew
  rw [(hsane.attached hne hd).parents]
  exact linked_before hr (tablesOk_of_base hs.of_restrict) hbuilds hmoved hnew hd

end before

/-- What is built is new to the replica. -/
def BuildsNew (env : Env K) (s : HotStuffBase K) : Input K → Prop
  | .propose cmds parents extra =>
      s.fetched (env.getHash (s.replica.core.newData cmds parents extra)) = false
  | _ => True

instance (env : Env K) (s : HotStuffBase K) (i : Input K) : Decidable (BuildsNew env s i) :=
  match i with
  | .propose cmds parents extra =>
      inferInstanceAs (Decidable
        (s.fetched (env.getHash (s.replica.core.newData cmds parents extra)) = false))
  | .msgPropose _ _ | .msgVote _ | .msgReqBlock _ | .msgRespBlock _ | .onFetched _ | .onVerified _
  | .onReady _ | .handle _ | .wait _ | .resume => isTrue trivial

theorem BuildsNew.own {env : Env K} {s : HotStuffBase K} {i : Input K}
    (hnew : BuildsNew env s i) : BuildsOwn env s i := by
  cases i with
  | propose cmds parents extra =>
      have hnone : s.replica.core.storage
          (env.getHash (s.replica.core.newData cmds parents extra)) = none :=
        Option.not_isSome_iff_eq_none.mp ((Bool.not_eq_true _).mpr hnew)
      refine fun _ => ⟨fun _ => ?_, fun hf => ?_⟩
      · exact congrArg Block.voted (s.replica.core.blk_of_none hnone)
      · rw [show s.fetched _ = false from hnew] at hf
        cases hf
  | _ => exact trivial

/-- The replica proposes block 1, hears of enough votes for it and proposes block 2. -/
def attachedReplica : HotStuffBase clearScheme :=
  (execute (guarded (BuildsNew (clearEnv false)) (HotStuffBase.step (clearEnv false)))
    [.propose [1] [0] [], .resume, .msgVote (voteOf 1), .handle 0, .msgVote (voteOf 2), .handle 0,
      .propose [2] [1] [], .resume]
    peerStart).get (by decide +kernel)

theorem attachedReplica_reachable :
    Reachable ((base (clearEnv false) peerKeys 0 (0 : Nat) false).restrict
      (BuildsOwn (clearEnv false))) attachedReplica :=
  Reachable.trans (.init rfl)
    (steps_of_execute (fun _ _ _ h => (guarded_eq_some h).imp_left BuildsNew.own)
      (Option.some_get _).symm)

theorem delivered_attached_peer :
    (attachedReplica.delivered 2 = true ∧ (attachedReplica.blk 2).data.qc.objHash = 1) ∧
      (∀ h, h ≠ 0 → attachedReplica.delivered h = true →
        Attached (clearEnv false) peerConfig attachedReplica h) ∧
      ∀ i s', BuildsOwn (clearEnv false) attachedReplica i →
        attachedReplica.step (clearEnv false) i = some s' → ∀ h,
        (attachedReplica.delivered h = true → node (s'.blk h) = node (attachedReplica.blk h)) ∧
        (attachedReplica.delivered h = false → s'.delivered h = true →
          (∀ p ∈ (s'.blk h).parents, attachedReplica.delivered p = true) ∧
            attachedReplica.fetched (s'.blk h).data.qc.objHash = true) :=
  ⟨by decide +kernel, delivered_attached rfl attachedReplica_reachable⟩

/-- Block 1 arrives with a vote before the replica proposes it itself; the certificate completed
then goes into block 2. -/
def spoiledReplica : HotStuffBase clearScheme :=
  (execute (HotStuffBase.step (clearEnv false))
    [.msgVote (voteOf 3), .msgRespBlock [firstBlock], .onFetched 1, .onReady 1, .handle 0,
      .propose [1] [0] [], .resume, .msgVote (voteOf 1), .handle 0, .propose [2] [1] [], .resume]
    peerStart).get (by decide +kernel)

/-- Block 2 is delivered with a certificate that neither verifies nor names the genesis block. -/
theorem spoiled_certificate_delivered :
    Reachable (base (clearEnv false) peerKeys 0 (0 : Nat) false) spoiledReplica ∧
      spoiledReplica.delivered 2 = true ∧ (spoiledReplica.blk 2).data.qc.objHash ≠ 0 ∧
      (spoiledReplica.blk 2).data.qc.verify peerConfig = .ok false :=
  ⟨Reachable.trans (.init rfl) (steps_of_execute (fun _ _ _ h => h) (Option.some_get _).symm),
    by decide +kernel, by decide +kernel, by decide +kernel⟩

end ArchipelagoHotStuff.Base.DeliveredTree
