/- Module: ArchipelagoHotStuff/Base/Addresses
   source: hotstuff.cpp (req_blk_handler, resp_blk_handler, on_fetch_blk), consensus.cpp (on_init),
     entity.h (Block), entity.cpp (Block::unserialize), crypto.h (QuorumCertDummy)
   digest: Blocks are stored under the hash of their serialised form, but for the genesis block, so
     that what is fetched by a hash is the block of that hash. -/

import ArchipelagoHotStuff.Base.Wakeups
import ArchipelagoHotStuff.Consensus.Messages

set_option autoImplicit false
set_option relaxedAutoImplicit false

namespace ArchipelagoHotStuff.Base.Addresses

open Crypto.Wire Crypto.Certificates Crypto.Encoding General.Codec General.Transition Consensus
open Consensus.State Consensus.Effects Consensus.Tree Consensus.Trails Consensus.Ballots
open Consensus.Messages Consensus.VoteCount Delivery Promises Wakeups
open Consensus.Machine hiding Input

variable {K : Secp256k1}

/-- The genesis block as its constructor serialises it, with a `QuorumCertDummy`. -/
def genesisBytes : List UInt8 :=
  putHashes [] ++ (putHashes [] ++ (putLE 4 1 ++ putHash 0 ++ putLE 4 0))

/-- Blocks are named by the hash of their serialised form. -/
def wireEnv (codec : CompactCodec K) (sha : List UInt8 → Uint256) (twoStep : Bool)
    (addr : ReplicaID → Uint256 → Nat) : Env K where
  getHash := blockHash codec sha
  genesisHash := sha genesisBytes
  twoStep
  addr

def Parsed (codec : CompactCodec K) (sha : List UInt8 → Uint256) (data : BlockData K) : Prop :=
  ∃ s rest h, getBlock codec sha s = .ok ((h, data), rest)

/-- Blocks arrive in messages, and `on_propose` is called with lists that can be counted in 32
bits. -/
def Received (codec : CompactCodec K) (sha : List UInt8 → Uint256) (_ : HotStuffBase K) :
    Input K → Prop
  | .msgPropose _ data => Parsed codec sha data
  | .msgRespBlock blks => ∀ data ∈ blks, Parsed codec sha data
  | .propose cmds parents extra =>
      cmds.length < 2 ^ 32 ∧ parents.length < 2 ^ 32 ∧ extra.length < 2 ^ 32
  | _ => True

/-! What is stored. -/

/-- Certificates are of the kinds that can be written, and blocks but the genesis block are under
their hash. -/
structure Filed (codec : CompactCodec K) (sha : List UInt8 → Uint256) (pubkeys : List K.PubKey)
    (rid : ReplicaID) (genesisHash : Uint256) (c : HotStuffCore K) : Prop where
  config : c.config = HotStuffCore.startConfig pubkeys
  sameId : c.id = rid
  hqc : Held pubkeys c.hqc.2
  selfQc : ∀ h qc, (c.blk h).selfQc = some qc →
    ∃ k, Filled (HotStuffCore.startConfig pubkeys) k qc
  stored : ∀ h, (c.storage h).isSome → Writable pubkeys (c.blk h).data ∧
    (h ≠ genesisHash → blockHash codec sha (c.blk h).data = h)

/-- Blocks that come have been read or can be counted, and voters are configured. -/
def Filing (codec : CompactCodec K) (sha : List UInt8 → Uint256) (config : ReplicaConfig K) :
    Effect K → Prop
  | .store data => Parsed codec sha data
  | .create data =>
      data.parentHashes.length < 2 ^ 32 ∧ data.cmds.length < 2 ^ 32 ∧ data.extra.length < 2 ^ 32
  | .count vote own _ => own = true ∨ vote.voter ∈ config.replicaMap
  | _ => True

section core

variable {codec : CompactCodec K} {sha : List UInt8 → Uint256} {pubkeys : List K.PubKey}
  {rid : ReplicaID} {env : Env K} {c : HotStuffCore K} {e : Effect K}

theorem Filed.selfQc_apply (hok : Filed codec sha pubkeys rid env.genesisHash c)
    (hid : rid ∈ (HotStuffCore.startConfig pubkeys).replicaMap)
    (hfiling : Filing codec sha (HotStuffCore.startConfig pubkeys) e) (he : Allowed env c e)
    (x : Uint256) (qc : QuorumCert K) (hqc : ((Effects.apply env c e).blk x).selfQc = some qc) :
    ∃ k, Filled (HotStuffCore.startConfig pubkeys) k qc := by
  have hcreate : ∀ k, ∃ k', Filled (HotStuffCore.startConfig pubkeys) k'
      (QuorumCert.create c.config k) := fun k => hok.config ▸ ⟨k, .create⟩
  -- The certificate to which a vote is added, or a new one.
  have hold : ∀ k, ∃ k', Filled (HotStuffCore.startConfig pubkeys) k'
      ((c.blk k).selfQc.getD (QuorumCert.create c.config k)) := by
    intro k
    cases hself : (c.blk k).selfQc with
    | none => exact hcreate k
    | some qc' => exact hok.selfQc k qc' hself
  by_cases hcounts : Counts e
  swap
  · rw [Ballots.selfQc_apply he hcounts] at hqc
    exact hok.selfQc x qc hqc
  have hother {h : Uint256} {f : Block K → Block K} (hx : x ≠ h)
      (hmod : ((c.modifyBlk h f).blk x).selfQc = some qc) :
      ∃ k, Filled (HotStuffCore.startConfig pubkeys) k qc := by
    rw [c.blk_modifyBlk_ne hx] at hmod
    exact hok.selfQc x qc hmod
  cases e with
  | create data =>
      by_cases hx : x = env.getHash data
      · subst hx
        rw [show (Effects.apply env c (.create data)).blk (env.getHash data) = _ from
          blk_createBlk_self env data] at hqc
        cases hqc
        exact hcreate _
      · rw [show (Effects.apply env c (.create data)).blk x = c.blk x from
          blk_createBlk_ne hx] at hqc
        exact hok.selfQc x qc hqc
  | resetSelfQc h voted =>
      by_cases hx : x = h
      · subst hx
        rw [show (Effects.apply env c (.resetSelfQc x voted)).blk x = _ from
          c.blk_modifyBlk_self he.1 _] at hqc
        cases hqc
        exact hcreate x
      · exact hother hx hqc
  | count vote own qc' =>
      by_cases hx : x = vote.blkHash
      · subst hx
        rw [show (Effects.apply env c (.count vote own qc')).blk vote.blkHash = _ from
          blk_countVote_self (isSome_of_delivered he.1)] at hqc
        cases hqc
        obtain ⟨k, hfilled⟩ := hold vote.blkHash
        refine ⟨k, hfilled.addPart ?_ he.2.2.2.1⟩
        rcases hfiling with rfl | hvoter
        · rw [(he.2.2.2.2 rfl).1]
          exact hok.sameId ▸ hid
        · exact hvoter
      · rw [show (Effects.apply env c (.count vote own qc')).blk x = c.blk x from
          blk_countVote_ne hx] at hqc
        exact hok.selfQc x qc hqc
  | miscount vote =>
      by_cases hx : x = vote.blkHash
      · subst hx
        rw [show (Effects.apply env c (.miscount vote)).blk vote.blkHash = _ from
          c.blk_modifyBlk_self (isSome_of_delivered he.1) _] at hqc
        cases hqc
        exact hold vote.blkHash
      · exact hother hx hqc
  | _ => exact False.elim hcounts

/-- The certificate for the next block is one that came or that votes have filled. -/
theorem Filed.hqc_apply (hok : Filed codec sha pubkeys rid env.genesisHash c)
    (he : Allowed env c e) : Held pubkeys (Effects.apply env c e).hqc.2 := by
  by_cases hraise : ∃ h qc, e = .raiseHqc h qc
  · obtain ⟨h, qc, rfl⟩ := hraise
    rcases he.2 with ⟨n, hd, _, rfl⟩ | ⟨_, hself, _⟩
    · exact (hok.stored n (isSome_of_delivered hd)).1.qc
    · exact .inl (hok.selfQc h qc hself)
  · push Not at hraise
    rw [Tree.hqc_apply env c hraise]
    exact hok.hqc

theorem Filed.apply (hok : Filed codec sha pubkeys rid env.genesisHash c)
    (henv : env.getHash = blockHash codec sha)
    (hid : rid ∈ (HotStuffCore.startConfig pubkeys).replicaMap)
    (hfiling : Filing codec sha (HotStuffCore.startConfig pubkeys) e) (he : Allowed env c e) :
    Filed codec sha pubkeys rid env.genesisHash (Effects.apply env c e) := by
  refine ⟨(config_apply env c).trans hok.config, (id_apply env c).trans hok.sameId,
    hok.hqc_apply he, hok.selfQc_apply hid hfiling he, fun x hs => ?_⟩
  by_cases hold : (c.storage x).isSome
  · rw [data_apply he hold]
    exact hok.stored x hold
  · rcases isSome_apply_cases he hs with h | ⟨data, rfl, rfl | rfl⟩
    · exact absurd h hold
    · have hdata : ((Effects.apply env c (.store data)).blk (env.getHash data)).data = data :=
        congrArg Block.data (blk_store_self env he)
      obtain ⟨_, _, _, hget⟩ := hfiling
      rw [hdata, henv]
      exact ⟨writable_of_getBlock hget, fun _ => rfl⟩
    · have hdata : ((Effects.apply env c (.create data)).blk (env.getHash data)).data = data :=
        congrArg Block.data (blk_createBlk_self env data)
      obtain ⟨hparents, hcmds, hextra⟩ := hfiling
      rw [hdata, henv]
      exact ⟨⟨hparents, hcmds, he.2.1 ▸ hok.hqc, hextra⟩, fun _ => rfl⟩

theorem Filed.start (env : Env K) (rid : ReplicaID) (key : K.PrivKey) (voteDisabled : Bool) :
    Filed codec sha pubkeys rid env.genesisHash
      (HotStuffCore.start env (HotStuffCore.startConfig pubkeys) rid key voteDisabled) := by
  refine ⟨rfl, rfl, .inl ⟨_, .create⟩, fun x qc hqc => ?_, fun x hs => ?_⟩
  · by_cases hx : x = env.genesisHash
    · subst hx
      simp only [HotStuffCore.blk, HotStuffCore.start, Function.update_self] at hqc
      cases hqc
      exact ⟨_, .create⟩
    · simp only [HotStuffCore.blk, HotStuffCore.start, Function.update_of_ne hx] at hqc
      cases hqc
  · have hx : x = env.genesisHash := by
      by_contra hne
      simp [HotStuffCore.start, hne] at hs
    obtain ⟨b, hb⟩ := Option.isSome_iff_exists.mp hs
    have hwritable : Writable pubkeys b.data :=
      storesWritable_start env rid key voteDisabled x b hb
    refine ⟨?_, fun hne => absurd hx hne⟩
    rw [HotStuffCore.blk, hb]
    exact hwritable

end core

/-! Runs of a replica. -/

/-- The core is given blocks that have been read, lists that can be counted, and votes of
configured replicas. -/
def Files (codec : CompactCodec K) (sha : List UInt8 → Uint256) (config : ReplicaConfig K)
    (_ : Replica K) : Consensus.Machine.Input K → Prop
  | .fetch data => Parsed codec sha data
  | .propose cmds parents extra =>
      cmds.length < 2 ^ 32 ∧ parents.length < 2 ^ 32 ∧ extra.length < 2 ^ 32
  | .receiveVote vote => vote.voter ∈ config.replicaMap
  | _ => True

section runs

variable {codec : CompactCodec K} {sha : List UInt8 → Uint256} {config : ReplicaConfig K}
  {env : Env K} {r : Replica K} {j : Consensus.Machine.Input K} {keys : List K.PrivKey}
  {rid : ReplicaID} {key : K.PrivKey} {voteDisabled : Bool} {s s' : HotStuffBase K}

theorem covers_filing (hj : Files codec sha config r j) :
    Covers env r (Filing codec sha config) j := by
  cases j with
  | fetch data => exact hj
  | deliver h =>
      intro e he
      cases e <;> first | exact trivial | exact False.elim he
  | propose cmds parents extra =>
      refine ⟨fun e he => ?_, trivial⟩
      cases e with
      | create data =>
          obtain rfl : data = r.core.newData cmds parents extra := he
          exact ⟨hj.2.1, hj.1, hj.2.2⟩
      | count vote own qc => exact .inl he.2
      | store data => exact False.elim he
      | _ => exact trivial
  | receiveProposal prop =>
      refine ⟨fun e he => ?_, trivial, trivial⟩
      cases e <;> first | exact trivial | exact False.elim he
  | receiveVote vote =>
      intro e he
      cases e with
      | count v own qc =>
          obtain ⟨rfl, _⟩ := he
          exact .inr hj
      | store data => exact False.elim he
      | create data => exact False.elim he
      | _ => exact trivial
  | wait h => exact trivial
  | resume => exact ⟨fun _ => trivial, fun _ => trivial, fun _ => trivial⟩

theorem mem_of_getPubkey {rid : ReplicaID} {pubkey : K.PubKey}
    (hkey : config.getPubkey rid = .ok pubkey) : rid ∈ config.replicaMap := by
  unfold ReplicaConfig.getPubkey at hkey
  split at hkey
  · cases hkey
  · rename_i hlookup
    exact AList.lookup_isSome.mp (Option.isSome_of_mem hlookup)

theorem filed_of_reachable (hkey : keys[rid.val]? = some key)
    (henv : env.getHash = blockHash codec sha)
    (hs : Reachable ((base env keys rid key voteDisabled).restrict (Received codec sha)) s) :
    Filed codec sha (keys.map K.getPubkey) rid env.genesisHash s.replica.core := by
  have hmachine := replica_reachable
    (Files codec sha (HotStuffCore.startConfig (keys.map K.getPubkey))) hs
    (fun s i r data hreceived hbrings => ?_) (fun s i j hs hreceived hdrives => ?_)
  · have hid : rid ∈ (HotStuffCore.startConfig (keys.map K.getPubkey)).replicaMap := by
      have hget : (keys.map K.getPubkey)[rid.val]? = some (K.getPubkey key) := by
        rw [List.getElem?_map, hkey]
        rfl
      exact mem_of_getPubkey (Setup.getPubkey_startConfig hget)
    exact invariant_of_covered hmachine (fun r j hj => covers_filing hj)
      ⟨fun _ => trivial, fun _ => trivial, fun _ _ => trivial⟩ (.start env rid key voteDisabled)
      (fun c e _ _ hP hc he => hc.apply henv hid hP he)
  · cases i with
    | msgPropose proposer data' =>
        obtain rfl : data = data' := hbrings
        exact hreceived
    | msgRespBlock blks => exact hreceived data hbrings
    | _ => exact False.elim hbrings
  · cases j with
    | propose cmds parents extra =>
        obtain rfl : i = .propose cmds parents extra := hdrives
        exact hreceived
    | receiveVote vote =>
        obtain ⟨_, _, hpubkey, _⟩ := Vote.verify_true hdrives.2
        rw [config_of_base hs.of_restrict] at hpubkey
        exact mem_of_getPubkey hpubkey
    | fetch _ => exact False.elim hdrives
    | deliver _ | receiveProposal _ | wait _ | resume => exact trivial

end runs

/-! What is not asked for. -/

/-- A block that is stored and that nobody waits for. -/
structure Unasked (h : Uint256) (s : HotStuffBase K) : Prop where
  fetched : s.fetched h = true
  waiting : h ∉ s.blkFetchWaiting

section unasked

variable {env : Env K} {s s' : HotStuffBase K} {h k : Uint256} {i : Input K}

theorem Unasked.of_eq (hu : Unasked h s) (hreplica : s'.replica = s.replica)
    (hwaiting : s'.blkFetchWaiting = s.blkFetchWaiting) : Unasked h s' := by
  refine ⟨?_, hwaiting ▸ hu.waiting⟩
  unfold HotStuffBase.fetched
  rw [hreplica]
  exact hu.fetched

theorem Unasked.asyncFetchBlk (hu : Unasked h s) (k : Uint256) :
    Unasked h (s.asyncFetchBlk k) := by
  unfold HotStuffBase.asyncFetchBlk
  split
  · exact hu
  · rename_i hnone
    refine ⟨hu.fetched, fun hmem => ?_⟩
    rcases Finset.mem_insert.mp hmem with rfl | hold
    · exact hnone hu.fetched
    · exact hu.waiting hold

theorem Unasked.asyncDeliverBlk (hu : Unasked h s) (k : Uint256) :
    Unasked h (s.asyncDeliverBlk k) := by
  unfold HotStuffBase.asyncDeliverBlk
  split
  · exact hu
  split
  · exact hu
  · exact (hu.asyncFetchBlk k).of_eq rfl rfl

theorem Unasked.await (hu : Unasked h s) (callback : Callback K) :
    Unasked h (s.await callback) := by
  unfold HotStuffBase.await
  split
  · exact hu.of_eq rfl rfl
  · exact (hu.asyncDeliverBlk callback.blk).of_eq rfl rfl

theorem Unasked.beginDelivery (hu : Unasked h s) (k : Uint256) :
    Unasked h (s.beginDelivery env k) := by
  have hasks : Unasked h ((s.blk k).data.parentHashes.foldl
      HotStuffBase.asyncDeliverBlk (s.asyncFetchBlk (s.blk k).data.qc.objHash)) :=
    List.foldlRecOn _ _ (hu.asyncFetchBlk _) (fun _ ht p _ => ht.asyncDeliverBlk p)
  exact hasks.of_eq rfl rfl

theorem Unasked.addBlks (hu : Unasked h s) (blks : List (BlockData K)) :
    Unasked h (s.addBlks env blks) :=
  ⟨(le_addBlks env s blks).core.stored h hu.fetched, hu.waiting⟩

theorem Unasked.onFetchBlk (hu : Unasked h s) (k : Uint256) : Unasked h (s.onFetchBlk k) := by
  refine ⟨?_, fun hmem => ?_⟩
  · unfold HotStuffBase.fetched
    rw [replica_onFetchBlk]
    exact hu.fetched
  · rw [blkFetchWaiting_onFetchBlk] at hmem
    exact hu.waiting (Finset.mem_of_mem_erase hmem)

theorem Unasked.moved (hu : Unasked h s) (hr : ReplicaOk env s.replica)
    (hmoved : Moved env s i s') : Unasked h s' := by
  have hadvance : ∀ {t t' : HotStuffBase K} {j : Consensus.Machine.Input K},
      Unasked h t → t.replica = s.replica → Advanced env t j t' → Unasked h t' := by
    intro t t' j ht heq hadv
    have hle := le_advanced (heq ▸ hr) hadv
    obtain ⟨replica, _, rfl⟩ := hadv
    exact ⟨hle.core.stored h ht.fetched, ht.waiting⟩
  cases i with
  | msgPropose proposer data =>
      obtain ⟨_, rfl⟩ := hmoved
      exact (hu.addBlks [data]).await _
  | msgVote vote =>
      obtain rfl := hmoved
      exact hu.await _
  | msgReqBlock blkHashes =>
      obtain rfl := hmoved
      exact List.foldlRecOn _ _ hu (fun _ ht k _ => ht.asyncFetchBlk k)
  | msgRespBlock blks =>
      obtain ⟨_, rfl⟩ := hmoved
      exact List.foldlRecOn _ _ (hu.addBlks blks) (fun _ ht k _ => ht.onFetchBlk k)
  | onFetched k =>
      obtain ⟨_, rfl⟩ := hmoved
      exact hu.beginDelivery k
  | onVerified k =>
      obtain ⟨_, _, _, _, _, rfl⟩ := hmoved
      exact hu.of_eq rfl rfl
  | onReady k =>
      rcases hmoved with ⟨_, rfl⟩ | ⟨_, s₁, hadv, hend⟩
      · exact hu.of_eq rfl rfl
      · have hu₁ := hadvance hu rfl hadv
        rcases hend with ⟨_, rfl⟩ | ⟨_, _, rfl⟩ | ⟨_, _, rfl⟩
        · exact hu₁.of_eq rfl rfl
        · exact hu₁.of_eq rfl rfl
        · exact hu₁
  | handle n =>
      obtain ⟨callback, _, hhandled⟩ := hmoved
      have hu₁ : Unasked h { s with resolved := s.resolved.eraseIdx n } := hu.of_eq rfl rfl
      cases callback with
      | proposal prop => exact hadvance hu₁ rfl hhandled
      | vote vote =>
          rcases hhandled with rfl | ⟨_, hadv⟩
          · exact hu₁
          · exact hadvance hu₁ rfl hadv
  | propose cmds parents extra => exact hadvance hu rfl hmoved
  | wait k => exact hadvance hu rfl hmoved
  | resume => exact hadvance hu rfl hmoved

theorem unasked_genesis {keys : List K.PrivKey} {rid : ReplicaID} {key : K.PrivKey}
    {voteDisabled : Bool} (hs : Reachable (base env keys rid key voteDisabled) s) :
    Unasked env.genesisHash s := by
  refine hs.invariant ?_ (fun s i s' hs hu hstep =>
    hu.moved (replicaOk_of_base hs) (moved_of_step hstep))
  rintro s rfl
  refine ⟨?_, Finset.notMem_empty _⟩
  simp [HotStuffBase.fetched, HotStuffBase.start, HotStuffCore.start]

end unasked

/-! A fetch from one replica to another. -/

/-- The fetch of a block is over: its promise is resolved and no longer in the table. -/
structure Resolved (s : HotStuffBase K) (h : Uint256) : Prop where
  fetched : s.fetched h = true
  waiting : h ∉ s.blkFetchWaiting
  deliveries : s.deliveries.lookup h ≠ some .fetching

/-- What comes of fetching blocks of replica `s` by their hashes at replica `t`. -/
structure Fetches (codec : CompactCodec K) (sha : List UInt8 → Uint256) (env : Env K)
    (s t : HotStuffBase K) : Prop where
  named : ∀ h, s.fetched h = true → h ≠ env.genesisHash →
    blockHash codec sha (s.blk h).data = h
  returned : ∀ h, s.fetched h = true → h ≠ env.genesisHash → ∃ w data,
    putRespBlock codec [(s.blk h).data] = some w ∧ SameBlock (s.blk h).data data ∧
    getRespBlock codec sha t.replica.core w =
      .ok (([h], (t.addBlks env [data]).replica.core), []) ∧
    (t.crashed = false → t.quiet = true →
      ∃ t', t.step env (.msgRespBlock [data]) = some t' ∧ Resolved t' h)
  genesis : Unasked env.genesisHash s ∧ Unasked env.genesisHash t

section fetch

variable {codec : CompactCodec K} {sha : List UInt8 → Uint256} {env : Env K}
  {t : HotStuffBase K} {data : BlockData K} {h : Uint256} {w : List UInt8}

theorem putRespBlock_singleton (hput : putBlock codec data = some w) :
    putRespBlock codec [data] = some (putLE 4 1 ++ w) := by
  simp [putRespBlock, putBlocks, hput]

theorem getRespBlock_singleton (c : HotStuffCore K)
    (hget : getBlock codec sha w = .ok ((h, data), [])) :
    getRespBlock codec sha c (putLE 4 1 ++ w) = .ok (([h], c.addBlk h (.fetched data)), []) := by
  obtain ⟨_, rfl, hcount⟩ := reads_getLE (show 1 < 256 ^ 4 by decide) w
  have hread : getRespBlock codec sha c =
      andThen (getLE 4) (fun n => getBlocks codec sha n c) := rfl
  rw [hread, andThen_ok hcount, getBlocks_succ, andThen_ok hget]
  rfl

theorem resolved_of_response (hok : TablesOk env t) (hhash : env.getHash data = h) :
    Resolved (([data].map env.getHash).foldl HotStuffBase.onFetchBlk (t.addBlks env [data])) h := by
  subst hhash
  have hstored : (t.addBlks env [data]).fetched (env.getHash data) = true :=
    fetched_addBlks List.mem_cons_self
  show Resolved ((t.addBlks env [data]).onFetchBlk (env.getHash data)) (env.getHash data)
  refine ⟨?_, ?_, fun hlookup => ?_⟩
  · unfold HotStuffBase.fetched
    rw [replica_onFetchBlk]
    exact hstored
  · rw [blkFetchWaiting_onFetchBlk]
    exact Finset.notMem_erase _ _
  · unfold HotStuffBase.onFetchBlk at hlookup
    split at hlookup
    · rw [lookup_mapVals] at hlookup
      obtain ⟨d, _, hd⟩ := Option.map_eq_some_iff.mp hlookup
      cases d with
      | fetching => simp [Stage.onFetch] at hd
      | fetched | waiting _ _ _ | failed | rejected => cases hd
    · rename_i hnot
      exact hnot (hok.consistent _ _ hlookup)

/-- Whatever is stored at one replica, but for the genesis block, is under the hash of its
serialised form, and a replica that fetches it gets the same block under that hash.  The genesis
block is stored at both and never fetched. -/
theorem fetch_returns (codec : CompactCodec K) (sha : List UInt8 → Uint256) (twoStep : Bool)
    (addr : ReplicaID → Uint256 → Nat) {keys : List K.PrivKey} (hsize : keys.length ≤ 2 ^ 16)
    {rid rid' : ReplicaID} {key key' : K.PrivKey} {voteDisabled voteDisabled' : Bool}
    {s t : HotStuffBase K} (hkey : keys[rid.val]? = some key)
    (hs : Reachable ((base (wireEnv codec sha twoStep addr) keys rid key voteDisabled).restrict
      (Received codec sha)) s)
    (ht : Reachable (base (wireEnv codec sha twoStep addr) keys rid' key' voteDisabled') t) :
    Fetches codec sha (wireEnv codec sha twoStep addr) s t := by
  have hfiled := filed_of_reachable hkey rfl hs
  refine ⟨fun h hf hne => (hfiled.stored h hf).2 hne, fun h hf hne => ?_,
    unasked_genesis hs.of_restrict, unasked_genesis ht⟩
  obtain ⟨hwritable, hnamed⟩ := hfiled.stored h hf
  have hkeys : (keys.map K.getPubkey).length ≤ 2 ^ 16 := by
    rw [List.length_map]
    exact hsize
  obtain ⟨w, hput⟩ := exists_putBlock codec hkeys hwritable
  obtain ⟨⟨k, data⟩, ⟨rfl, hsame⟩, hget⟩ := reads_block sha hkeys hwritable hput []
  rw [List.append_nil] at hget
  have hhash : (wireEnv codec sha twoStep addr).getHash data = h := by
    have hput' : putBlock codec data = some w := hsame.put_eq.trans hput
    exact (blockHash_eq sha hput').trans ((blockHash_eq sha hput).symm.trans (hnamed hne))
  refine ⟨_, data, putRespBlock_singleton hput, hsame, ?_, fun hruns hquiet => ?_⟩
  · have hread := getRespBlock_singleton t.replica.core hget
    rw [show blockHash codec sha (s.replica.core.blk h).data = h from hnamed hne] at hread
    rw [hread]
    show _ = Except.ok (([h], t.replica.core.addBlk _ (.fetched data)), [])
    rw [hhash]
  · refine ⟨_, ?_, resolved_of_response (tablesOk_of_base ht) hhash⟩
    rw [HotStuffBase.step, hruns]
    exact if_pos hquiet

end fetch

/-! Four replicas, whose hashes are the first bytes of what is hashed. -/

def lowEnv : Env bytesScheme := wireEnv bytesCodec.toCompactCodec lowHash false (fun _ h => h.toNat)

def lowKeys : List bytesScheme.PrivKey := ([1, 2, 3, 4] : List Uint256)

def lowBase (rid : ReplicaID) (key : Uint256) :
    System (HotStuffBase bytesScheme) (Input bytesScheme) :=
  base lowEnv lowKeys rid (key : Uint256) false

def lowStart (rid : ReplicaID) (key : Uint256) : HotStuffBase bytesScheme :=
  .start lowEnv (HotStuffCore.startConfig (lowKeys.map bytesScheme.getPubkey)) rid
    (key : Uint256) false

/-- Replica 0 has proposed a block on top of the genesis block. -/
def lowProposed : HotStuffBase bytesScheme :=
  ((lowStart 0 1).step lowEnv (.propose [1] [lowEnv.genesisHash] [])).get (by decide +kernel)

theorem fetch_returns_proposed : lowProposed.fetched 0x1000000000000000000000001 = true ∧
    (0x1000000000000000000000001 : Uint256) ≠ lowEnv.genesisHash ∧
    Fetches bytesCodec.toCompactCodec lowHash lowEnv lowProposed (lowStart 1 2) := by
  have hkey : lowKeys[(0 : ReplicaID).val]? = some (1 : Uint256) := rfl
  have hreceived : Received bytesCodec.toCompactCodec lowHash (lowStart 0 1)
      (.propose [1] [lowEnv.genesisHash] []) := ⟨by decide, by decide, by decide⟩
  have hs : Reachable ((lowBase 0 1).restrict (Received bytesCodec.toCompactCodec lowHash))
      lowProposed := .step (.init rfl) ⟨hreceived, (Option.some_get _).symm⟩
  have ht : Reachable (lowBase 1 2) (lowStart 1 2) := .init rfl
  exact ⟨by decide +kernel, by decide +kernel,
    fetch_returns bytesCodec.toCompactCodec lowHash false (fun _ h => h.toNat) (by decide) hkey
      hs ht⟩

/-- The genesis block, which has got its certificate, is written as bytes of another hash and read
back under that. -/
theorem genesis_renamed : (lowStart 0 1).fetched lowEnv.genesisHash = true ∧
    blockHash bytesCodec.toCompactCodec lowHash ((lowStart 0 1).blk lowEnv.genesisHash).data ≠
      lowEnv.genesisHash ∧
    ∀ w c hs rest, putRespBlock bytesCodec.toCompactCodec
        [((lowStart 0 1).blk lowEnv.genesisHash).data] = some w →
      getRespBlock bytesCodec.toCompactCodec lowHash (lowStart 1 2).replica.core w =
        .ok ((hs, c), rest) → lowEnv.genesisHash ∉ hs := by
  have hstored : (lowStart 0 1).fetched lowEnv.genesisHash = true := by decide +kernel
  have hrenamed : blockHash bytesCodec.toCompactCodec lowHash
      ((lowStart 0 1).blk lowEnv.genesisHash).data ≠ lowEnv.genesisHash := by decide +kernel
  have hfiled : Filed bytesCodec.toCompactCodec lowHash (lowKeys.map bytesScheme.getPubkey) 0
      lowEnv.genesisHash (lowStart 0 1).replica.core := .start lowEnv 0 (1 : Uint256) false
  have hkeys : (lowKeys.map bytesScheme.getPubkey).length ≤ 2 ^ 16 := by decide
  obtain ⟨hwritable, _⟩ := hfiled.stored _ hstored
  obtain ⟨w₀, hput₀⟩ := exists_putBlock bytesCodec.toCompactCodec hkeys hwritable
  obtain ⟨⟨k, data⟩, ⟨rfl, _⟩, hget₀⟩ := reads_block lowHash hkeys hwritable hput₀ []
  rw [List.append_nil] at hget₀
  refine ⟨hstored, hrenamed, fun w c hs rest hput hget hmem => ?_⟩
  cases (putRespBlock_singleton hput₀).symm.trans hput
  rw [getRespBlock_singleton _ hget₀] at hget
  cases hget
  exact hrenamed (List.mem_singleton.mp hmem).symm

end ArchipelagoHotStuff.Base.Addresses
