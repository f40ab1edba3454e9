/- Module: ArchipelagoHotStuff/Base/Rejections
   source: hotstuff.cpp (async_deliver_blk, propose_handler, vote_handler, resp_blk_handler),
     consensus.h (Vote::verify), entity.cpp (Block::verify), entity.h (ReplicaConfig::get_info)
   digest: When the check of a vote or of a block gives an answer, and what a replica does with
     what it rejects: nothing. -/

import ArchipelagoHotStuff.Base.Promises
import ArchipelagoHotStuff.Crypto.Pool

set_option autoImplicit false
set_option relaxedAutoImplicit false

namespace ArchipelagoHotStuff.Base.Rejections

open Crypto.Wire Crypto.Certificates Crypto.Pool Consensus Consensus.State Consensus.VoteCount
open General.Transition Delivery Promises
open Consensus.Machine hiding Input

variable {K : Secp256k1}

/-- What is checked on arrival: a vote, or the certificate of a block. -/
inductive Checked (K : Secp256k1)
  | vote (vote : Vote K)
  | blk (data : BlockData K)

namespace Checked

def check (env : Env K) (config : ReplicaConfig K) : Checked K → Except Exn Bool
  | .vote v => v.verify config
  | .blk data => verifyBlk env config data

def Parsed : Checked K → Prop
  | .vote _ => True
  | .blk data => ∃ s s', QuorumCert.unserialize s = .ok (data.qc, s')

/-- Some identifier is not in the configuration. -/
def Strange (config : ReplicaConfig K) : Checked K → Prop
  | .vote v => v.voter ∉ config.replicaMap
  | .blk data => ∃ i < data.qc.rids.size, Unknown data.qc config i

/-- The steps that handle a message with the vote or the block, and those of the delivery of the
block. -/
def HandledBy (s : HotStuffBase K) (i : Input K) : Checked K → Prop
  | .vote v => i = .msgVote v ∨ ∃ n, i = .handle n ∧ s.resolved[n]? = some (.vote v)
  | .blk data =>
      (∃ proposer, i = .msgPropose proposer data) ∨
      (∃ blks, i = .msgRespBlock blks ∧ data ∈ blks) ∨
      ∃ h, (s.blk h).data = data ∧ (i = .onFetched h ∨ i = .onVerified h ∨ i = .onReady h)

/-- The voter is configured.  A block names the genesis block or has too few signatures or has a
signer, and where the number of signatures does not decide, all its signers are configured. -/
def Answerable (env : Env K) (config : ReplicaConfig K) : Checked K → Prop
  | .vote v => v.voter ∈ config.replicaMap
  | .blk data =>
      (data.qc.objHash ≠ env.genesisHash ∧ data.qc.sigs.entries.length < config.nmajority) ∨
      (∀ i < data.qc.rids.size, ¬ Unknown data.qc config i) ∧
        (data.qc.objHash = env.genesisHash ∨
          ∃ i < data.qc.rids.size, data.qc.rids.get i = some true)

end Checked

/-- The state of the protocol is the same: the registers, the tails and all sets of voters. -/
structure Unchanged (c c' : HotStuffCore K) : Prop where
  hqc : c'.hqc = c.hqc
  bLock : c'.bLock = c.bLock
  bExec : c'.bExec = c.bExec
  vheight : c'.vheight = c.vheight
  tails : c'.tails = c.tails
  voted : ∀ h, (c'.blk h).voted = (c.blk h).voted

/-- The check gives an answer, which is no for strangers.  No step that handles what is rejected
changes the protocol state, and the proposals and votes that wait for a rejected block are never
handled. -/
structure Total (env : Env K) (S : System (HotStuffBase K) (Input K)) (s : HotStuffBase K)
    (m : Checked K) : Prop where
  answers : ∃ valid, m.check env s.replica.core.config = .ok valid ∧
    (m.Strange s.replica.core.config → valid = false)
  unchanged : m.check env s.replica.core.config = .ok false → ∀ i s', m.HandledBy s i →
    s.step env i = some s' → Unchanged s.replica.core s'.replica.core
  waits : ∀ data h, m = .blk data → (s.blk h).data = data →
    s.deliveries.lookup h = some .failed → ∀ s', Steps S s s' →
    s.waiting.filter (fun callback => callback.blk = h) <+:
      s'.waiting.filter (fun callback => callback.blk = h)

/-! Answers. -/

section answers

variable {env : Env K} {config : ReplicaConfig K}

theorem not_answers {e : Exn} : ¬ ∃ valid, (Except.error e : Except Exn Bool) = .ok valid := by
  rintro ⟨_, h⟩
  cases h

theorem vote_answers_iff (vote : Vote K) :
    (∃ valid, vote.verify config = .ok valid) ↔ vote.voter ∈ config.replicaMap := by
  unfold Vote.verify ReplicaConfig.getPubkey
  rw [← AList.lookup_isSome]
  cases config.replicaMap.lookup vote.voter with
  | none => exact ⟨fun h => absurd h not_answers, nofun⟩
  | some pubkey => exact ⟨fun _ => rfl, fun _ => ⟨_, rfl⟩⟩

/-- With a quorum of signatures, the pool gives an answer when there are signers and all are
configured. -/
theorem pooled_answers_iff {qc : QuorumCert K} (hwf : qc.Wf)
    (hsize : ¬ qc.sigs.entries.length < config.nmajority) :
    (∃ valid, qc.verifyPooled config = .ok valid) ↔
      (∀ i < qc.rids.size, ¬ Unknown qc config i) ∧
        ∃ i < qc.rids.size, qc.rids.get i = some true := by
  have his : ∀ k ∈ List.range qc.rids.size, k < qc.rids.size := fun _ => List.mem_range.mp
  rw [QuorumCert.verifyPooled, if_neg hsize]
  by_cases hunknown : ∃ k < qc.rids.size, Unknown qc config k
  · obtain ⟨k, hk, hku⟩ := hunknown
    rw [poolResults_of_unknown hwf his (List.mem_range.mpr hk) hku]
    exact ⟨fun h => absurd h not_answers, fun h => absurd hku (h.1 k hk)⟩
  · push Not at hunknown
    have hknown : ∀ k ∈ List.range qc.rids.size, ¬ Unknown qc config k :=
      fun k hk => hunknown k (List.mem_range.mp hk)
    obtain ⟨rs, hresults, _, hnil⟩ := results_of_known hwf his hknown
    rw [hresults]
    cases rs with
    | nil =>
        refine ⟨fun h => absurd h not_answers, ?_⟩
        rintro ⟨_, i, hi, hbit⟩
        exact absurd hbit (hnil.mp rfl i (List.mem_range.mpr hi))
    | cons r rs =>
        refine ⟨fun _ => ⟨hunknown, ?_⟩, fun _ => ⟨_, rfl⟩⟩
        by_contra hnone
        push Not at hnone
        exact absurd (hnil.mpr (fun k hk => hnone k (List.mem_range.mp hk))) (List.cons_ne_nil _ _)

theorem answers_iff {m : Checked K} (hparse : m.Parsed) :
    (∃ valid, m.check env config = .ok valid ∧ (m.Strange config → valid = false)) ↔
      m.Answerable env config := by
  cases m with
  | vote vote =>
      simp only [Checked.check, Checked.Strange, Checked.Answerable]
      have hiff : (∃ valid, vote.verify config = .ok valid) ↔ vote.voter ∈ config.replicaMap :=
        vote_answers_iff vote
      refine ⟨fun ⟨valid, hvalid, _⟩ => hiff.mp ⟨valid, hvalid⟩, fun hvoter => ?_⟩
      obtain ⟨valid, hvalid⟩ := hiff.mpr hvoter
      exact ⟨valid, hvalid, fun h => absurd hvoter h⟩
  | blk data =>
      obtain ⟨_, _, hparse⟩ := hparse
      simp only [Checked.check, Checked.Strange, Checked.Answerable, verifyBlk]
      by_cases hgenesis : data.qc.objHash = env.genesisHash
      · rw [if_pos hgenesis]
        constructor
        · rintro ⟨valid, hvalid, hstrange⟩
          refine .inr ⟨fun i hi hu => ?_, .inl hgenesis⟩
          cases hvalid
          cases hstrange ⟨i, hi, hu⟩
        · rintro (⟨hne, _⟩ | ⟨hknown, _⟩)
          · exact absurd hgenesis hne
          · exact ⟨true, rfl, fun ⟨i, hi, hu⟩ => absurd hu (hknown i hi)⟩
      · rw [if_neg hgenesis]
        by_cases hsize : data.qc.sigs.entries.length < config.nmajority
        · rw [QuorumCert.verifyPooled, if_pos hsize]
          exact ⟨fun _ => .inl ⟨hgenesis, hsize⟩, fun _ => ⟨false, rfl, fun _ => rfl⟩⟩
        · have hiff := pooled_answers_iff (QuorumCert.wf_of_unserialize hparse) hsize
          constructor
          · rintro ⟨valid, hvalid, _⟩
            obtain ⟨hknown, hsigner⟩ := hiff.mp ⟨valid, hvalid⟩
            exact .inr ⟨hknown, .inr hsigner⟩
          · rintro (⟨_, hless⟩ | ⟨hknown, heq | hsigner⟩)
            · exact absurd hless hsize
            · exact absurd heq hgenesis
            · obtain ⟨valid, hvalid⟩ := hiff.mpr ⟨hknown, hsigner⟩
              exact ⟨valid, hvalid, fun ⟨i, hi, hu⟩ => absurd hu (hknown i hi)⟩

end answers

/-! What a rejection changes. -/

section unchanged

variable {env : Env K} {c c' c'' : HotStuffCore K} {s s' : HotStuffBase K} {h k : Uint256}

theorem Unchanged.refl (c : HotStuffCore K) : Unchanged c c :=
  ⟨rfl, rfl, rfl, rfl, rfl, fun _ => rfl⟩

theorem Unchanged.trans (h : Unchanged c c') (h' : Unchanged c' c'') : Unchanged c c'' :=
  ⟨h'.hqc.trans h.hqc, h'.bLock.trans h.bLock, h'.bExec.trans h.bExec,
    h'.vheight.trans h.vheight, h'.tails.trans h.tails, fun k => (h'.voted k).trans (h.voted k)⟩

theorem Unchanged.of_eq (heq : s'.replica = s.replica) :
    Unchanged s.replica.core s'.replica.core := by
  rw [heq]
  exact .refl _

theorem unchanged_addBlk (data : BlockData K) : Unchanged c (c.addBlk h (.fetched data)) := by
  cases hs : c.storage h with
  | some b =>
      rw [c.addBlk_of_isSome (by rw [hs]; rfl)]
      exact .refl c
  | none =>
      have hadd : c.addBlk h (.fetched data) =
          { c with storage := Function.update c.storage h (some (.fetched data)) } := by
        rw [HotStuffCore.addBlk, hs]
        rfl
      rw [hadd]
      refine ⟨rfl, rfl, rfl, rfl, rfl, fun k => ?_⟩
      by_cases hk : k = h
      · subst hk
        simp [HotStuffCore.blk, hs, Block.fetched, Block.absent]
      · simp [HotStuffCore.blk, hk]

theorem unchanged_addBlks (env : Env K) (s : HotStuffBase K) (blks : List (BlockData K)) :
    Unchanged s.replica.core (s.addBlks env blks).replica.core :=
  List.foldlRecOn (motive := Unchanged s.replica.core) blks _ (.refl _)
    (fun _ hc _ _ => hc.trans (unchanged_addBlk _))

theorem unchanged_of_moved {i : Input K} {m : Checked K} (hok : TablesOk env s)
    (hrejected : m.check env s.replica.core.config = .ok false) (hby : m.HandledBy s i)
    (hmoved : Moved env s i s') : Unchanged s.replica.core s'.replica.core := by
  cases m with
  | vote vote =>
      rcases hby with rfl | ⟨n, rfl, hget⟩
      · obtain rfl := hmoved
        exact .of_eq (replica_await s _)
      · obtain ⟨callback, hget', hhandled⟩ := hmoved
        rw [hget] at hget'
        cases hget'
        rcases hhandled with rfl | ⟨hvalid, _⟩
        · exact .refl _
        · have hcontra : Except.ok false = Except.ok true := hrejected.symm.trans hvalid
          cases hcontra
  | blk data =>
      rcases hby with ⟨proposer, rfl⟩ | ⟨blks, rfl, _⟩ | ⟨h, hdata, rfl | rfl | rfl⟩
      · obtain ⟨_, rfl⟩ := hmoved
        rw [replica_await]
        exact unchanged_addBlks env s [data]
      · obtain ⟨_, rfl⟩ := hmoved
        rw [replica_onFetchBlks]
        exact unchanged_addBlks env s blks
      · obtain ⟨_, rfl⟩ := hmoved
        exact .of_eq (replica_beginDelivery env s h)
      · obtain ⟨_, _, _, _, _, rfl⟩ := hmoved
        exact .refl _
      · rcases hmoved with ⟨_, rfl⟩ | ⟨hlookup, _⟩
        · exact .refl _
        · -- The pool has found the block invalid, so that its result is not that it is valid.
          have hwaits : Waits env s h (some true) true [] := hok.consistent h _ hlookup
          have hvalid := hwaits.verified true rfl
          rw [hdata] at hvalid
          have hcontra : Except.ok false = Except.ok true := hrejected.symm.trans hvalid
          cases hcontra

end unchanged

/-! What waits for a block whose verification has failed. -/

/-- The delivery of a block has failed while some callbacks wait for it. -/
structure Stuck (h : Uint256) (callbacks : List (Callback K)) (s : HotStuffBase K) : Prop where
  listed : h ∈ s.blkDeliveryWaiting
  failed : s.deliveries.lookup h = some .failed
  callbacks : callbacks <+: s.waiting.filter (fun callback => callback.blk = h)

section stuck

variable {env : Env K} {s s' : HotStuffBase K} {h k : Uint256} {callbacks : List (Callback K)}
  {d : Stage}

theorem Stuck.of_eq (hstuck : Stuck h callbacks s)
    (hwaiting : s'.waiting = s.waiting) (hlisted : s'.blkDeliveryWaiting = s.blkDeliveryWaiting)
    (hdeliveries : s'.deliveries = s.deliveries) : Stuck h callbacks s' :=
  ⟨hlisted ▸ hstuck.listed, hdeliveries ▸ hstuck.failed, hwaiting ▸ hstuck.callbacks⟩

theorem Stuck.asyncFetchBlk (hstuck : Stuck h callbacks s) (k : Uint256) :
    Stuck h callbacks (s.asyncFetchBlk k) := by
  unfold HotStuffBase.asyncFetchBlk
  split
  · exact hstuck
  · exact hstuck.of_eq rfl rfl rfl

theorem Stuck.asyncDeliverBlk (hstuck : Stuck h callbacks s) (k : Uint256) :
    Stuck h callbacks (s.asyncDeliverBlk k) := by
  unfold HotStuffBase.asyncDeliverBlk
  split
  · exact hstuck
  split
  · exact hstuck
  · rename_i hk
    have hne : h ≠ k := by
      rintro rfl
      exact hk hstuck.listed
    exact ⟨Finset.mem_insert_of_mem hstuck.listed,
      (AList.lookup_insert_ne hne).trans hstuck.failed,
      (hstuck.asyncFetchBlk k).callbacks⟩

theorem Stuck.await (hstuck : Stuck h callbacks s) (callback : Callback K) :
    Stuck h callbacks (s.await callback) := by
  unfold HotStuffBase.await
  split
  · exact hstuck.of_eq rfl rfl rfl
  · have hasks := hstuck.asyncDeliverBlk callback.blk
    refine ⟨hasks.listed, hasks.failed, hstuck.callbacks.trans ?_⟩
    rw [List.filter_append]
    exact List.prefix_append _ _

theorem Stuck.insert (hstuck : Stuck h callbacks s) (hne : h ≠ k) :
    Stuck h callbacks { s with deliveries := s.deliveries.insert k d } :=
  ⟨hstuck.listed, (AList.lookup_insert_ne hne).trans hstuck.failed, hstuck.callbacks⟩

theorem Stuck.beginDelivery (hstuck : Stuck h callbacks s) (hne : h ≠ k) :
    Stuck h callbacks (s.beginDelivery env k) := by
  have hasks : Stuck h callbacks ((s.blk k).data.parentHashes.foldl
      HotStuffBase.asyncDeliverBlk (s.asyncFetchBlk (s.blk k).data.qc.objHash)) :=
    List.foldlRecOn _ _ (hstuck.asyncFetchBlk _) (fun _ ht p _ => ht.asyncDeliverBlk p)
  exact hasks.insert hne

theorem Stuck.onFetchBlk (hstuck : Stuck h callbacks s) (k : Uint256) :
    Stuck h callbacks (s.onFetchBlk k) := by
  unfold HotStuffBase.onFetchBlk
  split
  · refine ⟨hstuck.listed, ?_, hstuck.callbacks⟩
    rw [lookup_mapVals, hstuck.failed]
    rfl
  · exact hstuck

private theorem Stuck.ended {f : Stage → Stage} (hstuck : Stuck h callbacks s) (hne : h ≠ k)
    (hf : f .failed = .failed) {resolved : List (Callback K)} :
    Stuck h callbacks
      { s with
        blkDeliveryWaiting := s.blkDeliveryWaiting.erase k
        deliveries := Deliveries.mapVals (fun _ => f) (s.deliveries.erase k)
        waiting := s.waiting.filter (fun callback => callback.blk ≠ k)
        resolved } := by
  refine ⟨Finset.mem_erase.mpr ⟨hne, hstuck.listed⟩, ?_, ?_⟩
  · rw [lookup_mapVals, AList.lookup_erase_ne hne, hstuck.failed, Option.map_some, hf]
  · show callbacks <+: (s.waiting.filter _).filter _
    rw [List.filter_filter]
    have hsame : ∀ callback ∈ s.waiting,
        (decide (callback.blk = h) && decide (callback.blk ≠ k)) =
          decide (callback.blk = h) := by
      intro callback _
      by_cases hblk : callback.blk = h
      · simp [hblk, hne]
      · simp [hblk]
    rw [List.filter_congr hsame]
    exact hstuck.callbacks

theorem Stuck.moved {i : Input K} (hstuck : Stuck h callbacks s) (hmoved : Moved env s i s') :
    Stuck h callbacks s' := by
  have hother : ∀ {k d}, s.deliveries.lookup k = some d → d ≠ .failed → h ≠ k := by
    rintro k d hlookup hd rfl
    rw [hstuck.failed] at hlookup
    exact hd (Option.some.inj hlookup).symm
  have hadvance : ∀ {t t' : HotStuffBase K} {j : Consensus.Machine.Input K},
      Stuck h callbacks t → Advanced env t j t' → Stuck h callbacks t' := by
    rintro t t' j ht ⟨replica, _, rfl⟩
    exact ht.of_eq rfl rfl rfl
  cases i with
  | msgPropose proposer data =>
      obtain ⟨_, rfl⟩ := hmoved
      exact Stuck.await (s := s.addBlks env [data]) (hstuck.of_eq rfl rfl rfl) _
  | msgVote vote =>
      obtain rfl := hmoved
      exact hstuck.await _
  | msgReqBlock blkHashes =>
      obtain rfl := hmoved
      exact List.foldlRecOn _ _ hstuck (fun _ ht k _ => ht.asyncFetchBlk k)
  | msgRespBlock blks =>
      obtain ⟨_, rfl⟩ := hmoved
      have hadd : Stuck h callbacks (s.addBlks env blks) := hstuck.of_eq rfl rfl rfl
      exact List.foldlRecOn _ _ hadd (fun _ ht k _ => ht.onFetchBlk k)
  | onFetched k =>
      obtain ⟨hlookup, rfl⟩ := hmoved
      exact hstuck.beginDelivery (hother hlookup nofun)
  | onVerified k =>
      obtain ⟨_, _, _, hlookup, _, rfl⟩ := hmoved
      exact hstuck.insert (hother hlookup nofun)
  | onReady k =>
      rcases hmoved with ⟨hlookup, rfl⟩ | ⟨hlookup, s₁, hadv, hend⟩
      · exact hstuck.insert (hother hlookup nofun)
      · have hne := hother hlookup nofun
        have hstuck₁ := hadvance hstuck hadv
        rcases hend with ⟨_, rfl⟩ | ⟨_, _, rfl⟩ | ⟨_, _, rfl⟩
        · exact hstuck₁.ended hne (f := Stage.onReject k) rfl
        · exact hstuck₁.ended hne (f := Stage.onResolve k) rfl
        · exact hstuck₁
  | handle n =>
      obtain ⟨callback, _, hhandled⟩ := hmoved
      have hstuck₁ : Stuck h callbacks { s with resolved := s.resolved.eraseIdx n } :=
        hstuck.of_eq rfl rfl rfl
      cases callback with
      | proposal prop => exact hadvance hstuck₁ hhandled
      | vote vote =>
          rcases hhandled with rfl | ⟨_, hadv⟩
          · exact hstuck₁
          · exact hadvance hstuck₁ hadv
  | propose cmds parents extra => exact hadvance hstuck hmoved
  | wait k => exact hadvance hstuck hmoved
  | resume => exact hadvance hstuck hmoved

end stuck

/-! Every message, in every reachable state. -/

section base

variable {env : Env K} {keys : List K.PrivKey} {id : ReplicaID} {key : K.PrivKey}
  {voteDisabled : Bool} {s s' : HotStuffBase K}

/-- Certificate checking is total on exactly the messages that are answerable. -/
theorem total_iff {m : Checked K} (hs : Reachable (base env keys id key voteDisabled) s)
    (hparse : m.Parsed) : Total env (base env keys id key voteDisabled) s m ↔
      m.Answerable env s.replica.core.config := by
  refine ⟨fun h => (answers_iff hparse).mp h.answers, fun h => ?_⟩
  have hok := tablesOk_of_base hs
  refine ⟨(answers_iff hparse).mpr h, fun hrejected i s' hby hstep => ?_, ?_⟩
  · exact unchanged_of_moved hok hrejected hby (moved_of_step hstep)
  · intro data h _ _ hfailed s' hrun
    have hstuck : Stuck h (s.waiting.filter (fun callback => callback.blk = h)) s :=
      ⟨hok.waits hfailed, hfailed, List.prefix_refl _⟩
    exact (hrun.invariant hstuck (fun _ _ _ ht hstep => ht.moved (moved_of_step hstep))).callbacks

end base

theorem total_iff_peer :
    Total (clearEnv false) (base (clearEnv false) peerKeys 0 (0 : Nat) false) peerStart
      (.vote (voteOf 3)) :=
  (total_iff (m := .vote (voteOf 3)) (.init rfl) trivial).mpr
    (by decide +kernel : (3 : ReplicaID) ∈ peerConfig.replicaMap)

/-- A vote that names replica 9, of four. -/
def strangerVote : Vote clearScheme := ⟨9, 1, ⟨((0 : Nat), (1 : Uint256)), 1⟩⟩

/-- The check throws out of the handler. -/
theorem stranger_unanswered : strangerVote.verify peerConfig = .error .ridNotFound ∧
    peerStart.step (clearEnv false) (.msgVote strangerVote) = none ∧
    ¬ Total (clearEnv false) (base (clearEnv false) peerKeys 0 (0 : Nat) false) peerStart
      (.vote strangerVote) := by
  have hthrows : strangerVote.verify peerConfig = .error .ridNotFound := by rfl
  refine ⟨hthrows, by rfl, fun htotal => ?_⟩
  obtain ⟨valid, hvalid, _⟩ := htotal.answers
  have hcontra : Except.error Exn.ridNotFound = Except.ok valid := hthrows.symm.trans hvalid
  cases hcontra

end ArchipelagoHotStuff.Base.Rejections
