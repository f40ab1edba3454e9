/- Module: ArchipelagoHotStuff/Consensus/Messages
   source: entity.cpp (serialize, unserialize), consensus.h (Proposal, Vote, Finality),
     hotstuff.cpp (MsgReqBlock, MsgRespBlock)
   digest: What is read back of a written block or message, and which encodings of a block are
     the ones that writing it gives. -/

import ArchipelagoHotStuff.Base.Commands
import ArchipelagoHotStuff.Consensus.Setup
import ArchipelagoHotStuff.Consensus.Tree
import ArchipelagoHotStuff.Crypto.Encoding

set_option autoImplicit false
set_option relaxedAutoImplicit false

namespace ArchipelagoHotStuff.Consensus.Messages

open Crypto.Wire Crypto.Certificates Crypto.Encoding General.Codec State

variable {K : Secp256k1}

/-! Blocks. -/

/-- A number of hashes and the hashes. -/
def putHashes (hashes : List Uint256) : List UInt8 :=
  putLE 4 hashes.length ++ hashes.flatMap putHash

def getHashes (s : DataStream) : Except Exn (List Uint256 × DataStream) := do
  let (n, s) ← getLE 4 s
  repeated getHash n s

/-- The extra bytes of a block; for none at all no pointer into the buffer is taken. -/
def getExtra (s : DataStream) : Except Exn (List UInt8 × DataStream) := do
  let (n, s) ← getLE 4 s
  if n = 0 then return ([], s) else getData n s

section blocks

variable (codec : CompactCodec K) (sha : List UInt8 → Uint256)

/-- `Block::serialize`; nothing if the certificate throws. -/
def putBlock (data : BlockData K) : Option (List UInt8) :=
  (putQuorumCert codec data.qc).map (fun qc =>
    putHashes data.parentHashes ++ (putHashes data.cmds ++ (qc ++
      (putLE 4 data.extra.length ++ data.extra))))

/-- The hash of a block is that of its serialised form. -/
def blockHash (data : BlockData K) : Uint256 := sha ((putBlock codec data).getD [])

def getFields (s : DataStream) : Except Exn (BlockData K × DataStream) := do
  let (parentHashes, s) ← getHashes s
  let (cmds, s) ← getHashes s
  let (qc, s) ← QuorumCert.unserialize s
  let (extra, s) ← getExtra s
  return (⟨parentHashes, cmds, qc, extra⟩, s)

/-- `Block::unserialize`: the hash and the fields.  The hash is taken of the fields as they are
written again, not of the bytes that were read. -/
def getBlock (s : DataStream) : Except Exn ((Uint256 × BlockData K) × DataStream) := do
  let (data, s) ← getFields s
  match putBlock codec data with
  -- a certificate that was read can be written
  | none => .error .undefinedBehaviour
  | some w => return ((sha w, data), s)

/-! Messages. -/

/-- `Proposal::serialize`. -/
def putProposal (c : HotStuffCore K) (prop : Proposal) : Option (List UInt8) :=
  (putBlock codec (c.blk prop.blk).data).map (putLE 2 prop.proposer.val ++ ·)

/-- `Proposal::unserialize`, which hands the block to the storage. -/
def getProposal (c : HotStuffCore K) (s : DataStream) :
    Except Exn ((Proposal × HotStuffCore K) × DataStream) := do
  let (proposer, s) ← getLE 2 s
  let ((h, data), s) ← getBlock codec sha s
  return ((⟨ReplicaID.ofIndex proposer, h⟩, c.addBlk h (.fetched data)), s)

/-- `Vote::serialize`. -/
def putVote (vote : Vote K) : List UInt8 :=
  putLE 2 vote.voter.val ++ (putHash vote.blkHash ++ putPartCert codec vote.cert)

/-- `Vote::unserialize`. -/
def getVote (s : DataStream) : Except Exn (Vote K × DataStream) := do
  let (voter, s) ← getLE 2 s
  let (blkHash, s) ← getHash s
  let (cert, s) ← getPartCert s
  return (⟨ReplicaID.ofIndex voter, blkHash, cert⟩, s)

def putReqBlock (blkHashes : List Uint256) : List UInt8 := putHashes blkHashes

def getReqBlock (s : DataStream) : Except Exn (List Uint256 × DataStream) := getHashes s

/-- The blocks of a `MsgRespBlock`. -/
def putBlocks : List (BlockData K) → Option (List UInt8)
  | [] => some []
  | data :: blks =>
      match putBlock codec data with
      | none => none
      | some w => (putBlocks blks).map (w ++ ·)

/-- The constructor of `MsgRespBlock` from blocks. -/
def putRespBlock (blks : List (BlockData K)) : Option (List UInt8) :=
  (putBlocks codec blks).map (putLE 4 blks.length ++ ·)

def getBlocks : Nat → HotStuffCore K → DataStream →
    Except Exn ((List Uint256 × HotStuffCore K) × DataStream)
  | 0, c, s => .ok (([], c), s)
  | n + 1, c, s => do
    let ((h, data), s) ← getBlock codec sha s
    let ((hs, c), s) ← getBlocks n (c.addBlk h (.fetched data)) s
    return ((h :: hs, c), s)

/-- `MsgRespBlock::postponed_parse`. -/
def getRespBlock (c : HotStuffCore K) (s : DataStream) :
    Except Exn ((List Uint256 × HotStuffCore K) × DataStream) := do
  let (n, s) ← getLE 4 s
  getBlocks codec sha n c s

/-- `Finality::serialize`; the decision is a signed byte. -/
def putFinality (fin : Finality) : List UInt8 :=
  putLE 2 fin.rid.val ++ (putLE 1 (BitVec.ofInt 8 fin.decision).toNat ++ (putLE 4 fin.cmdIdx ++
    (putLE 4 fin.cmdHeight ++ (putHash fin.cmdHash ++
      if fin.decision = 1 then putHash fin.blkHash else []))))

/-- `Finality::unserialize` into a new object, whose hashes are zero. -/
def getFinality (s : DataStream) : Except Exn (Finality × DataStream) := do
  let (rid, s) ← getLE 2 s
  let (decision, s) ← getLE 1 s
  let (cmdIdx, s) ← getLE 4 s
  let (cmdHeight, s) ← getLE 4 s
  let (cmdHash, s) ← getHash s
  let fin : Finality :=
    { rid := ReplicaID.ofIndex rid, decision := (BitVec.ofNat 8 decision).toInt, cmdIdx, cmdHeight,
      cmdHash, blkHash := 0 }
  if fin.decision = 1 then do
    let (blkHash, s) ← getHash s
    return ({ fin with blkHash }, s)
  else return (fin, s)

end blocks

/-! What is meant by the same block. -/

/-- Blocks with the same fields. -/
structure SameBlock (data data' : BlockData K) : Prop where
  parentHashes : data'.parentHashes = data.parentHashes
  cmds : data'.cmds = data.cmds
  qc : SameCert data.qc data'.qc
  extra : data'.extra = data.extra

/-- Certificates that replicas of a system come to hold: created for the configuration and filled
vote by vote, or read from a message. -/
def Held (pubkeys : List K.PubKey) (qc : QuorumCert K) : Prop :=
  (∃ h, Filled (HotStuffCore.startConfig pubkeys) h qc) ∨
    ∃ s rest, QuorumCert.unserialize s = .ok (qc, rest)

/-- Blocks whose lists can be counted in 32 bits, with a certificate that a replica holds. -/
structure Writable (pubkeys : List K.PubKey) (data : BlockData K) : Prop where
  parentHashes : data.parentHashes.length < 2 ^ 32
  cmds : data.cmds.length < 2 ^ 32
  qc : Held pubkeys data.qc
  extra : data.extra.length < 2 ^ 32

/-- All stored blocks are of that kind. -/
def StoresWritable (pubkeys : List K.PubKey) (c : HotStuffCore K) : Prop :=
  ∀ h b, c.storage h = some b → Writable pubkeys b.data

section same

variable {codec : CompactCodec K} {qc qc' qc'' : QuorumCert K} {data data' data'' : BlockData K}

theorem SameCert.symm (h : SameCert qc qc') : SameCert qc' qc :=
  ⟨h.objHash.symm, h.rids.symm, fun r => (h.sigs r).symm⟩

theorem SameCert.trans (h : SameCert qc qc') (h' : SameCert qc' qc'') : SameCert qc qc'' :=
  ⟨h'.objHash.trans h.objHash, h'.rids.trans h.rids, fun r => (h'.sigs r).trans (h.sigs r)⟩

theorem SameBlock.symm (h : SameBlock data data') : SameBlock data' data :=
  ⟨h.parentHashes.symm, h.cmds.symm, SameCert.symm h.qc, h.extra.symm⟩

theorem SameBlock.trans (h : SameBlock data data') (h' : SameBlock data' data'') :
    SameBlock data data'' :=
  ⟨h'.parentHashes.trans h.parentHashes, h'.cmds.trans h.cmds, SameCert.trans h.qc h'.qc,
    h'.extra.trans h.extra⟩

theorem SameBlock.put_eq (h : SameBlock data data') :
    putBlock codec data' = putBlock codec data := by
  unfold putBlock
  rw [h.qc.put_eq, h.parentHashes, h.cmds, h.extra]

end same

/-! Reading blocks. -/

section read

variable {codec : CompactCodec K} {sha : List UInt8 → Uint256} {pubkeys : List K.PubKey}
  {data : BlockData K} {w : List UInt8} {s rest : DataStream}

theorem getHashes_eq : getHashes = andThen (getLE 4) (fun n => repeated getHash n) := rfl

theorem reads_hashes {hashes : List Uint256} (h : hashes.length < 2 ^ 32) :
    Reads getHashes (putHashes hashes) (· = hashes) := by
  rw [getHashes_eq]
  refine (reads_getLE h).andThen ?_
  rintro n rfl
  exact .repeated_eq (fun x _ => reads_getHash x)

theorem canonical_getHashes : Canonical getHashes putHashes := by
  intro s hashes rest hread
  rw [getHashes_eq] at hread
  obtain ⟨n, mid, hget, hrepeated⟩ := andThen_eq_ok hread
  obtain ⟨hlen, hmid⟩ := canonical_getHash.repeated hrepeated
  rw [(getLE_eq_ok hget).2, hmid, putHashes, hlen, List.append_assoc]

theorem length_of_getHashes {hashes : List Uint256} (h : getHashes s = .ok (hashes, rest)) :
    hashes.length < 2 ^ 32 := by
  rw [getHashes_eq] at h
  obtain ⟨n, mid, hget, hrepeated⟩ := andThen_eq_ok h
  obtain ⟨rfl, _⟩ := canonical_getHash.repeated hrepeated
  exact (getLE_eq_ok hget).1

theorem getExtra_eq : getExtra = andThen (getLE 4) (fun n s =>
    if n = 0 then (.ok ([], s) : Except Exn (List UInt8 × DataStream)) else getData n s) := rfl

theorem reads_extra {extra : List UInt8} (h : extra.length < 2 ^ 32) :
    Reads getExtra (putLE 4 extra.length ++ extra) (· = extra) := by
  rw [getExtra_eq]
  refine (reads_getLE h).andThen ?_
  rintro n rfl
  by_cases hzero : extra.length = 0
  · simp only [hzero, if_true]
    obtain rfl := List.length_eq_zero_iff.mp hzero
    exact .pure rfl
  · simp only [hzero, if_false]
    exact reads_getData extra

theorem canonical_getExtra (h : getExtra s = .ok (w, rest)) :
    w.length < 2 ^ 32 ∧ s = putLE 4 w.length ++ w ++ rest := by
  rw [getExtra_eq] at h
  obtain ⟨n, mid, hget, hread⟩ := andThen_eq_ok h
  obtain ⟨hlt, rfl⟩ := getLE_eq_ok hget
  split at hread
  · rename_i hzero
    cases hread
    subst hzero
    exact ⟨hlt, by simp⟩
  · obtain ⟨rfl, rfl⟩ := getData_eq_ok hread
    exact ⟨hlt, by simp⟩

theorem getFields_eq : getFields (K := K) = andThen getHashes (fun parentHashes =>
    andThen getHashes (fun cmds => andThen QuorumCert.unserialize (fun qc =>
      andThen getExtra (fun extra s => (.ok (⟨parentHashes, cmds, qc, extra⟩, s) :
        Except Exn (BlockData K × DataStream)))))) := rfl

theorem getBlock_eq : getBlock codec sha = andThen getFields (fun data s =>
    match putBlock codec data with
    | none => (.error .undefinedBehaviour : Except Exn ((Uint256 × BlockData K) × DataStream))
    | some w => .ok ((sha w, data), s)) := by
  funext s
  unfold getBlock andThen
  cases getFields s with
  | error e => rfl
  | ok r => rfl

/-- A certificate that a replica holds can be written, with a word for each declared bit. -/
theorem Held.wf {qc : QuorumCert K} (hsize : pubkeys.length ≤ 2 ^ 16) (h : Held pubkeys qc) :
    qc.Wf ∧ qc.rids.data.length = Bits.ndata qc.rids.nbits := by
  rcases h with ⟨hash, hfilled⟩ | ⟨s, rest, hread⟩
  · have hn : (HotStuffCore.startConfig pubkeys).nreplicas = pubkeys.length := by
      show (HotStuffCore.addReplicas ReplicaConfig.empty 0 pubkeys).nreplicas = pubkeys.length
      rw [Setup.nreplicas_addReplicas]
      exact Nat.zero_add _
    have hids : ∀ r ∈ (HotStuffCore.startConfig pubkeys).replicaMap,
        r.val < (HotStuffCore.startConfig pubkeys).nreplicas := by
      intro r hr
      rw [hn]
      exact Setup.val_lt_of_mem_startConfig hr
    obtain ⟨hwf, hshape, _⟩ := hfilled.wf (by rw [hn]; exact hsize) hids
    exact ⟨hwf, hshape⟩
  · exact ⟨QuorumCert.wf_of_unserialize hread, shape_of_unserialize hread⟩

theorem exists_putBlock (codec : CompactCodec K) (hsize : pubkeys.length ≤ 2 ^ 16)
    (h : Writable pubkeys data) : ∃ w, putBlock codec data = some w := by
  obtain ⟨w, hw⟩ := exists_putQuorumCert (h.qc.wf hsize).1
  exact ⟨_, by rw [putBlock, hw, Option.map_some]⟩

theorem blockHash_eq (sha : List UInt8 → Uint256) (h : putBlock codec data = some w) :
    blockHash codec sha data = sha w := by
  rw [blockHash, h, Option.getD_some]

theorem reads_block (sha : List UInt8 → Uint256) (hsize : pubkeys.length ≤ 2 ^ 16)
    (h : Writable pubkeys data) (hput : putBlock codec data = some w) :
    Reads (getBlock codec sha) w (fun x =>
      x.1 = blockHash codec sha data ∧ SameBlock data x.2) := by
  have hhash := blockHash_eq sha hput
  have hfields : Reads getFields w (SameBlock data) := by
    obtain ⟨qc, hqc, rfl⟩ := Option.map_eq_some_iff.mp hput
    obtain ⟨hwf, hshape⟩ := h.qc.wf hsize
    rw [getFields_eq]
    refine (reads_hashes h.parentHashes).andThen ?_
    rintro parentHashes rfl
    refine (reads_hashes h.cmds).andThen ?_
    rintro cmds rfl
    refine (reads_quorumCert hwf hshape hqc).andThen (fun qc' hsame => ?_)
    refine (reads_extra h.extra).map ?_
    rintro extra rfl
    exact ⟨rfl, rfl, hsame, rfl⟩
  rw [getBlock_eq]
  intro rest
  obtain ⟨data', hsame, hget⟩ := hfields rest
  refine ⟨(blockHash codec sha data, data'), ⟨rfl, hsame⟩, ?_⟩
  have hput' : putBlock codec data' = some w := hsame.put_eq.trans hput
  rw [andThen_ok hget, hput', hhash]

theorem same_of_put_eq {data' : BlockData K} (hsize : pubkeys.length ≤ 2 ^ 16)
    (h : Writable pubkeys data) (h' : Writable pubkeys data')
    (hput : putBlock codec data' = putBlock codec data) : SameBlock data data' := by
  obtain ⟨w, hw⟩ := exists_putBlock codec hsize h
  obtain ⟨x, ⟨_, hx⟩, hget⟩ := reads_block (fun _ => 0) hsize h hw []
  obtain ⟨x', ⟨_, hx'⟩, hget'⟩ := reads_block (fun _ => 0) hsize h' (hput.trans hw) []
  rw [hget] at hget'
  cases hget'
  exact hx.trans hx'.symm

theorem getBlock_eq_ok {h : Uint256} (hget : getBlock codec sha s = .ok ((h, data), rest)) :
    ∃ s₁ s₂ s₃, getHashes s = .ok (data.parentHashes, s₁) ∧
      getHashes s₁ = .ok (data.cmds, s₂) ∧
      QuorumCert.unserialize s₂ = .ok (data.qc, s₃) ∧ getExtra s₃ = .ok (data.extra, rest) ∧
      ∃ w, putBlock codec data = some w ∧ h = sha w := by
  rw [getBlock_eq] at hget
  obtain ⟨fields, mid, hfields, hend⟩ := andThen_eq_ok hget
  rw [getFields_eq] at hfields
  obtain ⟨parentHashes, s₁, hparents, hfields⟩ := andThen_eq_ok hfields
  obtain ⟨cmds, s₂, hcmds, hfields⟩ := andThen_eq_ok hfields
  obtain ⟨qc, s₃, hqc, hfields⟩ := andThen_eq_ok hfields
  obtain ⟨extra, s₄, hextra, hfields⟩ := andThen_eq_ok hfields
  cases hfields
  split at hend
  · cases hend
  · rename_i w hw
    cases hend
    exact ⟨s₁, s₂, s₃, hparents, hcmds, hqc, hextra, w, hw, rfl⟩

theorem writable_of_getBlock {h : Uint256} (hget : getBlock codec sha s = .ok ((h, data), rest)) :
    Writable pubkeys data := by
  obtain ⟨s₁, s₂, s₃, hparents, hcmds, hqc, hextra, _⟩ := getBlock_eq_ok hget
  exact ⟨length_of_getHashes hparents, length_of_getHashes hcmds, .inr ⟨s₂, s₃, hqc⟩,
    (canonical_getExtra hextra).1⟩

end read

/-! Reading messages. -/

section messages

variable {codec : CompactCodec K} {sha : List UInt8 → Uint256} {pubkeys : List K.PubKey}
  {data data' : BlockData K} {w : List UInt8} {c : HotStuffCore K}

theorem reads_rid (rid : ReplicaID) : Reads (getLE 2) (putLE 2 rid.val) (· = rid.val) :=
  reads_getLE rid.isLt

/-- What the storage holds for a block that was read: the same block, unless it kept under the hash
one that is written as other bytes. -/
def Returned (codec : CompactCodec K) (sha : List UInt8 → Uint256) (c : HotStuffCore K)
    (data : BlockData K) : Prop :=
  ∃ b, c.storage (blockHash codec sha data) = some b ∧
    (SameBlock data b.data ∨ putBlock codec b.data ≠ putBlock codec data)

theorem storage_addBlk_of_some {h h' : Uint256} {b b' : Block K} (hb : c.storage h = some b) :
    (c.addBlk h' b').storage h = some b := by
  by_cases hs : (c.storage h').isSome
  · rw [c.addBlk_of_isSome hs]
    exact hb
  · have hnone : c.storage h' = none := by simpa using hs
    rw [c.storage_addBlk_of_none hnone]
    split
    · rename_i heq
      rw [heq, hnone] at hb
      cases hb
    · exact hb

theorem StoresWritable.addBlk (h : StoresWritable pubkeys c) (hdata : Writable pubkeys data)
    (k : Uint256) : StoresWritable pubkeys (c.addBlk k (.fetched data)) := by
  intro x b hb
  by_cases hs : (c.storage k).isSome
  · rw [c.addBlk_of_isSome hs] at hb
    exact h x b hb
  · rw [c.storage_addBlk_of_none (by simpa using hs)] at hb
    split at hb
    · cases hb
      exact hdata
    · exact h x b hb

theorem storesWritable_start (env : Env K) (id : ReplicaID) (privKey : K.PrivKey)
    (voteDisabled : Bool) : StoresWritable pubkeys
      (HotStuffCore.start env (HotStuffCore.startConfig pubkeys) id privKey voteDisabled) := by
  intro h b hb
  simp only [HotStuffCore.start, Function.update_apply] at hb
  split at hb
  · cases hb
    exact ⟨Nat.two_pow_pos 32, Nat.two_pow_pos 32, .inl ⟨_, .create⟩, Nat.two_pow_pos 32⟩
  · cases hb

theorem Returned.addBlk (h : Returned codec sha c data) (k : Uint256) (b : Block K) :
    Returned codec sha (c.addBlk k b) data := by
  obtain ⟨b', hb', hsame⟩ := h
  exact ⟨b', storage_addBlk_of_some hb', hsame⟩

theorem returned_addBlk (hsize : pubkeys.length ≤ 2 ^ 16) (hstored : StoresWritable pubkeys c)
    (hdata : Writable pubkeys data) (hsame : SameBlock data data') :
    Returned codec sha (c.addBlk (blockHash codec sha data) (.fetched data')) data := by
  cases hb : c.storage (blockHash codec sha data) with
  | none =>
      refine ⟨.fetched data', ?_, .inl hsame⟩
      rw [c.storage_addBlk_of_none hb, if_pos rfl]
  | some b =>
      refine ⟨b, storage_addBlk_of_some hb, ?_⟩
      by_cases hput : putBlock codec b.data = putBlock codec data
      · exact .inl (same_of_put_eq hsize hdata (hstored _ b hb) hput)
      · exact .inr hput

theorem getProposal_eq : getProposal codec sha c = andThen (getLE 2) (fun proposer =>
    andThen (getBlock codec sha) (fun x s => (.ok ((⟨ReplicaID.ofIndex proposer, x.1⟩,
      c.addBlk x.1 (.fetched x.2)), s) :
        Except Exn ((Proposal × HotStuffCore K) × DataStream)))) := rfl

theorem reads_proposal (hsize : pubkeys.length ≤ 2 ^ 16) (hstored : StoresWritable pubkeys c)
    {sender : HotStuffCore K} {prop : Proposal}
    (hdata : Writable pubkeys (sender.blk prop.blk).data)
    (hhash : prop.blk = blockHash codec sha (sender.blk prop.blk).data)
    (hput : putProposal codec sender prop = some w) :
    Reads (getProposal codec sha c) w (fun x => x.1 = prop ∧ StoresWritable pubkeys x.2 ∧
      Returned codec sha x.2 (sender.blk prop.blk).data) := by
  obtain ⟨w', hw', rfl⟩ := Option.map_eq_some_iff.mp hput
  intro rest
  obtain ⟨_, rfl, hrid⟩ := reads_rid prop.proposer (w' ++ rest)
  obtain ⟨⟨h, data'⟩, ⟨rfl, hsame⟩, hblock⟩ := reads_block sha hsize hdata hw' rest
  refine ⟨(prop, c.addBlk _ (.fetched data')),
    ⟨rfl, ?_, returned_addBlk hsize hstored hdata hsame⟩, ?_⟩
  · exact hstored.addBlk (writable_of_getBlock hblock) _
  · rw [getProposal_eq, List.append_assoc, andThen_ok hrid, andThen_ok hblock,
      ReplicaID.ofIndex_val, ← hhash]

theorem getVote_eq : getVote (K := K) = andThen (getLE 2) (fun voter => andThen getHash
    (fun blkHash => andThen getPartCert (fun cert s =>
      (.ok (⟨ReplicaID.ofIndex voter, blkHash, cert⟩, s) :
        Except Exn (Vote K × DataStream))))) := rfl

theorem reads_vote (vote : Vote K) : Reads getVote (putVote codec vote) (· = vote) := by
  rw [getVote_eq]
  refine (reads_rid vote.voter).andThen ?_
  rintro voter rfl
  refine (reads_getHash vote.blkHash).andThen ?_
  rintro blkHash rfl
  refine (reads_partCert codec vote.cert).map ?_
  rintro cert rfl
  rw [ReplicaID.ofIndex_val]

theorem getBlocks_succ (n : Nat) : getBlocks codec sha (n + 1) c = andThen (getBlock codec sha)
    (fun x => andThen (getBlocks codec sha n (c.addBlk x.1 (.fetched x.2))) (fun y s =>
      (.ok ((x.1 :: y.1, y.2), s) :
        Except Exn ((List Uint256 × HotStuffCore K) × DataStream)))) := rfl

theorem exists_putBlocks (codec : CompactCodec K) (hsize : pubkeys.length ≤ 2 ^ 16)
    {blks : List (BlockData K)}
    (h : ∀ data ∈ blks, Writable pubkeys data) : ∃ w, putBlocks codec blks = some w := by
  induction blks with
  | nil => exact ⟨[], rfl⟩
  | cons data blks ih =>
      obtain ⟨w, hw⟩ := exists_putBlock codec hsize (h data List.mem_cons_self)
      obtain ⟨ws, hws⟩ := ih (fun d hd => h d (List.mem_cons_of_mem data hd))
      refine ⟨w ++ ws, ?_⟩
      simp only [putBlocks, hw, hws, Option.map_some]

theorem Returned.getBlocks {n : Nat} {s rest : DataStream} {hs : List Uint256}
    {c' : HotStuffCore K} (h : Returned codec sha c data)
    (hget : getBlocks codec sha n c s = .ok ((hs, c'), rest)) : Returned codec sha c' data := by
  induction n generalizing c s hs with
  | zero =>
      cases hget
      exact h
  | succ n ih =>
      rw [getBlocks_succ] at hget
      obtain ⟨x, mid, _, hrest⟩ := andThen_eq_ok hget
      obtain ⟨y, mid', hblocks, hend⟩ := andThen_eq_ok hrest
      cases hend
      exact ih (h.addBlk _ _) hblocks

theorem reads_blocks (hsize : pubkeys.length ≤ 2 ^ 16) (hstored : StoresWritable pubkeys c)
    {blks : List (BlockData K)} (h : ∀ data ∈ blks, Writable pubkeys data)
    (hput : putBlocks codec blks = some w) :
    Reads (getBlocks codec sha blks.length c) w (fun x =>
      x.1 = blks.map (blockHash codec sha) ∧ StoresWritable pubkeys x.2 ∧
        ∀ data ∈ blks, Returned codec sha x.2 data) := by
  induction blks generalizing c w with
  | nil =>
      cases hput
      exact .pure ⟨rfl, hstored, fun _ hmem => by cases hmem⟩
  | cons data blks ih =>
      have hdata := h data List.mem_cons_self
      obtain ⟨wd, hwd⟩ := exists_putBlock codec hsize hdata
      simp only [putBlocks, hwd] at hput
      obtain ⟨ws, hws, rfl⟩ := Option.map_eq_some_iff.mp hput
      intro rest
      obtain ⟨⟨k, data'⟩, ⟨rfl, hsame⟩, hblock⟩ :=
        reads_block sha hsize hdata hwd (ws ++ rest)
      have hstored' := hstored.addBlk (writable_of_getBlock hblock) (blockHash codec sha data)
      obtain ⟨⟨hs, c'⟩, ⟨rfl, hend, hreturned⟩, hblocks⟩ :=
        ih hstored' (fun d hd => h d (List.mem_cons_of_mem data hd)) hws rest
      refine ⟨(blockHash codec sha data :: blks.map (blockHash codec sha), c'),
        ⟨rfl, hend, ?_⟩, ?_⟩
      · intro d hd
        rcases List.mem_cons.mp hd with rfl | hd
        · exact (returned_addBlk hsize hstored hdata hsame).getBlocks hblocks
        · exact hreturned d hd
      · rw [List.length_cons, getBlocks_succ, List.append_assoc, andThen_ok hblock,
          andThen_ok hblocks]

/-- The finalities that the code makes: one for each command of a committed block, and the answer
to a command that is already waiting. -/
def Constructed (K : Secp256k1) (fin : Finality) : Prop :=
  (∃ (c : HotStuffCore K) (h : Uint256), .decide fin ∈ c.finalities h ∧
    (c.blk h).data.cmds.length < 2 ^ 32 ∧ (c.blk h).height < 2 ^ 32) ∨
  ∃ id cmdHash, fin = Base.Commands.duplicate id cmdHash

theorem getFinality_eq : getFinality = andThen (getLE 2) (fun rid => andThen (getLE 1)
    (fun decision => andThen (getLE 4) (fun cmdIdx => andThen (getLE 4) (fun cmdHeight =>
      andThen getHash (fun cmdHash s =>
        let fin : Finality :=
          { rid := ReplicaID.ofIndex rid, decision := (BitVec.ofNat 8 decision).toInt, cmdIdx,
            cmdHeight, cmdHash, blkHash := 0 }
        if fin.decision = 1 then
          andThen getHash (fun blkHash s => (.ok ({ fin with blkHash }, s) :
            Except Exn (Finality × DataStream))) s
        else .ok (fin, s)))))) := rfl

theorem decision_ofInt {d : Int} (h : d = 0 ∨ d = 1) :
    (BitVec.ofNat 8 (BitVec.ofInt 8 d).toNat).toInt = d := by
  rcases h with rfl | rfl <;> decide

theorem reads_finality {fin : Finality} (h : Constructed K fin) :
    Reads getFinality (putFinality fin) (· = fin) := by
  have hbounds : fin.cmdIdx < 2 ^ 32 ∧ fin.cmdHeight < 2 ^ 32 ∧
      (fin.decision = 1 ∨ fin.decision = 0 ∧ fin.blkHash = 0) := by
    rcases h with ⟨c, k, hmem, hlen, hheight⟩ | ⟨id, cmdHash, rfl⟩
    · obtain ⟨i, hi, heq⟩ := List.mem_mapIdx.mp hmem
      cases heq
      exact ⟨Nat.lt_trans hi hlen, hheight, .inl rfl⟩
    · exact ⟨Nat.two_pow_pos 32, Nat.two_pow_pos 32, .inr ⟨rfl, rfl⟩⟩
  obtain ⟨hidx, hheight, hdecision⟩ := hbounds
  rw [getFinality_eq]
  refine (reads_rid fin.rid).andThen ?_
  rintro rid rfl
  refine (reads_getLE (BitVec.isLt _)).andThen ?_
  rintro decision rfl
  refine (reads_getLE hidx).andThen ?_
  rintro cmdIdx rfl
  refine (reads_getLE hheight).andThen ?_
  rintro cmdHeight rfl
  refine (reads_getHash fin.cmdHash).andThen ?_
  rintro cmdHash rfl
  rw [decision_ofInt (by omega), ReplicaID.ofIndex_val]
  rcases hdecision with hone | ⟨hzero, hblk⟩
  · simp only [hone, if_true]
    refine (reads_getHash fin.blkHash).map ?_
    rintro blkHash rfl
    rw [← hone]
  · have hne : ¬ fin.decision = 1 := by omega
    simp only [hne, if_false]
    refine .pure ?_
    rw [← hblk]

/-- What each `unserialize` makes of what the `serialize` of the same class has written, whatever
bytes follow. -/
structure RoundTrip (codec : CompactCodec K) (sha : List UInt8 → Uint256)
    (pubkeys : List K.PubKey) : Prop where
  block : ∀ data, Writable pubkeys data → ∃ w, putBlock codec data = some w ∧
    Reads (getBlock codec sha) w (fun x =>
      x.1 = blockHash codec sha data ∧ SameBlock data x.2)
  proposal : ∀ (sender : HotStuffCore K) prop, Writable pubkeys (sender.blk prop.blk).data →
    prop.blk = blockHash codec sha (sender.blk prop.blk).data →
    ∃ w, putProposal codec sender prop = some w ∧ ∀ c, StoresWritable pubkeys c →
      Reads (getProposal codec sha c) w (fun x => x.1 = prop ∧ StoresWritable pubkeys x.2 ∧
        Returned codec sha x.2 (sender.blk prop.blk).data)
  vote : ∀ vote, Reads getVote (putVote codec vote) (· = vote)
  reqBlock : ∀ blkHashes, blkHashes.length < 2 ^ 32 →
    Reads getReqBlock (putReqBlock blkHashes) (· = blkHashes)
  respBlock : ∀ blks, blks.length < 2 ^ 32 → (∀ data ∈ blks, Writable pubkeys data) →
    ∃ w, putRespBlock codec blks = some w ∧ ∀ c, StoresWritable pubkeys c →
      Reads (getRespBlock codec sha c) w (fun x => x.1 = blks.map (blockHash codec sha) ∧
        StoresWritable pubkeys x.2 ∧ ∀ data ∈ blks, Returned codec sha x.2 data)
  finality : ∀ fin, Constructed K fin → Reads getFinality (putFinality fin) (· = fin)

theorem roundTrip (codec : CompactCodec K) (sha : List UInt8 → Uint256)
    (pubkeys : List K.PubKey) (hsize : pubkeys.length ≤ 2 ^ 16) :
    RoundTrip codec sha pubkeys where
  block data hdata := by
    obtain ⟨w, hw⟩ := exists_putBlock codec hsize hdata
    exact ⟨w, hw, reads_block sha hsize hdata hw⟩
  proposal sender prop hdata hhash := by
    obtain ⟨w, hw⟩ := exists_putBlock codec hsize hdata
    have hput : putProposal codec sender prop = some (putLE 2 prop.proposer.val ++ w) := by
      rw [putProposal, hw, Option.map_some]
    exact ⟨_, hput, fun c hstored => reads_proposal hsize hstored hdata hhash hput⟩
  vote := reads_vote
  reqBlock blkHashes hlen := reads_hashes hlen
  respBlock blks hlen hblks := by
    obtain ⟨w, hw⟩ := exists_putBlocks codec hsize hblks
    refine ⟨_, by rw [putRespBlock, hw, Option.map_some], fun c hstored => ?_⟩
    have hread : getRespBlock codec sha c =
        andThen (getLE 4) (fun n => getBlocks codec sha n c) := rfl
    rw [hread]
    refine (reads_getLE hlen).andThen ?_
    rintro n rfl
    exact reads_blocks hsize hstored hblks hw
  finality _ hfin := reads_finality hfin

/-- The bytes themselves, cut to the size of a hash. -/
def lowHash (bytes : List UInt8) : Uint256 := BitVec.ofNat 256 (fromLE bytes)

theorem filled_addParts {config : ReplicaConfig K} {h : Uint256} {qc qc' : QuorumCert K}
    (hqc : Filled config h qc) {parts : List (ReplicaID × PartCert K)}
    (hparts : ∀ p ∈ parts, p.1 ∈ config.replicaMap)
    (hadd : parts.foldlM (fun qc p => qc.addPart p.1 p.2) qc = .ok qc') :
    Filled config h qc' := by
  induction parts generalizing qc with
  | nil =>
      cases hadd
      exact hqc
  | cons p parts ih =>
      rw [List.foldlM_cons] at hadd
      cases hfirst : qc.addPart p.1 p.2 with
      | error e =>
          rw [hfirst] at hadd
          cases hadd
      | ok qc₁ =>
          rw [hfirst] at hadd
          exact ih (.addPart hqc (hparts p List.mem_cons_self) hfirst)
            (fun p' hp' => hparts p' (List.mem_cons_of_mem p hp')) hadd

def fourKeys : List bytesScheme.PubKey := ([1, 2, 3, 4] : List Uint256)

/-- The votes of replicas 0, 1 and 3 for block 7. -/
def fourVotes : List (ReplicaID × PartCert bytesScheme) :=
  [(0, .create (1 : Uint256) 7), (1, .create (2 : Uint256) 7), (3, .create (4 : Uint256) 7)]

def signedCert : QuorumCert bytesScheme :=
  ⟨7, ⟨4, [11]⟩, fourVotes.foldl (fun sigs p => sigs.insert p.1 p.2.sig) ∅⟩

theorem signedCert_filled : Filled (HotStuffCore.startConfig fourKeys) 7 signedCert :=
  filled_addParts .create (show ∀ p ∈ fourVotes, p.1 ∈ _ by decide) rfl

def signedBlock : BlockData bytesScheme :=
  { parentHashes := [7, 8], cmds := [21, 22], qc := signedCert, extra := [1, 2, 3] }

theorem signedBlock_writable : Writable fourKeys signedBlock :=
  ⟨by decide, by decide, .inl ⟨7, signedCert_filled⟩, by decide⟩

/-- The replicas store blocks under the hashes of their bytes. -/
def signedEnv : Env bytesScheme :=
  { getHash := blockHash bytesCodec.toCompactCodec lowHash
    genesisHash := 0
    twoStep := false
    addr := fun _ h => h.toNat }

def signedStart (rid : ReplicaID) (key : Uint256) : HotStuffCore bytesScheme :=
  .start signedEnv (HotStuffCore.startConfig fourKeys) rid (key : Uint256) false

/-- Replica 0 proposes the block, which replica 1 reads. -/
theorem roundTrip_signed :
    ∃ w, putProposal bytesCodec.toCompactCodec
        (Effects.createBlk signedEnv (signedStart 0 1) signedBlock)
        ⟨0, signedEnv.getHash signedBlock⟩ = some w ∧
      Reads (getProposal bytesCodec.toCompactCodec lowHash (signedStart 1 2)) w (fun x =>
        x.1 = ⟨0, signedEnv.getHash signedBlock⟩ ∧ StoresWritable fourKeys x.2 ∧
          Returned bytesCodec.toCompactCodec lowHash x.2 signedBlock) := by
  have hblk := congrArg Block.data
    (Tree.blk_createBlk_self (c := signedStart 0 1) signedEnv signedBlock)
  have htrip := (roundTrip bytesCodec.toCompactCodec lowHash fourKeys (by decide)).proposal
    (Effects.createBlk signedEnv (signedStart 0 1) signedBlock)
    ⟨0, signedEnv.getHash signedBlock⟩
  rw [hblk] at htrip
  obtain ⟨w, hput, hread⟩ := htrip signedBlock_writable rfl
  exact ⟨w, hput, hread (signedStart 1 2) (storesWritable_start signedEnv 1 _ false)⟩

end messages

/-! Encodings. -/

section encodings

variable {sha : List UInt8 → Uint256} {data : BlockData K} {k : Uint256} {s rest : DataStream}

/-- In the encoding of a block, bits of the bitmap that share a slot come with the same
signature. -/
def UnambiguousBlock (s : DataStream) : Prop :=
  ∀ parentHashes s₁ cmds s₂, getHashes s = .ok (parentHashes, s₁) →
    getHashes s₁ = .ok (cmds, s₂) → Unambiguous s₂

/-- The block is written as the bytes that were read, and gets their hash. -/
def CanonicalAt (codec : CompactCodec K) (sha : List UInt8 → Uint256) (s : DataStream)
    (k : Uint256) (data : BlockData K) (rest : DataStream) : Prop :=
  ∃ w, putBlock codec data = some w ∧ s = w ++ rest ∧ k = sha w

theorem canonicalAt_iff (codec : StrictCodec K)
    (h : getBlock codec.toCompactCodec sha s = .ok ((k, data), rest)) :
    CanonicalAt codec.toCompactCodec sha s k data rest ↔ UnambiguousBlock s := by
  obtain ⟨s₁, s₂, s₃, hparents, hcmds, hqc, hextra, w, hw, rfl⟩ := getBlock_eq_ok h
  have hs := canonical_getHashes _ _ _ hparents
  have hs₁ := canonical_getHashes _ _ _ hcmds
  obtain ⟨_, hs₃⟩ := canonical_getExtra hextra
  have hunambiguous : UnambiguousBlock s ↔ Unambiguous s₂ := by
    constructor
    · exact fun hall => hall _ _ _ _ hparents hcmds
    · intro hone parentHashes t cmds t' ht ht'
      rw [hparents] at ht
      cases ht
      rw [hcmds] at ht'
      cases ht'
      exact hone
  rw [hunambiguous, ← canonical_quorumCert_iff codec hqc]
  obtain ⟨qc, hqcput, rfl⟩ := Option.map_eq_some_iff.mp hw
  constructor
  · rintro ⟨w', hw', hsw, _⟩
    rw [hw] at hw'
    cases hw'
    refine ⟨qc, hqcput, ?_⟩
    rw [hs, hs₁] at hsw
    simp only [List.append_assoc, List.append_cancel_left_eq] at hsw
    rw [hsw, hs₃, List.append_assoc]
  · rintro ⟨qc', hqc', hsw⟩
    rw [hqcput] at hqc'
    cases hqc'
    refine ⟨_, hw, ?_, rfl⟩
    rw [hs, hs₁, hsw, hs₃]
    simp only [List.append_assoc]

/-- A block that was read is written as bytes that are read as the same block under the same
hash. -/
theorem reads_rewritten (codec : CompactCodec K)
    (h : getBlock codec sha s = .ok ((k, data), rest)) : ∃ w data',
      putBlock codec data = some w ∧ SameBlock data data' ∧
      getBlock codec sha (w ++ rest) = .ok ((k, data'), rest) := by
  obtain ⟨_, _, _, _, _, _, _, w, hw, rfl⟩ := getBlock_eq_ok h
  have hkeys : ([] : List K.PubKey).length ≤ 2 ^ 16 := Nat.zero_le _
  obtain ⟨⟨k', data'⟩, ⟨hk, hsame⟩, hget⟩ :=
    reads_block sha hkeys (writable_of_getBlock h) hw rest
  rw [blockHash_eq sha hw] at hk
  cases hk
  exact ⟨w, data', hw, hsame, hget⟩

/-- Blocks are written as they were read exactly if no slot of the certificate was given two
signatures.  A block for which that is not so has a second encoding with the same hash; apart from
these, equal hashes come from equal bytes or a collision. -/
theorem canonical_block (codec : StrictCodec K)
    (h : getBlock codec.toCompactCodec sha s = .ok ((k, data), rest)) :
    (CanonicalAt codec.toCompactCodec sha s k data rest ↔ UnambiguousBlock s) ∧
    (¬ UnambiguousBlock s → ∃ w data', w ++ rest ≠ s ∧ SameBlock data data' ∧
      getBlock codec.toCompactCodec sha (w ++ rest) = .ok ((k, data'), rest)) ∧
    ∀ s' data' rest', getBlock codec.toCompactCodec sha s' = .ok ((k, data'), rest') →
      UnambiguousBlock s → UnambiguousBlock s' →
      ∃ w w', s = w ++ rest ∧ s' = w' ++ rest' ∧ (w = w' ∨ w ≠ w' ∧ sha w = sha w') := by
  have hiff := canonicalAt_iff codec h
  refine ⟨hiff, fun hambiguous => ?_, fun s' data' rest' h' hs hs' => ?_⟩
  · obtain ⟨w, data', hw, hsame, hget⟩ := reads_rewritten codec.toCompactCodec h
    refine ⟨w, data', fun heq => hambiguous (hiff.mp ⟨w, hw, heq.symm, ?_⟩), hsame, hget⟩
    obtain ⟨_, _, _, _, _, _, _, w', hw', rfl⟩ := getBlock_eq_ok h
    rw [hw] at hw'
    cases hw'
    rfl
  · obtain ⟨w, _, hsw, hk⟩ := hiff.mpr hs
    obtain ⟨w', _, hsw', hk'⟩ := (canonicalAt_iff codec h').mpr hs'
    refine ⟨w, w', hsw, hsw', ?_⟩
    by_cases heq : w = w'
    · exact .inl heq
    · exact .inr ⟨heq, hk.symm.trans hk'⟩

end encodings

/-! A bitmap with two bits for one slot. -/

section doubled

/-- The first of 65537 bits and the last. -/
def doubledBits : Bits := ⟨65537#32, 1#64 :: (List.replicate 1023 0#64 ++ [1#64])⟩

/-- An empty block whose certificate has these two bits set and these signatures. -/
def doubled (a b : bytesScheme.Sig) : DataStream :=
  putHashes [] ++ (putHashes [] ++ ((putHash 0 ++ (putBits doubledBits ++ (a.val ++ b.val))) ++
    putLE 4 0))

def doubledQc (a b : bytesScheme.Sig) : QuorumCert bytesScheme :=
  ⟨0, doubledBits, ((∅ : AList (fun _ : ReplicaID => bytesScheme.Sig)).insert
    (ReplicaID.ofIndex 0) a).insert (ReplicaID.ofIndex 65536) b⟩

def doubledData (a b : bytesScheme.Sig) : BlockData bytesScheme := ⟨[], [], doubledQc a b, []⟩

theorem length_doubledBits : doubledBits.data.length = Bits.ndata doubledBits.nbits := by
  have hndata : Bits.ndata doubledBits.nbits = 1025 := by decide
  rw [hndata]
  simp [-List.reduceReplicate, doubledBits]

theorem range_ends (n : Nat) :
    List.range (n + 2) = 0 :: ((List.range n).map Nat.succ ++ [n + 1]) := by
  rw [List.range_succ, List.range_succ_eq_map]
  rfl

theorem get_doubledBits_first : doubledBits.get 0 = some true := rfl

theorem get_doubledBits_last : doubledBits.get 65536 = some true := by
  rw [Bits.get_eq]
  simp [-List.reduceReplicate, doubledBits]

theorem get_doubledBits_between {i : Nat} (h : i ∈ (List.range 65535).map Nat.succ) :
    doubledBits.get i = some false := by
  obtain ⟨j, hj, rfl⟩ := List.mem_map.mp h
  have hlt : j < 65535 := List.mem_range.mp hj
  rw [Bits.get_eq]
  by_cases hword : j.succ / 64 = 0
  · have hbit : j.succ % 64 ≠ 0 := by omega
    simp [-List.reduceReplicate, doubledBits, hword, BitVec.getLsbD_one, hbit]
  · obtain ⟨m, hm⟩ := Nat.exists_eq_succ_of_ne_zero hword
    have hm' : m < 1023 := by omega
    simp [-List.reduceReplicate, doubledBits, hm, List.getElem?_append, hm']

variable {K : Secp256k1} {codec : CompactCodec K} {rids : Bits} {is : List Nat}

theorem unserializeSigs_clear (h : ∀ i ∈ is, rids.get i = some false) (js : List Nat)
    (acc : AList (fun _ : ReplicaID => K.Sig)) (s : DataStream) :
    QuorumCert.unserializeSigs rids (is ++ js) acc s =
      QuorumCert.unserializeSigs rids js acc s := by
  induction is with
  | nil => rfl
  | cons i is ih =>
      simp only [List.cons_append, QuorumCert.unserializeSigs, h i List.mem_cons_self]
      exact ih (fun j hj => h j (List.mem_cons_of_mem i hj))

theorem putSigs_clear (h : ∀ i ∈ is, rids.get i = some false) (js : List Nat)
    (sigs : AList (fun _ : ReplicaID => K.Sig)) :
    putSigs codec rids sigs (is ++ js) = putSigs codec rids sigs js := by
  induction is with
  | nil => rfl
  | cons i is ih =>
      simp only [List.cons_append, putSigs, h i List.mem_cons_self]
      exact ih (fun j hj => h j (List.mem_cons_of_mem i hj))

section ends

variable {first last : Nat} {a b : K.Sig} {s s' s'' : DataStream}
  {sigs : AList (fun _ : ReplicaID => K.Sig)}

theorem unserializeSigs_ends (hfirst : rids.get first = some true)
    (hclear : ∀ i ∈ is, rids.get i = some false) (hlast : rids.get last = some true)
    (ha : unserializeSig s = .ok (a, s')) (hb : unserializeSig s' = .ok (b, s'')) :
    QuorumCert.unserializeSigs rids (first :: (is ++ [last])) sigs s =
      .ok ((sigs.insert (ReplicaID.ofIndex first) a).insert (ReplicaID.ofIndex last) b, s'') := by
  simp only [QuorumCert.unserializeSigs, hfirst, ha, unserializeSigs_clear hclear, hlast, hb]

theorem putSigs_ends (hfirst : rids.get first = some true)
    (hclear : ∀ i ∈ is, rids.get i = some false) (hlast : rids.get last = some true)
    (ha : sigs.lookup (ReplicaID.ofIndex first) = some a)
    (hb : sigs.lookup (ReplicaID.ofIndex last) = some b) :
    putSigs codec rids sigs (first :: (is ++ [last])) =
      some (codec.serializeCompact a ++ codec.serializeCompact b) := by
  simp [putSigs, hfirst, ha, putSigs_clear hclear, hlast, hb]

end ends

theorem range_doubledBits : List.range doubledBits.size =
    0 :: ((List.range 65535).map Nat.succ ++ [65536]) := range_ends 65535

theorem putBlock_doubledData (a b : bytesScheme.Sig) :
    putBlock bytesCodec.toCompactCodec (doubledData a b) = some (doubled b b) := by
  have hslot : ReplicaID.ofIndex 65536 = ReplicaID.ofIndex 0 := by decide
  have hlookup : (doubledQc a b).sigs.lookup (ReplicaID.ofIndex 0) = some b := by
    rw [doubledQc, hslot, AList.lookup_insert]
  have hlast : (doubledQc a b).sigs.lookup (ReplicaID.ofIndex 65536) = some b := by
    rw [hslot, hlookup]
  have hsigs : putSigs bytesCodec.toCompactCodec doubledBits (doubledQc a b).sigs
      (List.range doubledBits.size) = some (b.val ++ b.val) := by
    rw [range_doubledBits]
    exact putSigs_ends get_doubledBits_first (fun i => get_doubledBits_between)
      get_doubledBits_last hlookup hlast
  unfold putBlock putQuorumCert
  show Option.map _ (Option.map _ (putSigs bytesCodec.toCompactCodec doubledBits
    (doubledQc a b).sigs (List.range doubledBits.size))) = _
  rw [hsigs]
  simp [doubled, doubledData, doubledQc, putHashes, List.append_assoc]

theorem reads_doubledSigs (a b : bytesScheme.Sig) :
    Reads (QuorumCert.unserializeSigs doubledBits (List.range doubledBits.size)
      (∅ : AList (fun _ : ReplicaID => bytesScheme.Sig))) (a.val ++ b.val)
      (· = (doubledQc a b).sigs) := by
  intro rest
  obtain ⟨a', ha', ha⟩ := reads_sig bytesCodec.toCompactCodec a (b.val ++ rest)
  obtain ⟨b', hb', hb⟩ := reads_sig bytesCodec.toCompactCodec b rest
  have hfirst : unserializeSig (a.val ++ (b.val ++ rest)) = .ok (a, b.val ++ rest) :=
    ha'.symm ▸ ha
  have hlast : unserializeSig (b.val ++ rest) = .ok (b, rest) := hb'.symm ▸ hb
  refine ⟨_, rfl, ?_⟩
  rw [range_doubledBits, List.append_assoc]
  exact unserializeSigs_ends get_doubledBits_first (fun i => get_doubledBits_between)
    get_doubledBits_last hfirst hlast

theorem reads_doubledQc (a b : bytesScheme.Sig) : Reads QuorumCert.unserialize
    (putHash 0 ++ (putBits doubledBits ++ (a.val ++ b.val))) (· = doubledQc a b) := by
  have hzero : (0 : Uint256).toNat < 256 ^ 32 := by decide
  rw [unserialize_eq]
  refine (reads_getLE hzero).andThen ?_
  rintro x rfl
  refine (reads_bits length_doubledBits).andThen ?_
  rintro rids rfl
  refine (reads_doubledSigs a b).map ?_
  rintro sigs rfl
  rfl

theorem reads_doubled (a b : bytesScheme.Sig) :
    Reads getFields (doubled a b) (· = doubledData a b) := by
  have hlen : ([] : List Uint256).length < 2 ^ 32 := Nat.two_pow_pos 32
  have hlen' : ([] : List UInt8).length < 2 ^ 32 := Nat.two_pow_pos 32
  have hextra := reads_extra hlen'
  rw [List.append_nil] at hextra
  rw [getFields_eq, doubled]
  refine (reads_hashes hlen).andThen ?_
  rintro parentHashes rfl
  refine (reads_hashes hlen).andThen ?_
  rintro cmds rfl
  refine (reads_doubledQc a b).andThen ?_
  rintro qc rfl
  refine hextra.map ?_
  rintro extra rfl
  rfl

theorem getBlock_doubled (a b : bytesScheme.Sig) :
    getBlock bytesCodec.toCompactCodec lowHash (doubled a b) =
      .ok ((lowHash (doubled b b), doubledData a b), []) := by
  obtain ⟨data, rfl, hget⟩ := reads_doubled a b []
  rw [List.append_nil] at hget
  rw [getBlock_eq, andThen_ok hget, putBlock_doubledData]

def zeroSig : bytesScheme.Sig := ⟨List.replicate 64 0, List.length_replicate⟩

def oneSig : bytesScheme.Sig := ⟨List.replicate 64 1, List.length_replicate⟩

theorem doubled_ne : doubled zeroSig oneSig ≠ doubled oneSig oneSig := by
  intro h
  unfold doubled at h
  simp only [List.append_cancel_left_eq, List.append_cancel_right_eq] at h
  have hhead := congrArg List.head? h
  revert hhead
  decide

/-- Two encodings that are both accepted, as blocks with the same hash; the block read from the
first is written as the second. -/
theorem doubled_accepted :
    getBlock bytesCodec.toCompactCodec lowHash (doubled zeroSig oneSig) =
        .ok ((lowHash (doubled oneSig oneSig), doubledData zeroSig oneSig), []) ∧
      getBlock bytesCodec.toCompactCodec lowHash (doubled oneSig oneSig) =
        .ok ((lowHash (doubled oneSig oneSig), doubledData oneSig oneSig), []) ∧
      putBlock bytesCodec.toCompactCodec (doubledData zeroSig oneSig) =
        some (doubled oneSig oneSig) ∧
      doubled zeroSig oneSig ≠ doubled oneSig oneSig :=
  ⟨getBlock_doubled _ _, getBlock_doubled _ _, putBlock_doubledData _ _, doubled_ne⟩

theorem canonical_block_doubled : UnambiguousBlock (doubled oneSig oneSig) ∧
    ¬ UnambiguousBlock (doubled zeroSig oneSig) := by
  have hone := (canonical_block bytesCodec (getBlock_doubled oneSig oneSig)).1
  have hzero := (canonical_block bytesCodec (getBlock_doubled zeroSig oneSig)).1
  constructor
  · exact hone.mp ⟨_, putBlock_doubledData _ _, (List.append_nil _).symm, rfl⟩
  · intro hunambiguous
    obtain ⟨w, hw, hs, _⟩ := hzero.mpr hunambiguous
    rw [putBlock_doubledData] at hw
    cases hw
    rw [List.append_nil] at hs
    exact doubled_ne hs

end doubled

end ArchipelagoHotStuff.Consensus.Messages
