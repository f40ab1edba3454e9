/- Module: ArchipelagoHotStuff/Consensus/State
   source: consensus.h, entity.h
   digest: Blocks, messages and the state of one protocol core, with the updates its functions
     are made of. -/

import ArchipelagoHotStuff.Crypto.Certificates
import Mathlib.Data.Finset.Basic
import Mathlib.Data.List.Sort
import Mathlib.Logic.Function.Basic

set_option autoImplicit false
set_option relaxedAutoImplicit false

namespace ArchipelagoHotStuff.Consensus.State

open Crypto.Wire Crypto.Certificates

variable {K : Secp256k1}

/-- The serialised fields of a block. -/
structure BlockData (K : Secp256k1) where
  parentHashes : List Uint256
  cmds : List Uint256
  qc : QuorumCert K
  extra : List UInt8

/-- `Block`: the serialised fields and those derived from them.  Blocks refer to one another by
the hash under which the storage holds them.  The code keeps heights in 32 bits: they are these on
branches of less than `2 ^ 32` blocks. -/
structure Block (K : Secp256k1) where
  data : BlockData K
  parents : List Uint256
  qcRef : Option Uint256
  selfQc : Option (QuorumCert K)
  height : Nat
  delivered : Bool
  decision : Bool
  voted : Finset ReplicaID

/-- A block as `unserialize` leaves it. -/
def Block.fetched (data : BlockData K) : Block K :=
  { data, parents := [], qcRef := none, selfQc := none, height := 0, delivered := false,
    decision := false, voted := ∅ }

/-- What reading a block that is not stored gives; the code holds no pointer to such a block. -/
def Block.absent : Block K :=
  .fetched { parentHashes := [], cmds := [], qc := ⟨0, Bits.ofSize 0, ∅⟩, extra := [] }

structure Proposal where
  proposer : ReplicaID
  blk : Uint256
  deriving DecidableEq

structure Vote (K : Secp256k1) where
  voter : ReplicaID
  blkHash : Uint256
  cert : PartCert K

def Vote.verify (vote : Vote K) (config : ReplicaConfig K) : Except Exn Bool :=
  match config.getPubkey vote.voter with
  | .error e => .error e
  | .ok pubkey => .ok (vote.cert.verify pubkey && vote.cert.objHash == vote.blkHash)

/-- `Finality`, with the 32-bit `cmd_idx` and `cmd_height` as they are below `2 ^ 32`. -/
structure Finality where
  rid : ReplicaID
  decision : Int
  cmdIdx : Nat
  cmdHeight : Nat
  cmdHash : Uint256
  blkHash : Uint256
  deriving DecidableEq

/-- What a core does that shows outside of its state: the callbacks it makes, the signatures it
creates, the certificates it completes, the blocks it creates, and the exceptions it throws.
`accept` marks the places where `vheight` is set for a block. -/
inductive Event (K : Secp256k1)
  | created (h : Uint256)
  | hqcUpdate (h : Uint256)
  | accept (h : Uint256)
  | partCert (h : Uint256)
  | quorum (h : Uint256) (qc : QuorumCert K)
  | consensus (h : Uint256)
  | decide (fin : Finality)
  | propose (h : Uint256)
  | broadcast (prop : Proposal)
  | vote (lastProposer : ReplicaID) (vote : Vote K)
  | threw (e : Exn)

/-- Whether an event is in a trace can be found out for events of a kind that can be compared. -/
def decidableMem {e : Event K} (heq : ∀ x : Event K, Decidable (x = e)) (trace : List (Event K)) :
    Decidable (e ∈ trace) :=
  decidable_of_iff (∃ x ∈ trace, x = e) (by simp)

instance (h : Uint256) (trace : List (Event K)) : Decidable (.created h ∈ trace) :=
  decidableMem (fun x => match x with
    | .created k => decidable_of_iff (k = h) (by simp)
    | .hqcUpdate _ | .accept _ | .partCert _ | .quorum _ _ | .consensus _ | .decide _ | .propose _
    | .broadcast _ | .vote _ _ | .threw _ => isFalse nofun) trace

instance (h : Uint256) (trace : List (Event K)) : Decidable (.partCert h ∈ trace) :=
  decidableMem (fun x => match x with
    | .partCert k => decidable_of_iff (k = h) (by simp)
    | .created _ | .hqcUpdate _ | .accept _ | .quorum _ _ | .consensus _ | .decide _ | .propose _
    | .broadcast _ | .vote _ _ | .threw _ => isFalse nofun) trace

instance (h : Uint256) (trace : List (Event K)) : Decidable (.propose h ∈ trace) :=
  decidableMem (fun x => match x with
    | .propose k => decidable_of_iff (k = h) (by simp)
    | .created _ | .hqcUpdate _ | .accept _ | .partCert _ | .quorum _ _ | .consensus _ | .decide _
    | .broadcast _ | .vote _ _ | .threw _ => isFalse nofun) trace

instance (prop : Proposal) (trace : List (Event K)) : Decidable (.broadcast prop ∈ trace) :=
  decidableMem (fun x => match x with
    | .broadcast p => decidable_of_iff (p = prop) (by simp)
    | .created _ | .hqcUpdate _ | .accept _ | .partCert _ | .quorum _ _ | .consensus _ | .decide _
    | .propose _ | .vote _ _ | .threw _ => isFalse nofun) trace

instance [DecidableEq K.Sig] (p : ReplicaID) (vote : Vote K) (trace : List (Event K)) :
    Decidable (.vote p vote ∈ trace) :=
  decidableMem (fun x => match x with
    | .vote q v => decidable_of_iff (q = p ∧ v.voter = vote.voter ∧ v.blkHash = vote.blkHash ∧
        v.cert.sig = vote.cert.sig ∧ v.cert.objHash = vote.cert.objHash) (by
          obtain ⟨_, _, _, _⟩ := v
          obtain ⟨_, _, _, _⟩ := vote
          simp)
    | .created _ | .hqcUpdate _ | .accept _ | .partCert _ | .quorum _ _ | .consensus _ | .decide _
    | .propose _ | .broadcast _ | .threw _ => isFalse (fun heq => by cases heq)) trace

/-- What is fixed for a system: the hash function, the hash of the genesis block, the build, and
where each replica allocates its blocks (the order of its set of tails). -/
structure Env (K : Secp256k1) where
  getHash : BlockData K → Uint256
  genesisHash : Uint256
  twoStep : Bool
  addr : ReplicaID → Uint256 → Nat

/-- `HotStuffCore` together with the `hqc_tail` of its `PMHighTail` pacemaker; `vheight` is a 32-bit
height as those of the blocks are.  `trace` lists the events so far, the latest first. -/
structure HotStuffCore (K : Secp256k1) where
  hqc : Uint256 × QuorumCert K
  bLock : Uint256
  bExec : Uint256
  vheight : Nat
  privKey : K.PrivKey
  tails : List Uint256
  config : ReplicaConfig K
  qcWaiting : Finset Uint256
  voteDisabled : Bool
  id : ReplicaID
  storage : Uint256 → Option (Block K)
  hqcTail : Uint256
  trace : List (Event K)

theorem Vote.verify_true {vote : Vote K} {config : ReplicaConfig K}
    (h : vote.verify config = .ok true) : vote.cert.objHash = vote.blkHash ∧
      ∃ pubkey, config.getPubkey vote.voter = .ok pubkey ∧ vote.cert.verify pubkey = true := by
  unfold Vote.verify at h
  split at h
  · cases h
  · rename_i pubkey hkey
    obtain ⟨hvalid, hhash⟩ := (Bool.and_eq_true _ _).mp (Except.ok.inj h)
    exact ⟨beq_iff_eq.mp hhash, pubkey, hkey, hvalid⟩

namespace HotStuffCore

variable (c : HotStuffCore K)

def blk (h : Uint256) : Block K := (c.storage h).getD .absent

def emit (e : Event K) : HotStuffCore K := { c with trace := e :: c.trace }

def modifyBlk (h : Uint256) (f : Block K → Block K) : HotStuffCore K :=
  { c with storage := Function.update c.storage h ((c.storage h).map f) }

/-- `add_blk`: a hash that is there keeps its block. -/
def addBlk (h : Uint256) (b : Block K) : HotStuffCore K :=
  if (c.storage h).isSome then c
  else { c with storage := Function.update c.storage h (some b) }

def eraseTails (hs : List Uint256) : HotStuffCore K :=
  { c with tails := c.tails.filter (fun t => t ∉ hs) }

def insertTail (env : Env K) (h : Uint256) : HotStuffCore K :=
  { c with
    tails :=
      if h ∈ c.tails then c.tails
      else c.tails.orderedInsert (fun a b => env.addr c.id a ≤ env.addr c.id b) h }

/-- Follow `parents[0]` from `b` down to the first block no higher than `floor`; the blocks
passed on the way and the block reached, or nothing if a block without parents is in the way. -/
def walk (floor : Nat) : Nat → Uint256 → Option (List Uint256 × Uint256)
  | fuel, b =>
    if (c.blk b).height ≤ floor then some ([], b)
    else
      match fuel with
      | 0 => none
      | fuel + 1 =>
          match (c.blk b).parents.head? with
          | none => none
          | some p => (walk floor fuel p).map (fun r => (b :: r.1, r.2))

/-- The loops `for (b = b; b->height > floor; b = b->parents[0])`; heights fall by one along
the parents of delivered blocks, so that the height of the first block bounds the rounds. -/
def descend (floor : Nat) (b : Uint256) : Option (List Uint256 × Uint256) :=
  c.walk floor (c.blk b).height b

@[simp] theorem trace_emit (e : Event K) : (c.emit e).trace = e :: c.trace := rfl

@[simp] theorem storage_emit (e : Event K) : (c.emit e).storage = c.storage := rfl

@[simp] theorem blk_emit (e : Event K) (h : Uint256) : (c.emit e).blk h = c.blk h := rfl

@[simp] theorem storage_eraseTails (hs : List Uint256) :
    (c.eraseTails hs).storage = c.storage := rfl

@[simp] theorem storage_insertTail (env : Env K) (h : Uint256) :
    (c.insertTail env h).storage = c.storage := rfl

theorem mem_tails_eraseTails {hs : List Uint256} {t : Uint256} :
    t ∈ (c.eraseTails hs).tails ↔ t ∈ c.tails ∧ t ∉ hs := by
  simp [eraseTails]

theorem mem_tails_insertTail {env : Env K} {h t : Uint256} :
    t ∈ (c.insertTail env h).tails ↔ t = h ∨ t ∈ c.tails := by
  unfold insertTail
  by_cases hmem : h ∈ c.tails
  · simp only [hmem, if_true]
    constructor
    · exact .inr
    · rintro (rfl | ht)
      · exact hmem
      · exact ht
  · simp [hmem, List.mem_orderedInsert]

theorem storage_modifyBlk (h x : Uint256) (f : Block K → Block K) :
    (c.modifyBlk h f).storage x = if x = h then (c.storage h).map f else c.storage x := by
  simp [modifyBlk, Function.update_apply]

@[simp] theorem isSome_modifyBlk (h x : Uint256) (f : Block K → Block K) :
    ((c.modifyBlk h f).storage x).isSome = (c.storage x).isSome := by
  rw [storage_modifyBlk]
  split
  · rename_i heq
    rw [heq, Option.isSome_map]
  · rfl

theorem blk_modifyBlk_ne {h x : Uint256} (hne : x ≠ h) (f : Block K → Block K) :
    (c.modifyBlk h f).blk x = c.blk x := by
  simp [blk, storage_modifyBlk, hne]

theorem blk_modifyBlk_self {h : Uint256} (hs : (c.storage h).isSome) (f : Block K → Block K) :
    (c.modifyBlk h f).blk h = f (c.blk h) := by
  obtain ⟨b, hb⟩ := Option.isSome_iff_exists.mp hs
  simp [blk, storage_modifyBlk, hb]

theorem field_modifyBlk {γ : Type} (g : Block K → γ) (h x : Uint256) {f : Block K → Block K}
    (hg : ∀ b, g (f b) = g b) : g ((c.modifyBlk h f).blk x) = g (c.blk x) := by
  by_cases heq : x = h
  · subst heq
    unfold blk
    rw [storage_modifyBlk, if_pos rfl]
    cases c.storage x with
    | none => rfl
    | some b => exact hg b
  · rw [blk_modifyBlk_ne c heq]

theorem modifyBlk_congr {h : Uint256} {f g : Block K → Block K}
    (hfg : f (c.blk h) = g (c.blk h)) : c.modifyBlk h f = c.modifyBlk h g := by
  unfold modifyBlk
  congr 2
  cases hs : c.storage h with
  | none => rfl
  | some b =>
      have hb : c.blk h = b := by simp [blk, hs]
      rw [hb] at hfg
      simp [hfg]

theorem modifyBlk_modifyBlk (h : Uint256) (f g : Block K → Block K) :
    (c.modifyBlk h f).modifyBlk h g = c.modifyBlk h (fun b => g (f b)) := by
  simp [modifyBlk, Function.comp_def]

theorem addBlk_of_isSome {h : Uint256} (hs : (c.storage h).isSome) (b : Block K) :
    c.addBlk h b = c := by
  simp [addBlk, hs]

theorem storage_addBlk_of_none {h : Uint256} (hs : c.storage h = none) (b : Block K)
    (x : Uint256) : (c.addBlk h b).storage x = if x = h then some b else c.storage x := by
  simp [addBlk, hs, Function.update_apply]

theorem blk_addBlk_of_none {h : Uint256} (hs : c.storage h = none) (b : Block K) (x : Uint256) :
    (c.addBlk h b).blk x = if x = h then b else c.blk x := by
  unfold blk
  rw [c.storage_addBlk_of_none hs]
  split <;> rfl

theorem blk_of_none {h : Uint256} (hs : c.storage h = none) : c.blk h = .absent := by
  simp [blk, hs]

theorem walk_zero (floor : Nat) (b : Uint256) :
    c.walk floor 0 b = if (c.blk b).height ≤ floor then some ([], b) else none := by
  simp [walk]

theorem walk_succ (floor fuel : Nat) (b : Uint256) :
    c.walk floor (fuel + 1) b =
      if (c.blk b).height ≤ floor then some ([], b)
      else
        match (c.blk b).parents.head? with
        | none => none
        | some p => (c.walk floor fuel p).map (fun r => (b :: r.1, r.2)) := by
  rw [walk]

theorem walk_congr {c c' : HotStuffCore K} (hh : ∀ x, (c'.blk x).height = (c.blk x).height)
    (hp : ∀ x, (c'.blk x).parents.head? = (c.blk x).parents.head?) (floor fuel : Nat)
    (b : Uint256) : c'.walk floor fuel b = c.walk floor fuel b := by
  induction fuel generalizing b with
  | zero => simp [walk_zero, hh]
  | succ fuel ih => simp only [walk_succ, hh, hp, ih]

end HotStuffCore

end ArchipelagoHotStuff.Consensus.State
