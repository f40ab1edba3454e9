/- Module: ArchipelagoHotStuff/Consensus/Effects
   digest: The atomic changes of a protocol core with what the code has made sure of before
     each, and every function of the core as a sequence of them. -/

import ArchipelagoHotStuff.Consensus.Handlers
import ArchipelagoHotStuff.General.Transition

set_option autoImplicit false
set_option relaxedAutoImplicit false

namespace ArchipelagoHotStuff.Consensus.Effects

open Crypto.Wire Crypto.Certificates State Handlers General.Transition

variable {K : Secp256k1}

/-- One atomic change of a core. -/
inductive Effect (K : Secp256k1)
  | store (data : BlockData K)
  | create (data : BlockData K)
  | deliver (h : Uint256)
  | spoil (h : Uint256) (parents : List Uint256) (height : Nat)
  | eraseTails (hs : List Uint256)
  | resetSelfQc (h : Uint256) (voted : Finset ReplicaID)
  | raiseHqc (h : Uint256) (qc : QuorumCert K)
  | raiseLock (h : Uint256)
  | commit (queue : List Uint256) (h : Uint256)
  | accept (h : Uint256) (offLock : Bool)
  | acceptOwn (h : Uint256) (data : BlockData K) (offLock : Bool)
  | sign (h : Uint256)
  | count (vote : Vote K) (own : Bool) (qc : QuorumCert K)
  | miscount (vote : Vote K)
  | announce (h : Uint256)
  | note (h : Uint256)
  | wait (h : Uint256)
  | wake (h : Uint256)
  | broadcast (h : Uint256)
  | sendVote (lastProposer : ReplicaID) (vote : Vote K)
  | throw (e : Exn)

/-- Number of links from the block `update` finds certified down to the one it commits. -/
def chainLength (env : Env K) : Nat := if env.twoStep then 1 else 2

/-- The block `update` considers to lock. -/
def lockRef (env : Env K) (c : HotStuffCore K) (n : Uint256) : Option Uint256 :=
  if env.twoStep then (c.blk n).qcRef else (c.blk n).qcRef.bind (fun t => (c.blk t).qcRef)

/-- `t` reaches `b` by `k` links, each both first parent and certified block. -/
def Linked (c : HotStuffCore K) : Nat → Uint256 → Uint256 → Prop
  | 0, t, b => t = b
  | k + 1, t, b =>
      ∃ p, (c.blk t).qcRef = some p ∧ (c.blk t).parents.head? = some p ∧ Linked c k p b

/-- `update` has run on the block: its certificate and the lock it implies are no higher than
those held, unless the blocks in question are decided. -/
def Processed (env : Env K) (c : HotStuffCore K) (n : Uint256) : Prop :=
  ∀ t, (c.blk n).qcRef = some t → (c.blk t).decision = true ∨
    ((c.blk t).height ≤ (c.blk c.hqc.1).height ∧
      ∀ p, lockRef env c n = some p →
        (c.blk p).decision = true ∨ (c.blk p).height ≤ (c.blk c.bLock).height)

/-- `update` has got to the point where it commits `h`. -/
structure CommitReady (env : Env K) (c : HotStuffCore K) (h : Uint256) : Prop where
  undecided : (c.blk h).decision = false
  chain : ∃ n t p, (c.blk n).delivered = true ∧ (c.blk n).qcRef = some t ∧
    (c.blk t).decision = false ∧ Linked c (chainLength env) t h ∧ lockRef env c n = some p ∧
    (c.blk p).decision = false ∧ (c.blk p).parents.head? = some h ∧
    (c.blk p).height ≤ (c.blk c.bLock).height

/-- Delivery of the block succeeds. -/
def Deliverable (c : HotStuffCore K) (h : Uint256) : Prop :=
  (c.blk h).data.parentHashes ≠ [] ∧
    (∀ p ∈ (c.blk h).data.parentHashes, (c.blk p).delivered = true) ∧
    (c.storage (c.blk h).data.qc.objHash).isSome

/-- What the code has made sure of when an effect happens. -/
def Allowed (env : Env K) (c : HotStuffCore K) : Effect K → Prop
  | .store data => c.storage (env.getHash data) = none
  | .create data =>
      c.storage (env.getHash data) = none ∧ data.qc = c.hqc.2 ∧ data.parentHashes ≠ [] ∧
        (∀ p ∈ data.parentHashes, (c.blk p).delivered = true) ∧
        (c.storage data.qc.objHash).isSome
  | .deliver h =>
      (c.storage h).isSome ∧ (c.blk h).delivered = false ∧ Deliverable c h
  | .spoil h _ _ => (c.blk h).delivered = false
  | .eraseTails _ => True
  | .resetSelfQc h voted => (c.storage h).isSome ∧ (c.blk h).voted = voted
  | .raiseHqc h qc =>
      (c.blk c.hqc.1).height < (c.blk h).height ∧
        ((∃ n, (c.blk n).delivered = true ∧ (c.blk n).qcRef = some h ∧
            (c.blk n).data.qc = qc) ∨
          ((c.blk h).delivered = true ∧ (c.blk h).selfQc = some qc ∧
            (c.blk h).voted.card = c.config.nmajority))
  | .raiseLock h =>
      (c.blk c.bLock).height < (c.blk h).height ∧
        ∃ n t, (c.blk n).delivered = true ∧ (c.blk n).qcRef = some t ∧
          (c.blk t).height ≤ (c.blk c.hqc.1).height ∧ lockRef env c n = some h
  | .commit queue h =>
      CommitReady env c h ∧
        c.descend (c.blk c.bExec).height h = some (queue, c.bExec)
  | .accept h offLock =>
      (c.blk h).delivered = true ∧ c.vheight < (c.blk h).height ∧ Processed env c h ∧
        (offLock = false → c.checkAncestry c.bLock h = true) ∧
        (offLock = true → c.qcAboveLock h = true)
  | .acceptOwn h data offLock =>
      (c.blk h).delivered = true ∧ c.vheight < (c.blk h).height ∧ Processed env c h ∧
        env.getHash data = h ∧ (data.qc = c.hqc.2 ∨ (c.blk h).qcRef = some c.hqc.1) ∧
        (offLock = false → c.checkAncestry c.bLock h = true)
  | .sign h => .accept h ∈ c.trace
  | .count vote own qc =>
      (c.blk vote.blkHash).delivered = true ∧
        (c.blk vote.blkHash).voted.card < c.config.nmajority ∧
        vote.voter ∉ (c.blk vote.blkHash).voted ∧
        ((c.blk vote.blkHash).selfQc.getD (QuorumCert.create c.config vote.blkHash)).addPart
          vote.voter vote.cert = .ok qc ∧
        (own = true → vote = ⟨c.id, vote.blkHash, PartCert.create c.privKey vote.blkHash⟩ ∧
          .accept vote.blkHash ∈ c.trace)
  | .miscount vote =>
      (c.blk vote.blkHash).delivered = true ∧
        (c.blk vote.blkHash).voted.card < c.config.nmajority ∧
        vote.voter ∉ (c.blk vote.blkHash).voted ∧
        vote.cert.objHash ≠ ((c.blk vote.blkHash).selfQc.getD
          (QuorumCert.create c.config vote.blkHash)).objHash
  | .announce _ => True
  | .note h =>
      c.checkAncestry c.hqc.1 h = true ∧ (c.blk c.hqcTail).height < (c.blk h).height
  | .wait _ => True
  | .wake _ => True
  | .broadcast _ => True
  | .sendVote _ _ => True
  | .throw e =>
      e = .safetyBreached → ∃ h queue b, CommitReady env c h ∧
        c.descend (c.blk c.bExec).height h = some (queue, b) ∧ b ≠ c.bExec

/-- A block created by the replica itself, as it is once delivered. -/
def createBlk (env : Env K) (c : HotStuffCore K) (data : BlockData K) : HotStuffCore K :=
  let h := env.getHash data
  ((({ c with
      storage := Function.update c.storage h (some
        { data
          parents := data.parentHashes
          qcRef := some data.qc.objHash
          selfQc := some (QuorumCert.create c.config h)
          height := (data.parentHashes.head?.elim 0 (fun p => (c.blk p).height)) + 1
          delivered := true
          decision := false
          voted := ∅ }) }).emit (.created h)).eraseTails data.parentHashes).insertTail env h

/-- A stored block whose delivery succeeds. -/
def deliverBlk (env : Env K) (c : HotStuffCore K) (h : Uint256) : HotStuffCore K :=
  let parents := (c.blk h).data.parentHashes
  let height := (parents.head?.elim 0 (fun p => (c.blk p).height)) + 1
  ((c.modifyBlk h (fun b =>
      { b with parents, height, qcRef := some b.data.qc.objHash, delivered := true })).eraseTails
    parents).insertTail env h

/-- A vote that is counted; the last one needed completes the certificate. -/
def countVote (c : HotStuffCore K) (vote : Vote K) (qc : QuorumCert K) : HotStuffCore K :=
  let c' := c.modifyBlk vote.blkHash (fun b =>
    { b with voted := insert vote.voter b.voted, selfQc := some qc })
  if (c.blk vote.blkHash).voted.card + 1 = c.config.nmajority then
    c'.emit (.quorum vote.blkHash qc)
  else c'

def apply (env : Env K) (c : HotStuffCore K) : Effect K → HotStuffCore K
  | .store data => c.addBlk (env.getHash data) (.fetched data)
  | .create data => createBlk env c data
  | .deliver h => deliverBlk env c h
  | .spoil h parents height => c.modifyBlk h (fun b => { b with parents, height })
  | .eraseTails hs => c.eraseTails hs
  | .resetSelfQc h _ =>
      c.modifyBlk h (fun b => { b with selfQc := some (QuorumCert.create c.config h) })
  | .raiseHqc h qc => ({ c with hqc := (h, qc) }).onHqcUpdate
  | .raiseLock h => { c with bLock := h }
  | .commit queue h => { queue.reverse.foldl HotStuffCore.commitBlk c with bExec := h }
  | .accept h _ => c.accept h
  | .acceptOwn h _ _ => c.accept h
  | .sign h => c.emit (.partCert h)
  | .count vote _ qc => countVote c vote qc
  | .miscount vote =>
      c.modifyBlk vote.blkHash (fun b =>
        { b with
          voted := insert vote.voter b.voted
          selfQc := some (b.selfQc.getD (QuorumCert.create c.config vote.blkHash)) })
  | .announce h => c.announce h
  | .note h => { c with hqcTail := h }
  | .wait h => { c with qcWaiting := insert h c.qcWaiting }
  | .wake h => { c with qcWaiting := c.qcWaiting.erase h }
  | .broadcast h => c.broadcast h
  | .sendVote lastProposer vote => c.emit (.vote lastProposer vote)
  | .throw e => c.emit (.threw e)

def effects (env : Env K) : System (HotStuffCore K) (Effect K) where
  init _ := True
  step c e c' := Allowed env c e ∧ c' = apply env c e

/-- A run of effects all of which a predicate admits. -/
def Trail (env : Env K) (P : Effect K → Prop) : HotStuffCore K → HotStuffCore K → Prop :=
  Steps ((effects env).restrict (fun _ e => P e))

namespace Trail

variable {env : Env K} {P Q : Effect K → Prop} {c c' c'' : HotStuffCore K}

theorem refl : Trail env P c c := Relation.ReflTransGen.refl

theorem trans (h : Trail env P c c') (h' : Trail env P c' c'') : Trail env P c c'' :=
  Relation.ReflTransGen.trans h h'

theorem single {e : Effect K} (hP : P e) (he : Allowed env c e) : Trail env P c (apply env c e) :=
  Relation.ReflTransGen.single ⟨e, hP, he, rfl⟩

theorem mono (h : Trail env P c c') (hPQ : ∀ e, P e → Q e) : Trail env Q c c' :=
  Steps.mono h (fun _ e _ hs => ⟨hPQ e hs.1, hs.2⟩)

theorem invariant {I : HotStuffCore K → Prop} (h : Trail env P c c') (hc : I c)
    (hstep : ∀ c e, P e → I c → Allowed env c e → I (apply env c e)) : I c' :=
  Steps.invariant h hc (fun s e _ hs ⟨hP, he, heq⟩ => heq ▸ hstep s e hP hs he)

end Trail

end ArchipelagoHotStuff.Consensus.Effects
