/- Module: ArchipelagoHotStuff/Consensus/Handlers
   source: consensus.cpp, liveness.h (PMHighTail)
   digest: The functions of the protocol core.  A function that throws returns the exception
     together with the state it leaves behind.

   Two functions call back into code that may propose in the middle of their run.  Such a
   function is cut in two at the callback: the first part ends with whether a waiter was woken,
   the rest is a function of its own. -/

import ArchipelagoHotStuff.Consensus.State

set_option autoImplicit false
set_option relaxedAutoImplicit false

namespace ArchipelagoHotStuff.Consensus.Handlers

open Crypto.Wire Crypto.Certificates State

variable {K : Secp256k1}

/-- A state, or an exception and the state in which it was thrown. -/
abbrev Result (K : Secp256k1) := Except (Exn × HotStuffCore K) (HotStuffCore K)

/-- As `Result`, for functions that also return a Boolean. -/
abbrev BoolResult (K : Secp256k1) := Except (Exn × HotStuffCore K) (Bool × HotStuffCore K)

end ArchipelagoHotStuff.Consensus.Handlers

namespace ArchipelagoHotStuff.Consensus.State.HotStuffCore

open Crypto.Wire Crypto.Certificates State Handlers

variable {K : Secp256k1} (c : HotStuffCore K)

/-! Start-up. -/

/-- The `add_replica` loop of `start`, from index `i` on. -/
def addReplicas (config : ReplicaConfig K) : Nat → List K.PubKey → ReplicaConfig K
  | _, [] => config
  | i, pubkey :: pubkeys =>
      addReplicas (config.addReplica (ReplicaID.ofIndex i) pubkey) (i + 1) pubkeys

/-- The configuration after `start` and `on_init`: a third of the other replicas may fail. -/
def startConfig (pubkeys : List K.PubKey) : ReplicaConfig K :=
  let config := addReplicas ReplicaConfig.empty 0 pubkeys
  let nfaulty := (pubkeys.length - 1) / 3
  { config with nmajority := config.nreplicas - nfaulty }

/-- The genesis block once `on_init` has given it its certificates. -/
def genesis (env : Env K) (config : ReplicaConfig K) : Block K :=
  { data :=
      { parentHashes := [], cmds := [], qc := QuorumCert.create config env.genesisHash,
        extra := [] }
    parents := []
    qcRef := some env.genesisHash
    selfQc := some (QuorumCert.create config env.genesisHash)
    height := 0
    delivered := true
    decision := true
    voted := config.replicaMap.keys.toFinset }

/-- The core after construction, `add_replica` for each replica, `on_init` and the `init` of the
pacemaker. -/
def start (env : Env K) (config : ReplicaConfig K) (id : ReplicaID) (privKey : K.PrivKey)
    (voteDisabled : Bool) : HotStuffCore K :=
  { hqc := (env.genesisHash, QuorumCert.create config env.genesisHash)
    bLock := env.genesisHash
    bExec := env.genesisHash
    vheight := 0
    privKey
    tails := [env.genesisHash]
    config
    qcWaiting := ∅
    voteDisabled
    id
    storage := Function.update (fun _ => none) env.genesisHash (some (genesis env config))
    hqcTail := env.genesisHash
    trace := [] }

/-! Delivery. -/

/-- `on_deliver_blk`.  Parents are collected up to the first that is not delivered. -/
def onDeliverBlk (env : Env K) (h : Uint256) : BoolResult K :=
  if (c.blk h).delivered then .ok (false, c)
  else
    let hashes := (c.blk h).data.parentHashes
    let parents := hashes.takeWhile (fun p => (c.blk p).delivered)
    if parents.length < hashes.length then
      .error (.blockNotDelivered, c.modifyBlk h (fun b => { b with parents }))
    else
      match parents with
      | [] => .error (.undefinedBehaviour, c.modifyBlk h (fun b => { b with parents }))
      | p :: _ =>
          let height := (c.blk p).height + 1
          if (c.storage (c.blk h).data.qc.objHash).isSome then
            let c' := c.modifyBlk h (fun b =>
              { b with parents, height, qcRef := some b.data.qc.objHash, delivered := true })
            .ok (true, (c'.eraseTails parents).insertTail env h)
          else
            .error (.qcNotFetched, c.modifyBlk h (fun b => { b with parents, height }))

/-! Certificates. -/

def checkAncestry (a b : Uint256) : Bool :=
  (c.descend (c.blk a).height b).any (fun r => r.2 == a)

/-- `on_hqc_update`, whose one callback selects the highest tail above the new `hqc`. -/
def onHqcUpdate : HotStuffCore K :=
  { c.emit (.hqcUpdate c.hqc.1) with
    hqcTail := c.tails.foldl
      (fun best t =>
        if c.checkAncestry c.hqc.1 t && decide ((c.blk best).height < (c.blk t).height) then t
        else best)
      c.hqc.1 }

def updateHqc (b : Uint256) (qc : QuorumCert K) : HotStuffCore K :=
  if (c.blk c.hqc.1).height < (c.blk b).height then ({ c with hqc := (b, qc) }).onHqcUpdate
  else c

/-- `async_qc_finish`: waiting is of use only while the votes do not suffice. -/
def asyncQcFinish (h : Uint256) : HotStuffCore K :=
  if c.config.nmajority ≤ (c.blk h).voted.card then c
  else { c with qcWaiting := insert h c.qcWaiting }

/-- `on_qc_finish`, and whether somebody was waiting.  `qcWaiting` are the blocks with a pending
promise; the entry of a resolved one goes after its callbacks, which only an `async_qc_finish`
called by these can tell (`Waiting.Waits`). -/
def onQcFinish (h : Uint256) : Bool × HotStuffCore K :=
  if h ∈ c.qcWaiting then (true, { c with qcWaiting := c.qcWaiting.erase h }) else (false, c)

/-! Locking and committing. -/

def raiseLock (b : Uint256) : HotStuffCore K :=
  if (c.blk c.bLock).height < (c.blk b).height then { c with bLock := b } else c

/-- The `do_decide` calls for the commands of a block. -/
def finalities (h : Uint256) : List (Event K) :=
  (c.blk h).data.cmds.mapIdx (fun i cmd =>
    .decide { rid := c.id, decision := 1, cmdIdx := i, cmdHeight := (c.blk h).height,
              cmdHash := cmd, blkHash := h })

def commitBlk (h : Uint256) : HotStuffCore K :=
  let c' := c.modifyBlk h (fun b => { b with decision := true })
  { c' with trace := (c.finalities h).reverse ++ .consensus h :: c.trace }

/-- The end of `update`: collect the blocks between `b_exec` and `blk` and commit them in order
of height. -/
def commit (blk : Uint256) : Result K :=
  match c.descend (c.blk c.bExec).height blk with
  | none => .error (.undefinedBehaviour, c)
  | some (queue, b) =>
      if b = c.bExec then .ok { queue.reverse.foldl commitBlk c with bExec := blk }
      else .error (.safetyBreached, c)

/-- `update` in the three-step build. -/
def updateThreeStep (nblk : Uint256) : Result K :=
  match (c.blk nblk).qcRef with
  | none => .ok c
  | some blk2 =>
    if (c.blk blk2).decision then .ok c
    else
      let c := c.updateHqc blk2 (c.blk nblk).data.qc
      match (c.blk blk2).qcRef with
      | none => .ok c
      | some blk1 =>
        if (c.blk blk1).decision then .ok c
        else
          let c := c.raiseLock blk1
          match (c.blk blk1).qcRef with
          | none => .ok c
          | some blk =>
            if (c.blk blk).decision then .ok c
            else if (c.blk blk2).parents.head? ≠ some blk1 ∨
                (c.blk blk1).parents.head? ≠ some blk then .ok c
            else c.commit blk

/-- `update` in the two-step build. -/
def updateTwoStep (nblk : Uint256) : Result K :=
  match (c.blk nblk).qcRef with
  | none => .ok c
  | some blk1 =>
    if (c.blk blk1).decision then .ok c
    else
      let c := c.updateHqc blk1 (c.blk nblk).data.qc
      let c := c.raiseLock blk1
      match (c.blk blk1).qcRef with
      | none => .ok c
      | some blk =>
        if (c.blk blk).decision then .ok c
        else if (c.blk blk1).parents.head? ≠ some blk then .ok c
        else c.commit blk

def update (env : Env K) (nblk : Uint256) : Result K :=
  if env.twoStep then c.updateTwoStep nblk else c.updateThreeStep nblk

/-! Votes. -/

/-- `on_receive_vote`, up to the callback of `on_qc_finish` at its end. -/
def onReceiveVote (vote : Vote K) : BoolResult K :=
  if (c.blk vote.blkHash).delivered then
    let qsize := (c.blk vote.blkHash).voted.card
    if c.config.nmajority ≤ qsize then .ok (false, c)
    else if vote.voter ∈ (c.blk vote.blkHash).voted then .ok (false, c)
    else
      let selfQc := (c.blk vote.blkHash).selfQc.getD (QuorumCert.create c.config vote.blkHash)
      let c' := c.modifyBlk vote.blkHash (fun b =>
        { b with voted := insert vote.voter b.voted, selfQc := some selfQc })
      match selfQc.addPart vote.voter vote.cert with
      | .error e => .error (e, c')
      | .ok qc =>
          let c' := c'.modifyBlk vote.blkHash (fun b => { b with selfQc := some qc })
          if qsize + 1 = c.config.nmajority then
            .ok (((c'.emit (.quorum vote.blkHash qc)).updateHqc vote.blkHash qc).onQcFinish
              vote.blkHash)
          else .ok (false, c')
  else .error (.blockNotDelivered, c)

/-! Proposals. -/

/-- Setting `vheight` for a block. -/
def accept (h : Uint256) : HotStuffCore K :=
  { c.emit (.accept h) with vheight := (c.blk h).height }

/-- The serialised fields of the block `on_propose` builds. -/
def newData (cmds parents : List Uint256) (extra : List UInt8) : BlockData K :=
  { parentHashes := parents, cmds, qc := c.hqc.2, extra }

/-- `add_blk` on the block `on_propose` builds. -/
def addNew (h : Uint256) (data : BlockData K) : HotStuffCore K :=
  if (c.storage h).isSome then c
  else
    (c.addBlk h
      { data
        parents := data.parentHashes
        qcRef := some c.hqc.1
        selfQc := none
        height := (data.parentHashes.head?.elim 0 (fun p => (c.blk p).height)) + 1
        delivered := false
        decision := false
        voted := ∅ }).emit (.created h)

/-- The part of `on_propose` that precedes the vote for the new block. -/
def build (env : Env K) (data : BlockData K) : Result K := do
  let c := c.eraseTails data.parentHashes
  let h := env.getHash data
  let c := c.addNew h data
  let c := c.modifyBlk h (fun b => { b with selfQc := some (QuorumCert.create c.config h) })
  let (_, c) ← c.onDeliverBlk env h
  c.update env h

/-- `on_propose` up to the end of `on_receive_vote` on the replica's own vote. -/
def onPropose (env : Env K) (cmds parents : List Uint256) (extra : List UInt8) : BoolResult K :=
  if parents.isEmpty then .error (.emptyParents, c)
  else do
    let data := c.newData cmds parents extra
    let h := env.getHash data
    let c ← c.build env data
    if (c.blk h).height ≤ c.vheight then .error (.notHigherThanVheight, c)
    else
      ((c.accept h).emit (.partCert h)).onReceiveVote ⟨c.id, h, PartCert.create c.privKey h⟩

/-- The part of `on_propose_` that precedes the callbacks which may propose. -/
def announce (h : Uint256) : HotStuffCore K := { c.emit (.propose h) with hqcTail := h }

/-- The end of `on_propose`. -/
def broadcast (h : Uint256) : HotStuffCore K := c.emit (.broadcast ⟨c.id, h⟩)

/-- The liveness condition: the certified block is higher than the locked one. -/
def qcAboveLock (h : Uint256) : Bool :=
  (c.blk h).qcRef.any (fun q => decide ((c.blk c.bLock).height < (c.blk q).height))

/-- The vote decision of `on_receive_proposal`. -/
def decideVote (h : Uint256) : BoolResult K :=
  if (c.blk h).height ≤ c.vheight then .ok (false, c)
  else if c.qcAboveLock h then .ok (true, c.accept h)
  else
    match c.descend (c.blk c.bLock).height h with
    | none => .error (.undefinedBehaviour, c)
    | some (_, b) => if b = c.bLock then .ok (true, c.accept h) else .ok (false, c)

/-- `on_receive_proposal` up to the callbacks of `on_qc_finish`; the opinion and whether a waiter
was woken. -/
def onReceiveProposal (env : Env K) (prop : Proposal) :
    Except (Exn × HotStuffCore K) (Bool × Bool × HotStuffCore K) :=
  if (c.blk prop.blk).delivered then do
    let c ← c.update env prop.blk
    let (opinion, c) ← c.decideVote prop.blk
    match (c.blk prop.blk).qcRef with
    | none => return (opinion, false, c)
    | some q => return (opinion, c.onQcFinish q)
  else .error (.blockNotDelivered, c)

/-- `on_receive_proposal_`, whose callback moves `hqc_tail` up. -/
def noteProposal (h : Uint256) : HotStuffCore K :=
  if c.checkAncestry c.hqc.1 h && decide ((c.blk c.hqcTail).height < (c.blk h).height) then
    { c with hqcTail := h }
  else c

def getParents : List Uint256 := [c.hqcTail]

/-- The end of `on_receive_proposal`. -/
def castVote (prop : Proposal) (opinion : Bool) : HotStuffCore K :=
  if opinion && !c.voteDisabled then
    (c.emit (.partCert prop.blk)).emit
      (.vote prop.proposer ⟨c.id, prop.blk, PartCert.create c.privKey prop.blk⟩)
  else c

end ArchipelagoHotStuff.Consensus.State.HotStuffCore
