/- Module: ArchipelagoHotStuff/Base/Delivery
   source: hotstuff.cpp (on_fetch_blk, on_deliver_blk, async_fetch_blk, async_deliver_blk and the
     handlers of messages), entity.cpp (Block::verify)
   digest: How blocks come to a replica and are delivered: the tables of promises, and the steps of
     the callbacks behind them. -/

import ArchipelagoHotStuff.Consensus.VoteCount

set_option autoImplicit false
set_option relaxedAutoImplicit false

namespace ArchipelagoHotStuff.Base.Delivery

open Crypto.Wire Crypto.Certificates Consensus Consensus.State Consensus.Effects Consensus.Tree
open Consensus.Trails Consensus.Machine Consensus.VoteCount General.Transition

variable {K : Secp256k1}

/-- `Block::verify` with a pool. -/
def verifyBlk (env : Env K) (config : ReplicaConfig K) (data : BlockData K) : Except Exn Bool :=
  if data.qc.objHash = env.genesisHash then .ok true else data.qc.verifyPooled config

/-- How far `async_deliver_blk` has come with a block: it waits for the data, the data is there, or
it waits for the pool (`valid` once it has answered), for the block the certificate names and for
the promises of the given parents.  A block that is not valid, and one with a parent whose promise
is rejected, stays where it is. -/
inductive Stage
  | fetching
  | fetched
  | waiting (valid : Option Bool) (qcFetched : Bool) (parents : List Uint256)
  | failed
  | rejected
  deriving DecidableEq

abbrev Deliveries := AList (fun _ : Uint256 => Stage)

def Deliveries.mapVals (f : Uint256 → Stage → Stage) (m : Deliveries) : Deliveries :=
  ⟨m.entries.map (.map id f), m.nodupKeys.map₂ f⟩

/-- What the promise of a fetch does to a delivery that waits for it. -/
def Stage.onFetch (h k qcHash : Uint256) : Stage → Stage
  | .fetching => if k = h then .fetched else .fetching
  | .waiting valid qcFetched parents => .waiting valid (qcFetched || decide (qcHash = h)) parents
  | .fetched => .fetched
  | .failed => .failed
  | .rejected => .rejected

/-- What the promise of a parent does when it is resolved. -/
def Stage.onResolve (h : Uint256) : Stage → Stage
  | .waiting valid qcFetched parents => .waiting valid qcFetched (parents.filter (· ≠ h))
  | .fetching => .fetching
  | .fetched => .fetched
  | .failed => .failed
  | .rejected => .rejected

/-- What the promise of a parent does when it is rejected. -/
def Stage.onReject (h : Uint256) : Stage → Stage
  | .waiting valid qcFetched parents =>
      if h ∈ parents then .rejected else .waiting valid qcFetched parents
  | .fetching => .fetching
  | .fetched => .fetched
  | .failed => .failed
  | .rejected => .rejected

/-- The callbacks of `propose_handler` and `vote_handler`. -/
inductive Callback (K : Secp256k1)
  | proposal (prop : Proposal)
  | vote (vote : Vote K)

namespace Callback

/-- The block whose delivery a callback waits for. -/
def blk : Callback K → Uint256
  | .proposal prop => prop.blk
  | .vote v => v.blkHash

/-- Whether a callback waits for the pool as well. -/
def isVote : Callback K → Bool
  | .proposal _ => false
  | .vote _ => true

end Callback

/-- The part of `HotStuffBase` that gets blocks.  `deliveries` holds the callbacks of
`async_deliver_blk`, `waiting` those of the messages that wait for a delivery and `resolved` those
that do no longer. -/
structure HotStuffBase (K : Secp256k1) where
  replica : Replica K
  blkFetchWaiting : Finset Uint256
  blkDeliveryWaiting : Finset Uint256
  deliveries : Deliveries
  waiting : List (Callback K)
  resolved : List (Callback K)

def isThrown : Event K → Bool
  | .threw _ => true
  | .created _ | .hqcUpdate _ | .accept _ | .partCert _ | .quorum _ _ | .consensus _ | .decide _
  | .propose _ | .broadcast _ | .vote _ _ => false

namespace HotStuffBase

variable (s : HotStuffBase K)

def start (env : Env K) (config : ReplicaConfig K) (id : ReplicaID) (key : K.PrivKey)
    (voteDisabled : Bool) : HotStuffBase K :=
  { replica := ⟨.start env config id key voteDisabled, []⟩
    blkFetchWaiting := ∅
    blkDeliveryWaiting := ∅
    deliveries := ∅
    waiting := []
    resolved := [] }

def blk (h : Uint256) : Block K := s.replica.core.blk h

def fetched (h : Uint256) : Bool := (s.replica.core.storage h).isSome

def delivered (h : Uint256) : Bool := (s.blk h).delivered

/-- An exception that leaves a handler ends the process. -/
def crashed : Bool := s.replica.core.trace.any isThrown

def asyncFetchBlk (h : Uint256) : HotStuffBase K :=
  if s.fetched h then s else { s with blkFetchWaiting := insert h s.blkFetchWaiting }

/-- `on_fetch_blk`, which resolves the promise of the fetch if there is one. -/
def onFetchBlk (h : Uint256) : HotStuffBase K :=
  if h ∈ s.blkFetchWaiting then
    { s with
      blkFetchWaiting := s.blkFetchWaiting.erase h
      deliveries := s.deliveries.mapVals (fun k d => d.onFetch h k (s.blk k).data.qc.objHash) }
  else s

/-- `async_deliver_blk` up to the fetch of the block. -/
def asyncDeliverBlk (h : Uint256) : HotStuffBase K :=
  if s.delivered h then s
  else if h ∈ s.blkDeliveryWaiting then s
  else
    { s.asyncFetchBlk h with
      blkDeliveryWaiting := insert h s.blkDeliveryWaiting
      deliveries := s.deliveries.insert h (if s.fetched h then .fetched else .fetching) }

/-- A message waits for the delivery of its block. -/
def await (callback : Callback K) : HotStuffBase K :=
  if s.delivered callback.blk then { s with resolved := s.resolved ++ [callback] }
  else { s.asyncDeliverBlk callback.blk with waiting := s.waiting ++ [callback] }

/-- The callback of the fetch: verification begins, and what the block refers to is asked for. -/
def beginDelivery (env : Env K) (h : Uint256) : HotStuffBase K :=
  let data := (s.blk h).data
  let s' := data.parentHashes.foldl asyncDeliverBlk (s.asyncFetchBlk data.qc.objHash)
  { s' with
    deliveries := s'.deliveries.insert h
      (.waiting (if data.qc.objHash = env.genesisHash then some true else none)
        (s.fetched data.qc.objHash) (data.parentHashes.filter (fun p => !s.delivered p))) }

/-- `on_deliver_blk` resolves the promise of the delivery. -/
def resolve (h : Uint256) : HotStuffBase K :=
  { s with
    blkDeliveryWaiting := s.blkDeliveryWaiting.erase h
    deliveries := Deliveries.mapVals (fun _ => Stage.onResolve h) (s.deliveries.erase h)
    waiting := s.waiting.filter (fun callback => callback.blk ≠ h)
    resolved := s.resolved ++ s.waiting.filter (fun callback => callback.blk = h) }

/-- `on_deliver_blk` rejects it. -/
def reject (h : Uint256) : HotStuffBase K :=
  { s with
    blkDeliveryWaiting := s.blkDeliveryWaiting.erase h
    deliveries := Deliveries.mapVals (fun _ => Stage.onReject h) (s.deliveries.erase h)
    waiting := s.waiting.filter (fun callback => callback.blk ≠ h) }

/-- All promises a delivery waits for are resolved; the result is that of the verification. -/
def ready (h : Uint256) : Option Bool :=
  match s.deliveries.lookup h with
  | some (.waiting valid true []) => valid
  | _ => none

/-- Between two handlers: no callback is left to run. -/
def quiet : Bool :=
  s.replica.stack.isEmpty &&
    s.deliveries.keys.all (fun h =>
      decide (s.deliveries.lookup h ≠ some .fetched) && (s.ready h).isNone) &&
    s.resolved.all Callback.isVote

end HotStuffBase

/-- What can happen to a replica: a message arrives, a callback of `async_deliver_blk` runs, the
pool has verified a block, the `n`th callback of a message runs, and what the core does on its
own. -/
inductive Input (K : Secp256k1)
  | msgPropose (proposer : ReplicaID) (data : BlockData K)
  | msgVote (vote : Vote K)
  | msgReqBlock (blkHashes : List Uint256)
  | msgRespBlock (blks : List (BlockData K))
  | onFetched (h : Uint256)
  | onVerified (h : Uint256)
  | onReady (h : Uint256)
  | handle (n : Nat)
  | propose (cmds parents : List Uint256) (extra : List UInt8)
  | wait (h : Uint256)
  | resume

namespace HotStuffBase

variable (s : HotStuffBase K)

def advance (env : Env K) (i : Consensus.Machine.Input K) : Option (HotStuffBase K) :=
  (s.replica.step env i).map (fun replica => { s with replica })

def addBlks (env : Env K) (blks : List (BlockData K)) : HotStuffBase K :=
  { s with
    replica := { s.replica with
      core := blks.foldl (fun c data => c.addBlk (env.getHash data) (.fetched data))
        s.replica.core } }

/-- The callback of `promise::all`, with the result of the verification: `on_deliver_blk`, which is
no success on a block that has been delivered already. -/
def onDeliverBlk (env : Env K) (h : Uint256) : Bool → Option (HotStuffBase K)
  | false => some { s with deliveries := s.deliveries.insert h .failed }
  | true =>
      (s.advance env (.deliver h)).map (fun s' =>
        if s.delivered h then s'.reject h else if s'.delivered h then s'.resolve h else s')

/-- The callback of a message; votes go through the pool first. -/
def handle (env : Env K) : Callback K → Option (HotStuffBase K)
  | .proposal prop => s.advance env (.receiveProposal prop)
  | .vote vote =>
      match vote.verify s.replica.core.config with
      | .error _ => none
      | .ok false => some s
      | .ok true => s.advance env (.receiveVote vote)

/-- One step of a replica that still runs.  Messages and results of the pool are handled once no
callback is left to run. -/
def next (env : Env K) : Input K → Option (HotStuffBase K)
  | .msgPropose proposer data =>
      if s.quiet then
        some ((s.addBlks env [data]).await (.proposal ⟨proposer, env.getHash data⟩))
      else none
  | .msgVote vote =>
      if s.quiet then
        match vote.verify s.replica.core.config with
        | .error _ => none
        | .ok _ => some (s.await (.vote vote))
      else none
  | .msgReqBlock blkHashes => if s.quiet then some (blkHashes.foldl asyncFetchBlk s) else none
  | .msgRespBlock blks =>
      if s.quiet then some ((blks.map env.getHash).foldl onFetchBlk (s.addBlks env blks)) else none
  | .onFetched h =>
      if s.deliveries.lookup h = some .fetched then
        match verifyBlk env s.replica.core.config (s.blk h).data with
        | .error _ => none
        | .ok _ => some (s.beginDelivery env h)
      else none
  | .onVerified h =>
      if s.quiet then
        match s.deliveries.lookup h,
            verifyBlk env s.replica.core.config (s.blk h).data with
        | some (.waiting none qcFetched parents), .ok valid =>
            some { s with
              deliveries := s.deliveries.insert h (.waiting (some valid) qcFetched parents) }
        | _, _ => none
      else none
  | .onReady h => (s.ready h).bind (s.onDeliverBlk env h)
  | .handle n =>
      s.resolved[n]?.bind
        (({ s with resolved := s.resolved.eraseIdx n } : HotStuffBase K).handle env)
  | .propose cmds parents extra => s.advance env (.propose cmds parents extra)
  | .wait h => s.advance env (.wait h)
  | .resume => s.advance env .resume

def step (env : Env K) (s : HotStuffBase K) (i : Input K) : Option (HotStuffBase K) :=
  if s.crashed then none else s.next env i

end HotStuffBase

def base (env : Env K) (keys : List K.PrivKey) (id : ReplicaID) (key : K.PrivKey)
    (voteDisabled : Bool) : System (HotStuffBase K) (Input K) where
  init s := s = .start env (HotStuffCore.startConfig (keys.map K.getPubkey)) id key voteDisabled
  step s i s' := s.step env i = some s'

/-! What a step can do. -/

/-- The replica has taken a step of its core. -/
def Advanced (env : Env K) (s : HotStuffBase K) (i : Consensus.Machine.Input K)
    (s' : HotStuffBase K) : Prop :=
  ∃ replica, s.replica.step env i = some replica ∧ s' = { s with replica }

/-- The end of `on_deliver_blk`, after the core has done its part in `s₁`. -/
def Ended (h : Uint256) (s s₁ s' : HotStuffBase K) : Prop :=
  (s.delivered h = true ∧ s' = s₁.reject h) ∨
    (s.delivered h = false ∧ s₁.delivered h = true ∧ s' = s₁.resolve h) ∨
    (s.delivered h = false ∧ s₁.delivered h = false ∧ s' = s₁)

/-- A callback of a message has run in `s`. -/
def Handled (env : Env K) (s : HotStuffBase K) (s' : HotStuffBase K) : Callback K → Prop
  | .proposal prop => Advanced env s (.receiveProposal prop) s'
  | .vote vote =>
      s' = s ∨
        vote.verify s.replica.core.config = .ok true ∧ Advanced env s (.receiveVote vote) s'

/-- The steps, by kind of input. -/
def Moved (env : Env K) (s : HotStuffBase K) (i : Input K) (s' : HotStuffBase K) : Prop :=
  match i with
  | .msgPropose proposer data =>
      s.replica.stack = [] ∧
        s' = (s.addBlks env [data]).await (.proposal ⟨proposer, env.getHash data⟩)
  | .msgVote vote => s' = s.await (.vote vote)
  | .msgReqBlock blkHashes => s' = blkHashes.foldl HotStuffBase.asyncFetchBlk s
  | .msgRespBlock blks =>
      s.replica.stack = [] ∧
        s' = (blks.map env.getHash).foldl HotStuffBase.onFetchBlk (s.addBlks env blks)
  | .onFetched h => s.deliveries.lookup h = some .fetched ∧ s' = s.beginDelivery env h
  | .onVerified h =>
      ∃ qcFetched parents valid, s.deliveries.lookup h = some (.waiting none qcFetched parents) ∧
        verifyBlk env s.replica.core.config (s.blk h).data = .ok valid ∧
        s' = { s with
          deliveries := s.deliveries.insert h (.waiting (some valid) qcFetched parents) }
  | .onReady h =>
      (s.deliveries.lookup h = some (.waiting (some false) true []) ∧
          s' = { s with deliveries := s.deliveries.insert h .failed }) ∨
        s.deliveries.lookup h = some (.waiting (some true) true []) ∧
          ∃ s₁, Advanced env s (.deliver h) s₁ ∧ Ended h s s₁ s'
  | .handle n =>
      ∃ callback, s.resolved[n]? = some callback ∧
        Handled env { s with resolved := s.resolved.eraseIdx n } s' callback
  | .propose cmds parents extra => Advanced env s (.propose cmds parents extra) s'
  | .wait h => Advanced env s (.wait h) s'
  | .resume => Advanced env s .resume s'

section inversion

variable {env : Env K} {s s' : HotStuffBase K} {h : Uint256} {i : Input K}

theorem advanced_of_advance {j : Consensus.Machine.Input K} (hs : s.advance env j = some s') :
    Advanced env s j s' := by
  obtain ⟨replica, hstep, rfl⟩ := Option.map_eq_some_iff.mp hs
  exact ⟨replica, hstep, rfl⟩

theorem stack_of_quiet (hq : s.quiet = true) : s.replica.stack = [] := by
  unfold HotStuffBase.quiet at hq
  rw [Bool.and_eq_true, Bool.and_eq_true] at hq
  exact List.isEmpty_iff.mp hq.1.1

theorem ready_eq_some {b : Bool} :
    s.ready h = some b ↔ s.deliveries.lookup h = some (.waiting (some b) true []) := by
  unfold HotStuffBase.ready
  split
  · rename_i valid heq
    rw [heq]
    simp
  · rename_i hne
    refine ⟨nofun, fun heq => absurd heq (hne (some b))⟩

theorem handled_of_handle {callback : Callback K} (hs : s.handle env callback = some s') :
    Handled env s s' callback := by
  cases callback with
  | proposal prop => exact advanced_of_advance hs
  | vote vote =>
      unfold HotStuffBase.handle at hs
      dsimp only at hs
      split at hs
      · cases hs
      · cases hs
        exact .inl rfl
      · rename_i hvalid
        exact .inr ⟨hvalid, advanced_of_advance hs⟩

private theorem moved_onReady (hs : (s.ready h).bind (s.onDeliverBlk env h) = some s') :
    Moved env s (.onReady h) s' := by
  obtain ⟨valid, hready, hs⟩ := Option.bind_eq_some_iff.mp hs
  have hlookup := ready_eq_some.mp hready
  cases valid with
  | false =>
      cases hs
      exact .inl ⟨hlookup, rfl⟩
  | true =>
      obtain ⟨s₁, hadv, rfl⟩ := Option.map_eq_some_iff.mp hs
      refine .inr ⟨hlookup, s₁, advanced_of_advance hadv, ?_⟩
      unfold Ended
      cases s.delivered h with
      | true => exact .inl ⟨rfl, rfl⟩
      | false =>
          cases hd : s₁.delivered h with
          | true => exact .inr (.inl ⟨rfl, rfl, by simp⟩)
          | false => exact .inr (.inr ⟨rfl, rfl, by simp⟩)

theorem moved_of_step (hs : s.step env i = some s') : Moved env s i s' := by
  unfold HotStuffBase.step at hs
  split at hs
  · cases hs
  cases i with
  | msgPropose proposer data =>
      simp only [HotStuffBase.next] at hs
      split at hs
      · rename_i hq
        cases hs
        exact ⟨stack_of_quiet hq, rfl⟩
      · cases hs
  | msgVote vote =>
      simp only [HotStuffBase.next] at hs
      split at hs
      · split at hs
        · cases hs
        · cases hs
          exact rfl
      · cases hs
  | msgReqBlock blkHashes =>
      simp only [HotStuffBase.next] at hs
      split at hs
      · cases hs
        exact rfl
      · cases hs
  | msgRespBlock blks =>
      simp only [HotStuffBase.next] at hs
      split at hs
      · rename_i hq
        cases hs
        exact ⟨stack_of_quiet hq, rfl⟩
      · cases hs
  | onFetched h =>
      simp only [HotStuffBase.next] at hs
      split at hs
      · rename_i hlookup
        split at hs
        · cases hs
        · cases hs
          exact ⟨hlookup, rfl⟩
      · cases hs
  | onVerified h =>
      simp only [HotStuffBase.next] at hs
      split at hs
      · split at hs
        · rename_i hlookup hvalid
          cases hs
          exact ⟨_, _, _, hlookup, hvalid, rfl⟩
        · cases hs
      · cases hs
  | onReady h => exact moved_onReady hs
  | handle n =>
      obtain ⟨callback, hget, hs⟩ := Option.bind_eq_some_iff.mp hs
      exact ⟨callback, hget, handled_of_handle hs⟩
  | propose cmds parents extra => exact advanced_of_advance hs
  | wait h => exact advanced_of_advance hs
  | resume => exact advanced_of_advance hs

end inversion

/-! Replica 0 of four, whose blocks are named by their first command. -/

def peerStart : HotStuffBase clearScheme := .start (clearEnv false) peerConfig 0 (0 : Nat) false

def firstBlock : BlockData clearScheme := ⟨[0], [1], QuorumCert.create peerConfig 0, []⟩

end ArchipelagoHotStuff.Base.Delivery
