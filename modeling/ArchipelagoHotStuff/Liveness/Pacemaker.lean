/- Module: ArchipelagoHotStuff/Liveness/Pacemaker
   source: liveness.h (PMWaitQC, PMRoundRobinProposer), hotstuff.cpp (start)
   digest: A replica with its pacemaker: the beats it has handed out, the callbacks that wait for
     certificates, the rotation of proposers, and what is still to be done of the running call. -/

import ArchipelagoHotStuff.Consensus.CommitLog
import ArchipelagoHotStuff.Consensus.VoteCount

set_option autoImplicit false
set_option relaxedAutoImplicit false

namespace ArchipelagoHotStuff.Liveness.Pacemaker

open Crypto.Wire Crypto.Certificates
open Consensus.State Consensus.Effects Consensus.Machine Consensus.CommitLog General.Transition

variable {K : Secp256k1}

/-- `PaceMakerDummyFixed` with its proposer, or `PaceMakerRR`. -/
inductive Kind
  | fixed (proposer : ReplicaID)
  | roundRobin
  deriving DecidableEq

/-- What runs when a block gets its certificate: a popped beat is resolved, or
`do_new_consensus` goes on after round `x`. -/
inductive Callback
  | beat (pm : Nat)
  | manual (x : Nat)
  deriving DecidableEq

/-- What the timer does when it expires: `on_exp_timeout` or `rotate`. -/
inductive Alarm
  | expTimeout
  | rotate
  deriving DecidableEq

/-- What is still to be done before the running call returns to the event loop. -/
inductive Task
  | consensus (h : Uint256)
  | wake (h : Uint256)
  | callback (cb : Callback)
  | attach (pm : Nat)
  | handle (pm : Nat)
  | lock
  | newConsensus (x : Nat) (cmds : List Uint256)
  | finishNew (x : Nat) (h : Uint256)
  | hooks (h : Uint256)
  | rehook
  | receiveHook (prop : Proposal)
  | resume
  | rearm
  deriving DecidableEq

/-- The state of a pacemaker.  A beat is named by the place of its batch in `batches`.  `waiting`
are the callbacks on the promises in `qc_waiting`, and `rejected` the blocks whose promise there
has been rejected; `pm_qc_finish` and `pm_qc_manual` hold the block whose promise they are as long
as it is there.  Of the registrations with `async_wait_proposal` it matters only whether there is
one. -/
structure PaceMaker where
  proposer : ReplicaID
  rotating : Bool
  propBlk : ReplicaID → Option Uint256
  timer : Option Alarm
  regProposal : Bool
  regReceiveProposal : Bool
  pendingBeats : List Nat
  lastProposed : Uint256
  locked : Bool
  pmQcFinish : Option Uint256
  pmWaitPropose : Bool
  pmQcManual : Option Uint256
  waiting : List (Uint256 × Callback)
  rejected : Finset Uint256
  batches : List (List Uint256)
  resolved : List Nat
  electedCalls : Nat
  agenda : List Task

/-- A replica with its pacemaker; it is halted once an exception has left the event loop. -/
structure Node (K : Secp256k1) where
  replica : Replica K
  pm : PaceMaker
  halted : Bool

/-- What can happen to a replica: a message is handled, a batch of commands is ready, the
application complains about the proposer, the timer expires, the call scheduled by `stop_rotate`
runs with the commands that wait for a decision, or the running call goes on. -/
inductive NodeInput (K : Secp256k1)
  | message (i : Input K)
  | beat (cmds : List Uint256)
  | impeach
  | expire
  | elected (cmds : List Uint256)
  | run

namespace PaceMaker

variable (p : PaceMaker)

/-! Promises for certificates. -/

/-- `reject` on a promise of `qc_waiting`: its callbacks are dropped. -/
def rejectQc : Option Uint256 → PaceMaker
  | none => p
  | some h =>
      { p with waiting := p.waiting.filter (fun w => w.1 ≠ h), rejected := insert h p.rejected }

/-- `then` on the promise of a block in `qc_waiting`. -/
def awaitQc (h : Uint256) (cb : Callback) : PaceMaker :=
  if h ∈ p.rejected then p else { p with waiting := p.waiting ++ [(h, cb)] }

/-- The promise of a block is resolved and leaves `qc_waiting`. -/
def settle (h : Uint256) : PaceMaker :=
  { p with
    waiting := p.waiting.filter (fun w => w.1 ≠ h)
    rejected := p.rejected.erase h
    pmQcFinish := if p.pmQcFinish = some h then none else p.pmQcFinish
    pmQcManual := if p.pmQcManual = some h then none else p.pmQcManual
    agenda := (p.waiting.filter (fun w => w.1 = h)).map (fun w => .callback w.2) ++ p.agenda }

def push (tasks : List Task) : PaceMaker := { p with agenda := tasks ++ p.agenda }

/-! The rotation of proposers. -/

def rotate (nreplicas : Nat) : PaceMaker :=
  let p := (p.rejectQc p.pmQcFinish).rejectQc p.pmQcManual
  { p with
    regProposal := true
    regReceiveProposal := true
    propBlk := fun _ => none
    rotating := true
    proposer := ReplicaID.ofIndex ((p.proposer.val + 1) % nreplicas)
    pmWaitPropose := false
    timer := some .expTimeout }

def stopRotate (id : ReplicaID) (genesisHash : Uint256) : PaceMaker :=
  let p := (p.rejectQc p.pmQcFinish).rejectQc p.pmQcManual
  { p with
    timer := none
    rotating := false
    locked := false
    lastProposed := genesisHash
    pmWaitPropose := true
    electedCalls := if p.proposer = id then p.electedCalls + 1 else p.electedCalls }

/-- `on_consensus` of `PMRoundRobinProposer`. -/
def onConsensus (id : ReplicaID) (genesisHash h : Uint256) : PaceMaker :=
  let p := { p with timer := none }
  if p.propBlk p.proposer = some h then p.stopRotate id genesisHash else p

/-- The callback of `reg_proposal` or `reg_receive_proposal`, if there is one. -/
def recordBlk (registered : Bool) (rid : ReplicaID) (h : Uint256) : PaceMaker :=
  if registered then
    { p with
      propBlk :=
        if (p.propBlk rid).isNone then Function.update p.propBlk rid (some h) else p.propBlk }
  else p

/-- The pacemaker before `init`, but for the genesis block. -/
def fresh (genesisHash : Uint256) : PaceMaker :=
  { proposer := 0
    rotating := false
    propBlk := fun _ => none
    timer := none
    regProposal := false
    regReceiveProposal := false
    pendingBeats := []
    lastProposed := genesisHash
    locked := false
    pmQcFinish := none
    pmWaitPropose := false
    pmQcManual := none
    waiting := []
    rejected := ∅
    batches := []
    resolved := []
    electedCalls := 0
    agenda := [] }

/-- `init` of `PMWaitQC` and of `PMRoundRobinProposer`. -/
def start (kind : Kind) (id : ReplicaID) (genesisHash : Uint256) : PaceMaker :=
  match kind with
  | .fixed _ => { fresh genesisHash with pmWaitPropose := true }
  | .roundRobin => (fresh genesisHash).stopRotate id genesisHash

end PaceMaker

/-! Calls of the core. -/

def newEvents (r r' : Replica K) : List (Event K) :=
  r'.core.trace.take (r'.core.trace.length - r.core.trace.length)

def failed (r r' : Replica K) : Bool :=
  match (newEvents r r').head? with
  | some (.threw _) => true
  | _ => false

/-- The blocks passed to `do_consensus` in a step, in order. -/
def committed (r r' : Replica K) : List Uint256 :=
  ((newEvents r r').filterMap committedBy).reverse

/-- What a call of the core leads to: callbacks of the pacemaker, and the rest of the call if it
is held up by one. -/
def follows (r r' : Replica K) : Input K → List Task
  | .propose _ _ _ =>
      match r'.stack with
      | .proposed h :: _ => [.wake h, .resume]
      | .announced h :: _ => [.hooks h, .resume]
      | _ => []
  | .resume =>
      match r.stack with
      | .proposed h :: _ => [.hooks h, .resume]
      | .received prop _ :: _ => [.receiveHook prop]
      | _ => []
  | .receiveProposal prop =>
      match r'.stack, (r'.core.blk prop.blk).qcRef with
      | .received _ _ :: _, some q => [.wake q, .resume]
      | _, _ => [.receiveHook prop]
  | .receiveVote vote =>
      if vote.blkHash ∈ r.core.qcWaiting ∧ vote.blkHash ∉ r'.core.qcWaiting then
        [.wake vote.blkHash]
      else []
  | .fetch _ | .deliver _ | .wait _ => []

namespace Node

variable (env : Env K) (kind : Kind) (n : Node K)

def core : HotStuffCore K := n.replica.core

def getProposer : ReplicaID :=
  match kind with
  | .fixed proposer => proposer
  | .roundRobin => n.pm.proposer

/-- A call of the core, followed by `after`. -/
def call (i : Input K) (after : List Task) : Option (Node K) :=
  match n.replica.step env i with
  | none => none
  | some r =>
      if failed n.replica r then some { n with replica := r, halted := true }
      else
        some { n with
          replica := r
          pm := n.pm.push ((committed n.replica r).map .consensus ++ follows n.replica r i ++
            after) }

/-- `on_propose(cmds, get_parents())`; what comes after it is told the new block. -/
def propose (cmds : List Uint256) (after : Uint256 → List Task) : Option (Node K) :=
  n.call env (.propose cmds n.core.getParents [])
    (after (env.getHash (n.core.newData cmds n.core.getParents [])))

def certified (h : Uint256) : Bool :=
  decide (n.core.config.nmajority ≤ (n.core.blk h).voted.card)

/-- `async_qc_finish(h).then(..)`; the callback runs at once if the votes suffice. -/
def whenCertified (h : Uint256) (cb : Callback) : Node K :=
  if n.certified h then { n with pm := n.pm.push [.callback cb] }
  else
    { n with
      replica := ⟨n.core.asyncQcFinish h, n.replica.stack⟩
      pm := n.pm.awaitQc h cb }

/-- What `pm_qc_finish` or `pm_qc_manual` holds after `async_qc_finish(h)`: a promise that is
resolved already is of no further use. -/
def qcHandle (h : Uint256) : Option Uint256 := if n.certified h then none else some h

/-- `schedule_next` of `PMWaitQC`, `proposer_schedule_next` of `PMRoundRobinProposer`: the next
beat waits for the certificate of the last proposed block. -/
def scheduleNext : Node K :=
  match n.pm.pendingBeats with
  | [] => n
  | pm :: beats =>
      if n.pm.locked then n
      else
        let p := n.pm.rejectQc n.pm.pmQcFinish
        let p := { p with
          pendingBeats := beats
          pmQcFinish := n.qcHandle n.pm.lastProposed
          agenda := .lock :: n.pm.agenda }
        ({ n with pm := p } : Node K).whenCertified n.pm.lastProposed (.beat pm)

/-- The callbacks of `on_propose_` that follow the one that sets `hqc_tail`. -/
def runHooks (h : Uint256) : Node K :=
  let p := n.pm.recordBlk n.pm.regProposal n.core.id h
  let p := { p with regProposal := n.pm.regProposal && n.pm.rotating }
  if n.pm.pmWaitPropose then
    scheduleNext { n with
      pm := { p with
        pmWaitPropose := false
        lastProposed := h
        locked := false
        agenda := .rehook :: n.pm.agenda } }
  else { n with pm := p }

def perform : Task → Option (Node K)
  | .consensus h =>
      match kind with
      | .fixed _ => some n
      | .roundRobin => some { n with pm := n.pm.onConsensus n.core.id env.genesisHash h }
  | .wake h => some { n with pm := n.pm.settle h }
  | .callback (.beat pm) =>
      let p := { n.pm with resolved := pm :: n.pm.resolved }
      if .attach pm ∈ n.pm.agenda then some { n with pm := p }
      else some { n with pm := p.push [.handle pm] }
  | .callback (.manual x) =>
      if (if env.twoStep then 2 else 3) ≤ x then some n
      else some { n with pm := n.pm.push [.newConsensus (x + 1) []] }
  | .attach pm =>
      if pm ∈ n.pm.resolved then some { n with pm := n.pm.push [.handle pm] } else some n
  | .handle pm =>
      if n.getProposer kind = n.core.id then
        n.propose env ((n.pm.batches[pm]?).getD []) (fun _ => [])
      else some n
  | .lock => some { n with pm := { n.pm with locked := true } }
  | .newConsensus x cmds => n.propose env cmds (fun h => [.finishNew x h])
  | .finishNew x h =>
      let p := n.pm.rejectQc n.pm.pmQcManual
      some (({ n with pm := { p with pmQcManual := n.qcHandle h } } : Node K).whenCertified h
        (.manual x))
  | .hooks h => some (n.runHooks h)
  | .rehook => some { n with pm := { n.pm with pmWaitPropose := true } }
  | .receiveHook prop =>
      let p := n.pm.recordBlk n.pm.regReceiveProposal prop.proposer prop.blk
      some { n with
        pm := { p with regReceiveProposal := n.pm.regReceiveProposal && n.pm.rotating } }
  | .resume => n.call env .resume []
  | .rearm => some { n with pm := { n.pm with timer := some .rotate } }

/-- The pacemaker's `beat()` and the handler attached to the promise it returns.  While the
proposers rotate, the promise is resolved from the start. -/
def beat (cmds : List Uint256) : Node K :=
  let pm := n.pm.batches.length
  let p := { n.pm with batches := n.pm.batches ++ [cmds] }
  if kind = .roundRobin ∧ n.pm.rotating then
    { n with pm := { p with resolved := pm :: p.resolved, agenda := [.handle pm] } }
  else
    scheduleNext { n with
      pm := { p with pendingBeats := p.pendingBeats ++ [pm], agenda := [.attach pm] } }

def idle : Bool := n.pm.agenda.isEmpty && !n.halted

/-- Messages that are handled by the core. -/
def isMessage : Input K → Bool
  | .fetch _ | .deliver _ | .receiveProposal _ | .receiveVote _ => true
  | .propose _ _ _ | .wait _ | .resume => false

def step : NodeInput K → Option (Node K)
  | .message i => if n.idle && isMessage i then n.call env i [] else none
  | .beat cmds =>
      if n.idle then
        if n.getProposer kind = n.core.id then some (n.beat kind cmds) else some n
      else none
  | .impeach =>
      if n.idle then
        if kind = .roundRobin ∧ n.pm.rotating = false then
          some { n with pm := n.pm.rotate n.core.config.nreplicas }
        else some n
      else none
  | .expire =>
      if n.idle then
        match n.pm.timer with
        | none => none
        | some .rotate => some { n with pm := n.pm.rotate n.core.config.nreplicas }
        | some .expTimeout =>
            some { n with
              pm := { n.pm with
                timer := none
                agenda := if n.pm.proposer = n.core.id then [.newConsensus 0 [], .rearm]
                  else [.rearm] } }
      else none
  | .elected cmds =>
      if n.idle && decide (0 < n.pm.electedCalls) then
        some { n with
          pm := { n.pm with
            electedCalls := n.pm.electedCalls - 1
            agenda := if cmds.isEmpty then [] else [.newConsensus 0 cmds] } }
      else none
  | .run =>
      if n.halted then none
      else
        match n.pm.agenda with
        | [] => none
        | task :: agenda =>
            ({ n with pm := { n.pm with agenda } } : Node K).perform env kind task

/-- A replica at start-up. -/
def start (config : ReplicaConfig K) (id : ReplicaID) (key : K.PrivKey) (voteDisabled : Bool) :
    Node K :=
  { replica := ⟨.start env config id key voteDisabled, []⟩
    pm := .start kind id env.genesisHash
    halted := false }

end Node

def node (env : Env K) (kind : Kind) (config : ReplicaConfig K) (id : ReplicaID)
    (key : K.PrivKey) (voteDisabled : Bool) : System (Node K) (NodeInput K) where
  init n := n = Node.start env kind config id key voteDisabled
  step n i n' := n.step env kind i = some n'

/-! What the operations on promises leave alone. -/

namespace PaceMaker

variable (p : PaceMaker)

/-- The pacemaker apart from the promises for certificates. -/
def steady : PaceMaker := { p with waiting := [], rejected := ∅ }

@[simp] theorem steady_rejectQc (h : Option Uint256) : (p.rejectQc h).steady = p.steady := by
  cases h <;> rfl

@[simp] theorem steady_awaitQc (h : Uint256) (cb : Callback) :
    (p.awaitQc h cb).steady = p.steady := by
  unfold awaitQc
  split <;> rfl

variable {p}

theorem field_eq {γ : Type} {p' : PaceMaker} (h : p'.steady = p.steady) (f : PaceMaker → γ)
    (hf : ∀ q : PaceMaker, f q.steady = f q) : f p' = f p := by
  rw [← hf p', h, hf]

end PaceMaker

section calls

variable {env : Env K} {n n' : Node K} {i : Input K} {after : List Task}

theorem Node.call_eq_some (h : n.call env i after = some n') :
    ∃ r, n.replica.step env i = some r ∧
      ((failed n.replica r = true ∧ n' = { n with replica := r, halted := true }) ∨
        (failed n.replica r = false ∧
          n' = { n with
            replica := r
            pm := n.pm.push ((committed n.replica r).map .consensus ++ follows n.replica r i ++
              after) })) := by
  unfold Node.call at h
  split at h
  · cases h
  · rename_i r hstep
    refine ⟨r, hstep, ?_⟩
    split at h
    · rename_i hfailed
      exact .inl ⟨hfailed, (Option.some.inj h).symm⟩
    · rename_i hfailed
      exact .inr ⟨by simpa using hfailed, (Option.some.inj h).symm⟩

theorem Node.agenda_nil_of_idle (h : n.idle = true) : n.pm.agenda = [] :=
  List.isEmpty_iff.mp (Bool.and_eq_true_iff.mp h).1

theorem Node.step_run {kind : Kind} {task : Task} {agenda : List Task} (hhalted : n.halted = false)
    (hagenda : n.pm.agenda = task :: agenda) :
    n.step env kind .run =
      ({ n with pm := { n.pm with agenda } } : Node K).perform env kind task := by
  simp only [Node.step, hhalted, hagenda, Bool.false_eq_true, if_false]

end calls

/-! One replica of four, whose blocks are named by their first command, or else after their
parent. -/

open Consensus.VoteCount

def namedEnv : Env clearScheme :=
  { clearEnv false with
    getHash := fun data => data.cmds.headD (data.parentHashes.headD 0 + 16) }

/-- The certificate of replicas 0, 1 and 2. -/
def qcOf (h : Uint256) : QuorumCert clearScheme :=
  [0, 1, 2].foldl (fun qc i => (qc.addPart (voteOf i).voter (PartCert.create i h)).toOption.getD qc)
    (QuorumCert.create peerConfig h)

/-- A proposal of another replica arrives with its block, which has the first one as its parent and
carries a certificate of the second. -/
def proposalOf (proposer : ReplicaID) (h parent certified : Uint256) :
    List (NodeInput clearScheme) :=
  [.message (.fetch ⟨[parent], [h], qcOf certified, []⟩), .message (.deliver h),
    .message (.receiveProposal ⟨proposer, h⟩)]

/-- Replica `i` of four at start-up. -/
def roundRobinStart (i : Nat) : Node clearScheme :=
  Node.start namedEnv .roundRobin peerConfig (ReplicaID.ofIndex i) (i : Nat) false

def roundRobinNode (i : Nat) : System (Node clearScheme) (NodeInput clearScheme) :=
  node namedEnv .roundRobin peerConfig (ReplicaID.ofIndex i) (i : Nat) false

theorem roundRobin_reachable {i : Nat} {inputs : List (NodeInput clearScheme)}
    {n : Node clearScheme}
    (h : execute (Node.step namedEnv .roundRobin) inputs (roundRobinStart i) = some n) :
    Reachable (roundRobinNode i) n :=
  Reachable.trans (.init rfl) (steps_of_execute (fun _ _ _ hstep => hstep) h)

end ArchipelagoHotStuff.Liveness.Pacemaker
