/- Module: ArchipelagoHotStuff/Consensus/Waiting
   source: consensus.cpp (async_qc_finish, on_qc_finish, on_receive_vote, on_receive_proposal)
   digest: The promises of `async_qc_finish`, the moments at which a certificate is learned, and
     which promises are resolved by then. -/

import ArchipelagoHotStuff.Consensus.VoteCount

set_option autoImplicit false
set_option relaxedAutoImplicit false

namespace ArchipelagoHotStuff.Consensus.Waiting

open Crypto.Wire Crypto.Certificates State Handlers Effects Consensus.Tree Trails Machine
open General.Transition Replica VoteCount

variable {K : Secp256k1}

/-- A call of `async_qc_finish` and its promise: whether the votes sufficed at the call, whether it
found a resolved promise in `qc_waiting`, whether a certificate had been learned before it, whether
one has been learned since, and whether the promise is resolved. -/
structure Call where
  blk : Uint256
  enough : Bool
  found : Bool
  before : Bool
  after : Bool
  resolved : Bool
  deriving DecidableEq

/-- A replica with all calls of `async_qc_finish` and the blocks certificates were learned for.
The core's `qcWaiting` are the entries of `qc_waiting` with a pending promise, `kept` those whose
promise is resolved: `on_qc_finish` erases an entry after the callbacks of its promise. -/
structure Waits (K : Secp256k1) where
  replica : Replica K
  calls : List Call
  learned : Uint256 → Bool
  kept : Uint256 → Bool

def isQuorum (h : Uint256) : Event K → Bool
  | .quorum k _ => k == h
  | .created _ | .hqcUpdate _ | .accept _ | .partCert _ | .consensus _ | .decide _ | .propose _
  | .broadcast _ | .vote _ _ | .threw _ => false

/-- How often the last vote that a certificate for the block needs was counted. -/
def quorums (h : Uint256) (trace : List (Event K)) : Nat := trace.countP (isQuorum h)

def certified (env : Env K) (r : Replica K) : Input K → Option Uint256
  | .receiveProposal prop =>
      match r.core.onReceiveProposal env prop with
      | .ok _ => (r.core.blk prop.blk).qcRef
      | .error _ => none
  | .fetch _ | .deliver _ | .propose _ _ _ | .receiveVote _ | .wait _ | .resume => none

/-- In a step the replica learns a certificate: it counts the last vote needed or handles a
proposal with the certificate. -/
def learns (env : Env K) (r : Replica K) (i : Input K) (r' : Replica K) (h : Uint256) : Bool :=
  decide (quorums h r.core.trace < quorums h r'.core.trace) || certified env r i == some h

/-- The promise that is in `qc_waiting` is resolved when its block is taken out of there. -/
def Call.follow (env : Env K) (r : Replica K) (i : Input K) (r' : Replica K) (call : Call) :
    Call :=
  { call with
    after := call.after || learns env r i r' call.blk
    resolved := call.resolved ||
      decide (call.blk ∈ r.core.qcWaiting ∧ call.blk ∉ r'.core.qcWaiting) }

/-- The block for which `on_qc_finish` runs the callbacks that hold up a call. -/
def waking (c : HotStuffCore K) : Frame → Option Uint256
  | .proposed h => some h
  | .announced _ => none
  | .received prop _ => (c.blk prop.blk).qcRef

namespace Waits

/-- The block whose entry `on_qc_finish` erases when the running callback returns. -/
def erased (s : Waits K) : Input K → Option Uint256
  | .resume => s.replica.stack.head?.bind (waking s.replica.core)
  | .fetch _ | .deliver _ | .propose _ _ _ | .receiveProposal _ | .receiveVote _ | .wait _ => none

/-- Which resolved promises are in `qc_waiting` after a step.  Where a certificate is learned, the
entry stays as long as the callbacks hold up the call, and it stays behind when one of them throws;
an entry that was resolved before is erased.  After a vote that has been received, callbacks find
votes enough instead. -/
def keeps (env : Env K) (s : Waits K) (i : Input K) (r : Replica K) (h : Uint256) : Bool :=
  if learns env s.replica i r h then r.stack.head?.bind (waking r.core) == some h
  else s.kept h && s.erased i != some h

/-- A new call: the promise is resolved at once if the votes suffice, and is the one in
`qc_waiting` if there is one. -/
def opened (s : Waits K) : Input K → List Call
  | .wait h =>
      let enough := decide (s.replica.core.config.nmajority ≤ (s.replica.core.blk h).voted.card)
      [{ blk := h, enough, found := s.kept h, before := s.learned h, after := false,
         resolved := enough || s.kept h }]
  | .fetch _ | .deliver _ | .propose _ _ _ | .receiveProposal _ | .receiveVote _ | .resume => []

/-- A call that finds a resolved promise inserts none. -/
def advance (env : Env K) (s : Waits K) : Input K → Option (Replica K)
  | .wait h => if s.kept h then some s.replica else s.replica.step env (.wait h)
  | i => s.replica.step env i

def step (env : Env K) (s : Waits K) (i : Input K) : Option (Waits K) :=
  (s.advance env i).map (fun r =>
    { replica := r
      calls := s.opened i ++ s.calls.map (Call.follow env s.replica i r)
      learned := fun h => s.learned h || learns env s.replica i r h
      kept := s.keeps env i r })

end Waits

/-- The machine of one replica, with its promises. -/
def waits (env : Env K) (config : ReplicaConfig K) (id : ReplicaID) (key : K.PrivKey)
    (voteDisabled : Bool) : System (Waits K) (Input K) where
  init s := (machine env config id key voteDisabled).init s.replica ∧ s.calls = [] ∧
    (s.learned = fun _ => false) ∧ s.kept = fun _ => false
  step s i s' := s.step env i = some s'

/-! What a handler learns is what it wakes waiters for. -/

/-- Nothing is learned and nobody is woken. -/
structure Quiet (c c' : HotStuffCore K) : Prop where
  waiting : c'.qcWaiting = c.qcWaiting
  quorums : ∀ h, quorums h c'.trace = quorums h c.trace

/-- A certificate for one block is learned by counting its last vote. -/
structure Counts (c c' : HotStuffCore K) (h : Uint256) : Prop where
  waiting : c'.qcWaiting = c.qcWaiting.erase h
  quorums : ∀ k, Waiting.quorums k c'.trace =
    Waiting.quorums k c.trace + if h = k then 1 else 0

/-- Effects that leave the waiters and the certificates alone. -/
def Silent : Effect K → Prop
  | .count _ _ _ | .wait _ | .wake _ => False
  | _ => True

section handlers

variable {env : Env K} {c c' c'' : HotStuffCore K} {h : Uint256} {e : Event K}

theorem Quiet.refl (c : HotStuffCore K) : Quiet c c := ⟨rfl, fun _ => rfl⟩

theorem Quiet.trans (hfirst : Quiet c c') (hthen : Quiet c' c'') : Quiet c c'' :=
  ⟨hthen.waiting.trans hfirst.waiting, fun h => (hthen.quorums h).trans (hfirst.quorums h)⟩

theorem quorums_cons : quorums h (e :: c.trace) =
    quorums h c.trace + if isQuorum h e then 1 else 0 := List.countP_cons

theorem Quiet.of_cons (hw : c'.qcWaiting = c.qcWaiting) (ht : c'.trace = e :: c.trace)
    (he : ∀ h, isQuorum h e = false) : Quiet c c' := by
  refine ⟨hw, fun h => ?_⟩
  rw [ht, quorums_cons, he h]
  rfl

theorem quorums_commitAll (queue : List Uint256) :
    quorums h (queue.foldl HotStuffCore.commitBlk c).trace = quorums h c.trace := by
  induction queue generalizing c with
  | nil => rfl
  | cons k queue ih =>
      rw [List.foldl_cons, ih]
      show quorums h ((c.finalities k).reverse ++ .consensus k :: c.trace) = _
      have hzero : (c.finalities k).reverse.countP (isQuorum h) = 0 := by
        rw [List.countP_eq_zero]
        intro x hx
        obtain ⟨i, hi, rfl⟩ := List.mem_mapIdx.mp (List.mem_reverse.mp hx)
        exact Bool.false_ne_true
      rw [quorums, List.countP_append, hzero, Nat.zero_add]
      exact List.countP_cons_of_neg Bool.false_ne_true

theorem qcWaiting_commitAll (queue : List Uint256) :
    (queue.foldl HotStuffCore.commitBlk c).qcWaiting = c.qcWaiting := by
  induction queue generalizing c with
  | nil => rfl
  | cons k queue ih => exact ih

theorem Silent.quiet {e : Effect K} (he : Silent e) : Quiet c (Effects.apply env c e) := by
  cases e with
  | count _ _ _ | wait _ | wake _ => exact he.elim
  | store data =>
      show Quiet c (c.addBlk _ _)
      unfold HotStuffCore.addBlk
      split <;> exact ⟨rfl, fun _ => rfl⟩
  | create _ | raiseHqc _ _ | accept _ _ | acceptOwn _ _ _ | sign _ | announce _ | broadcast _
  | sendVote _ _ | throw _ => exact .of_cons rfl rfl (fun _ => rfl)
  | commit queue h => exact ⟨qcWaiting_commitAll _, fun _ => quorums_commitAll _⟩
  | deliver _ | spoil _ _ _ | eraseTails _ | resetSelfQc _ _ | raiseLock _ | miscount _ | note _ =>
      exact ⟨rfl, fun _ => rfl⟩

theorem quiet_of_trail {P : Effect K → Prop} (ht : Trail env P c c')
    (hP : ∀ e, P e → Silent e) : Quiet c c' :=
  ht.invariant (I := Quiet c) (.refl c) (fun _ _ he hquiet _ => hquiet.trans (hP _ he).quiet)

theorem quiet_updateHqc (b : Uint256) (qc : QuorumCert K) : Quiet c (c.updateHqc b qc) := by
  unfold HotStuffCore.updateHqc
  split
  · exact .of_cons rfl rfl (fun _ => rfl)
  · exact .refl c

theorem counts_onQcFinish (hw : c'.qcWaiting = c.qcWaiting)
    (hq : ∀ k, quorums k c'.trace = quorums k c.trace + if h = k then 1 else 0) :
    Counts c (c'.onQcFinish h).2 h := by
  unfold HotStuffCore.onQcFinish
  split
  · exact ⟨congrArg (Finset.erase · h) hw, hq⟩
  · rename_i hnot
    refine ⟨?_, hq⟩
    rw [hw] at hnot
    rw [Finset.erase_eq_of_notMem hnot]
    exact hw

/-- A vote either completes the certificate and wakes who waits for it, or does neither. -/
theorem onReceiveVote_learns (c : HotStuffCore K) (vote : Vote K) :
    match c.onReceiveVote vote with
    | .ok (_, c') => Quiet c c' ∨ Counts c c' vote.blkHash
    | .error (_, c') => Quiet c c' := by
  unfold HotStuffCore.onReceiveVote
  by_cases hd : (c.blk vote.blkHash).delivered = true
  swap
  · rw [if_neg hd]
    exact .refl c
  rw [if_pos hd]
  dsimp only
  by_cases hfew : c.config.nmajority ≤ (c.blk vote.blkHash).voted.card
  · rw [if_pos hfew]
    exact .inl (.refl c)
  rw [if_neg hfew]
  by_cases hnew : vote.voter ∈ (c.blk vote.blkHash).voted
  · rw [if_pos hnew]
    exact .inl (.refl c)
  rw [if_neg hnew]
  cases hadd : ((c.blk vote.blkHash).selfQc.getD
      (QuorumCert.create c.config vote.blkHash)).addPart vote.voter vote.cert with
  | error e => exact ⟨rfl, fun _ => rfl⟩
  | ok qc =>
    dsimp only
    by_cases hlast : (c.blk vote.blkHash).voted.card + 1 = c.config.nmajority
    swap
    · rw [if_neg hlast]
      exact .inl ⟨rfl, fun _ => rfl⟩
    · rw [if_pos hlast]
      -- the certificate is completed, the callback of `update_hqc` runs, the waiters are woken
      have hquiet := quiet_updateHqc (c := ((c.modifyBlk vote.blkHash (fun b =>
        { b with
          voted := insert vote.voter b.voted
          selfQc := some ((c.blk vote.blkHash).selfQc.getD
            (QuorumCert.create c.config vote.blkHash)) })).modifyBlk vote.blkHash
        (fun b => { b with selfQc := some qc })).emit (.quorum vote.blkHash qc)) vote.blkHash qc
      have hquorums : ∀ k, quorums k (.quorum vote.blkHash qc :: c.trace) =
          quorums k c.trace + if vote.blkHash = k then 1 else 0 := by
        intro k
        rw [quorums_cons]
        simp only [isQuorum, beq_iff_eq]
      have hfin := counts_onQcFinish (c := c) hquiet.waiting
        (fun k => (hquiet.quorums k).trans (hquorums k))
      revert hfin
      generalize HotStuffCore.onQcFinish _ _ = res
      exact .inr

theorem Quiet.counts (hfirst : Quiet c c') (hthen : Counts c' c'' h) : Counts c c'' h :=
  ⟨hthen.waiting.trans (congrArg (Finset.erase · h) hfirst.waiting),
    fun k => (hthen.quorums k).trans (congrArg (· + _) (hfirst.quorums k))⟩

theorem onPropose_learns (env : Env K) (cmds : List Uint256) {parents : List Uint256}
    (extra : List UInt8) (hparents : ∀ p ∈ parents, (c.blk p).delivered = true)
    (hstored : (c.storage c.hqc.2.objHash).isSome) :
    match c.onPropose env cmds parents extra with
    | .ok (_, c') => Quiet c c' ∨ Counts c c' (env.getHash (c.newData cmds parents extra))
    | .error (_, c') => Quiet c c' := by
  unfold HotStuffCore.onPropose
  cases hempty : parents.isEmpty with
  | true => exact .refl c
  | false =>
  have hne : parents ≠ [] := by
    rintro rfl
    cases hempty
  simp only [Bool.false_eq_true, if_false, bind, Except.bind]
  have hhashes : (c.newData cmds parents extra).parentHashes ≠ [] := hne
  have hbuild := build_spec env hhashes hparents rfl hstored
  have hsilent : ∀ e, Builds env c (c.newData cmds parents extra) e → Silent e := by
    intro e he
    cases e <;> first | exact trivial | exact absurd he id
  cases hres : c.build env (c.newData cmds parents extra) with
  | error r =>
      rw [hres] at hbuild
      exact quiet_of_trail hbuild.1 hsilent
  | ok d =>
      rw [hres] at hbuild
      have hquiet : Quiet c d := quiet_of_trail hbuild.1 hsilent
      dsimp only
      by_cases hlow : (d.blk (env.getHash (c.newData cmds parents extra))).height ≤ d.vheight
      · rw [if_pos hlow]
        exact hquiet
      · rw [if_neg hlow]
        have hown : Quiet d (d.accept (env.getHash (c.newData cmds parents extra))) :=
          .of_cons rfl rfl (fun _ => rfl)
        have hsign : Quiet (d.accept (env.getHash (c.newData cmds parents extra)))
            ((d.accept (env.getHash (c.newData cmds parents extra))).emit
              (.partCert (env.getHash (c.newData cmds parents extra)))) :=
          .of_cons rfl rfl (fun _ => rfl)
        have haccept := hquiet.trans (hown.trans hsign)
        have hvote := onReceiveVote_learns ((d.accept (env.getHash
            (c.newData cmds parents extra))).emit
              (.partCert (env.getHash (c.newData cmds parents extra))))
          ⟨d.id, env.getHash (c.newData cmds parents extra),
            PartCert.create d.privKey (env.getHash (c.newData cmds parents extra))⟩
        revert hvote
        generalize HotStuffCore.onReceiveVote _ _ = res
        cases res with
        | error r => exact fun hvote => haccept.trans hvote
        | ok r => exact fun hvote => hvote.imp haccept.trans haccept.counts

theorem onReceiveProposal_learns (env : Env K) (c : HotStuffCore K) (prop : Proposal) :
    match c.onReceiveProposal env prop with
    | .ok (_, _, c') => (∀ h, quorums h c'.trace = quorums h c.trace) ∧
        ∀ h, h ∈ c'.qcWaiting ↔ h ∈ c.qcWaiting ∧ (c.blk prop.blk).qcRef ≠ some h
    | .error (_, c') => Quiet c c' := by
  unfold HotStuffCore.onReceiveProposal
  by_cases hd : (c.blk prop.blk).delivered = true
  swap
  · rw [if_neg hd]
    exact .refl c
  rw [if_pos hd]
  simp only [bind, Except.bind]
  cases hup : c.update env prop.blk with
  | error r =>
      obtain ⟨e, c₁⟩ := r
      refine quiet_of_trail (update_error hd hup).1 (fun e he => ?_)
      cases e <;> first | exact trivial | exact absurd he id
  | ok c₁ =>
      obtain ⟨htrail, hproc, _⟩ := update_ok hd hup
      have hquiet : Quiet c c₁ := by
        refine quiet_of_trail htrail (fun e he => ?_)
        cases e <;> first | exact trivial | exact absurd he id
      have hd₁ := (grows_of_trail htrail).delivered hd
      have hspec := decideVote_spec hd₁ hproc
      dsimp only
      cases hres : c₁.decideVote prop.blk with
      | error r =>
          obtain ⟨e, c₂⟩ := r
          rw [hres] at hspec
          obtain ⟨rfl, _⟩ := hspec
          exact hquiet
      | ok r =>
          obtain ⟨opinion, c₂⟩ := r
          rw [hres] at hspec
          have hvote : Quiet c₁ c₂ ∧ (c₂.blk prop.blk).qcRef = (c.blk prop.blk).qcRef := by
            rw [← (grows_of_trail htrail).qcRef hd]
            rcases hspec with ⟨rfl, rfl⟩ | ⟨rfl, _, _, _, rfl, _⟩
            · exact ⟨.refl _, rfl⟩
            · exact ⟨.of_cons rfl rfl (fun _ => rfl), rfl⟩
          obtain ⟨hquiet₂, hqcRef⟩ := hvote
          have hall := hquiet.trans hquiet₂
          dsimp only
          rw [hqcRef]
          cases hq : (c.blk prop.blk).qcRef with
          | none =>
              refine ⟨hall.quorums, fun h => ?_⟩
              rw [hall.waiting]
              exact ⟨fun hmem => ⟨hmem, nofun⟩, And.left⟩
          | some q =>
              dsimp only [pure, Except.pure]
              have hfin : ((c₂.onQcFinish q).2).trace = c₂.trace ∧
                  (c₂.onQcFinish q).2.qcWaiting = c₂.qcWaiting.erase q := by
                unfold HotStuffCore.onQcFinish
                split
                · exact ⟨rfl, rfl⟩
                · rename_i hnot
                  exact ⟨rfl, (Finset.erase_eq_of_notMem hnot).symm⟩
              refine ⟨fun h => by rw [hfin.1, hall.quorums], fun h => ?_⟩
              rw [hfin.2, hall.waiting, Finset.mem_erase, and_comm]
              simp [eq_comm]

end handlers

/-! Steps. -/

section steps

variable {env : Env K} {r r' : Replica K} {i : Input K} {h : Uint256}

/-- Who waits after a step: those who waited and have learned nothing, and who has just begun to
wait without votes enough. -/
def Follows (env : Env K) (r : Replica K) (i : Input K) (r' : Replica K) : Prop :=
  ∀ h, h ∈ r'.core.qcWaiting ↔ (h ∈ r.core.qcWaiting ∧ learns env r i r' h = false) ∨
    (i = .wait h ∧ (r.core.blk h).voted.card < r.core.config.nmajority)

theorem follows_of_quiet (hquiet : Quiet r.core r'.core) (hnone : certified env r i = none)
    (hi : ∀ h, i ≠ .wait h) : Follows env r i r' := by
  intro h
  have hlearns : learns env r i r' h = false := by
    simp [learns, hquiet.quorums, hnone]
  rw [hquiet.waiting, hlearns]
  simp [hi]

theorem follows_of_counts {k : Uint256} (hcounts : Counts r.core r'.core k)
    (hnone : certified env r i = none) (hi : ∀ h, i ≠ .wait h) : Follows env r i r' := by
  intro h
  have hlearns : learns env r i r' h = decide (k = h) := by
    simp only [learns, hcounts.quorums, hnone]
    by_cases hk : k = h <;> simp [hk]
  rw [hcounts.waiting, hlearns, Finset.mem_erase]
  simp [hi, and_comm, eq_comm]

theorem quiet_throw {e : Exn} {c d : HotStuffCore K} (hquiet : Quiet d c)
    (hthrow : Replica.throw (e, c) = some r') : Quiet d r'.core := by
  unfold Replica.throw at hthrow
  split at hthrow
  · cases hthrow
  · cases hthrow
    exact hquiet.trans (.of_cons rfl rfl (fun _ => rfl))

theorem quiet_finishReceive (c : HotStuffCore K) (prop : Proposal) (opinion : Bool)
    (stack : List Frame) : Quiet c (finishReceive c prop opinion stack).core := by
  have hnote : Quiet c (c.noteProposal prop.blk) := by
    unfold HotStuffCore.noteProposal
    split <;> exact ⟨rfl, fun _ => rfl⟩
  refine hnote.trans ?_
  show Quiet _ ((c.noteProposal prop.blk).castVote prop opinion)
  unfold HotStuffCore.castVote
  split
  · have hsign : Quiet (c.noteProposal prop.blk)
        ((c.noteProposal prop.blk).emit (.partCert prop.blk)) := .of_cons rfl rfl (fun _ => rfl)
    exact hsign.trans (.of_cons rfl rfl (fun _ => rfl))
  · exact .refl _

theorem learns_wait {k : Uint256} (hstep : r.step env (.wait k) = some r') :
    learns env r (.wait k) r' h = false := by
  cases hstep
  have hquorums : quorums h (r.core.asyncQcFinish k).trace = quorums h r.core.trace := by
    unfold HotStuffCore.asyncQcFinish
    split <;> rfl
  simp [learns, hquorums, certified]

theorem follows_propose {cmds parents : List Uint256} {extra : List UInt8}
    (hok : ReplicaOk env r) (hstep : r.step env (.propose cmds parents extra) = some r') :
    Follows env r (.propose cmds parents extra) r' := by
  simp only [Replica.step] at hstep
  split at hstep
  swap
  · cases hstep
  rename_i hall
  rw [List.all_eq_true] at hall
  have hstored : (r.core.storage r.core.hqc.2.objHash).isSome := by
    rw [hok.certs.hqc_hash]
    exact hok.certs.hqc_stored
  have hlearns := onPropose_learns env cmds extra hall hstored
  cases hres : r.core.onPropose env cmds parents extra with
  | error x =>
      rw [hres] at hlearns hstep
      exact follows_of_quiet (quiet_throw hlearns hstep) rfl (fun _ h => by cases h)
  | ok x =>
      obtain ⟨woken, c⟩ := x
      rw [hres] at hlearns hstep
      have hend : Quiet c r'.core := by
        cases woken with
        | true =>
            cases hstep
            exact .refl c
        | false =>
            cases hstep
            exact .of_cons rfl rfl (fun _ => rfl)
      rcases hlearns with hquiet | hcounts
      · exact follows_of_quiet (hquiet.trans hend) rfl (fun _ h => by cases h)
      · exact follows_of_counts ⟨hend.waiting.trans hcounts.waiting,
          fun k => (hend.quorums k).trans (hcounts.quorums k)⟩ rfl (fun _ h => by cases h)

theorem follows_receiveProposal {prop : Proposal}
    (hstep : r.step env (.receiveProposal prop) = some r') :
    Follows env r (.receiveProposal prop) r' := by
  simp only [Replica.step] at hstep
  split at hstep
  swap
  · cases hstep
  have hlearns := onReceiveProposal_learns env r.core prop
  cases hres : r.core.onReceiveProposal env prop with
  | error x =>
      rw [hres] at hlearns hstep
      have hnone : certified env r (.receiveProposal prop) = none := by
        simp only [certified, hres]
      exact follows_of_quiet (quiet_throw hlearns hstep) hnone (fun _ h => by cases h)
  | ok x =>
      obtain ⟨opinion, woken, c⟩ := x
      rw [hres] at hlearns hstep
      obtain ⟨hquorums, hwaiting⟩ := hlearns
      have hend : Quiet c r'.core := by
        cases woken with
        | true =>
            cases hstep
            exact .refl c
        | false =>
            cases hstep
            exact quiet_finishReceive c prop opinion []
      intro h
      have hcert : learns env r (.receiveProposal prop) r' h =
          decide ((r.core.blk prop.blk).qcRef = some h) := by
        simp only [learns, certified, hres, hend.quorums, hquorums]
        simp [Bool.beq_eq_decide_eq]
      rw [hend.waiting, hwaiting, hcert]
      simp

theorem follows_wait {k : Uint256} (hstep : r.step env (.wait k) = some r') :
    Follows env r (.wait k) r' := by
  intro h
  rw [learns_wait hstep]
  cases hstep
  show h ∈ (r.core.asyncQcFinish k).qcWaiting ↔ _
  unfold HotStuffCore.asyncQcFinish
  by_cases henough : r.core.config.nmajority ≤ (r.core.blk k).voted.card
  · rw [if_pos henough]
    constructor
    · exact fun hmem => .inl ⟨hmem, rfl⟩
    · rintro (⟨hmem, _⟩ | ⟨heq, hlt⟩)
      · exact hmem
      · cases heq
        omega
  · rw [if_neg henough]
    show h ∈ insert k r.core.qcWaiting ↔ _
    rw [Finset.mem_insert]
    constructor
    · rintro (rfl | hmem)
      · exact .inr ⟨rfl, Nat.lt_of_not_le henough⟩
      · exact .inl ⟨hmem, rfl⟩
    · rintro (⟨hmem, _⟩ | ⟨heq, _⟩)
      · exact .inr hmem
      · cases heq
        exact .inl rfl

theorem follows_step (hok : ReplicaOk env r) (hstep : r.step env i = some r') :
    Follows env r i r' := by
  cases i with
  | fetch data =>
      obtain ⟨_, rfl⟩ := step_fetch hstep
      refine follows_of_quiet ?_ rfl (fun _ h => by cases h)
      show Quiet r.core (r.core.addBlk _ _)
      unfold HotStuffCore.addBlk
      split <;> exact ⟨rfl, fun _ => rfl⟩
  | deliver h =>
      have hsilent : ∀ e, Delivers r.core h e → Silent e := by
        intro e he
        cases e <;> first | exact trivial | exact absurd he id
      obtain ⟨_, _, ⟨e, c, htrail, _, rfl⟩ | ⟨c, htrail, rfl⟩⟩ := step_deliver hstep
      · refine follows_of_quiet ?_ rfl (fun _ h => by cases h)
        exact (quiet_of_trail htrail hsilent).trans (.of_cons rfl rfl (fun _ => rfl))
      · exact follows_of_quiet (quiet_of_trail htrail hsilent) rfl (fun _ h => by cases h)
  | propose cmds parents extra => exact follows_propose hok hstep
  | receiveProposal prop => exact follows_receiveProposal hstep
  | receiveVote vote =>
      simp only [Replica.step] at hstep
      split at hstep
      swap
      · cases hstep
      have hlearns := onReceiveVote_learns r.core vote
      cases hres : r.core.onReceiveVote vote with
      | error x =>
          rw [hres] at hlearns hstep
          exact follows_of_quiet (quiet_throw hlearns hstep) rfl (fun _ h => by cases h)
      | ok x =>
          rw [hres] at hlearns hstep
          cases hstep
          rcases hlearns with hquiet | hcounts
          · exact follows_of_quiet hquiet rfl (fun _ h => by cases h)
          · exact follows_of_counts hcounts rfl (fun _ h => by cases h)
  | wait k => exact follows_wait hstep
  | resume =>
      refine follows_of_quiet ?_ rfl (fun _ h => by cases h)
      rcases step_resume hstep with ⟨h, stack, _, rfl⟩ | ⟨h, stack, _, rfl⟩ |
        ⟨prop, opinion, stack, _, rfl⟩
      · exact .of_cons rfl rfl (fun _ => rfl)
      · exact .of_cons rfl rfl (fun _ => rfl)
      · exact quiet_finishReceive _ prop opinion stack

end steps

/-! Runs. -/

section runs

variable {env : Env K} {config : ReplicaConfig K} {id : ReplicaID} {key : K.PrivKey}
  {voteDisabled : Bool} {s : Waits K} {r : Replica K} {call : Call} {i : Input K} {h : Uint256}

/-- A step is one of the replica, or a call that has found a resolved promise. -/
theorem Waits.advance_cases (hadv : s.advance env i = some r) :
    s.replica.step env i = some r ∨ ∃ h, i = .wait h ∧ s.kept h = true ∧ r = s.replica := by
  cases i with
  | wait h =>
      simp only [Waits.advance] at hadv
      split at hadv
      · rename_i hkept
        cases hadv
        exact .inr ⟨h, rfl, hkept, rfl⟩
      · exact .inl hadv
  | fetch _ | deliver _ | propose _ _ _ | receiveProposal _ | receiveVote _ | resume =>
      exact .inl hadv

/-- A promise is resolved at the call or by what is learned later, and until then its block is in
`qc_waiting`. -/
structure CallOk (r : Replica K) (call : Call) : Prop where
  resolved : call.resolved = (call.enough || call.found || call.after)
  waiting : call.resolved = false → call.blk ∈ r.core.qcWaiting

theorem CallOk.follow {r r' : Replica K} (hok : CallOk r call)
    (hrok : ReplicaOk env r) (hstep : r.step env i = some r') :
    CallOk r' (call.follow env r i r') := by
  have hiff := follows_step hrok hstep call.blk
  have hold := hok.resolved
  cases hres : call.resolved with
  | true =>
      rw [hres] at hold
      constructor
      · simp only [Call.follow, hres, Bool.true_or]
        rw [← Bool.or_assoc, ← hold, Bool.true_or]
      · intro hf
        simp [Call.follow, hres] at hf
  | false =>
      have hmem := hok.waiting hres
      rw [hres] at hold
      obtain ⟨hbefore, hafter⟩ := Bool.or_eq_false_iff.mp hold.symm
      cases hlearns : learns env r i r' call.blk with
      | true =>
          have hout : call.blk ∉ r'.core.qcWaiting := by
            intro hin
            rcases hiff.mp hin with ⟨_, hfalse⟩ | ⟨rfl, _⟩
            · rw [hlearns] at hfalse
              cases hfalse
            · rw [learns_wait hstep] at hlearns
              cases hlearns
          constructor
          · simp [Call.follow, hmem, hout, hlearns]
          · intro hf
            simp [Call.follow, hmem, hout] at hf
      | false =>
          have hin : call.blk ∈ r'.core.qcWaiting := hiff.mpr (.inl ⟨hmem, hlearns⟩)
          constructor
          · simp [Call.follow, hres, hin, hbefore, hafter, hlearns]
          · exact fun _ => hin

theorem CallOk.found (hok : CallOk r call) : CallOk r (call.follow env r (.wait h) r) := by
  have hnone : learns env r (.wait h) r call.blk = false := by
    simp [learns, certified]
  have hsame : call.follow env r (.wait h) r = call := by
    simp [Call.follow, hnone]
  rw [hsame]
  exact hok

theorem callOk_opened (hadv : s.advance env i = some r) (hcall : call ∈ s.opened i) :
    CallOk r call := by
  cases i with
  | wait h =>
      obtain rfl := List.mem_singleton.mp hcall
      refine ⟨(Bool.or_false _).symm, fun hfew => ?_⟩
      obtain ⟨hlt, hkept⟩ := Bool.or_eq_false_iff.mp hfew
      have hstep : s.replica.step env (.wait h) = some r := by
        simpa [Waits.advance, hkept] using hadv
      cases hstep
      show h ∈ (s.replica.core.asyncQcFinish h).qcWaiting
      unfold HotStuffCore.asyncQcFinish
      rw [if_neg (of_decide_eq_false hlt)]
      exact Finset.mem_insert_self _ _
  | fetch _ | deliver _ | propose _ _ _ | receiveProposal _ | receiveVote _ | resume =>
      cases hcall

/-- What holds in a run: the replica is in order and so are the promises, and a resolved promise
in `qc_waiting` is one whose certificate has been learned. -/
structure WaitsOk (env : Env K) (s : Waits K) : Prop where
  replica : ReplicaOk env s.replica
  calls : ∀ call ∈ s.calls, CallOk s.replica call
  kept : ∀ h, s.kept h = true → s.learned h = true
  found : ∀ call ∈ s.calls, call.found = true → call.before = true

theorem WaitsOk.step {s' : Waits K} (hok : WaitsOk env s) (hstep : s.step env i = some s') :
    WaitsOk env s' := by
  obtain ⟨r, hadv, rfl⟩ := Option.map_eq_some_iff.mp hstep
  refine ⟨?_, fun call hmem => ?_, fun h hkept => ?_, fun call hmem hfound => ?_⟩
  · rcases Waits.advance_cases hadv with hrep | ⟨_, _, _, rfl⟩
    · exact (hok.replica.step hrep).1
    · exact hok.replica
  · rcases List.mem_append.mp hmem with hnew | hold
    · exact callOk_opened hadv hnew
    · obtain ⟨call', hcall', rfl⟩ := List.mem_map.mp hold
      rcases Waits.advance_cases hadv with hrep | ⟨h, rfl, _, rfl⟩
      · exact (hok.calls call' hcall').follow hok.replica hrep
      · exact (hok.calls call' hcall').found
  · simp only [Waits.keeps] at hkept
    split at hkept
    · rename_i hlearns
      simp [hlearns]
    · have hold := hok.kept h (Bool.and_eq_true_iff.mp hkept).1
      simp [hold]
  · rcases List.mem_append.mp hmem with hnew | hold
    · cases i with
      | wait h =>
          obtain rfl := List.mem_singleton.mp hnew
          exact hok.kept h hfound
      | fetch _ | deliver _ | propose _ _ _ | receiveProposal _ | receiveVote _ | resume =>
          cases hnew
    · obtain ⟨call', hcall', rfl⟩ := List.mem_map.mp hold
      exact hok.found call' hcall' hfound

end runs

/-! A replica that hears of a certificate from another proposer. -/

/-- A certificate for block 1 that replicas 1, 2 and 3 sign. -/
def firstQc : QuorumCert clearScheme :=
  [1, 2, 3].foldl (fun qc i => (qc.addPart (voteOf i).voter (voteOf i).cert).toOption.getD qc)
    (QuorumCert.create peerConfig 1)

/-- The replica fetches and delivers block 1 and block 2, which carries that certificate. -/
def delivered : List (Input clearScheme) :=
  [.fetch ⟨[0], [1], QuorumCert.create peerConfig 0, []⟩, .fetch ⟨[1], [2], firstQc, []⟩,
    .deliver 1, .deliver 2]

end ArchipelagoHotStuff.Consensus.Waiting
