/- Module: ArchipelagoHotStuff/Liveness/Targets
   source: liveness.h (beat_resp of the three pacemakers), hotstuff.cpp (do_vote), consensus.cpp
     (on_receive_proposal)
   digest: Where a vote is sent to, and when that is the replica itself. -/

import ArchipelagoHotStuff.Base.Promises
import ArchipelagoHotStuff.Consensus.Sending

set_option autoImplicit false
set_option relaxedAutoImplicit false

namespace ArchipelagoHotStuff.Liveness.Targets

open Crypto.Wire Crypto.Certificates Consensus Consensus.State Consensus.Effects Consensus.Tree
open Consensus.Trails Consensus.VoteCount Consensus.Sending General.Transition Base.Delivery
open Base.Promises
open Consensus.Machine hiding Input

variable {K : Secp256k1}

/-- `PaceMakerDummy`, `PaceMakerDummyFixed` with its proposer, and `PaceMakerRR`. -/
inductive Kind
  | dummy
  | dummyFixed (proposer : ReplicaID)
  | roundRobin
  deriving DecidableEq

def Kind.beatResp (kind : Kind) (lastProposer : ReplicaID) : ReplicaID :=
  match kind with
  | .dummy => lastProposer
  | .dummyFixed proposer => proposer
  | .roundRobin => lastProposer

/-- `do_vote`: the replica the vote is sent to. -/
def doVote (kind : Kind) (id lastProposer : ReplicaID) : Except Exn ReplicaID :=
  let proposer := kind.beatResp lastProposer
  if proposer = id then .error .unreachableLine else .ok proposer

/-- No proposal that is handled makes the pacemaker name the replica itself: with `PaceMakerDummy`
and `PaceMakerRR` it does not claim to come from there, with `PaceMakerDummyFixed` the replica is
not the fixed proposer. -/
def Elsewhere (kind : Kind) (s : HotStuffBase K) : Input K → Prop
  | .handle n => ∀ prop, s.resolved[n]? = some (.proposal prop) →
      kind.beatResp prop.proposer ≠ s.replica.core.id
  | _ => True

/-- No vote has been or will be sent to the replica itself. -/
def SendsAway (kind : Kind) (r : Replica K) : Prop :=
  SendsOk (fun prop => kind.beatResp prop.proposer ≠ r.core.id) r

/-- A step of the core keeps the votes away from the replica if the proposal it handles does. -/
theorem SendsAway.step {env : Env K} {kind : Kind} {r r' : Replica K}
    {j : Consensus.Machine.Input K} (h : SendsAway kind r) (hok : ReplicaOk env r)
    (hprop : ∀ prop, j = .receiveProposal prop → kind.beatResp prop.proposer ≠ r.core.id)
    (hstep : r.step env j = some r') : SendsAway kind r' := by
  unfold SendsAway
  rw [id_step hok hstep]
  exact SendsOk.step h hok hprop hstep

/-! Runs of a replica. -/

section base

variable {env : Env K} {kind : Kind} {keys : List K.PrivKey} {rid : ReplicaID} {key : K.PrivKey}
  {voteDisabled : Bool} {s s' : HotStuffBase K} {i : Input K}

theorem sendsAway_addBlks (h : SendsAway kind s.replica) (blks : List (BlockData K)) :
    SendsAway kind (s.addBlks env blks).replica := by
  have hs : Silent s.replica.core (s.addBlks env blks).replica.core := by
    refine List.foldlRecOn (motive := Silent s.replica.core) blks _ (.refl _)
      (fun c hc data _ => ?_)
    have htrail : Trail env (fun e => e = .store data) c
        (c.addBlk (env.getHash data) (.fetched data)) := addBlk_trail (fun _ => rfl)
    exact hc.trans (silent_of_trail htrail nofun nofun)
  unfold SendsAway
  rw [hs.sameId]
  exact SendsOk.of_silent h hs (fun _ hmem _ => hmem)

theorem SendsAway.moved (h : SendsAway kind s.replica) (hok : ReplicaOk env s.replica)
    (helse : Elsewhere kind s i) (hmoved : Moved env s i s') : SendsAway kind s'.replica := by
  have stay : s'.replica = s.replica → SendsAway kind s'.replica := fun heq => heq ▸ h
  have advance : ∀ {t t' : HotStuffBase K} {j : Consensus.Machine.Input K},
      Advanced env t j t' → t.replica = s.replica →
      (∀ prop, j = .receiveProposal prop → kind.beatResp prop.proposer ≠ s.replica.core.id) →
      SendsAway kind t'.replica := by
    rintro t t' j ⟨replica, hstep, rfl⟩ ht hprop
    rw [ht] at hstep
    exact h.step hok hprop hstep
  cases i with
  | msgPropose proposer data =>
      obtain ⟨_, rfl⟩ := hmoved
      rw [replica_await]
      exact sendsAway_addBlks h [data]
  | msgVote vote =>
      obtain rfl := hmoved
      exact stay (replica_await s _)
  | msgReqBlock blkHashes =>
      obtain rfl := hmoved
      exact stay (replica_asyncFetchBlks s blkHashes)
  | msgRespBlock blks =>
      obtain ⟨_, rfl⟩ := hmoved
      rw [replica_onFetchBlks]
      exact sendsAway_addBlks h blks
  | onFetched k =>
      obtain ⟨_, rfl⟩ := hmoved
      exact stay (replica_beginDelivery env s k)
  | onVerified k =>
      obtain ⟨_, _, _, _, _, rfl⟩ := hmoved
      exact stay rfl
  | onReady k =>
      rcases hmoved with ⟨_, rfl⟩ | ⟨_, s₁, hadv, hend⟩
      · exact stay rfl
      · rw [replica_ended hend]
        exact advance hadv rfl nofun
  | handle n =>
      obtain ⟨callback, hget, hhandled⟩ := hmoved
      cases callback with
      | proposal prop =>
          refine advance hhandled rfl (fun prop' heq => ?_)
          cases heq
          exact helse prop hget
      | vote vote =>
          rcases hhandled with rfl | ⟨_, hadv⟩
          · exact stay rfl
          · exact advance hadv rfl nofun
  | propose cmds parents extra => exact advance hmoved rfl nofun
  | wait k => exact advance hmoved rfl nofun
  | resume => exact advance hmoved rfl nofun

/-- In a run in which no handled proposal names the replica, no vote reaches the line that should
be unreachable. -/
theorem votes_away
    (hs : Reachable ((base env keys rid key voteDisabled).restrict (Elsewhere kind)) s)
    {lastProposer : ReplicaID} {vote : Vote K}
    (hcast : .vote lastProposer vote ∈ s.replica.core.trace) :
    doVote kind s.replica.core.id lastProposer = .ok (kind.beatResp lastProposer) := by
  have haway : SendsAway kind s.replica := by
    refine Reachable.invariant (I := fun s => SendsAway kind s.replica) hs ?_ ?_
    · rintro s rfl
      exact ⟨nofun, nofun, nofun, nofun⟩
    · intro s i s' hs haway hstep
      exact haway.moved (replicaOk_of_base hs.of_restrict) hstep.1 (moved_of_step hstep.2)
  exact if_neg (haway.cast lastProposer vote hcast)

end base

/-! Replica 0 of four votes for block 1. -/

instance (kind : Kind) (s : HotStuffBase K) (i : Input K) : Decidable (Elsewhere kind s i) :=
  match i with
  | .handle n =>
      match hget : s.resolved[n]? with
      | some (.proposal prop) =>
          decidable_of_iff (kind.beatResp prop.proposer ≠ s.replica.core.id)
            (by simp [Elsewhere, hget])
      | some (.vote _) | none => isTrue (by simp [Elsewhere, hget])
  | .msgPropose _ _ | .msgVote _ | .msgReqBlock _ | .msgRespBlock _ | .onFetched _ | .onVerified _
  | .onReady _ | .propose _ _ _ | .wait _ | .resume => isTrue trivial

/-- What happens until the vote for the block, sent in a proposal that names some proposer. -/
def untilVote (proposer : ReplicaID) : List (Input clearScheme) :=
  [.msgPropose proposer firstBlock, .onFetched 1, .onReady 1, .handle 0]

def firstVote : Vote clearScheme := ⟨0, 1, PartCert.create (K := clearScheme) (0 : Nat) 1⟩

def voted : HotStuffBase clearScheme :=
  (execute (guarded (Elsewhere .dummy) (HotStuffBase.step (clearEnv false))) (untilVote 1)
    peerStart).get (by decide +kernel)

theorem votes_away_voted : doVote .dummy voted.replica.core.id 1 = .ok 1 := by
  have hsteps : Steps ((base (clearEnv false) peerKeys 0 (0 : Nat) false).restrict
      (Elsewhere .dummy)) peerStart voted :=
    steps_of_execute (fun _ _ _ hstep => guarded_eq_some hstep) (Option.some_get _).symm
  have hcast : (.vote 1 firstVote : Event clearScheme) ∈ voted.replica.core.trace :=
    List.mem_of_getElem? (i := 0) (by rfl)
  exact votes_away (Reachable.trans (.init rfl) hsteps) hcast

/-- The proposal claims to come from the replica that gets it. -/
def misled : HotStuffBase clearScheme :=
  (execute (HotStuffBase.step (clearEnv false)) (untilVote 0) peerStart).get (by decide +kernel)

/-- The replica sends its vote to itself, whichever pacemaker it has. -/
theorem own_vote_thrown :
    Reachable (base (clearEnv false) peerKeys 0 (0 : Nat) false) misled ∧
      .vote 0 firstVote ∈ misled.replica.core.trace ∧
      doVote .dummy misled.replica.core.id 0 = .error .unreachableLine ∧
      doVote (.dummyFixed 0) misled.replica.core.id 0 = .error .unreachableLine ∧
      doVote .roundRobin misled.replica.core.id 0 = .error .unreachableLine := by
  have hid : misled.replica.core.id = 0 := by decide +kernel
  refine ⟨Reachable.trans (.init rfl)
    (steps_of_execute (fun _ _ _ hstep => hstep) (Option.some_get _).symm),
    List.mem_of_getElem? (i := 0) (by rfl), ?_, ?_, ?_⟩ <;> rw [hid] <;> rfl

end ArchipelagoHotStuff.Liveness.Targets
