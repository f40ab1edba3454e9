/- Module: ArchipelagoHotStuff/Liveness/Elections
   source: liveness.h (PMRoundRobinProposer, do_new_consensus, beat_resp), hotstuff.cpp (do_vote,
     do_broadcast_proposal), consensus.cpp (update, on_propose)
   digest: The chain of blocks that an elected proposer builds, each once its last one has a
     certificate, is just long enough to commit its first block. -/

import ArchipelagoHotStuff.Consensus.Leading
import ArchipelagoHotStuff.Consensus.Sending
import ArchipelagoHotStuff.Liveness.Agendas

set_option autoImplicit false
set_option relaxedAutoImplicit false

namespace ArchipelagoHotStuff.Liveness.Elections

open Crypto.Wire Crypto.Certificates
open Consensus.State Consensus.Handlers Consensus.Effects Consensus.Trails Consensus.VoteCount
open Consensus.Tree hiding Node newEvents
open Consensus.Machine Consensus.CommitLog Consensus.HighTail Consensus.Levels Consensus.Leading
open Consensus.Sending
open General.ParentTree General.Transition
open Pacemaker Policy Proposing Agendas Network.Model Network.Refinement Network.Tails

variable {K : Secp256k1} {D : Deployment K} {i : ReplicaID} {cmds : List Uint256}

/-- Without Byzantine replicas messages are what a replica has sent: a proposal comes from the
replica that it names, and a vote goes to the replica that `beat_resp` names, which is the proposer
of the block. -/
def Posted (s : Nodes K) (a : ReplicaID × NodeInput K) : Prop :=
  match a.2 with
  | .message (.receiveProposal prop) => .broadcast prop ∈ (s prop.proposer).core.trace
  | .message (.receiveVote vote) => .vote a.1 vote ∈ (s vote.voter).core.trace
  | _ => True

/-- The network and a chain of `do_new_consensus` at one replica, the latest block first. -/
structure Election (K : Secp256k1) where
  nodes : Nodes K
  chain : List Uint256

/-- The replica is about to call `do_new_consensus(0, cmds)`, in its role as the proposer or in
`on_exp_timeout`. -/
def Elected (n : Node K) (cmds : List Uint256) : Prop :=
  n.pm.agenda = [.newConsensus 0 cmds] ∨ n.pm.agenda = [.newConsensus 0 cmds, .rearm]

/-- The block that a step builds in `do_new_consensus`. -/
def built (env : Env K) (n : Node K) : NodeInput K → Option Uint256
  | .run =>
      match n.pm.agenda with
      | .newConsensus _ cmds :: _ =>
          some (env.getHash (n.core.newData cmds n.core.getParents []))
      | _ => none
  | .message _ | .beat _ | .impeach | .expire | .elected _ => none

/-- The chain once a step has been taken. -/
def prolonged (D : Deployment K) (i : ReplicaID) (s : Election K) (a : ReplicaID × NodeInput K)
    (nodes : Nodes K) : List Uint256 :=
  if a.1 = i ∧ (nodes i).halted = false then (built D.env (s.nodes i) a.2).toList ++ s.chain
  else s.chain

/-- The network without Byzantine replicas from the moment at which replica `i` starts a chain. -/
def election (D : Deployment K) (i : ReplicaID) (cmds : List Uint256) :
    System (Election K) (ReplicaID × NodeInput K) where
  init s := Reachable ((paceNetwork D .roundRobin).restrict Posted) s.nodes ∧
    Elected (s.nodes i) cmds ∧ s.chain = []
  step s a s' := ((paceNetwork D .roundRobin).restrict Posted).step s.nodes a s'.nodes ∧
    s'.chain = prolonged D i s a s'.nodes

/-- Replica `i` handles no proposals, and it proposes nothing but the next block of the chain, once
the last one has enough votes. -/
def Alone (i : ReplicaID) (s : Election K) (a : ReplicaID × NodeInput K) : Prop :=
  a.1 = i →
    match a.2 with
    | .message (.receiveProposal _) => False
    | .run =>
        match (s.nodes i).pm.agenda with
        | .handle _ :: _ => (s.nodes i).pm.proposer ≠ (s.nodes i).core.id
        | .newConsensus x _ :: _ => x = s.chain.length ∧
            ∀ b ∈ s.chain.head?, Complete (s.nodes i).core b
        | _ => True
    | _ => True

/-- When the votes for the last block of the chain come to suffice, no tail above it is higher. -/
def Ahead (i : ReplicaID) (s : Election K) (a : ReplicaID × NodeInput K) : Prop :=
  a.1 = i →
    match a.2 with
    | .message (.receiveVote vote) => vote.blkHash ∈ s.chain.head? →
        Completes (s.nodes i).core vote → Foremost (s.nodes i).core vote.blkHash
    | _ => True

/-- What holds while the chain is built. -/
structure ElectionOk (D : Deployment K) (i : ReplicaID) (cmds : List Uint256) (s : Election K) :
    Prop where
  nodes : Reachable ((paceNetwork D .roundRobin).restrict Posted) s.nodes
  started : s.chain = [] → (s.nodes i).halted = true ∨
    ∃ agenda, (s.nodes i).pm.agenda = .newConsensus 0 cmds :: agenda
  held : (s.nodes i).halted = false →
    ∀ prop opinion, .received prop opinion ∉ (s.nodes i).replica.stack
  length_le : s.chain.length ≤ lastRound D.env + 1
  named : ∀ m, s.chain.getLast? = some m →
    ∃ data : BlockData K, data.cmds = cmds ∧ D.env.getHash data = m
  row : ∀ m, s.chain.getLast? = some m → Row D.env (s.nodes i).core m s.chain
  rising : (s.nodes i).halted = false →
    ∀ m, s.chain.getLast? = some m → Rising D.env (s.nodes i).core m s.chain

theorem lastRound_eq (env : Env K) : lastRound env = chainLength env + 1 := by
  unfold lastRound chainLength
  split <;> rfl

section steps

variable {env : Env K} {kind : Kind} {n n' : Node K} {a : NodeInput K} {x : Nat}

theorem built_eq_some {b : Uint256} (h : built env n a = some b) : a = .run ∧ ∃ x cmds agenda,
    n.pm.agenda = .newConsensus x cmds :: agenda ∧
      b = env.getHash (n.core.newData cmds n.core.getParents []) := by
  cases a with
  | run =>
      simp only [built] at h
      split at h
      · rename_i x cmds agenda heq
        exact ⟨rfl, x, cmds, agenda, heq, (Option.some.inj h).symm⟩
      · cases h
  | _ => cases h

theorem run_of_agenda (hagenda : n.pm.agenda ≠ []) (h : n.step env kind a = some n') :
    a = .run := by
  have hidle : n.idle = false := by
    rw [Node.idle, List.isEmpty_eq_false_iff.mpr hagenda, Bool.false_and]
  cases a with
  | run => rfl
  | _ => simp [Node.step, hidle] at h

/-- Only proposals that have been received are held up on their way to a vote. -/
theorem held_of_returns {r r' : Replica K} {j : Input K} (h : Returns env r j r')
    (hj : ∀ prop, j ≠ .receiveProposal prop)
    (hheld : ∀ prop opinion, .received prop opinion ∉ r.stack) :
    ∀ prop opinion, .received prop opinion ∉ r'.stack := by
  intro prop opinion
  cases h with
  | fetch | deliver | receiveVote => exact List.not_mem_nil
  | propose hall hres =>
      rename_i woken _
      cases woken with
      | true => exact List.not_mem_cons_of_ne_of_not_mem nofun (hheld prop opinion)
      | false => exact List.not_mem_cons_of_ne_of_not_mem nofun (hheld prop opinion)
  | receiveProposal => exact absurd rfl (hj _)
  | wait => exact hheld prop opinion
  | resume hstep =>
      rcases step_resume hstep with ⟨h, stack, heq, rfl⟩ | ⟨h, stack, heq, rfl⟩ |
        ⟨prop', opinion', stack, heq, rfl⟩
      · refine List.not_mem_cons_of_ne_of_not_mem nofun (fun hmem => ?_)
        exact hheld prop opinion (heq ▸ List.mem_cons_of_mem _ hmem)
      · exact fun hmem => hheld prop opinion (heq ▸ List.mem_cons_of_mem _ hmem)
      · exact fun hmem => hheld prop opinion (heq ▸ List.mem_cons_of_mem _ hmem)

end steps

section network

variable {kind : Kind} {s s' : Nodes K} {x : Nat} {agenda : List Task}

theorem produced_of_run (hs : Reachable (paceNetwork D kind) s)
    (hstep : (paceNetwork D kind).step s (i, .run) s')
    (hagenda : (s i).pm.agenda = .newConsensus x cmds :: agenda)
    (hrun : (s' i).halted = false) :
    Produced D.env (s i).core (s' i).core
        (D.env.getHash ((s i).core.newData cmds (s i).core.getParents [])) ∧
      ((∀ prop opinion, .received prop opinion ∉ (s i).replica.stack) →
        ∀ prop opinion, .received prop opinion ∉ (s' i).replica.stack) := by
  obtain ⟨hreach, hinf⟩ := replicas_reachable hs
  obtain ⟨hreach', _⟩ := replicas_reachable (.step hs hstep)
  obtain ⟨hadm, hadv⟩ := hstep
  obtain ⟨hnode, _⟩ := advanceNode_eq hadv
  have hcorrect : D.Correct i := hadm.1
  have hlocal : LocalOk D.env (s i).core := localOk_of_reachable hreach.of_restrict i
  have hpaced : PacedOk D.env (s i).replica :=
    pacedOk_of_reachable (replica_paced hreach hcorrect)
  have hcalm' : ∀ h, .proposed h ∉ (s' i).replica.stack :=
    (paceOk_of_reachable hreach' i hcorrect).calm
  have hrep := replicaOk_of_reachable (Deployment.replica_reachable hreach.of_restrict i)
  obtain ⟨L, _, hj⟩ := joined_of_reachable hreach.of_restrict
  have hmajority : 0 < (s i).core.config.nmajority := by
    rw [show (s i).core.config = D.config from (hj i hcorrect).blocks.config,
      ← Deployment.size_quorums]
    have hoverlap := D.quorums.overlap
    omega
  -- The block is not one that is stored under other links.
  have hdist : Distinct D.env (s i).core ((s i).core.newData cmds (s i).core.getParents []) := by
    have hcalls : Calls kind (s i) .run (.propose cmds (s i).core.getParents []) := by
      refine ⟨.newConsensus x cmds, ?_, rfl⟩
      rw [hagenda]
      exact Option.mem_some_self _
    obtain ⟨hadmits, hhigh⟩ := highTail_of_calls (hinf i hcorrect) hadm hcalls nofun
    exact (paced_of_highTail (hj i hcorrect).view hhigh hadmits).2
  have hlevel := (sound_of_reachable hs i).level (halted_of_step hnode)
  rw [Node.step_run (halted_of_step hnode) hagenda] at hnode
  obtain ⟨r, hcore, ⟨_, heq⟩ | ⟨hok, heq⟩⟩ := Node.call_eq_some hnode
  · rw [heq] at hrun
    cases hrun
  have hreplica : (s' i).replica = r := by rw [heq]
  have hreturns := returns_of_not_failed hrep hcore hok
  refine ⟨?_, ?_⟩
  · cases hreturns with
    | propose hall hres =>
    rename_i woken c
    cases woken with
    | true =>
        refine absurd ?_ (hcalm' (D.env.getHash ((s i).core.newData cmds (s i).core.getParents [])))
        rw [hreplica]
        exact List.mem_cons_self
    | false =>
        have hcore' : (s' i).core =
            c.announce (D.env.getHash ((s i).core.newData cmds (s i).core.getParents [])) :=
          congrArg Replica.core hreplica
        rw [hcore']
        exact produced_of_propose hlocal.tree hlocal.certs hlocal.commits hpaced.tails hlevel
          hmajority hdist hres
  · rw [hreplica]
    exact held_of_returns hreturns nofun

theorem grows_of_step {a : ReplicaID × NodeInput K} (hs : Reachable (paceNetwork D kind) s)
    (hstep : (paceNetwork D kind).step s a s') : Grows (s a.1).core (s' a.1).core := by
  have hreach := (replicas_reachable hs).1.of_restrict
  obtain ⟨hnode, _⟩ := advanceNode_eq hstep.2
  rcases stepped_step hnode with hsame | ⟨j, _, hcore, _⟩
  · unfold Node.core
    rw [hsame]
    exact .refl _
  · exact grows_of_trail ((replicaOk_of_reachable
      (Deployment.replica_reachable hreach a.1)).step hcore).2

theorem message_of_calls {n : Node K} {a : NodeInput K} {j : Input K} (hcalls : Calls kind n a j)
    (hj : (∃ prop, j = .receiveProposal prop) ∨ ∃ vote, j = .receiveVote vote) :
    a = .message j := by
  cases a with
  | message k => exact congrArg _ (show k = j from hcalls.symm)
  | beat cmds =>
      obtain rfl := hcalls
      rcases hj with ⟨_, heq⟩ | ⟨_, heq⟩ <;> cases heq
  | impeach | expire | elected cmds => exact hcalls.elim
  | run =>
      obtain ⟨task, _, hcalls⟩ := hcalls
      cases task with
      | handle pm =>
          obtain ⟨_, rfl⟩ := hcalls
          rcases hj with ⟨_, heq⟩ | ⟨_, heq⟩ <;> cases heq
      | newConsensus x cmds | finishNew x h | hooks h | resume =>
          obtain rfl := hcalls
          rcases hj with ⟨_, heq⟩ | ⟨_, heq⟩ <;> cases heq
      | _ => exact hcalls.elim

/-- Every vote that has been cast, or is on its way, is for a proposal that its proposer has
broadcast. -/
theorem sends_of_posted (hs : Reachable ((paceNetwork D kind).restrict Posted) s) (r : ReplicaID) :
    SendsOk (fun prop => .broadcast prop ∈ (s prop.proposer).core.trace) (s r).replica := by
  refine hs.invariant (I := fun s => ∀ r,
    SendsOk (fun prop => .broadcast prop ∈ (s prop.proposer).core.trace) (s r).replica) ?_ ?_ r
  · rintro s rfl r
    cases kind <;> exact ⟨nofun, nofun, nofun, nofun⟩
  · intro s a s' hs ih ⟨hposted, hnext⟩ r
    obtain ⟨hnode, hother⟩ := advanceNode_eq hnext.2
    have hgrows : ∀ prop : Proposal, .broadcast prop ∈ (s prop.proposer).core.trace →
        .broadcast prop ∈ (s' prop.proposer).core.trace := by
      intro prop hmem
      by_cases hp : prop.proposer = a.1
      · rw [hp] at hmem ⊢
        exact (grows_of_step hs.of_restrict hnext).trace.subset hmem
      · rw [hother _ hp]
        exact hmem
    refine SendsOk.mono ?_ hgrows
    by_cases hr : r = a.1
    · subst hr
      rcases stepped_step hnode with hsame | ⟨j, hcalls, hcore, _⟩
      · rw [hsame]
        exact ih a.1
      · have hok := replicaOk_of_reachable (Deployment.replica_reachable
          (replicas_reachable hs.of_restrict).1.of_restrict a.1)
        refine (ih a.1).step hok (fun prop heq => ?_) hcore
        have hmessage := message_of_calls hcalls (.inl ⟨prop, heq⟩)
        unfold Posted at hposted
        rw [hmessage, heq] at hposted
        exact hposted
    · rw [hother r hr]
      exact ih r

theorem accepted_of_posted {vote : Vote K}
    (hs : Reachable ((paceNetwork D kind).restrict Posted) s) (hcorrect : D.Correct i)
    (hposted : Posted s (i, .message (.receiveVote vote))) :
    .accept vote.blkHash ∈ (s i).core.trace := by
  have hpaced := pacedOk_of_reachable
    (replica_paced (replicas_reachable hs.of_restrict).1 hcorrect)
  have hbroadcast := (sends_of_posted hs vote.voter).cast i vote hposted
  exact hpaced.tails.announced _ ((sends_of_posted hs i).broadcast _ hbroadcast)

theorem returns_of_step {e : Election K} {a : NodeInput K}
    (hs : Reachable ((paceNetwork D .roundRobin).restrict Posted) e.nodes)
    (hstep : ((paceNetwork D .roundRobin).restrict Posted).step e.nodes (i, a) s')
    (halone : Alone i e (i, a)) (hahead : Ahead i e (i, a))
    (hleads : ∀ b ∈ e.chain.head?, Leads D.env (e.nodes i).core b)
    (hbuilt : built D.env (e.nodes i) a = none) (hrun : (s' i).halted = false) :
    (s' i).replica = (e.nodes i).replica ∨
      ∃ j, Returns D.env (e.nodes i).replica j (s' i).replica ∧
        (∀ prop, j ≠ .receiveProposal prop) ∧ ∀ b ∈ e.chain.head?, Solo (e.nodes i).core b j := by
  obtain ⟨hreach, _⟩ := replicas_reachable hs.of_restrict
  obtain ⟨hposted, hadm, hadv⟩ := hstep
  obtain ⟨hnode, _⟩ := advanceNode_eq hadv
  have hrep := replicaOk_of_reachable (Deployment.replica_reachable hreach.of_restrict i)
  have hlocal : LocalOk D.env (e.nodes i).core := localOk_of_reachable hreach.of_restrict i
  refine (stepped_step hnode).imp_right (fun ⟨j, hcalls, hcore, hhalt⟩ => ⟨j, ?_, ?_⟩)
  · refine returns_of_not_failed hrep hcore ?_
    rw [← Bool.not_eq_true]
    intro hfailed
    rw [hhalt hfailed] at hrun
    cases hrun
  have halone := halone rfl
  have hahead := hahead rfl
  cases a with
  | message k =>
      obtain rfl := hcalls
      cases j with
      | receiveProposal prop => exact halone.elim
      | receiveVote vote =>
          refine ⟨nofun, fun b hb hlast => ?_⟩
          split
          · rename_i heq
            exact heq ▸ hahead (heq ▸ hb) hlast
          · rename_i hne
            exact (hleads b hb).lower hlocal.tree hlocal.voting
              (accepted_of_posted hs hadm.1 hposted) hne
      | fetch data | deliver h => exact ⟨nofun, fun _ _ => trivial⟩
      | propose | wait | resume => cases isMessage_of_step hnode _ rfl
  | beat cmds =>
      obtain rfl := hcalls
      exact ⟨nofun, fun _ _ => trivial⟩
  | impeach | expire | elected cmds => exact hcalls.elim
  | run =>
      obtain ⟨task, htask, hcalls⟩ := hcalls
      dsimp only at htask halone
      simp only [built] at hbuilt
      cases hagenda : (e.nodes i).pm.agenda with
      | nil =>
          rw [hagenda] at htask
          cases htask
      | cons task' agenda =>
          rw [hagenda] at htask halone hbuilt
          cases htask
          cases task with
          | handle pm => exact absurd hcalls.1 halone
          | newConsensus x cmds => cases hbuilt
          | finishNew x h | hooks h | resume =>
              obtain rfl := hcalls
              exact ⟨nofun, fun _ _ => trivial⟩
          | _ => exact hcalls.elim

end network

section election

variable {s s' : Election K} {m : Uint256}

theorem ElectionOk.paced (hok : ElectionOk D i cmds s) :
    Reachable (paceNetwork D .roundRobin) s.nodes :=
  hok.nodes.of_restrict

theorem ElectionOk.leads {b : Uint256} (hok : ElectionOk D i cmds s)
    (hrun : (s.nodes i).halted = false) (hb : b ∈ s.chain.head?) :
    Leads D.env (s.nodes i).core b := by
  cases hlast : s.chain.getLast? with
  | none =>
      rw [List.getLast?_eq_none_iff.mp hlast] at hb
      cases hb
  | some m => exact (hok.rising hrun m hlast).leads b hb

theorem ElectionOk.next {b : Uint256} (hok : ElectionOk D i cmds s)
    (hs' : Reachable ((paceNetwork D .roundRobin).restrict Posted) s'.nodes)
    (hnext : (paceNetwork D .roundRobin).step s.nodes (i, .run) s'.nodes)
    (halone : Alone i s (i, .run)) (hb : built D.env (s.nodes i) .run = some b)
    (hrun : (s'.nodes i).halted = false) (hchain : s'.chain = b :: s.chain) :
    ElectionOk D i cmds s' := by
  have hbefore := halted_of_step (advanceNode_eq hnext.2).1
  have hreach := (replicas_reachable hok.paced).1
  have hlocal : LocalOk D.env (s.nodes i).core := localOk_of_reachable hreach.of_restrict i
  have hlocal' : LocalOk D.env (s'.nodes i).core :=
    localOk_of_reachable (replicas_reachable hs'.of_restrict).1.of_restrict i
  have htails := (pacedOk_of_reachable (replica_paced hreach hnext.1.1)).tails
  have hsound := sound_of_reachable hok.paced i
  have hlevel := hsound.level hbefore
  obtain ⟨_, x, cmds', agenda, hagenda, rfl⟩ := built_eq_some hb
  obtain ⟨hprod, hheld⟩ := produced_of_run hok.paced hnext hagenda hrun
  have hx : x ≤ lastRound D.env :=
    hsound.agenda.rounds (.newConsensus x cmds') (hagenda ▸ List.mem_cons_self)
  have halone := halone rfl
  simp only [hagenda] at halone
  obtain ⟨rfl, hcomplete⟩ := halone
  generalize hblk : D.env.getHash ((s.nodes i).core.newData cmds' (s.nodes i).core.getParents []) =
    b at hprod hchain
  have hlength : s'.chain.length ≤ lastRound D.env + 1 := by
    rw [hchain, List.length_cons]
    exact Nat.succ_le_succ hx
  cases hold : s.chain with
  | nil =>
      rw [hold] at hchain
      -- The first block carries the commands that the chain was started with.
      have hcmds : cmds' = cmds := by
        rcases hok.started hold with hhalted | ⟨rest, hrest⟩
        · rw [hhalted] at hbefore
          cases hbefore
        · rw [hagenda] at hrest
          exact (Task.newConsensus.inj (List.cons.inj hrest).1).2
      obtain ⟨hrow, hrising⟩ := Row.begin hprod hlocal.tree hlocal'.tree htails hlevel
      refine ⟨hs', fun hnil => ?_, fun _ => hheld (hok.held hbefore), hlength, fun m hm => ?_,
        fun m hm => ?_, fun _ m hm => ?_⟩
      · rw [hchain] at hnil
        cases hnil
      all_goals
        rw [hchain] at hm
        obtain rfl : b = m := Option.some.inj hm
      · exact ⟨_, hcmds, hblk⟩
      · rw [hchain]
        exact hrow
      · rw [hchain]
        exact hrising
  | cons q l =>
      have hrowOld := hok.row
      have hrisingOld := hok.rising hbefore
      rw [hold] at hchain hx hcomplete hrowOld hrisingOld
      have hlast : ∀ m, s'.chain.getLast? = some m → s.chain.getLast? = some m := fun m hm => by
        rw [hchain, List.getLast?_cons_cons] at hm
        rw [hold]
        exact hm
      have hboth : ∀ m, s'.chain.getLast? = some m →
          Row D.env (s'.nodes i).core m (b :: q :: l) ∧
            Rising D.env (s'.nodes i).core m (b :: q :: l) := fun m hm =>
        Row.prolong hprod (hrowOld m (hold ▸ hlast m hm)) (hrisingOld m (hold ▸ hlast m hm))
          (hcomplete q rfl) hlevel hlocal'.tree hlocal.commits hlocal'.commits
          (lastRound_eq D.env ▸ hx)
      refine ⟨hs', fun hnil => ?_, fun _ => hheld (hok.held hbefore), hlength,
        fun m hm => hok.named m (hlast m hm), fun m hm => ?_, fun _ m hm => ?_⟩
      · rw [hchain] at hnil
        cases hnil
      · rw [hchain]
        exact (hboth m hm).1
      · rw [hchain]
        exact (hboth m hm).2

theorem ElectionOk.keep (hok : ElectionOk D i cmds s)
    (hs' : Reachable ((paceNetwork D .roundRobin).restrict Posted) s'.nodes)
    (hchain : s'.chain = s.chain)
    (hgrows : Grows (s.nodes i).core (s'.nodes i).core)
    (hstarted : s.chain = [] → (s'.nodes i).halted = true)
    (hheld : (s'.nodes i).halted = false →
      ∀ prop opinion, .received prop opinion ∉ (s'.nodes i).replica.stack)
    (hleads : (s'.nodes i).halted = false → (s'.nodes i).core.bExec = (s.nodes i).core.bExec ∧
      ∀ b ∈ s.chain.head?, Leads D.env (s'.nodes i).core b)
    (hbefore : (s.nodes i).halted = false) : ElectionOk D i cmds s' := by
  have hlocal : LocalOk D.env (s.nodes i).core :=
    localOk_of_reachable (replicas_reachable hok.paced).1.of_restrict i
  have hlocal' : LocalOk D.env (s'.nodes i).core :=
    localOk_of_reachable (replicas_reachable hs'.of_restrict).1.of_restrict i
  have hlevel := (sound_of_reachable hok.paced i).level hbefore
  refine ⟨hs', fun hnil => .inl (hstarted (hchain ▸ hnil)), hheld, hchain ▸ hok.length_le,
    fun m hm => hok.named m (hchain ▸ hm), fun m hm => ?_, fun hrun m hm => ?_⟩
  all_goals
    rw [hchain] at hm ⊢
    have hrow := hok.row m hm
  · exact hrow.grows hlocal.commits hlocal'.commits hgrows
  · refine ⟨(hleads hrun).2, fun hshort => ?_⟩
    rw [(hleads hrun).1, hgrows.height hlevel.executed, hgrows.height hrow.delivered]
    exact (hok.rising hbefore m hm).waits hshort

theorem ElectionOk.step {a : ReplicaID × NodeInput K} (hok : ElectionOk D i cmds s)
    (halone : Alone i s a) (hahead : Ahead i s a) (hstep : (election D i cmds).step s a s') :
    ElectionOk D i cmds s' := by
  obtain ⟨hnext, hchain⟩ := hstep
  have hs' : Reachable ((paceNetwork D .roundRobin).restrict Posted) s'.nodes :=
    .step hok.nodes hnext
  obtain ⟨j, a⟩ := a
  by_cases hj : j = i
  swap
  · have hnode : s'.nodes i = s.nodes i := (advanceNode_eq hnext.2.2).2 i (Ne.symm hj)
    rw [prolonged, if_neg (fun h => hj h.1)] at hchain
    obtain ⟨_, hstarted, hheld, hlength, hnamed, hrow, hrising⟩ := hok
    rw [← hnode] at hstarted hheld hrow hrising
    rw [← hchain] at hstarted hlength hnamed hrow hrising
    exact ⟨hs', hstarted, hheld, hlength, hnamed, hrow, hrising⟩
  subst hj
  have hnode := (advanceNode_eq hnext.2.2).1
  have hbefore := halted_of_step hnode
  have hgrows := grows_of_step hok.paced hnext.2
  cases hhalted : (s'.nodes j).halted with
  | true =>
      rw [prolonged, if_neg (fun h => by rw [hhalted] at h; exact Bool.noConfusion h.2)] at hchain
      exact hok.keep hs' hchain hgrows (fun _ => hhalted) (fun h => by rw [hhalted] at h; cases h)
        (fun h => by rw [hhalted] at h; cases h) hbefore
  | false =>
  rw [prolonged, if_pos ⟨rfl, hhalted⟩] at hchain
  dsimp only at hchain hnode hgrows
  cases hbuilt : built D.env (s.nodes j) a with
  | some b =>
      obtain ⟨rfl, _⟩ := built_eq_some hbuilt
      rw [hbuilt] at hchain
      exact hok.next hs' hnext.2 halone hbuilt hhalted hchain
  | none =>
      rw [hbuilt] at hchain
      have hcalls := returns_of_step hok.nodes hnext halone hahead
        (fun b hb => hok.leads hbefore hb) hbuilt hhalted
      have hreach := (replicas_reachable hok.paced).1
      have hlocal : LocalOk D.env (s.nodes j).core := localOk_of_reachable hreach.of_restrict j
      have hcalm := (paceOk_of_reachable hreach j hnext.2.1.1).calm
      have hlevel := (sound_of_reachable hok.paced j).level hbefore
      -- Before the first block is built nothing else can happen.
      have hne : s.chain ≠ [] := by
        intro hnil
        rcases hok.started hnil with hstop | ⟨agenda, hagenda⟩
        · rw [hbefore] at hstop
          cases hstop
        · obtain rfl := run_of_agenda (by rw [hagenda]; exact List.cons_ne_nil _ _) hnode
          simp only [built, hagenda] at hbuilt
          cases hbuilt
      obtain ⟨q, l, hold⟩ := List.exists_cons_of_ne_nil hne
      have hq : q ∈ s.chain.head? := by rw [hold]; rfl
      have hlead := hok.leads hbefore hq
      refine hok.keep hs' hchain hgrows (fun hnil => absurd hnil hne) (fun _ => ?_) (fun _ => ?_)
        hbefore
      · rcases hcalls with hsame | ⟨k, hreturns, hk, _⟩
        · rw [hsame]
          exact hok.held hbefore
        · exact held_of_returns hreturns hk (hok.held hbefore)
      · have hsame : Leads D.env (s'.nodes j).core q ∧
            (s'.nodes j).core.bExec = (s.nodes j).core.bExec := by
          rcases hcalls with hsame | ⟨k, hreturns, _, hsolo⟩
          · unfold Node.core at hlead ⊢
            rw [hsame]
            exact ⟨hlead, rfl⟩
          · exact hlead.returns hlocal.tree hlocal.voting hlevel.hqc hgrows hcalm
              (hok.held hbefore) (hsolo q hq) hreturns
        refine ⟨hsame.2, fun b hb => ?_⟩
        rw [hold] at hb
        obtain rfl := Option.some.inj hb
        exact hsame.1

theorem electionOk_of_reachable (h : Reachable ((election D i cmds).restrict
    (fun s a => Alone i s a ∧ Ahead i s a)) s) : ElectionOk D i cmds s := by
  refine h.invariant ?_ (fun s a s' _ hok hstep => hok.step hstep.1.1 hstep.1.2 hstep.2)
  rintro s ⟨hs, helected, hnil⟩
  have hsound := sound_of_reachable hs.of_restrict i
  refine ⟨hs, fun _ => .inr ?_, fun hrun prop opinion => ?_, ?_, ?_, ?_, fun _ => ?_⟩
  · rcases helected with hagenda | hagenda
    · exact ⟨_, hagenda⟩
    · exact ⟨_, hagenda⟩
  · have hlength := hsound.agenda.frames hrun
    have hcount : (s.nodes i).pm.agenda.count .resume = 0 := by
      rcases helected with hagenda | hagenda <;> rw [hagenda] <;> rfl
    rw [hcount] at hlength
    rw [List.length_eq_zero_iff.mp hlength.symm]
    exact List.not_mem_nil
  all_goals rw [hnil]
  · exact Nat.zero_le _
  all_goals
    intro m hm
    cases hm

/-- In both builds the chain is just long enough: its first block, which carries the commands, is
committed with all its ancestors once the last one is proposed, and undecided before. -/
theorem election_commits (h : Reachable ((election D i cmds).restrict
    (fun s a => Alone i s a ∧ Ahead i s a)) s) (hm : s.chain.getLast? = some m) :
    (∃ data : BlockData K, data.cmds = cmds ∧ D.env.getHash data = m) ∧
      s.chain.length ≤ lastRound D.env + 1 ∧
      (s.chain.length = lastRound D.env + 1 →
        ∀ x, Extends (firstParent (s.nodes i).core) m x →
          ((s.nodes i).core.blk x).decision = true) ∧
      (s.chain.length ≤ lastRound D.env → (s.nodes i).halted = false →
        ((s.nodes i).core.blk m).decision = false) := by
  have hok := electionOk_of_reachable h
  have hlocal : LocalOk D.env (s.nodes i).core :=
    localOk_of_reachable (replicas_reachable hok.paced).1.of_restrict i
  have hlast := lastRound_eq D.env
  refine ⟨hok.named m hm, hok.length_le, fun hlong x hx => ?_, fun hshort hrun => ?_⟩
  · rw [hlast] at hlong
    have hdec := (hok.row m hm).done hlong
    exact hlocal.commits.decided_of_extends hlocal.tree
      ((hlocal.commits.extends_decided hdec).trans hx)
  · rw [hlast] at hshort
    refine Bool.eq_false_iff.mpr (fun hdec => ?_)
    exact absurd ((hok.rising hrun m hm).waits hshort)
      (Nat.not_lt.mpr (hlocal.commits.height_le_of_decided hlocal.tree hdec))

end election

/-! Four replicas, all correct, whose blocks are named by their first command, or else after their
parent.  Replica 2 believes in two timeouts and takes over. -/

/-- A block with one parent and a certificate of replicas 0, 2 and 3, or of nobody. -/
def follower (parent certified : Uint256) (cmds : List Uint256) (signers : List ReplicaID) :
    BlockData clearScheme :=
  { parentHashes := [parent], cmds, qc := certOf certified signers, extra := [] }

theorem peerKeys_ne_nil : peerKeys ≠ [] := List.cons_ne_nil _ _

/-- Blocks 16, 32, 48 and 64 follow one another.  Blocks 1, 2, 18, 21 and 22 do as well, with the
certificate of block 1 in all but the first; blocks 37, 53 and 69 follow block 21. -/
def takeover : Deployment clearScheme where
  env := namedEnv
  keys := peerKeys
  byzantine := ∅
  voteDisabled _ := false
  named h := ([follower 0 0 [] [], follower 16 16 [] [0, 2, 3], follower 32 32 [] [0, 2, 3],
      follower 48 48 [] [0, 2, 3], follower 0 0 [1] [], follower 1 1 [2] [0, 2, 3],
      follower 2 1 [] [0, 2, 3], follower 18 1 [21] [0, 2, 3], follower 21 1 [22] [0, 2, 3],
      follower 21 18 [] [0, 2, 3], follower 37 37 [] [0, 2, 3], follower 53 53 [] [0, 2, 3]].find?
    (fun data => namedEnv.getHash data = h)).map (fun data => (data.parentHashes, data.qc.objHash))
  nonempty := peerKeys_ne_nil
  few := few_of_none

instance (c : HotStuffCore K) (m : Uint256) : Decidable (Foremost c m) :=
  List.decidableBAll _ _

instance (s : Election K) (a : ReplicaID × NodeInput K) : Decidable (Alone i s a) :=
  match a with
  | (_, .message (.receiveProposal _)) => inferInstanceAs (Decidable (_ → False))
  | (r, .run) =>
      match hagenda : (s.nodes i).pm.agenda with
      | .handle _ :: _ =>
          decidable_of_iff (r = i → (s.nodes i).pm.proposer ≠ (s.nodes i).core.id)
            (by simp only [Alone, hagenda])
      | .newConsensus x _ :: _ =>
          @decidable_of_iff _ (r = i → x = s.chain.length ∧
            ∀ b ∈ s.chain.head?.toList, Complete (s.nodes i).core b)
            (by simp only [Alone, hagenda, Option.mem_toList, Option.mem_def])
            (@instDecidableForall _ _ _ (@instDecidableAnd _ _ _ (List.decidableBAll _ _)))
      | [] | .consensus _ :: _ | .wake _ :: _ | .callback _ :: _ | .attach _ :: _ | .lock :: _
      | .finishNew _ _ :: _ | .hooks _ :: _ | .rehook :: _ | .receiveHook _ :: _ | .resume :: _
      | .rearm :: _ => isTrue (by simp only [Alone, hagenda]; exact fun _ => trivial)
  | (_, .message (.fetch _)) | (_, .message (.deliver _)) | (_, .message (.propose _ _ _))
  | (_, .message (.receiveVote _)) | (_, .message (.wait _)) | (_, .message .resume) | (_, .beat _)
  | (_, .impeach) | (_, .expire) | (_, .elected _) => isTrue (fun _ => trivial)

instance (s : Election K) (a : ReplicaID × NodeInput K) : Decidable (Ahead i s a) :=
  match a with
  | (r, .message (.receiveVote vote)) =>
      inferInstanceAs (Decidable (r = i → vote.blkHash ∈ s.chain.head? →
        Completes (s.nodes i).core vote → Foremost (s.nodes i).core vote.blkHash))
  | (_, .message (.fetch _)) | (_, .message (.deliver _)) | (_, .message (.propose _ _ _))
  | (_, .message (.receiveProposal _)) | (_, .message (.wait _)) | (_, .message .resume)
  | (_, .beat _) | (_, .impeach) | (_, .expire) | (_, .elected _) | (_, .run) =>
      isTrue (fun _ => trivial)

instance [DecidableEq K.Sig] (s : Nodes K) (a : ReplicaID × NodeInput K) :
    Decidable (Posted s a) :=
  match a with
  | (_, .message (.receiveProposal prop)) =>
      inferInstanceAs (Decidable (.broadcast prop ∈ (s prop.proposer).core.trace))
  | (r, .message (.receiveVote vote)) =>
      inferInstanceAs (Decidable (.vote r vote ∈ (s vote.voter).core.trace))
  | (_, .message (.fetch _)) | (_, .message (.deliver _)) | (_, .message (.propose _ _ _))
  | (_, .message (.wait _)) | (_, .message .resume) | (_, .beat _) | (_, .impeach)
  | (_, .expire) | (_, .elected _) | (_, .run) => isTrue trivial

/-- The steps of a network without Byzantine replicas as a function. -/
def nextPosted [DecidableEq K.Sig] (D : Deployment K) :
    Nodes K → ReplicaID × NodeInput K → Option (Nodes K) :=
  guarded (fun s a => Posted s a ∧ Admitted D .roundRobin s a) (advanceNode D .roundRobin)

theorem step_of_posted [DecidableEq K.Sig] {s s' : Nodes K} {a : ReplicaID × NodeInput K}
    (h : nextPosted D s a = some s') :
    ((paceNetwork D .roundRobin).restrict Posted).step s a s' := by
  obtain ⟨⟨hposted, hadm⟩, hadv⟩ := guarded_eq_some h
  exact ⟨hposted, hadm, hadv⟩

def nextElection [DecidableEq K.Sig] (D : Deployment K) (i : ReplicaID) (s : Election K)
    (a : ReplicaID × NodeInput K) : Option (Election K) :=
  (nextPosted D s.nodes a).map (fun nodes => ⟨nodes, prolonged D i s a nodes⟩)

/-- A replica obtains a block. -/
def gains (r : ReplicaID) (data : BlockData clearScheme) :
    List (ReplicaID × NodeInput clearScheme) :=
  [(r, .message (.fetch data)), (r, .message (.deliver (namedEnv.getHash data)))]

/-- Replica 2 takes over after two timeouts. -/
def takesOver : List (ReplicaID × NodeInput clearScheme) :=
  [(2, .impeach), (2, .expire), (2, .run), (2, .expire), (2, .expire)]

/-- Replica 2 carries out some tasks; replicas 0 and 3 obtain its new block and others that they
need, and vote. -/
def ballots (tasks : Nat) (needed : List (BlockData clearScheme)) (h : Uint256) :
    List (ReplicaID × NodeInput clearScheme) :=
  List.replicate tasks (2, .run) ++ needed.flatMap (gains 0) ++ needed.flatMap (gains 3) ++
    hears 0 2 h ++ hears 3 2 h ++ tallies 2 0 h ++ tallies 2 3 h

def elect (D : Deployment clearScheme) (before after : List (ReplicaID × NodeInput clearScheme))
    (ok : Election clearScheme → ReplicaID × NodeInput clearScheme → Prop)
    [∀ s a, Decidable (ok s a)] : Option (Election clearScheme) :=
  (execute (nextPosted D) before (startNodes D .roundRobin)).bind
    (fun nodes =>
      if (nodes 2).pm.agenda = [.newConsensus 0 [], .rearm] then
        execute (guarded ok (nextElection D 2)) after ⟨nodes, []⟩
      else none)

theorem elect_reachable {D : Deployment clearScheme}
    {before after : List (ReplicaID × NodeInput clearScheme)}
    {ok : Election clearScheme → ReplicaID × NodeInput clearScheme → Prop}
    [∀ s a, Decidable (ok s a)] {s : Election clearScheme} (h : elect D before after ok = some s) :
    Reachable ((election D 2 []).restrict ok) s := by
  obtain ⟨nodes, hbefore, h⟩ := Option.bind_eq_some_iff.mp h
  split at h
  · rename_i hagenda
    refine Reachable.trans (.init ⟨Reachable.trans (.init rfl)
      (steps_of_execute (fun _ _ _ => step_of_posted) hbefore), .inr hagenda, rfl⟩)
      (steps_of_execute (fun s a s' hstep => ?_) h)
    obtain ⟨hok, hnext⟩ := guarded_eq_some hstep
    obtain ⟨nodes', hposted, rfl⟩ := Option.map_eq_some_iff.mp hnext
    exact ⟨hok, step_of_posted hposted, rfl⟩
  · cases h

/-- Replica 2 builds its four blocks, each on the one before. -/
def reelected : Election clearScheme :=
  (elect takeover takesOver (ballots 5 [follower 0 0 [] []] 16 ++
      ballots 6 [follower 16 16 [] [0, 2, 3]] 32 ++ ballots 6 [follower 32 32 [] [0, 2, 3]] 48 ++
      List.replicate 6 (2, .run)) (fun s a => Alone 2 s a ∧ Ahead 2 s a)).get (by decide +kernel)

theorem reelected_reachable :
    Reachable ((election takeover 2 []).restrict (fun s a => Alone 2 s a ∧ Ahead 2 s a))
      reelected :=
  elect_reachable (Option.some_get _).symm

theorem election_commits_reelected : reelected.chain = [64, 48, 32, 16] ∧
    ((reelected.nodes 2).core.blk 16).decision = true := by
  have hfirst : reelected.chain.getLast? = some 16 := by decide +kernel
  obtain ⟨_, _, hcommitted, _⟩ := election_commits reelected_reachable hfirst
  exact ⟨by decide +kernel, hcommitted (by decide +kernel) 16 (.refl 16)⟩

/-- Replica 0 proposes block 1 and, with its certificate, block 2, which all obtain. -/
def firstTerm : List (ReplicaID × NodeInput clearScheme) :=
  batch 0 1 7 ++ [1, 2, 3].flatMap (fun r => gains r (follower 0 0 [1] []) ++ hears r 0 1) ++
    tallies 0 2 1 ++ tallies 0 3 1 ++ batch 0 2 7 ++
    [1, 2, 3].flatMap (fun r => gains r (follower 1 1 [2] [0, 2, 3]) ++ hears r 0 2)

/-- Replica 1 takes over and proposes blocks 18, 21 and 22.  Replica 2 fetches block 22 and delivers
the two others on the way to it; while it verifies the certificate of block 22, it takes over.  Its
first block is block 18 as well, and when that has its certificate block 21 is the highest tail
above it. -/
def overtaken : Election clearScheme :=
  (elect takeover (firstTerm ++ [(1, .impeach), (1, .expire)] ++ List.replicate 5 (1, .run) ++
      batch 1 21 3 ++ batch 1 22 3 ++ [(2, .message (.fetch (follower 21 1 [22] [0, 2, 3])))] ++
      gains 2 (follower 2 1 [] [0, 2, 3]) ++ gains 2 (follower 18 1 [21] [0, 2, 3]) ++ takesOver)
    (ballots 5 [follower 2 1 [] [0, 2, 3]] 18 ++
      ballots 6 [follower 18 1 [21] [0, 2, 3], follower 21 18 [] [0, 2, 3]] 37 ++
      ballots 6 [follower 37 37 [] [0, 2, 3]] 53 ++ List.replicate 6 (2, .run))
    (Alone 2)).get (by decide +kernel)

theorem overtaken_reachable : Reachable ((election takeover 2 []).restrict (Alone 2)) overtaken :=
  elect_reachable (Option.some_get _).symm

/-- The chain is complete, and its first block is not committed. -/
theorem chain_uncommitted : takeover.byzantine = ∅ ∧
    Reachable ((election takeover 2 []).restrict (Alone 2)) overtaken ∧
    overtaken.chain = [69, 53, 37, 18] ∧ overtaken.chain.length = lastRound takeover.env + 1 ∧
    (overtaken.nodes 2).halted = false ∧
    ((overtaken.nodes 2).core.storage 22).isSome = true ∧
    ((overtaken.nodes 2).core.blk 22).delivered = false ∧
    ((overtaken.nodes 2).core.blk 18).decision = false :=
  ⟨rfl, overtaken_reachable, by decide +kernel, by decide +kernel, by decide +kernel,
    by decide +kernel, by decide +kernel, by decide +kernel⟩

end ArchipelagoHotStuff.Liveness.Elections
