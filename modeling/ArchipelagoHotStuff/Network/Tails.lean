/- Module: ArchipelagoHotStuff/Network/Tails
   source: liveness.h (PMHighTail, PMWaitQC, PMRoundRobinProposer), consensus.cpp (on_propose)
   digest: The tail that a pacemaker proposes on lies above the highest certified block, so that
     the blocks of correct replicas lie above the blocks they certify. -/

import ArchipelagoHotStuff.Consensus.HighTail
import ArchipelagoHotStuff.Network.Agreement

set_option autoImplicit false
set_option relaxedAutoImplicit false

namespace ArchipelagoHotStuff.Network.Tails

open Crypto.Wire Crypto.Certificates
open Consensus Consensus.State Consensus.Handlers Consensus.Effects Consensus.Tree
open Consensus.Machine Consensus.Voting Consensus.CommitLog Consensus.VoteCount
open Consensus.HighTail (Paced pacedOk_of_reachable)
open Network.Model Network.Views Network.Chains Network.Refinement Network.Agreement
open General.Transition General.ParentTree General.VoteLedger

variable {K : Secp256k1} {D : Deployment K} {c c' : HotStuffCore K} {e : Effect K}
  {L : Ledger ReplicaID Uint256} {r r' : ReplicaID} {h t : Uint256} {s s' : Replicas K}

/-- Correct replicas propose on `get_parents()`, and their pacemaker waits for certificates of the
genesis block and of blocks it has seen proposed. -/
def HighTail (D : Deployment K) (s : Replicas K) (a : ReplicaID × Input K) : Prop :=
  match a.2 with
  | .propose _ parents _ => parents = (s a.1).core.getParents
  | .wait h => h = D.env.genesisHash ∨ .propose h ∈ (s a.1).core.trace
  | _ => True

instance (s : Replicas K) (a : ReplicaID × Input K) : Decidable (HighTail D s a) :=
  match a with
  | (r, .propose _ parents _) => inferInstanceAs (Decidable (parents = (s r).core.getParents))
  | (r, .wait h) =>
      inferInstanceAs (Decidable (h = D.env.genesisHash ∨ .propose h ∈ (s r).core.trace))
  | (_, .fetch _) | (_, .deliver _) | (_, .receiveProposal _) | (_, .receiveVote _)
  | (_, .resume) => isTrue trivial

/-- The tails, the one `hqc_tail` holds among them, are delivered, and that one lies above the
highest certified block; whoever waits for a certificate waits for an accepted block. -/
structure TailOk (D : Deployment K) (c : HotStuffCore K) : Prop where
  tails : ∀ t ∈ c.tails, (c.blk t).delivered = true
  delivered : (c.blk c.hqcTail).delivered = true
  above : Extends D.forest.parent c.hqcTail c.hqc.1
  waiting : ∀ h ∈ c.qcWaiting, h = D.env.genesisHash ∨ .accept h ∈ c.trace
  announced : ∀ h, .propose h ∈ c.trace → .accept h ∈ c.trace

/-! Own blocks. -/

/-- A block built on `get_parents()` lies above the block it certifies. -/
theorem TailOk.extendsQc (hok : TailOk D c) (hview : ViewOk D c) {cmds : List Uint256}
    {extra : List UInt8} (hnames : D.Names (c.newData cmds c.getParents extra)) :
    ExtendsQc D (D.env.getHash (c.newData cmds c.getParents extra)) := by
  intro q hq
  by_cases hne : D.env.getHash (c.newData cmds c.getParents extra) = D.env.genesisHash
  · rw [hne, Deployment.qc_root] at hq
    rw [hne, Option.some.inj hq]
    exact .refl q
  · obtain ⟨hparent, hqc⟩ := names_forest hview hnames hne
    rw [hqc] at hq
    rw [← Option.some.inj hq]
    exact .step hparent hok.above

/-! Replicas that keep to the policy. -/

/-- No call of `on_propose` is interrupted between its own vote and its announcement. -/
structure PaceOk (D : Deployment K) (q : Replica K) : Prop where
  tail : TailOk D q.core
  calm : ∀ h, .proposed h ∉ q.stack

/-- What the network admits is what the policy of a single replica asks for. -/
theorem paced_of_highTail {a : ReplicaID × Input K} (hview : ViewOk D (s a.1).core)
    (hhigh : HighTail D s a) (hadm : D.Admits s a.1 a.2) : Paced D.env (s a.1) a.2 := by
  obtain ⟨r, i⟩ := a
  cases i with
  | deliver h => exact ⟨hadm.1, hadm.2.1⟩
  | propose cmds parents extra =>
      refine ⟨hhigh, fun hne hs => ?_⟩
      have hsame := ((hview.nodes _).named hne hs).symm.trans hadm
      exact Prod.mk.inj (Option.some.inj hsame)
  | wait h => exact hhigh
  | _ => exact trivial

theorem replica_paced (hs : Reachable (D.network.restrict (HighTail D)) s) (hr : D.Correct r) :
    Reachable ((machine D.env D.config r (D.key r) (D.voteDisabled r)).restrict (Paced D.env))
      (s r) := by
  refine hs.invariant (I := fun s => Reachable ((machine D.env D.config r (D.key r)
    (D.voteDisabled r)).restrict (Paced D.env)) (s r)) ?_ ?_
  · rintro s rfl
    exact .init rfl
  · intro s a s' hs ih hstep
    obtain ⟨hself, hother⟩ := Deployment.advance_eq hstep.2.2.2
    by_cases hra : r = a.1
    · subst hra
      obtain ⟨L, _, hj⟩ := joined_of_reachable hs.of_restrict
      exact .step ih ⟨paced_of_highTail (hj a.1 hr).view hstep.1 hstep.2.2.1, hself⟩
    · rw [hother r hra]
      exact ih

theorem paceOk_of_reachable (hs : Reachable (D.network.restrict (HighTail D)) s) :
    ∀ r, D.Correct r → PaceOk D (s r) := by
  intro r hr
  obtain ⟨L, _, hj⟩ := joined_of_reachable hs.of_restrict
  have hpace := pacedOk_of_reachable (replica_paced hs hr)
  exact ⟨⟨hpace.tails.tails, hpace.tails.delivered, (hj r hr).view.extends hpace.tails.above,
    hpace.tails.waiting, hpace.tails.announced⟩, hpace.calm⟩

/-- Own blocks of replicas that keep to the policy lie above the blocks they certify. -/
theorem extendsQc_own (hs : Reachable (D.network.restrict (HighTail D)) s)
    {a : ReplicaID × Input K} (hhigh : HighTail D s a) (hr : D.Correct a.1)
    (hadm : D.Admits s a.1 a.2) {cmds parents : List Uint256} {extra : List UInt8}
    (heq : a.2 = .propose cmds parents extra) :
    ExtendsQc D (D.env.getHash ((s a.1).core.newData cmds parents extra)) := by
  obtain ⟨r, i⟩ := a
  obtain rfl : i = .propose cmds parents extra := heq
  obtain rfl : parents = (s r).core.getParents := hhigh
  obtain ⟨L, _, hj⟩ := joined_of_reachable hs.of_restrict
  exact (paceOk_of_reachable hs r hr).tail.extendsQc (hj r hr).view hadm

/-! The two-step build. -/

/-- Agreement in the two-step build with up to a third of the other replicas Byzantine, when the
correct ones propose on `get_parents()`. -/
theorem agreement_twoStep (htwo : D.env.twoStep = true)
    (hs : Reachable (D.network.restrict (HighTail D)) s) (hr : D.Correct r)
    (hr' : D.Correct r') :
    commits (s r).core <+: commits (s r').core ∨ commits (s r').core <+: commits (s r).core := by
  refine agreement_of_covers (fun s a L hs hhigh hr hadm _ => covers_keepsBranch hadm ?_ ?_)
    hs hr hr'
  · intro prop _ hthree
    rw [htwo] at hthree
    cases hthree
  · intro cmds parents extra heq _
    exact extendsQc_own hs hhigh hr hadm heq

/-! A replica proposes three blocks and commits the first, with the votes of another replica and
of the Byzantine one. -/

def pace : Deployment clearScheme :=
  quartet true {3} few_of_three
    [blockOf 1 0 0 [], blockOf 2 1 1 [0, 1, 3], blockOf 3 2 2 [0, 1, 3]]

def paced : Replicas clearScheme :=
  (execute (guarded (HighTail pace) pace.next) ([(0, .wait 0)] ++
    proposes 0 1 0 ++ handles 1 (blockOf 1 0 0 []) ++ counts 0 1 1 ++ counts 0 3 1 ++
    [(0, .wait 1)] ++
    proposes 0 2 1 ++ handles 1 (blockOf 2 1 1 [0, 1, 3]) ++ counts 0 1 2 ++ counts 0 3 2 ++
    proposes 0 3 2) pace.start).get (by decide +kernel)

theorem agreement_paced : commits (paced 0).core = [1] ∧
    (commits (paced 0).core <+: commits (paced 1).core ∨
      commits (paced 1).core <+: commits (paced 0).core) :=
  ⟨by decide +kernel, agreement_twoStep rfl (Deployment.reachable_of_guarded (fun _ _ => id)
    (Option.some_get _).symm) (by decide) (by decide)⟩

end ArchipelagoHotStuff.Network.Tails
