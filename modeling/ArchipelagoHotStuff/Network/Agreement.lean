/- Module: ArchipelagoHotStuff/Network/Agreement
   source: consensus.cpp (update, on_propose, on_receive_proposal), consensus.h (HotStuffCore)
   digest: The votes of the correct replicas keep the rule that makes committed blocks lie on one
     branch, as long as votes that leave the branch of the lock go to blocks above the one they
     certify. -/

import ArchipelagoHotStuff.Network.Refinement

set_option autoImplicit false
set_option relaxedAutoImplicit false

namespace ArchipelagoHotStuff.Network.Agreement

open Crypto.Wire Crypto.Certificates
open Consensus Consensus.State Consensus.Handlers Consensus.Effects Consensus.Tree
open Consensus.Trails Consensus.Machine Consensus.CommitLog Consensus.VoteCount
open Network.Model Network.Views Network.Chains Network.Refinement
open General.Transition General.ParentTree General.VoteLedger

variable {K : Secp256k1} {D : Deployment K} {c : HotStuffCore K} {e : Effect K}
  {L : Ledger ReplicaID Uint256} {r r' : ReplicaID} {h q : Uint256} {s : Replicas K}

/-- The block lies above the block that its certificate is for. -/
def ExtendsQc (D : Deployment K) (h : Uint256) : Prop :=
  ∀ q, D.forest.qc h = some q → Extends D.forest.parent h q

/-- Votes that leave the branch of the lock go to blocks above the one they certify; in the
two-step build this is asked of own blocks only. -/
def KeepsBranch (D : Deployment K) : Effect K → Prop
  | .accept h offLock => offLock = true → D.env.twoStep = false → ExtendsQc D h
  | .acceptOwn h data offLock => D.Names data ∧ (offLock = true → ExtendsQc D h)
  | _ => True

theorem keepsBranch_outputs : Outputs (KeepsBranch D) :=
  ⟨fun _ => trivial, fun _ => trivial, fun _ _ => trivial⟩

abbrev lockRule (D : Deployment K) (L : Ledger ReplicaID Uint256) (x : ReplicaID × Uint256) :
    Prop :=
  LockRule D.forest D.quorums (chainLength D.env) L x.1 x.2

section rule

theorem lockRule_of_ancestry (hok : JoinedOk D L r c) (hd : (c.blk h).delivered = true)
    (hanc : c.checkAncestry c.bLock h = true) : lockRule D L (r, h) :=
  ⟨c.bLock, hok.chain.lock_backed, hok.chain.held,
    .inl (hok.view.extends (hok.view.tree.extends_of_checkAncestry hd hanc))⟩

/-- A vote for a block above the block it certifies keeps the rule, if that is above the lock. -/
theorem lockRule_of_qc (hok : JoinedOk D L r c) (hq : D.forest.qc h = some q)
    (hlt : D.forest.height c.bLock < D.forest.height q) (hext : ExtendsQc D h) :
    lockRule D L (r, h) :=
  ⟨c.bLock, hok.chain.lock_backed, hok.chain.held, .inr ⟨q, hq, hlt, hext q hq⟩⟩

/-- The certified block that makes `on_receive_proposal` skip the branch test. -/
theorem qc_above_lock (hok : JoinedOk D L r c) (hd : (c.blk h).delivered = true)
    (hlive : c.qcAboveLock h = true) :
    ∃ q, (c.blk h).qcRef = some q ∧ D.forest.qc h = some q ∧ (c.blk q).delivered = true ∧
      D.forest.height c.bLock < D.forest.height q := by
  unfold HotStuffCore.qcAboveLock at hlive
  cases hq : (c.blk h).qcRef with
  | none =>
      rw [hq] at hlive
      cases hlive
  | some q =>
      rw [hq] at hlive
      have hlt : (c.blk c.bLock).height < (c.blk q).height := by simpa using hlive
      have hqd := hok.view.delivered_of_height_pos (Nat.zero_lt_of_lt hlt)
      rw [← hok.view.height hok.chain.lock_delivered, ← hok.view.height hqd] at hlt
      exact ⟨q, rfl, (hok.view.qcRef hd).symm.trans hq, hqd, hlt⟩

/-- In the two-step build `update` leaves no certified block above the lock. -/
theorem not_qcAboveLock (hok : JoinedOk D L r c) (htwo : D.env.twoStep = true)
    (hd : (c.blk h).delivered = true) (hproc : Processed D.env c h) :
    c.qcAboveLock h = false := by
  by_contra hlive
  rw [Bool.not_eq_false] at hlive
  obtain ⟨q, href, _, hqd, hlt⟩ := qc_above_lock hok hd hlive
  have hdecided : (c.blk q).decision = true → False := fun hdec =>
    absurd ((hok.view.decided_le hdec).trans hok.chain.exec_le_lock) (Nat.not_le_of_lt hlt)
  rcases hproc q href with hdec | ⟨_, hall⟩
  · exact hdecided hdec
  · have hlock : lockRef D.env c h = some q := by
      unfold lockRef
      rw [if_pos htwo]
      exact href
    rcases hall q hlock with hdec | hle
    · exact hdecided hdec
    · rw [hok.view.height hok.chain.lock_delivered, hok.view.height hqd] at hlt
      exact absurd hle (Nat.not_le_of_lt hlt)

/-- The highest certificate is above the lock, or for the very block that is locked. -/
theorem lock_lt_or_eq (hok : JoinedOk D L r c) (hL : Valid D.forest D.quorums L) :
    D.forest.height c.bLock < D.forest.height c.hqc.1 ∨ c.bLock = c.hqc.1 := by
  rcases Nat.lt_or_eq_of_le hok.chain.lock_le_hqc with hlt | heq
  · exact .inl hlt
  · refine .inr ?_
    rcases hok.chain.lock_backed with hlock | hlock
    · have hzero : D.forest.height c.hqc.1 = 0 := by
        rw [← heq, hlock]
        exact Forest.height_root
      rcases hok.chain.hqc_backed with hhqc | hhqc
      · rw [hlock, hhqc]
      · exact absurd hzero (Nat.pos_iff_ne_zero.mp (hL.certified_pos hhqc))
    · rcases hok.chain.hqc_backed with hhqc | hhqc
      · have hzero : D.forest.height c.bLock = 0 := by
          rw [heq, hhqc]
          exact Forest.height_root
        exact absurd hzero (Nat.pos_iff_ne_zero.mp (hL.certified_pos hlock))
      · exact hL.certified_unique hlock hhqc heq

theorem qc_own (hok : JoinedOk D L r c) {data : BlockData K} {offLock : Bool}
    (hnames : D.Names data) (he : Allowed D.env c (.acceptOwn h data offLock)) :
    D.forest.qc h = some c.hqc.1 := by
  obtain ⟨hd, hhigh, _, rfl, hcert, _⟩ := he
  rcases hcert with hqc | href
  · have hne : D.env.getHash data ≠ D.env.genesisHash := by
      intro heq
      rw [heq, hok.view.tree.genesis.height] at hhigh
      exact absurd hhigh (Nat.not_lt_zero _)
    rw [Deployment.qc_forest hne hnames]
    show some data.qc.objHash = _
    rw [hqc, hok.view.certs.hqc_hash]
  · exact (hok.view.qcRef hd).symm.trans href

theorem keeps_lockRule : Keeps D (lockRule D) (KeepsBranch D) := by
  intro L r c e h hL _ hok hG he ha
  cases e with
  | accept k offLock =>
      cases ha
      obtain ⟨hd, _, hproc, hon, hoff⟩ := he
      cases offLock with
      | false => exact lockRule_of_ancestry hok hd (hon rfl)
      | true =>
          cases htwo : D.env.twoStep with
          | true =>
              have hlow := not_qcAboveLock hok htwo hd hproc
              rw [hoff rfl] at hlow
              cases hlow
          | false =>
              obtain ⟨q, _, hq, _, hlt⟩ := qc_above_lock hok hd (hoff rfl)
              exact lockRule_of_qc hok hq hlt (hG rfl htwo)
  | acceptOwn k data offLock =>
      cases ha
      have hq := qc_own hok hG.1 he
      cases offLock with
      | false => exact lockRule_of_ancestry hok he.1 (he.2.2.2.2.2 rfl)
      | true =>
          have hext := hG.2 rfl
          rcases lock_lt_or_eq hok (valid_of_reachable hL.of_restrict) with hlt | heq
          · exact lockRule_of_qc hok hq hlt hext
          · refine ⟨c.bLock, hok.chain.lock_backed, hok.chain.held, .inl ?_⟩
            rw [heq]
            exact hext _ hq
  | _ => exact absurd ha id

end rule

/-! Logs. -/

theorem rootPath_commits (hok : JoinedOk D L r c) :
    RootPath D.forest.parent D.env.genesisHash (commits c) :=
  hok.view.commits.path.mono (fun _ _ hp => hok.view.parent hp)

/-- Two replicas that the same ledger shows have logs one of which starts the other. -/
theorem commits_prefix {d : HotStuffCore K}
    (hL : Reachable (lockedLedgers D.forest D.quorums (chainLength D.env)) L)
    (hok : JoinedOk D L r c) (hok' : JoinedOk D L r' d) :
    commits c <+: commits d ∨ commits d <+: commits c := by
  have hroot : D.forest.parent D.env.genesisHash = none := D.forest.root_parent
  rcases committed_comparable hL hok.chain.committed hok'.chain.committed with hext | hext
  · refine .inr (RootPath.prefix_of_extends hroot (rootPath_commits hok') (rootPath_commits hok) ?_)
    rw [hok.view.commits.last, hok'.view.commits.last]
    exact hext
  · refine .inl (RootPath.prefix_of_extends hroot (rootPath_commits hok) (rootPath_commits hok') ?_)
    rw [hok.view.commits.last, hok'.view.commits.last]
    exact hext

section network

variable {ok : Replicas K → ReplicaID × Input K → Prop}

/-- The network matches ledgers that keep the lock rule if its steps keep the branch. -/
theorem locked_of_reachable
    (hcovers : ∀ s a L, Reachable (D.network.restrict ok) s → ok s a → D.Correct a.1 →
      D.Admits s a.1 a.2 → Joined D s L → Covers D.env (s a.1) (KeepsBranch D) a.2)
    (hs : Reachable (D.network.restrict ok) s) :
    ∃ L, Reachable (lockedLedgers D.forest D.quorums (chainLength D.env)) L ∧ Joined D s L :=
  (show Simulation (D.network.restrict ok) _ from
    refinement keeps_lockRule keepsBranch_outputs hcovers).reachable hs

theorem agreement_of_covers
    (hcovers : ∀ s a L, Reachable (D.network.restrict ok) s → ok s a → D.Correct a.1 →
      D.Admits s a.1 a.2 → Joined D s L → Covers D.env (s a.1) (KeepsBranch D) a.2)
    (hs : Reachable (D.network.restrict ok) s) (hr : D.Correct r) (hr' : D.Correct r') :
    commits (s r).core <+: commits (s r').core ∨ commits (s r').core <+: commits (s r).core := by
  obtain ⟨L, hL, hj⟩ := locked_of_reachable hcovers hs
  exact commits_prefix hL (hj r hr) (hj r' hr')

end network

/-! The three-step build. -/

instance (env : Env K) (c : HotStuffCore K) (h : Uint256) : Decidable (VotesOffLock env c h) :=
  match hup : c.update env h with
  | .error _ => isFalse (by
      rintro ⟨d, hd, _⟩
      rw [hup] at hd
      cases hd)
  | .ok d =>
      decidable_of_iff (d.vheight < (d.blk h).height ∧ d.qcAboveLock h = true ∧
        d.checkAncestry d.bLock h = false) (by simp [VotesOffLock, hup])

instance (env : Env K) (c : HotStuffCore K) (data : BlockData K) :
    Decidable (BuildsOffLock env c data) :=
  match hbuild : c.build env data with
  | .error _ => isFalse (by
      rintro ⟨d, hd, _⟩
      rw [hbuild] at hd
      cases hd)
  | .ok d =>
      decidable_of_iff (d.vheight < (d.blk (env.getHash data)).height ∧
        d.checkAncestry d.bLock (env.getHash data) = false) (by simp [BuildsOffLock, hbuild])

/-- The step makes the replica vote for the block although it is off the branch of its lock. -/
def LeavesLock (D : Deployment K) (s : Replicas K) (a : ReplicaID × Input K) (h : Uint256) :
    Prop :=
  match a.2 with
  | .receiveProposal prop => h = prop.blk ∧ VotesOffLock D.env (s a.1).core h
  | .propose cmds parents extra =>
      let data := (s a.1).core.newData cmds parents extra
      h = D.env.getHash data ∧ BuildsOffLock D.env (s a.1).core data
  | _ => False

/-- Votes off the branch of the lock go to blocks above the one they certify. -/
def VotesAbove (D : Deployment K) (s : Replicas K) (a : ReplicaID × Input K) : Prop :=
  ∀ h, LeavesLock D s a h → ExtendsQc D h

/-- The step casts no vote off the branch of the lock. -/
def StaysOnLock (D : Deployment K) (s : Replicas K) (a : ReplicaID × Input K) : Prop :=
  match a.2 with
  | .receiveProposal prop => ¬ VotesOffLock D.env (s a.1).core prop.blk
  | .propose cmds parents extra =>
      ¬ BuildsOffLock D.env (s a.1).core ((s a.1).core.newData cmds parents extra)
  | _ => True

instance (s : Replicas K) (a : ReplicaID × Input K) : Decidable (StaysOnLock D s a) :=
  match a with
  | (r, .receiveProposal prop) =>
      inferInstanceAs (Decidable (¬ VotesOffLock D.env (s r).core prop.blk))
  | (r, .propose cmds parents extra) =>
      inferInstanceAs (Decidable (¬ BuildsOffLock D.env (s r).core
        ((s r).core.newData cmds parents extra)))
  | (_, .fetch _) | (_, .deliver _) | (_, .receiveVote _) | (_, .wait _) | (_, .resume) =>
      isTrue trivial

theorem votesAbove_of_staysOnLock {a : ReplicaID × Input K} (h : StaysOnLock D s a) :
    VotesAbove D s a := by
  obtain ⟨r, i⟩ := a
  intro k hk
  cases i with
  | receiveProposal prop =>
      obtain ⟨rfl, hoff⟩ := hk
      exact absurd hoff h
  | propose cmds parents extra =>
      obtain ⟨rfl, hoff⟩ := hk
      exact absurd hoff h
  | _ => exact absurd hk id

theorem covers_keepsBranch {a : ReplicaID × Input K} (hadm : D.Admits s a.1 a.2)
    (hreceive : ∀ prop, a.2 = .receiveProposal prop → D.env.twoStep = false →
      VotesOffLock D.env (s a.1).core prop.blk → ExtendsQc D prop.blk)
    (hpropose : ∀ cmds parents extra, a.2 = .propose cmds parents extra →
      BuildsOffLock D.env (s a.1).core ((s a.1).core.newData cmds parents extra) →
        ExtendsQc D (D.env.getHash ((s a.1).core.newData cmds parents extra))) :
    Covers D.env (s a.1) (KeepsBranch D) a.2 := by
  obtain ⟨r, i⟩ := a
  cases i with
  | fetch data => exact trivial
  | deliver h =>
      intro e he
      cases e <;> first | exact trivial | exact absurd he id
  | propose cmds parents extra =>
      refine ⟨fun e he => ?_, trivial⟩
      cases e with
      | accept k offLock => exact absurd he id
      | acceptOwn k data offLock =>
          obtain ⟨rfl, rfl, hoff⟩ := he
          exact ⟨hadm, fun h => hpropose cmds parents extra rfl (hoff h)⟩
      | _ => exact trivial
  | receiveProposal prop =>
      refine ⟨fun e he => ?_, trivial, trivial⟩
      cases e with
      | accept k offLock =>
          obtain ⟨rfl, hoff⟩ := he
          exact fun h htwo => hreceive prop rfl htwo (hoff h)
      | acceptOwn k data offLock => exact absurd he id
      | _ => exact trivial
  | receiveVote vote =>
      intro e he
      cases e <;> first | exact trivial | exact absurd he id
  | wait h => exact trivial
  | resume => exact ⟨fun _ => trivial, fun _ => trivial, fun _ => trivial⟩

/-- Agreement with up to a third of the other replicas Byzantine, in the runs whose votes off the
branch of a lock go to blocks above the one they certify. -/
theorem agreement (hs : Reachable (D.network.restrict (VotesAbove D)) s) (hr : D.Correct r)
    (hr' : D.Correct r') :
    commits (s r).core <+: commits (s r').core ∨ commits (s r').core <+: commits (s r).core := by
  refine agreement_of_covers (fun s a L _ hok _ hadm _ => covers_keepsBranch hadm ?_ ?_) hs hr hr'
  · rintro prop heq - hoff
    refine hok prop.blk ?_
    unfold LeavesLock
    rw [heq]
    exact ⟨rfl, hoff⟩
  · intro cmds parents extra heq hoff
    refine hok _ ?_
    unfold LeavesLock
    rw [heq]
    exact ⟨rfl, hoff⟩

/-! Four blocks in a row, the last of which commits the first at one replica and not yet at the
other. -/

def row : Deployment clearScheme :=
  quartet false {3} few_of_three [blockOf 1 0 0 [], blockOf 2 1 1 [0, 1, 3],
    blockOf 3 2 2 [0, 1, 3],
    blockOf 4 3 3 [0, 1, 3]]

def rowed : Replicas clearScheme :=
  (execute (guarded (StaysOnLock row) row.next) (
    handles 0 (blockOf 1 0 0 []) ++ handles 1 (blockOf 1 0 0 []) ++
    handles 0 (blockOf 2 1 1 [0, 1, 3]) ++ handles 1 (blockOf 2 1 1 [0, 1, 3]) ++
    handles 0 (blockOf 3 2 2 [0, 1, 3]) ++ handles 1 (blockOf 3 2 2 [0, 1, 3]) ++
    handles 0 (blockOf 4 3 3 [0, 1, 3])) row.start).get (by decide +kernel)

theorem agreement_rowed : commits (rowed 0).core = [1] ∧
    (commits (rowed 0).core <+: commits (rowed 1).core ∨
      commits (rowed 1).core <+: commits (rowed 0).core) :=
  ⟨by decide +kernel, agreement (Deployment.reachable_of_guarded
    (fun _ _ => votesAbove_of_staysOnLock) (Option.some_get _).symm) (by decide) (by decide)⟩

/-! The block 14 is a child of 13 but carries the certificate of block 2, on another branch: the
replicas 1 and 2, which are locked below block 2, vote for it and for what follows. -/

def fork : Deployment clearScheme :=
  quartet false {3} few_of_three [blockOf 1 0 0 [], blockOf 2 1 1 [0, 1, 3],
    blockOf 3 2 2 [0, 1, 3],
    blockOf 4 3 3 [0, 1, 3], blockOf 11 0 0 [], blockOf 12 11 0 [], blockOf 13 12 0 [],
    blockOf 14 13 2 [0, 1, 3], blockOf 15 14 14 [1, 2, 3], blockOf 16 15 15 [1, 2, 3],
    blockOf 17 16 16 [1, 2, 3]]

def forkRun : List (ReplicaID × Input clearScheme) :=
  handles 0 (blockOf 1 0 0 []) ++ handles 1 (blockOf 1 0 0 []) ++
    handles 0 (blockOf 2 1 1 [0, 1, 3]) ++ handles 1 (blockOf 2 1 1 [0, 1, 3]) ++
    handles 0 (blockOf 3 2 2 [0, 1, 3]) ++ handles 1 (blockOf 3 2 2 [0, 1, 3]) ++
    handles 0 (blockOf 4 3 3 [0, 1, 3]) ++
    brings 1 (blockOf 11 0 0 []) ++ brings 1 (blockOf 12 11 0 []) ++
    brings 1 (blockOf 13 12 0 []) ++ handles 1 (blockOf 14 13 2 [0, 1, 3]) ++
    [(2, .fetch (blockOf 2 1 1 [0, 1, 3]))] ++
    brings 2 (blockOf 11 0 0 []) ++ brings 2 (blockOf 12 11 0 []) ++
    brings 2 (blockOf 13 12 0 []) ++ handles 2 (blockOf 14 13 2 [0, 1, 3]) ++
    handles 1 (blockOf 15 14 14 [1, 2, 3]) ++ handles 2 (blockOf 15 14 14 [1, 2, 3]) ++
    handles 1 (blockOf 16 15 15 [1, 2, 3]) ++ handles 2 (blockOf 16 15 15 [1, 2, 3]) ++
    handles 1 (blockOf 17 16 16 [1, 2, 3])

def forked : Replicas clearScheme :=
  (execute fork.next forkRun fork.start).get (by decide +kernel)

/-- Two correct replicas commit different blocks. -/
theorem commits_diverge : fork.env.twoStep = false ∧ Reachable fork.network forked ∧
    fork.Correct 0 ∧ fork.Correct 1 ∧ ¬ commits (forked 0).core <+: commits (forked 1).core ∧
      ¬ commits (forked 1).core <+: commits (forked 0).core :=
  ⟨rfl, Deployment.reachable_of_run (Option.some_get _).symm, by decide, by decide,
    by decide +kernel, by decide +kernel⟩

end ArchipelagoHotStuff.Network.Agreement
