/- Module: ArchipelagoHotStuff/Network/Faultless
   source: consensus.cpp (update), liveness.h (PMHighTail)
   digest: Without Byzantine replicas every block lies above the one it certifies, and the walk of
     update that commits always ends at the block executed last. -/

import ArchipelagoHotStuff.Consensus.FailedProposals
import ArchipelagoHotStuff.Network.Tails

set_option autoImplicit false
set_option relaxedAutoImplicit false

namespace ArchipelagoHotStuff.Network.Faultless

open Crypto.Wire Crypto.Certificates
open Consensus Consensus.State Consensus.Handlers Consensus.Effects Consensus.Tree
open Consensus.Trails Consensus.Machine Consensus.CommitLog
open Network.Model Network.Views Network.Chains Network.Refinement Network.Agreement Network.Tails
open General.Transition General.ParentTree General.VoteLedger

variable {K : Secp256k1} {D : Deployment K} {c c' : HotStuffCore K} {e : Effect K}
  {L : Ledger ReplicaID Uint256} {r : ReplicaID} {h n : Uint256} {s s' : Replicas K}

/-! The blocks of a network without Byzantine replicas. -/

/-- The blocks a replica stores or has created lie above the blocks they certify. -/
structure AboveOk (D : Deployment K) (c : HotStuffCore K) : Prop where
  stored : ∀ h, (c.storage h).isSome → ExtendsQc D h
  created : ∀ h, .created h ∈ c.trace → ExtendsQc D h

def AddsAbove (D : Deployment K) : Effect K → Prop
  | .store data => ExtendsQc D (D.env.getHash data)
  | .create data => ExtendsQc D (D.env.getHash data)
  | _ => True

theorem addsAbove_outputs : Outputs (AddsAbove D) :=
  ⟨fun _ => trivial, fun _ => trivial, fun _ _ => trivial⟩

theorem extendsQc_genesis : ExtendsQc D D.env.genesisHash := by
  intro q hq
  rw [Deployment.qc_root] at hq
  rw [← Option.some.inj hq]
  exact .refl _

section effects

variable {env : Env K}

theorem created_mem_newEvents :
    .created h ∈ newEvents env c e ↔ ∃ data, e = .create data ∧ h = env.getHash data := by
  rw [mem_newEvents id]
  cases e <;> simp [eventOf, eq_comm]

theorem threw_mem_newEvents {x : Exn} : .threw x ∈ newEvents env c e ↔ e = .throw x := by
  rw [mem_newEvents id]
  cases e <;> simp [eventOf]

theorem stored_of_votesOffLock (hoff : VotesOffLock env c h) : (c.storage h).isSome := by
  obtain ⟨d, hup, _, hlive, _⟩ := hoff
  cases hs : c.storage h with
  | some b => rfl
  | none =>
      have href : (c.blk h).qcRef = none := by
        rw [c.blk_of_none hs]
        rfl
      have hsame : c.update env h = .ok c := by
        unfold HotStuffCore.update HotStuffCore.updateTwoStep HotStuffCore.updateThreeStep
        rw [href]
        split <;> rfl
      rw [hsame] at hup
      cases hup
      unfold HotStuffCore.qcAboveLock at hlive
      rw [href] at hlive
      cases hlive

end effects

theorem AboveOk.apply (hok : AboveOk D c) (hP : AddsAbove D e) (he : Allowed D.env c e) :
    AboveOk D (Effects.apply D.env c e) := by
  refine ⟨fun h hs => ?_, fun h hmem => ?_⟩
  · rcases isSome_apply_cases he hs with hold | ⟨data, rfl, rfl | rfl⟩
    · exact hok.stored h hold
    · exact hP
    · exact hP
  · rw [trace_eq, List.mem_append, created_mem_newEvents] at hmem
    rcases hmem with ⟨data, rfl, rfl⟩ | hold
    · exact hP
    · exact hok.created h hold

theorem AboveOk.start (D : Deployment K) (r : ReplicaID) : AboveOk D (D.start r).core := by
  refine ⟨fun h hs => ?_, nofun⟩
  by_cases hh : h = D.env.genesisHash
  · rw [hh]
    exact extendsQc_genesis
  · have hnone : (D.start r).core.storage h = none := by
      simp [Deployment.start, HotStuffCore.start, hh]
    rw [hnone] at hs
    cases hs

theorem covers_addsAbove {a : ReplicaID × Input K} (hfault : D.byzantine = ∅)
    (hs : Reachable (D.network.restrict (HighTail D)) s) (hhigh : HighTail D s a)
    (hr : D.Correct a.1) (hadm : D.Admits s a.1 a.2)
    (hok : ∀ r, D.Correct r → AboveOk D (s r).core) :
    Covers D.env (s a.1) (AddsAbove D) a.2 := by
  have hown : ∀ cmds parents extra, a.2 = .propose cmds parents extra →
      ExtendsQc D (D.env.getHash ((s a.1).core.newData cmds parents extra)) :=
    fun _ _ _ heq => extendsQc_own hs hhigh hr hadm heq
  obtain ⟨r, i⟩ := a
  cases i with
  | fetch data =>
      obtain ⟨_, _, hbyz | ⟨r', _, hr', hcreated⟩⟩ := hadm
      · rw [hfault] at hbyz
        exact absurd hbyz Finset.not_nonempty_empty
      · exact (hok r' hr').created _ hcreated
  | deliver h =>
      intro e he
      cases e <;> first | exact trivial | exact absurd he id
  | propose cmds parents extra =>
      refine ⟨fun e he => ?_, trivial⟩
      cases e with
      | create data =>
          obtain rfl := he
          exact hown cmds parents extra rfl
      | store data => exact absurd he id
      | _ => exact trivial
  | receiveProposal prop =>
      refine ⟨fun e he => ?_, trivial, trivial⟩
      cases e <;> first | exact trivial | exact absurd he id
  | receiveVote vote =>
      intro e he
      cases e <;> first | exact trivial | exact absurd he id
  | wait h => exact trivial
  | resume => exact ⟨fun _ => trivial, fun _ => trivial, fun _ => trivial⟩

theorem aboveOk_of_reachable (hfault : D.byzantine = ∅)
    (hs : Reachable (D.network.restrict (HighTail D)) s) :
    ∀ r, D.Correct r → AboveOk D (s r).core := by
  induction hs with
  | init hinit =>
      obtain rfl := hinit
      exact fun r _ => .start D r
  | step hs hstep ih =>
      obtain ⟨hhigh, hstep⟩ := hstep
      exact step_invariant hs.of_restrict
        (covers_addsAbove hfault hs hhigh hstep.1 hstep.2.1 ih) addsAbove_outputs hstep ih
        (fun _ _ _ hP hok he => hok.apply hP he)

theorem covers_faultless {a : ReplicaID × Input K} (hfault : D.byzantine = ∅)
    (hs : Reachable (D.network.restrict (HighTail D)) s) (hhigh : HighTail D s a)
    (hr : D.Correct a.1) (hadm : D.Admits s a.1 a.2) :
    Covers D.env (s a.1) (KeepsBranch D) a.2 := by
  refine covers_keepsBranch hadm (fun prop _ _ hoff => ?_) (fun cmds parents extra heq _ => ?_)
  · exact (aboveOk_of_reachable hfault hs a.1 hr).stored _ (stored_of_votesOffLock hoff)
  · exact extendsQc_own hs hhigh hr hadm heq

/-! The walk of `update`. -/

/-- Handling `n`, `update` gets to the walk from `h` in state `d`. -/
def Walks (env : Env K) (c : HotStuffCore K) (n h : Uint256) (d : HotStuffCore K) : Prop :=
  Trail env (RaisesFor c n) c d ∧ CommitReady env d h

/-- Where the ledger keeps the lock rule, the walk ends at the block executed last. -/
theorem walk_ends (hL : Reachable (lockedLedgers D.forest D.quorums (chainLength D.env)) L)
    (hok : JoinedOk D L r c) (hready : CommitReady D.env c h) :
    ∃ queue, c.descend (c.blk c.bExec).height h = some (queue, c.bExec) := by
  have hd := delivered_of_commitReady hok.view.tree hready
  have hcommitted := (committed_of_commitReady hok.view hok.blocks hok.chain hready).1
  rcases committed_comparable hL hcommitted hok.chain.committed with hext | hext
  · exact checkAncestry_iff.mp
      (hok.view.tree.checkAncestry_of_extends hd (hok.view.extends_local hd hext))
  · -- What the executed block descends from is decided.
    have hlocal := hok.view.extends_local (hok.view.commits.bExec_delivered hok.view.tree) hext
    rw [← hok.view.commits.last] at hlocal
    have hdec := (hok.view.commits.decided h).mpr
      (hok.view.commits.path.mem_of_extends hok.view.tree.firstParent_genesis hlocal)
    rw [hready.undecided] at hdec
    cases hdec

theorem not_allowed_breach
    (hL : Reachable (lockedLedgers D.forest D.quorums (chainLength D.env)) L)
    (hok : JoinedOk D L r c) : ¬ Allowed D.env c (.throw .safetyBreached) := by
  intro he
  obtain ⟨h, queue, b, hready, hdesc, hne⟩ := he rfl
  obtain ⟨queue', hdesc'⟩ := walk_ends hL hok hready
  rw [hdesc] at hdesc'
  exact hne (Prod.mk.inj (Option.some.inj hdesc')).2

theorem no_breach_trail (hr : D.Correct r)
    (hL : Reachable (lockedLedgers D.forest D.quorums (chainLength D.env)) L)
    (hok : JoinedOk D L r c) (hno : .threw .safetyBreached ∉ c.trace)
    (htrail : Trail D.env (fun e => Vouched D L e ∧ KeepsBranch D e) c c') :
    .threw .safetyBreached ∉ c'.trace := by
  have hinv : ∃ L', Extended D (lockRule D) r L L' ∧ JoinedOk D L' r c' ∧
      .threw .safetyBreached ∉ c'.trace := by
    refine Trail.invariant (I := fun d => ∃ L', Extended D (lockRule D) r L L' ∧
      JoinedOk D L' r d ∧ .threw .safetyBreached ∉ d.trace) htrail ⟨L, .refl L, hok, hno⟩ ?_
    rintro d e ⟨hP, hG⟩ ⟨L', hext, hok', hno'⟩ he
    obtain ⟨M, hextM, hokM⟩ := extended_apply keeps_lockRule hr hL hext hok' hP hG he
    refine ⟨M, hextM, hokM, ?_⟩
    rw [trace_eq, List.mem_append, threw_mem_newEvents]
    rintro (rfl | hold)
    · exact not_allowed_breach (hL.trans hext.steps) hok' he
    · exact hno' hold
  obtain ⟨L', _, _, hno'⟩ := hinv
  exact hno'

theorem walks_end (hr : D.Correct r)
    (hL : Reachable (lockedLedgers D.forest D.quorums (chainLength D.env)) L)
    (hok : JoinedOk D L r c) (hwalk : Walks D.env c n h c') :
    ∃ queue, c'.descend (c'.blk c'.bExec).height h = some (queue, c'.bExec) := by
  have htrail : Trail D.env (fun e => Vouched D L e ∧ KeepsBranch D e) c c' := by
    refine hwalk.1.mono (fun e he => ?_)
    cases e <;> first | exact ⟨trivial, trivial⟩ | exact absurd he id
  obtain ⟨L', hext, hok'⟩ := extended_trail keeps_lockRule hr hL hok htrail
  exact walk_ends (hL.trans hext.steps) hok' hwalk.2

theorem update_returns (hr : D.Correct r)
    (hL : Reachable (lockedLedgers D.forest D.quorums (chainLength D.env)) L)
    (hok : JoinedOk D L r c) (hd : (c.blk n).delivered = true) :
    ∃ d, c.update D.env n = .ok d := by
  cases hup : c.update D.env n with
  | ok d => exact ⟨d, rfl⟩
  | error x =>
      obtain ⟨e, d⟩ := x
      obtain ⟨b, hready, hcommit⟩ := commit_of_update_error hd hup
      obtain ⟨queue, hdesc⟩ := walks_end hr hL hok ⟨(update_error hd hup).1, hready⟩
      rw [HotStuffCore.commit, hdesc] at hcommit
      simp at hcommit

/-- The part of `on_propose` that stores and delivers the new block succeeds as well, and
`update` returns from it. -/
theorem build_returns {data : BlockData K} (hr : D.Correct r)
    (hL : Reachable (lockedLedgers D.forest D.quorums (chainLength D.env)) L)
    (hok : JoinedOk D L r c) (hdist : HighTail.Distinct D.env c data)
    (hne : data.parentHashes ≠ []) (hparents : ∀ p ∈ data.parentHashes, (c.blk p).delivered = true)
    (hqc : data.qc = c.hqc.2)
    (hP : ∀ e, Builds D.env c data e → Vouched D L e ∧ KeepsBranch D e) :
    ∃ d, c.build D.env data = .ok d := by
  have hstored : (c.storage data.qc.objHash).isSome := hqc ▸ hok.hqc_stored
  obtain ⟨woken, c₁, hdeliver⟩ :=
    FailedProposals.deliver_staged hok.view.tree hdist hne hparents hstored
  have hinsert := insert_spec (c := c.eraseTails data.parentHashes) D.env hne hparents hqc hstored
  have hstage := hdeliver
  rw [FailedProposals.stage, show c.config = (c.eraseTails data.parentHashes).config from rfl]
    at hstage
  rw [hstage] at hinsert
  obtain ⟨htrail, hd⟩ := hinsert
  have hbuilds : Trail D.env (Builds D.env c data) c c₁ := by
    refine (Trail.single (e := .eraseTails data.parentHashes) trivial trivial).trans
      (htrail.mono (fun e he => ?_))
    cases e <;> first | exact he | exact absurd he id
  obtain ⟨L', hext, hok'⟩ := extended_trail keeps_lockRule hr hL hok (hbuilds.mono hP)
  rw [FailedProposals.build_eq, hdeliver]
  exact update_returns hr (hL.trans hext.steps) hok' hd

/-- Without Byzantine replicas, with any number of replicas proposing on `get_parents()`, `update`
returns from every delivered block and from every block `on_propose` builds, and its walk ends
exactly at `b_exec`. -/
theorem no_safety_breach (hfault : D.byzantine = ∅)
    (hs : Reachable (D.network.restrict (HighTail D)) s) :
    ∀ r, D.Correct r → .threw .safetyBreached ∉ (s r).core.trace ∧
      (∀ n, ((s r).core.blk n).delivered = true →
        (∃ d, (s r).core.update D.env n = .ok d) ∧
          ∀ h d, Walks D.env (s r).core n h d →
            ∃ queue, d.descend (d.blk d.bExec).height h = some (queue, d.bExec)) ∧
      ∀ cmds extra, D.Names ((s r).core.newData cmds (s r).core.getParents extra) →
        ∃ d, (s r).core.build D.env ((s r).core.newData cmds (s r).core.getParents extra) =
          .ok d := by
  have hlocked : ∀ {t : Replicas K}, Reachable (D.network.restrict (HighTail D)) t →
      ∃ L, Reachable (lockedLedgers D.forest D.quorums (chainLength D.env)) L ∧ Joined D t L :=
    locked_of_reachable
      (fun s a _ hs hhigh hr hadm _ => covers_faultless hfault hs hhigh hr hadm)
  have htrace : ∀ r, D.Correct r → .threw .safetyBreached ∉ (s r).core.trace := by
    refine hs.invariant (I := fun s => ∀ r, D.Correct r →
      .threw .safetyBreached ∉ (s r).core.trace) ?_ ?_
    · rintro s rfl r _
      exact List.not_mem_nil
    · rintro s a s' hs ih ⟨hhigh, hstep⟩ r hr
      obtain ⟨L, hL, hj⟩ := hlocked hs
      have hcov := covers_and (covers_vouched hj hstep)
        (covers_faultless hfault hs hhigh hstep.1 hstep.2.1)
      obtain ⟨htrail, hother⟩ := step_effects hs.of_restrict hcov
        (vouched_outputs keepsBranch_outputs) hstep
      by_cases hra : r = a.1
      · subst hra
        exact no_breach_trail hr hL (hj a.1 hr) (ih a.1 hr) htrail
      · rw [hother r hra]
        exact ih r hr
  intro r hr
  obtain ⟨L, hL, hj⟩ := hlocked hs
  refine ⟨htrace r hr, fun n hd => ⟨update_returns hr hL (hj r hr) hd,
    fun h d hwalk => walks_end hr hL (hj r hr) hwalk⟩, fun cmds extra hnames => ?_⟩
  have hok := hj r hr
  have hdelivered : ∀ p ∈ (s r).core.getParents, ((s r).core.blk p).delivered = true := by
    intro p hp
    obtain rfl := List.mem_singleton.mp hp
    exact (paceOk_of_reachable hs r hr).tail.delivered
  have hpaced := paced_of_highTail (a := (r, .propose cmds (s r).core.getParents extra)) hok.view
    rfl hnames
  have hkeeps := (covers_faultless (a := (r, .propose cmds (s r).core.getParents extra)) hfault hs
    rfl hr hnames).1
  refine build_returns hr hL hok hpaced.2 (List.cons_ne_nil _ _) hdelivered rfl (fun e he => ?_)
  have hproposes := proposes_of_builds he
  exact ⟨hok.vouched_of_proposes hnames hdelivered hproposes, hkeeps e hproposes⟩

/-! Four replicas, all correct: two blocks are proposed at once, and one of them is built upon
until it is committed. -/

def calm : Deployment clearScheme :=
  quartet false ∅ few_of_none [blockOf 1 0 0 [], blockOf 11 0 0 [],
    blockOf 2 1 1 [0, 1, 2], blockOf 3 2 2 [0, 1, 2], blockOf 4 3 3 [0, 1, 2]]

/-- The replicas 1 and 2 handle a block of replica 0, which receives their votes. -/
def gathers (data : BlockData clearScheme) : List (ReplicaID × Input clearScheme) :=
  handles 1 data ++ handles 2 data ++ counts 0 1 (data.cmds.headD 0) ++
    counts 0 2 (data.cmds.headD 0)

def calmed : Replicas clearScheme :=
  (execute (guarded (HighTail calm) calm.next) (proposes 0 1 0 ++ proposes 3 11 0 ++
    gathers (blockOf 1 0 0 []) ++ handles 0 (blockOf 11 0 0 []) ++
    proposes 0 2 1 ++ gathers (blockOf 2 1 1 [0, 1, 2]) ++
    proposes 0 3 2 ++ gathers (blockOf 3 2 2 [0, 1, 2]) ++ proposes 0 4 3) calm.start).get
    (by decide +kernel)

theorem calmed_reachable : Reachable (calm.network.restrict (HighTail calm)) calmed :=
  Deployment.reachable_of_guarded (fun _ _ => id) (Option.some_get _).symm

/-- Replica 0 has committed, and `update` returns from the block that made it commit. -/
theorem no_safety_breach_calmed : commits (calmed 0).core = [1] ∧
    ((calmed 0).core.blk 4).delivered = true ∧
    .threw .safetyBreached ∉ (calmed 0).core.trace ∧
    ∃ d, (calmed 0).core.update calm.env 4 = .ok d := by
  have hdelivered : ((calmed 0).core.blk 4).delivered = true := by decide +kernel
  obtain ⟨htrace, hupdate, _⟩ := no_safety_breach rfl calmed_reachable 0 (by decide)
  exact ⟨by decide +kernel, hdelivered, htrace, (hupdate 4 hdelivered).1⟩

end ArchipelagoHotStuff.Network.Faultless
