/- Module: ArchipelagoHotStuff/Network/Replication
   source: consensus.cpp (update, on_propose, on_receive_proposal), consensus.h (Finality),
     hotstuff.cpp (do_decide, state_machine_execute)
   digest: The correct replicas execute the commands of one log that only grows, and what has been
     committed is below every certificate that is as high. -/

import ArchipelagoHotStuff.General.SharedLog
import ArchipelagoHotStuff.Liveness.Service
import ArchipelagoHotStuff.Network.Faultless
import ArchipelagoHotStuff.Network.Heights

set_option autoImplicit false
set_option relaxedAutoImplicit false

namespace ArchipelagoHotStuff.Network.Replication

open Crypto.Wire Crypto.Certificates
open Consensus Consensus.State Consensus.Effects Consensus.Tree Consensus.Trails
open Consensus.Machine Consensus.CommitLog Liveness.Service
open Network.Model Network.Views Network.Chains Network.Refinement Network.Agreement
open Network.Tails Network.Faultless Network.Heights
open General.Transition General.ParentTree General.VoteLedger General.SharedLog

variable {K : Secp256k1} {D : Deployment K} {c c' : HotStuffCore K} {e : Effect K}
  {s s' : Replicas K} {r r' : ReplicaID} {h : Uint256}
  {ok : Replicas K → ReplicaID × Input K → Prop} {code : Uint256 → List Uint256}

/-- What keeps the votes of the correct replicas on one branch. -/
inductive Discipline (D : Deployment K) : (Replicas K → ReplicaID × Input K → Prop) → Prop
  | votes : Discipline D (VotesAbove D)
  | tails : D.env.twoStep = true ∨ D.byzantine = ∅ → Discipline D (HighTail D)

theorem Discipline.locked (hok : Discipline D ok) (hs : Reachable (D.network.restrict ok) s) :
    ∃ L, Reachable (lockedLedgers D.forest D.quorums (chainLength D.env)) L ∧ Joined D s L := by
  cases hok with
  | votes =>
      refine locked_of_reachable (fun s a L _ hvotes _ hadm _ => covers_keepsBranch hadm ?_ ?_) hs
      · rintro prop heq - hoff
        refine hvotes prop.blk ?_
        unfold LeavesLock
        rw [heq]
        exact ⟨rfl, hoff⟩
      · intro cmds parents extra heq hoff
        refine hvotes _ ?_
        unfold LeavesLock
        rw [heq]
        exact ⟨rfl, hoff⟩
  | tails hmode =>
      rcases hmode with htwo | hfault
      · refine locked_of_reachable (fun s a L hs hhigh hr hadm _ => covers_keepsBranch hadm ?_ ?_)
          hs
        · intro prop _ hthree
          rw [htwo] at hthree
          cases hthree
        · intro cmds parents extra heq _
          exact extendsQc_own hs hhigh hr hadm heq
      · exact locked_of_reachable
          (fun s a _ hs hhigh hr hadm _ => covers_faultless hfault hs hhigh hr hadm) hs

/-! Certificates above what is committed. -/

/-- Nobody can commit against a committed block: whatever is as high as it and has the votes of
`nmajority` replicas descends from it, and so do the locks and the highest certificates of the
correct replicas. -/
theorem certified_extends (hok : Discipline D ok) (hs : Reachable (D.network.restrict ok) s)
    (hr : D.Correct r) (hr' : D.Correct r') (hd : ((s r').core.blk h).delivered = true)
    (hhigh : ((s r).core.blk (s r).core.bExec).height ≤ ((s r').core.blk h).height)
    (hcert : Obtains D s h ∨ h = (s r').core.bLock ∨ h = (s r').core.hqc.1) :
    (s r').core.checkAncestry (s r).core.bExec h = true := by
  obtain ⟨L, hL, hj⟩ := hok.locked hs
  have hexec := hj r hr
  have hview := (hj r' hr').view
  have hbacked : Backed D L h := by
    rcases hcert with hvotes | rfl | rfl
    · exact .inr (certified_of_obtains hj hvotes)
    · exact (hj r' hr').chain.lock_backed
    · exact (hj r' hr').chain.hqc_backed
  have hle : D.forest.height (s r).core.bExec ≤ D.forest.height h := by
    rw [← hexec.view.height (hexec.view.commits.bExec_delivered hexec.view.tree),
      ← hview.height hd] at hhigh
    exact hhigh
  have hext : Extends D.forest.parent h (s r).core.bExec :=
    hexec.chain.committed.extends_of_backed hL hbacked hle
  exact hview.tree.checkAncestry_of_extends hd (hview.extends_local hd hext)

theorem certified_extends_calmed : (calmed 0).core.checkAncestry 1 2 = true := by
  have hlock : (calmed 0).core.bLock = 2 := by decide +kernel
  have hexec : (calmed 0).core.bExec = 1 := by decide +kernel
  have hanc := certified_extends (.tails (.inr rfl)) calmed_reachable (r := 0) (h := 2)
    (by decide) (by decide) (by decide +kernel) (by decide +kernel) (.inr (.inl hlock.symm))
  rw [hexec] at hanc
  exact hanc

/-! What the replicas execute. -/

/-- A finality without the replica that reports it. -/
def anonymous (fin : Finality) : Finality := { fin with rid := 0 }

def history (c : HotStuffCore K) : List Finality := (decisions c).map anonymous

/-- The finalities of the commands of some blocks, the first of height 1. -/
def record (code : Uint256 → List Uint256) (blocks : List Uint256) : List Finality :=
  (blocks.mapIdx (fun k h => (code h).mapIdx (fun i cmdHash =>
    { rid := 0, decision := 1, cmdIdx := i, cmdHeight := k + 1, cmdHash, blkHash := h }))).flatten

/-- A block has the commands that its hash stands for. -/
def Spells (D : Deployment K) (code : Uint256 → List Uint256) (s : Replicas K)
    (a : ReplicaID × Input K) : Prop :=
  match a.2 with
  | .fetch data => code (D.env.getHash data) = data.cmds
  | .propose cmds parents extra =>
      code (D.env.getHash ((s a.1).core.newData cmds parents extra)) = cmds
  | _ => True

instance (s : Replicas K) (a : ReplicaID × Input K) : Decidable (Spells D code s a) :=
  match a with
  | (_, .fetch _) => inferInstanceAs (Decidable (_ = _))
  | (_, .propose _ _ _) => inferInstanceAs (Decidable (_ = _))
  | (_, .deliver _) | (_, .receiveProposal _) | (_, .receiveVote _) | (_, .wait _)
  | (_, .resume) => isTrue trivial

/-- Effects that store blocks with the commands of their hashes only. -/
def Spelled (D : Deployment K) (code : Uint256 → List Uint256) : Effect K → Prop
  | .store data => code (D.env.getHash data) = data.cmds
  | .create data => code (D.env.getHash data) = data.cmds
  | _ => True

theorem spelled_outputs : Outputs (Spelled D code) :=
  ⟨fun _ => trivial, fun _ => trivial, fun _ _ => trivial⟩

/-- The stored blocks have the commands of their hashes. -/
def SpelledOk (D : Deployment K) (code : Uint256 → List Uint256) (c : HotStuffCore K) : Prop :=
  ∀ h, h ≠ D.env.genesisHash → (c.storage h).isSome → (c.blk h).data.cmds = code h

theorem SpelledOk.apply (hok : SpelledOk D code c) (hP : Spelled D code e)
    (he : Allowed D.env c e) : SpelledOk D code (Effects.apply D.env c e) := by
  intro h hne hs
  have hsame : ((Effects.apply D.env c e).storage h).isSome = (c.storage h).isSome →
      ((Effects.apply D.env c e).blk h).data.cmds = (c.blk h).data.cmds →
        ((Effects.apply D.env c e).blk h).data.cmds = code h :=
    fun hstored hcmds => hcmds.trans (hok h hne (hstored ▸ hs))
  by_cases hshape : Shapes e
  swap
  · have hnode : ((Effects.apply D.env c e).storage h).map node = (c.storage h).map node :=
      map_node_apply hshape h
    exact hsame (isSome_eq hnode)
      (congrArg (fun n : Node K => n.data.cmds) (node_blk_eq hnode))
  cases e with
  | store data =>
      by_cases hx : h = D.env.getHash data
      · subst hx
        show ((c.addBlk _ _).blk _).data.cmds = _
        rw [blk_store_self D.env he]
        exact hP.symm
      · have hstorage : (Effects.apply D.env c (.store data)).storage h = c.storage h := by
          show (c.addBlk _ _).storage h = _
          rw [c.storage_addBlk_of_none he, if_neg hx]
        exact hsame (by rw [hstorage]) (by unfold HotStuffCore.blk; rw [hstorage])
  | create data =>
      by_cases hx : h = D.env.getHash data
      · subst hx
        show ((createBlk D.env c data).blk _).data.cmds = _
        rw [blk_createBlk_self D.env data]
        exact hP.symm
      · have hstorage : (Effects.apply D.env c (.create data)).storage h = c.storage h := by
          show (createBlk D.env c data).storage h = _
          rw [storage_createBlk data h, if_neg hx]
        exact hsame (by rw [hstorage]) (by unfold HotStuffCore.blk; rw [hstorage])
  | deliver k =>
      exact hsame (c.isSome_modifyBlk k h _)
        (c.field_modifyBlk (fun b : Block K => b.data.cmds) k h (fun _ => rfl))
  | spoil k parents height =>
      exact hsame (c.isSome_modifyBlk k h _)
        (c.field_modifyBlk (fun b : Block K => b.data.cmds) k h (fun _ => rfl))
  | _ => exact absurd hshape id

theorem SpelledOk.start (D : Deployment K) (code : Uint256 → List Uint256) (r : ReplicaID) :
    SpelledOk D code (D.start r).core := by
  intro h hne hs
  have hnone : (D.start r).core.storage h = none := by
    simp [Deployment.start, HotStuffCore.start, hne]
  rw [hnone] at hs
  cases hs

theorem covers_spelled {a : ReplicaID × Input K} (hspells : Spells D code s a) :
    Covers D.env (s a.1) (Spelled D code) a.2 := by
  obtain ⟨r, i⟩ := a
  cases i with
  | fetch data => exact hspells
  | deliver h =>
      intro e he
      cases e <;> first | exact trivial | exact absurd he id
  | propose cmds parents extra =>
      refine ⟨fun e he => ?_, trivial⟩
      cases e with
      | create data =>
          obtain rfl := he
          exact hspells
      | store data => exact absurd he id
      | _ => exact trivial
  | receiveProposal prop =>
      refine ⟨fun e he => ?_, trivial, trivial⟩
      cases e <;> first | exact trivial | exact absurd he id
  | receiveVote vote =>
      intro e he
      cases e <;> first | exact trivial | exact absurd he id
  | wait h => exact trivial
  | resume => exact ⟨fun _ => trivial, fun _ => trivial, fun _ => trivial⟩

theorem spelledOk_of_reachable (hs : Reachable (D.network.restrict (Spells D code)) s) :
    ∀ r, D.Correct r → SpelledOk D code (s r).core := by
  induction hs with
  | init hinit =>
      obtain rfl := hinit
      exact fun r _ => .start D code r
  | step hs hstep ih =>
      obtain ⟨hspells, hstep⟩ := hstep
      exact step_invariant hs.of_restrict (covers_spelled hspells) spelled_outputs hstep ih
        (fun _ _ _ hP hok he => hok.apply hP he)

/-- What a replica has executed are the commands of the blocks that it has committed. -/
theorem history_eq (htree : TreeOk D.env c) (hcommit : CommitOk D.env c)
    (hok : SpelledOk D code c) : history c = record code (commits c) := by
  unfold history record
  rw [decisions_eq hcommit, List.flatMap_def, List.map_flatten, List.map_map]
  congr 1
  refine List.ext_getElem? (fun k => ?_)
  rw [List.getElem?_map, List.getElem?_mapIdx]
  cases hget : (commits c)[k]? with
  | none => rfl
  | some h =>
      have hheight := hcommit.height htree hget
      have hd := hcommit.delivered (List.mem_of_getElem? hget)
      have hne : h ≠ D.env.genesisHash := by
        rintro rfl
        rw [htree.genesis.height] at hheight
        cases hheight
      rw [Option.map_some, Option.map_some, Function.comp_apply, hok h hne (isSome_of_delivered hd),
        hheight, map_mapIdx]
      rfl

theorem mem_record {blocks : List Uint256} {fin : Finality} : fin ∈ record code blocks ↔
    fin.rid = 0 ∧ fin.decision = 1 ∧ ∃ k, fin.cmdHeight = k + 1 ∧ blocks[k]? = some fin.blkHash ∧
      (code fin.blkHash)[fin.cmdIdx]? = some fin.cmdHash := by
  unfold record
  rw [List.mem_flatten]
  constructor
  · rintro ⟨l, hl, hfin⟩
    obtain ⟨k, hk, rfl⟩ := List.mem_mapIdx.mp hl
    obtain ⟨i, hi, rfl⟩ := List.mem_mapIdx.mp hfin
    exact ⟨rfl, rfl, k, rfl, List.getElem?_eq_getElem hk, List.getElem?_eq_getElem hi⟩
  · obtain ⟨rid, decision, cmdIdx, cmdHeight, cmdHash, blkHash⟩ := fin
    rintro ⟨rfl, rfl, k, rfl, hk, hi⟩
    obtain ⟨hk', rfl⟩ := List.getElem?_eq_some_iff.mp hk
    obtain ⟨hi', hcmd⟩ := List.getElem?_eq_some_iff.mp hi
    refine ⟨_, List.mem_mapIdx.mpr ⟨k, hk', rfl⟩, List.mem_mapIdx.mpr ⟨cmdIdx, hi', ?_⟩⟩
    rw [Finality.mk.injEq]
    exact ⟨rfl, rfl, rfl, rfl, hcmd, rfl⟩

theorem record_unique {blocks : List Uint256} {fin fin' : Finality}
    (hfin : fin ∈ record code blocks) (hfin' : fin' ∈ record code blocks)
    (hheight : fin.cmdHeight = fin'.cmdHeight) (hidx : fin.cmdIdx = fin'.cmdIdx) : fin = fin' := by
  obtain ⟨hrid, hdec, k, hk, hblk, hcmd⟩ := mem_record.mp hfin
  obtain ⟨hrid', hdec', k', hk', hblk', hcmd'⟩ := mem_record.mp hfin'
  obtain rfl : k = k' := by omega
  have hsame : fin.blkHash = fin'.blkHash := Option.some.inj (hblk.symm.trans hblk')
  rw [hsame, hidx] at hcmd
  have hcmds : fin.cmdHash = fin'.cmdHash := Option.some.inj (hcmd.symm.trans hcmd')
  cases fin
  cases fin'
  rw [Finality.mk.injEq]
  exact ⟨hrid.trans hrid'.symm, hdec.trans hdec'.symm, hidx, hheight, hcmds, hsame⟩

theorem record_grows {blocks blocks' : List Uint256} (hpre : blocks <+: blocks') :
    record code blocks <+: record code blocks' := by
  obtain ⟨rest, rfl⟩ := hpre
  unfold record
  rw [List.mapIdx_append, List.flatten_append]
  exact List.prefix_append _ _

/-! Runs of the network. -/

/-- The runs of a disciplined network in which no two blocks share a hash. -/
abbrev replicas (D : Deployment K) (code : Uint256 → List Uint256)
    (ok : Replicas K → ReplicaID × Input K → Prop) :
    System (Replicas K) (ReplicaID × Input K) :=
  D.network.restrict (fun s a => ok s a ∧ Spells D code s a)

theorem history_of_reachable (hs : Reachable (replicas D code ok) s) (hr : D.Correct r) :
    history (s r).core = record code (commits (s r).core) := by
  have hlocal := localOk_of_reachable hs.of_restrict r
  exact history_eq hlocal.tree hlocal.commits
    (spelledOk_of_reachable (hs.restrict_mono (fun _ _ h => h.2)) r hr)

theorem histories_agree (hok : Discipline D ok) (hs : Reachable (replicas D code ok) s)
    (hr : D.Correct r) (hr' : D.Correct r') :
    history (s r).core <+: history (s r').core ∨ history (s r').core <+: history (s r).core := by
  obtain ⟨L, hL, hj⟩ := hok.locked (hs.restrict_mono (fun _ _ h => h.1))
  rw [history_of_reachable hs hr, history_of_reachable hs hr']
  have hpre := commits_prefix hL (hj r hr) (hj r' hr')
  exact hpre.imp record_grows record_grows

theorem history_step {a : ReplicaID × Input K} (hs : Reachable D.network s)
    (hstep : D.network.step s a s') :
    history (s a.1).core <+: history (s' a.1).core ∧
      ∀ r, r ≠ a.1 → history (s' r).core = history (s r).core := by
  obtain ⟨hself, hother⟩ := Deployment.advance_eq hstep.2.2
  refine ⟨?_, fun r hne => by rw [hother r hne]⟩
  have hok := replicaOk_of_reachable (Deployment.replica_reachable hs a.1)
  obtain ⟨new, hnew⟩ := (grows_of_trail (hok.step hself).2).trace
  unfold history decisions
  rw [← hnew, List.filterMap_append, List.reverse_append, List.map_append]
  exact List.prefix_append _ _

/-- The network as readers of one log. -/
def replication (hok : Discipline D ok) :
    Simulation (replicas D code ok) (sharedLog ReplicaID Finality) :=
  sharing D.Correct (fun s r => history (s r).core)
    (by
      rintro s rfl r _
      rfl)
    (by
      intro s a s' hs hstep
      obtain ⟨hself, hother⟩ := history_step hs.of_restrict hstep.2
      exact ⟨a.1, fun _ => hself, fun r _ hne => hother r hne⟩)
    (fun s hs r r' hr hr' => histories_agree hok hs hr hr')

/-- State machine replication: along every run the correct replicas execute the commands of one
log, which only grows; none of them skips a command, executes one out of order or goes back. -/
theorem replicated_log (hok : Discipline D ok) (hs : Reachable (replicas D code ok) s)
    (hrun : Steps (replicas D code ok) s s') :
    ∃ t t', Reachable (sharedLog ReplicaID Finality) t ∧ Steps (sharedLog ReplicaID Finality) t t' ∧
      ∀ r, D.Correct r → history (s r).core = t.seen r ∧ history (s' r).core = t'.seen r := by
  obtain ⟨t, ht, hrel⟩ := (replication hok).reachable hs
  obtain ⟨t', hsteps, hrel'⟩ := (replication hok).steps hs ht hrel hrun
  exact ⟨t, t', ht, hsteps, fun r hr => ⟨(hrel.seen_eq hr).symm, (hrel'.seen_eq hr).symm⟩⟩

/-! Replica 0 commits block 1 first; then replica 1 does. -/

def copying : Replicas clearScheme → ReplicaID × Input clearScheme →
    Option (Replicas clearScheme) :=
  guarded (fun s a => HighTail calm s a ∧ Spells calm (fun h => [h]) s a) calm.next

def leading : Replicas clearScheme :=
  (execute copying (proposes 0 1 0 ++ gathers (blockOf 1 0 0 []) ++
    proposes 0 2 1 ++ gathers (blockOf 2 1 1 [0, 1, 2]) ++
    proposes 0 3 2 ++ gathers (blockOf 3 2 2 [0, 1, 2]) ++ proposes 0 4 3) calm.start).get
    (by decide +kernel)

def copied : Replicas clearScheme :=
  (execute copying (handles 1 (blockOf 4 3 3 [0, 1, 2])) leading).get (by decide +kernel)

theorem leading_reachable : Reachable (replicas calm (fun h => [h]) (HighTail calm)) leading :=
  Deployment.reachable_of_guarded (fun _ _ => id) (Option.some_get _).symm

theorem copied_later : Steps (replicas calm (fun h => [h]) (HighTail calm)) leading copied := by
  refine steps_of_execute (fun s a s' hstep => ?_) (Option.some_get _).symm
  obtain ⟨hok, hnext⟩ := guarded_eq_some hstep
  exact ⟨hok, Deployment.step_of_next hnext⟩

theorem replicated_log_copied : ∃ t t', Reachable (sharedLog ReplicaID Finality) t ∧
    Steps (sharedLog ReplicaID Finality) t t' ∧ t.seen 0 = [⟨0, 1, 0, 1, 1, 1⟩] ∧ t.seen 1 = [] ∧
      t'.seen 1 = [⟨0, 1, 0, 1, 1, 1⟩] := by
  obtain ⟨t, t', ht, hsteps, hseen⟩ :=
    replicated_log (.tails (.inr rfl)) leading_reachable copied_later
  refine ⟨t, t', ht, hsteps, ?_, ?_, ?_⟩
  · rw [← (hseen 0 (by decide)).1]
    decide +kernel
  · rw [← (hseen 1 (by decide)).1]
    decide +kernel
  · rw [← (hseen 1 (by decide)).2]
    decide +kernel

/-- No two answers of correct replicas about the same place contradict each other, however far
apart they are given. -/
theorem answers_agree (hok : Discipline D ok) (hs : Reachable (replicas D code ok) s)
    (hrun : Steps (replicas D code ok) s s') (hr : D.Correct r) (hr' : D.Correct r')
    {fin fin' : Finality} (hfin : fin ∈ history (s r).core) (hfin' : fin' ∈ history (s' r').core)
    (hheight : fin.cmdHeight = fin'.cmdHeight) (hidx : fin.cmdIdx = fin'.cmdIdx) :
    fin = fin' := by
  have hs' := hs.trans hrun
  have hgrow : history (s r).core <+: history (s' r).core := by
    refine Steps.monotone (R := fun s s' => history (s r).core <+: history (s' r).core) hs
      (fun _ => List.prefix_rfl) List.IsPrefix.trans (fun s a s' hs hstep => ?_) hrun
    obtain ⟨hself, hother⟩ := history_step hs.of_restrict hstep.2
    by_cases hra : r = a.1
    · exact hra ▸ hself
    · rw [hother r hra]
  have hlater := hgrow.subset hfin
  rw [history_of_reachable hs' hr] at hlater
  rw [history_of_reachable hs' hr'] at hfin'
  obtain ⟨L, hL, hj⟩ := hok.locked (hs'.restrict_mono (fun _ _ h => h.1))
  rcases commits_prefix hL (hj r hr) (hj r' hr') with hpre | hpre
  · exact record_unique ((record_grows hpre).subset hlater) hfin' hheight hidx
  · exact record_unique hlater ((record_grows hpre).subset hfin') hheight hidx

theorem answers_agree_copied : (history (leading 0).core).head (by decide +kernel) =
    (history (copied 1).core).head (by decide +kernel) :=
  answers_agree (.tails (.inr rfl)) leading_reachable copied_later (show calm.Correct 0 by decide)
    (show calm.Correct 1 by decide) (List.head_mem _) (List.head_mem _) (by decide +kernel)
    (by decide +kernel)

end ArchipelagoHotStuff.Network.Replication
