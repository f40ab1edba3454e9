/- Module: ArchipelagoHotStuff/Liveness/Service
   source: hotstuff.cpp (exec_command, do_decide, the cmd_pending handler in start), consensus.cpp
     (update), liveness.h (PaceMakerDummyFixed)
   digest: What the clients of the fixed leader see: their commands are executed in the order of
     their submission, and each is answered by its own callback. -/

import ArchipelagoHotStuff.Liveness.Pipeline

set_option autoImplicit false
set_option relaxedAutoImplicit false

namespace ArchipelagoHotStuff.Liveness.Service

open Crypto.Wire Crypto.Certificates
open Consensus.State Consensus.Effects Consensus.CommitLog Consensus.Machine
open Consensus.Tree hiding Node newEvents
open Consensus.Leading Consensus.Lines Base.Commands General.ParentTree General.Transition
open Pacemaker Policy Phases Pipeline

universe u

variable {K : Secp256k1} {γ : Type u} {env : Env K}

/-! Two lists side by side, one of them longer. -/

theorem zipWith_turn {α β δ : Type*} (f : α → β → δ) {as : List α} {bs : List β} {a : α} {b : β}
    (hget : as[bs.length]? = some a) :
    List.zipWith f as (bs ++ [b]) = List.zipWith f as bs ++ [f a b] := by
  induction bs generalizing as with
  | nil =>
      cases as with
      | nil => cases hget
      | cons a' as =>
          obtain rfl := Option.some.inj hget
          simp
  | cons b' bs ih =>
      cases as with
      | nil => cases hget
      | cons a' as => simp [ih hget]

theorem zipWith_longer {α β δ : Type*} (f : α → β → δ) {as : List α} (as' : List α) {bs : List β}
    (hlength : bs.length ≤ as.length) : List.zipWith f (as ++ as') bs = List.zipWith f as bs := by
  induction bs generalizing as with
  | nil => simp
  | cons b bs ih =>
      cases as with
      | nil => simp at hlength
      | cons a as => simp [ih (Nat.le_of_succ_le_succ hlength)]

/-! What has been done for the commands, in order. -/

def executedBy : Outcome γ → Option Finality
  | .execute fin => some fin
  | .take _ _ | .call _ _ => none

def takenBy : Outcome γ → Option (Uint256 × γ)
  | .take cmdHash callback => some (cmdHash, callback)
  | .execute _ | .call _ _ => none

def calledBy : Outcome γ → Option (γ × Finality)
  | .call callback fin => some (callback, fin)
  | .take _ _ | .execute _ => none

def executed (c : HotStuffBase γ) : List Finality := (c.outcomes.filterMap executedBy).reverse

/-- The submissions that the handler has taken from the queue. -/
def taken (c : HotStuffBase γ) : List (Uint256 × γ) := (c.outcomes.filterMap takenBy).reverse

def called (c : HotStuffBase γ) : List (γ × Finality) := (c.outcomes.filterMap calledBy).reverse

/-- What the core has passed to `do_decide`. -/
def decisions (c : HotStuffCore K) : List Finality := (c.trace.filterMap decidedBy).reverse

section base

variable {c c' : HotStuffBase γ}

theorem executed_doDecide (c : HotStuffBase γ) (fin : Finality) :
    executed (c.doDecide fin) = executed c ++ [fin] := by
  unfold executed
  obtain ⟨_, _, ⟨_, _, hlog⟩ | ⟨_, _, _, hlog⟩⟩ := doDecide_spec c fin
  · rw [hlog]
    exact List.reverse_cons
  · rw [hlog]
    exact List.reverse_cons

theorem executed_decisions (fins : List Finality) (c : HotStuffBase γ) :
    executed (fins.foldl HotStuffBase.doDecide c) = executed c ++ fins := by
  induction fins generalizing c with
  | nil => simp
  | cons fin fins ih => simp [ih, executed_doDecide]

theorem taken_doDecide (c : HotStuffBase γ) (fin : Finality) :
    taken (c.doDecide fin) = taken c := by
  unfold taken
  obtain ⟨_, _, ⟨_, _, hlog⟩ | ⟨_, _, _, hlog⟩⟩ := doDecide_spec c fin
  · rw [hlog]
    rfl
  · rw [hlog]
    rfl

theorem taken_decisions (fins : List Finality) (c : HotStuffBase γ) :
    taken (fins.foldl HotStuffBase.doDecide c) = taken c := by
  induction fins generalizing c with
  | nil => rfl
  | cons fin fins ih => rw [List.foldl_cons, ih, taken_doDecide]

theorem called_doDecide {fin : Finality} {callback : γ}
    (hwaits : c.decisionWaiting fin.cmdHash = some callback) :
    called (c.doDecide fin) = called c ++ [(callback, fin)] ∧
      (c.doDecide fin).decisionWaiting = Function.update c.decisionWaiting fin.cmdHash none := by
  obtain ⟨_, _, ⟨hnone, _⟩ | ⟨cb, hsome, hwaiting, hlog⟩⟩ := doDecide_spec c fin
  · rw [hnone] at hwaits
    cases hwaits
  · obtain rfl : cb = callback := Option.some.inj (hsome.symm.trans hwaits)
    refine ⟨?_, hwaiting⟩
    unfold called
    rw [hlog]
    exact List.reverse_cons

theorem taken_process {proposer : ReplicaID} (hstep : c.process proposer = some c') :
    ∃ k cb, c.cmdPending = (k, cb) :: c'.cmdPending ∧ taken c' = taken c ++ [(k, cb)] ∧
      executed c' = executed c ∧ (c.decisionWaiting k = none → called c' = called c ∧
        c'.decisionWaiting = Function.update c.decisionWaiting k (some cb)) := by
  obtain ⟨k, cb, rest, hqueue, hrest, _, ⟨_, hwaiting, hlog⟩ | ⟨hwaits, _, hlog⟩⟩ :=
    process_spec hstep
  · refine ⟨k, cb, by rw [hrest]; exact hqueue, ?_, ?_, fun _ => ⟨?_, hwaiting⟩⟩
    · unfold taken
      rw [hlog]
      exact List.reverse_cons
    · unfold executed
      rw [hlog]
      rfl
    · unfold called
      rw [hlog]
      rfl
  · refine ⟨k, cb, by rw [hrest]; exact hqueue, ?_, ?_, fun hnone => absurd hnone hwaits⟩
    · unfold taken
      rw [hlog]
      exact List.reverse_cons
    · unfold executed
      rw [hlog]
      rfl

/-- Who has submitted a command is called with its decision, in the order of the submissions. -/
structure Answered (c : HotStuffBase γ) : Prop where
  most : (executed c).length ≤ (taken c).length
  calls : called c = List.zipWith (fun e fin => (e.2, fin)) (taken c) (executed c)
  waits : ∀ h callback, c.decisionWaiting h = some callback ↔
    (h, callback) ∈ (taken c).drop (executed c).length

theorem Answered.doDecide {fin : Finality} (hok : Answered c)
    (hnodup : ((taken c).map Prod.fst).Nodup)
    (hturn : ((taken c).map Prod.fst)[(executed c).length]? = some fin.cmdHash) :
    Answered (c.doDecide fin) := by
  rw [List.getElem?_map] at hturn
  obtain ⟨⟨k, cb⟩, hget, rfl⟩ := Option.map_eq_some_iff.mp hturn
  obtain ⟨hlt, heq⟩ := List.getElem?_eq_some_iff.mp hget
  have hdrop := List.drop_eq_getElem_cons hlt
  rw [heq] at hdrop
  obtain ⟨hcalled, hwaiting⟩ := called_doDecide ((hok.waits _ cb).mpr (by
    rw [hdrop]
    exact List.mem_cons_self))
  have hsplit : taken c = (taken c).take (executed c).length ++
      (fin.cmdHash, cb) :: (taken c).drop ((executed c).length + 1) := by
    rw [← hdrop, List.take_append_drop]
  have hother : ∀ cb', (fin.cmdHash, cb') ∉ (taken c).drop ((executed c).length + 1) := by
    rw [hsplit, List.map_append, List.map_cons] at hnodup
    have hfresh := (List.nodup_cons.mp (List.nodup_append.mp hnodup).2.1).1
    exact fun cb' hmem => hfresh (List.mem_map.mpr ⟨_, hmem, rfl⟩)
  refine ⟨?_, ?_, fun h cb' => ?_⟩
  · rw [executed_doDecide, taken_doDecide, List.length_append]
    exact hlt
  · rw [hcalled, executed_doDecide, taken_doDecide, zipWith_turn _ hget, hok.calls]
  · rw [executed_doDecide, taken_doDecide, List.length_append, hwaiting, Function.update_apply]
    split
    · rename_i heq
      subst heq
      exact ⟨nofun, fun hmem => absurd hmem (hother cb')⟩
    · rename_i hne
      rw [hok.waits, hdrop, List.mem_cons, Prod.mk.injEq]
      exact ⟨fun hmem => hmem.resolve_left (fun heq => hne heq.1), .inr⟩

theorem Answered.foldl {fins : List Finality} (hok : Answered c)
    (hnodup : ((taken c).map Prod.fst).Nodup)
    (hturn : (executed c ++ fins).map Finality.cmdHash <+: (taken c).map Prod.fst) :
    Answered (fins.foldl HotStuffBase.doDecide c) := by
  induction fins generalizing c with
  | nil => exact hok
  | cons fin fins ih =>
      have hget : ((taken c).map Prod.fst)[(executed c).length]? = some fin.cmdHash := by
        obtain ⟨rest, hrest⟩ := hturn
        rw [← hrest, List.map_append, List.append_assoc, ← List.length_map Finality.cmdHash,
          List.getElem?_append_right le_rfl, Nat.sub_self]
        rfl
      refine ih (hok.doDecide hnodup hget) ?_ ?_
      · rw [taken_doDecide]
        exact hnodup
      · rw [taken_doDecide, executed_doDecide, List.append_assoc]
        exact hturn

theorem Answered.process {proposer : ReplicaID} (hok : Answered c)
    (hnodup : ((taken c').map Prod.fst).Nodup) (hstep : c.process proposer = some c') :
    Answered c' := by
  obtain ⟨k, cb, _, htaken, hexec, hnew⟩ := taken_process hstep
  have hfresh : k ∉ (taken c).map Prod.fst := by
    rw [htaken, List.map_append, List.map_singleton] at hnodup
    exact fun hmem => (List.nodup_append.mp hnodup).2.2 k hmem k List.mem_cons_self rfl
  have hwaits : c.decisionWaiting k = none := by
    cases hsome : c.decisionWaiting k with
    | none => rfl
    | some waiter =>
        have hmem := List.mem_of_mem_drop ((hok.waits k waiter).mp hsome)
        exact absurd (List.mem_map_of_mem hmem) hfresh
  obtain ⟨hcalled, hwaiting⟩ := hnew hwaits
  refine ⟨?_, ?_, fun h cb' => ?_⟩
  · rw [hexec, htaken, List.length_append]
    exact hok.most.trans (Nat.le_add_right _ _)
  · rw [hcalled, hexec, htaken, zipWith_longer _ _ hok.most]
    exact hok.calls
  · rw [hexec, htaken, List.drop_append_of_le_length hok.most, List.mem_append,
      List.mem_singleton, Prod.mk.injEq, hwaiting, Function.update_apply]
    split
    · rename_i heq
      subst heq
      have hother : (h, cb') ∉ (taken c).drop (executed c).length :=
        fun hmem => hfresh (List.mem_map.mpr ⟨_, List.mem_of_mem_drop hmem, rfl⟩)
      simp [hother, eq_comm]
    · rename_i hne
      rw [hok.waits]
      simp [hne]

end base

/-! The decisions of the core. -/

section decisions

variable {c : HotStuffCore K} {m : Uint256} {older : List Uint256}

theorem decisions_eq (hok : CommitOk env c) : decisions c =
    (commits c).flatMap (fun h => (c.blk h).data.cmds.mapIdx (fun i cmd =>
      { rid := c.id, decision := 1, cmdIdx := i, cmdHeight := (c.blk h).height, cmdHash := cmd,
        blkHash := h })) := by
  have houtputs : decisions c = (outputs c).filterMap decidedBy := by
    unfold decisions outputs
    rw [List.filterMap_reverse, List.filterMap_filter]
    congr 1
    refine List.filterMap_congr (fun a _ => ?_)
    cases a <;> rfl
  rw [houtputs, hok.reported]
  unfold reports
  rw [List.filterMap_flatMap]
  congr 1
  funext h
  show (c.finalities h).filterMap decidedBy = _
  unfold HotStuffCore.finalities
  rw [List.mapIdx_eq_zipIdx_map, List.filterMap_map, List.mapIdx_eq_zipIdx_map]
  exact congrFun List.filterMap_eq_map _

theorem length_commits (hline : Line env c m older) (htree : TreeOk env c)
    (hok : CommitOk env c) : (commits c).length = older.length - (chainLength env + 1) := by
  have hdepth := hok.path.depth_tip
  rw [hok.last] at hdepth
  rw [← hline.executed]
  exact hdepth.unique htree.firstParent_genesis (htree.depth (hok.bExec_delivered htree))

/-- The blocks that are committed are the lowest of the line above the genesis block. -/
theorem commits_of_line (hline : Line env c m older) (htree : TreeOk env c)
    (hok : CommitOk env c) :
    commits c = (m :: older).dropLast.reverse.take (older.length - (chainLength env + 1)) := by
  have hlength := length_commits hline htree hok
  have hrow : (m :: older).reverse = env.genesisHash :: (m :: older).dropLast.reverse := by
    rw [← List.dropLast_append_getLast? env.genesisHash hline.root, List.reverse_append,
      List.dropLast_concat]
    rfl
  refine List.ext_getElem? (fun j => ?_)
  rw [List.getElem?_take]
  split
  · rename_i hj
    obtain ⟨h, hget⟩ : ∃ h, (commits c)[j]? = some h :=
      ⟨_, List.getElem?_eq_getElem (hlength ▸ hj)⟩
    have hd := hok.delivered (List.mem_of_getElem? hget)
    have hplace := place_of_height hline htree (hline.mem_of_delivered hd)
    rw [hok.height htree hget, hrow, List.getElem?_cons_succ] at hplace
    rw [hget, hplace]
  · rename_i hj
    exact List.getElem?_eq_none (by rw [hlength]; omega)

end decisions

/-! Batches of equal size, one after another. -/

theorem map_mapIdx {α β δ : Type*} (g : β → δ) (f : Nat → α → β) (l : List α) :
    (l.mapIdx f).map g = l.mapIdx (fun i a => g (f i a)) := by
  refine List.ext_getElem? (fun i => ?_)
  rw [List.getElem?_map, List.getElem?_mapIdx, List.getElem?_mapIdx, Option.map_map]
  rfl

/-- The elements of the batches, numbered within their batch, are those of the concatenation,
numbered throughout. -/
theorem flatten_mapIdx_batches {α β : Type*} {size : Nat} {batches : List (List α)}
    (f : Nat → Nat → α → β) (hsize : 0 < size) (hfull : ∀ l ∈ batches, l.length = size) :
    (batches.mapIdx (fun j l => l.mapIdx (f j))).flatten =
      batches.flatten.mapIdx (fun i => f (i / size) (i % size)) := by
  induction batches generalizing f with
  | nil => rfl
  | cons l batches ih =>
      have hl := hfull l List.mem_cons_self
      have hrest := ih (fun j => f (j + 1)) (fun l' hl' => hfull l' (List.mem_cons_of_mem _ hl'))
      rw [List.mapIdx_cons, List.flatten_cons, List.flatten_cons, List.mapIdx_append, hrest]
      congr 1
      · refine List.mapIdx_eq_mapIdx_iff.mpr (fun i hi => ?_)
        rw [Nat.div_eq_of_lt (hl ▸ hi), Nat.mod_eq_of_lt (hl ▸ hi)]
      · refine List.mapIdx_eq_mapIdx_iff.mpr (fun i hi => ?_)
        rw [hl, Nat.add_div_right i hsize, Nat.add_mod_right]

theorem take_batches {α : Type*} {size k : Nat} {batches : List (List α)} {rest : List α}
    (hfull : ∀ l ∈ batches, l.length = size) (hk : k ≤ batches.length) :
    (batches.flatten ++ rest).take (k * size) = (batches.take k).flatten := by
  induction batches generalizing k with
  | nil =>
      obtain rfl : k = 0 := Nat.le_zero.mp hk
      simp
  | cons l batches ih =>
      cases k with
      | zero => simp
      | succ k =>
          have hl := hfull l List.mem_cons_self
          have hrest := ih (fun l' hl' => hfull l' (List.mem_cons_of_mem _ hl'))
            (Nat.le_of_succ_le_succ hk)
          rw [List.flatten_cons, List.append_assoc, Nat.succ_mul, Nat.add_comm, ← hl,
            List.take_length_add_append, hl, hrest, List.take_succ_cons, List.flatten_cons]

/-! Runs of the leader. -/

section runs

variable {keys : List K.PubKey} {id : ReplicaID} {key : K.PrivKey} {voteDisabled : Bool}
  {blkSize : Nat} {s s' : Leader K γ}

theorem leader_cases {kind : Kind} {a : LeaderInput K γ} (hstep : s.step env kind a = some s') :
    (∃ cmdHash callback, s' = { s with
      base := s.base.execCommand cmdHash callback
      submitted := s.submitted ++ [cmdHash] }) ∨
    (∃ base, s.base.process (s.node.getProposer kind) = some base ∧
      (s' = { s with base } ∨ ∃ cmds beats n', s.node.step env kind (.beat cmds) = some n' ∧
        s' = { s with base := { base with beats }, node := n' })) ∨
    ∃ b n', s.node.step env kind b = some n' ∧ s' = s.advance n' := by
  cases a with
  | submit cmdHash callback => exact .inl ⟨cmdHash, callback, (Option.some.inj hstep).symm⟩
  | process =>
      simp only [Leader.step] at hstep
      split at hstep
      swap
      · cases hstep
      obtain ⟨base, hprocess, hstep⟩ := Option.bind_eq_some_iff.mp hstep
      refine .inr (.inl ⟨base, hprocess, ?_⟩)
      split at hstep
      · exact .inl (Option.some.inj hstep).symm
      · rename_i cmds beats _
        obtain ⟨n', hbeat, heq⟩ := Option.map_eq_some_iff.mp hstep
        exact .inr ⟨cmds, beats, n', hbeat, heq.symm⟩
  | vote vote =>
      simp only [Leader.step] at hstep
      split at hstep
      · obtain ⟨n', hvote, heq⟩ := Option.map_eq_some_iff.mp hstep
        exact .inr (.inr ⟨_, n', hvote, heq.symm⟩)
      · cases hstep
  | run =>
      obtain ⟨n', hrun, heq⟩ := Option.map_eq_some_iff.mp hstep
      exact .inr (.inr ⟨_, n', hrun, heq.symm⟩)

/-- What the core decides in a step of the leader is executed in that step. -/
theorem executed_advance {kind : Kind} {a : NodeInput K} {n' : Node K}
    (hok : ReplicaOk env s.node.replica) (hstep : s.node.step env kind a = some n')
    (hexec : executed s.base = decisions s.node.core) :
    executed (s.advance n').base = decisions n'.core := by
  obtain ⟨new, htrace⟩ : ∃ new, n'.core.trace = new ++ s.node.core.trace := by
    rcases stepped_step hstep with hsame | ⟨j, _, hcore, _⟩
    · exact ⟨[], by unfold Node.core; rw [hsame]; rfl⟩
    · obtain ⟨new, hnew⟩ := (grows_of_trail (hok.step hcore).2).trace
      exact ⟨new, hnew.symm⟩
  have hnew : Pacemaker.newEvents s.node.replica n'.replica = new := newEvents_append htrace
  show executed (List.foldl _ _ _) = _
  rw [executed_decisions, hexec, hnew]
  unfold decisions
  rw [htrace, List.filterMap_append, List.reverse_append]

theorem decisions_beat {n n' : Node K} {kind : Kind} {cmds : List Uint256}
    (hstep : n.step env kind (.beat cmds) = some n') : decisions n'.core = decisions n.core := by
  unfold decisions Node.core
  rcases stepped_step hstep with hsame | ⟨j, rfl, hcore, _⟩
  · rw [hsame]
  · rw [← Option.some.inj hcore]
    show ((n.core.asyncQcFinish n.pm.lastProposed).trace.filterMap decidedBy).reverse = _
    rw [trace_asyncQcFinish]
    rfl

/-- The outcomes tell what the core has decided and what has been submitted. -/
structure ServiceOk (s : Leader K γ) : Prop where
  done : executed s.base = decisions s.node.core
  queued : (taken s.base ++ s.base.cmdPending).map Prod.fst = s.submitted

theorem ServiceOk.advance {kind : Kind} {a : NodeInput K} {n' : Node K} (hok : ServiceOk s)
    (hrep : ReplicaOk env s.node.replica) (hstep : s.node.step env kind a = some n') :
    ServiceOk (s.advance n') := by
  refine ⟨executed_advance hrep hstep hok.done, ?_⟩
  obtain ⟨waiting, outcomes, hbase⟩ := queue_decisions
    ((Pacemaker.newEvents s.node.replica n'.replica).filterMap decidedBy).reverse s.base
  have htaken : taken (s.advance n').base = taken s.base := taken_decisions _ _
  have hpending := congrArg HotStuffBase.cmdPending hbase
  show (taken (s.advance n').base ++ HotStuffBase.cmdPending (List.foldl _ _ _)).map _ = _
  rw [htaken, hpending]
  exact hok.queued

theorem ServiceOk.step {a : LeaderInput K γ} (hok : ServiceOk s)
    (hrep : ReplicaOk env s.node.replica) (hstep : s.step env (.fixed id) a = some s') :
    ServiceOk s' := by
  rcases leader_cases hstep with ⟨cmdHash, callback, rfl⟩ | ⟨base, hprocess, hend⟩ |
    ⟨b, n', hcore, rfl⟩
  · refine ⟨hok.done, ?_⟩
    show (taken s.base ++ (s.base.cmdPending ++ [(cmdHash, callback)])).map Prod.fst = _
    rw [← List.append_assoc, List.map_append, hok.queued]
    rfl
  · obtain ⟨k, cb, hpending, htaken, hexec, _⟩ := taken_process hprocess
    have hqueued : (taken base ++ base.cmdPending).map Prod.fst = s.submitted := by
      rw [htaken, List.append_assoc, List.singleton_append, ← hpending]
      exact hok.queued
    rcases hend with rfl | ⟨cmds, beats, n', hbeat, rfl⟩
    · exact ⟨hexec.trans hok.done, hqueued⟩
    · refine ⟨?_, hqueued⟩
      show executed base = decisions n'.core
      rw [hexec, hok.done, decisions_beat hbeat]
  · exact hok.advance hrep hcore

theorem serviceOk_of_reachable (hblk : 1 ≤ blkSize) (hkeys : id.val < keys.length)
    (hsize : keys.length + 63 < 2 ^ 32)
    (hr : Reachable ((leader γ env keys id key voteDisabled blkSize).restrict (Uncollided env))
      s) : ServiceOk s := by
  refine hr.invariant ?_ (fun s a s' hs hok hstep => ?_)
  · rintro s rfl
    exact ⟨rfl, rfl⟩
  · obtain ⟨m, older, hnode⟩ := (pipelineOk_of_reachable hblk hkeys hsize hs).node
    exact hok.step (replicaOk_of_reachable hnode.replica.of_restrict) hstep.2

/-- How many of the proposed blocks are committed. -/
def settled (env : Env K) (c : HotStuffCore K) : Nat :=
  (proposed c).length - (chainLength env + 1)

/-- The decision on the command number `i` of the block number `j`. -/
def decisionAt (id : ReplicaID) (blocks : List Uint256) (j i : Nat) (cmdHash : Uint256) :
    Finality :=
  { rid := id, decision := 1, cmdIdx := i, cmdHeight := j + 1, cmdHash,
    blkHash := blocks.getD j 0 }

section settled

variable {n : Node K} {m : Uint256} {older : List Uint256}

theorem length_proposed (hok : LeaderOk env keys id key voteDisabled n m older) :
    (proposed n.core).length = older.length := by
  have hlength := congrArg List.length hok.made
  simpa using hlength

theorem reverse_proposed (hok : LeaderOk env keys id key voteDisabled n m older) :
    (proposed n.core).reverse = (m :: older).dropLast.reverse := by
  rw [← hok.made, List.dropLast_concat]

theorem commits_settled (hok : LeaderOk env keys id key voteDisabled n m older) :
    commits n.core = (proposed n.core).reverse.take (settled env n.core) := by
  have htree := (replicaOk_of_reachable hok.replica.of_restrict).tree
  unfold settled
  rw [reverse_proposed hok, length_proposed hok]
  exact commits_of_line hok.line htree (commitOk_of_reachable hok.replica.of_restrict)

theorem length_settled (hok : LeaderOk env keys id key voteDisabled n m older) :
    (commits n.core).length = settled env n.core := by
  rw [commits_settled hok, List.length_take, List.length_reverse]
  exact Nat.min_eq_left (Nat.sub_le _ _)

theorem settled_le (hok : LeaderOk env keys id key voteDisabled n m older) :
    settled env n.core ≤ n.pm.batches.length := by
  have hlengths := congrArg List.length hok.carried
  rw [← reverse_proposed hok, List.length_map, List.length_reverse, length_proposed hok,
    List.length_take] at hlengths
  unfold settled
  rw [length_proposed hok]
  omega

/-- A committed block carries the batch of its place, and is as high as its place. -/
theorem batch_settled {j : Nat} {h : Uint256}
    (hok : LeaderOk env keys id key voteDisabled n m older)
    (hget : (commits n.core)[j]? = some h) :
    (n.pm.batches.take (settled env n.core))[j]? = some (n.core.blk h).data.cmds ∧
      (n.core.blk h).height = j + 1 ∧ (proposed n.core).reverse.getD j 0 = h := by
  have htree := (replicaOk_of_reachable hok.replica.of_restrict).tree
  have hheight := (commitOk_of_reachable hok.replica.of_restrict).height htree hget
  rw [commits_settled hok, List.getElem?_take] at hget
  split at hget
  swap
  · cases hget
  rename_i hj
  have hlt : j < older.length := by
    rw [← length_proposed hok]
    exact hj.trans_le (Nat.sub_le _ _)
  have hcarried := congrArg (fun l => l[j]?) hok.carried
  rw [← reverse_proposed hok, List.getElem?_map, hget, List.getElem?_take, if_pos hlt] at hcarried
  refine ⟨?_, hheight, ?_⟩
  · rw [List.getElem?_take, if_pos hj]
    exact hcarried.symm
  · rw [List.getD_eq_getElem?_getD, hget]
    rfl

theorem decisions_settled (hok : LeaderOk env keys id key voteDisabled n m older) :
    decisions n.core = ((n.pm.batches.take (settled env n.core)).mapIdx (fun j cmds =>
      cmds.mapIdx (decisionAt id (proposed n.core).reverse j))).flatten := by
  have hcommit : CommitOk env n.core := commitOk_of_reachable hok.replica.of_restrict
  rw [decisions_eq hcommit, List.flatMap_def]
  congr 1
  refine List.ext_getElem? (fun j => ?_)
  rw [List.getElem?_map, List.getElem?_mapIdx]
  cases hget : (commits n.core)[j]? with
  | none =>
      rw [List.getElem?_eq_none_iff, length_settled hok] at hget
      rw [List.getElem?_eq_none ((List.length_take_le _ _).trans hget)]
      rfl
  | some h =>
      obtain ⟨hcmds, hheight, hplace⟩ := batch_settled hok hget
      rw [hcmds, Option.map_some, Option.map_some, hheight, hok.settings.1]
      unfold decisionAt
      rw [hplace]

end settled

theorem taken_eq (hqueue : QueueOk s.base s.node.pm.batches s.submitted id blkSize)
    (hok : ServiceOk s) :
    (taken s.base).map Prod.fst = s.node.pm.batches.flatten ++ s.base.cmdPendingBuffer := by
  have horder := hqueue.order
  rw [← hok.queued, List.map_append] at horder
  exact (List.append_cancel_right horder).symm

theorem length_taken (hqueue : QueueOk s.base s.node.pm.batches s.submitted id blkSize)
    (hok : ServiceOk s) : s.node.pm.batches.length * blkSize ≤ (taken s.base).length := by
  rw [← List.length_map Prod.fst, taken_eq hqueue hok, List.length_append, List.length_flatten,
    List.map_congr_left hqueue.full, List.map_const', List.sum_replicate]
  exact Nat.le_add_right _ _

/-- What the leader executes are the first of the commands that have been submitted. -/
theorem executed_eq {m : Uint256} {older : List Uint256}
    (hnode : LeaderOk env keys id key voteDisabled s.node m older)
    (hqueue : QueueOk s.base s.node.pm.batches s.submitted id blkSize) (hok : ServiceOk s)
    (hblk : 1 ≤ blkSize) :
    executed s.base = (s.submitted.take (settled env s.node.core * blkSize)).mapIdx (fun i =>
      decisionAt id (proposed s.node.core).reverse (i / blkSize) (i % blkSize)) := by
  have htake : s.submitted.take (settled env s.node.core * blkSize) =
      (s.node.pm.batches.take (settled env s.node.core)).flatten := by
    rw [← hqueue.order, List.append_assoc]
    exact take_batches hqueue.full (settled_le hnode)
  rw [hok.done, decisions_settled hnode, htake]
  exact flatten_mapIdx_batches (decisionAt id (proposed s.node.core).reverse) hblk
    (fun cmds hcmds => hqueue.full cmds (List.mem_of_mem_take hcmds))

theorem executed_prefix {m : Uint256} {older : List Uint256}
    (hnode : LeaderOk env keys id key voteDisabled s.node m older)
    (hqueue : QueueOk s.base s.node.pm.batches s.submitted id blkSize) (hok : ServiceOk s)
    (hblk : 1 ≤ blkSize) :
    (executed s.base).map Finality.cmdHash <+: (taken s.base).map Prod.fst := by
  have hcmds : (executed s.base).map Finality.cmdHash =
      s.submitted.take (settled env s.node.core * blkSize) := by
    rw [executed_eq hnode hqueue hok hblk, map_mapIdx]
    exact List.ext_getElem? (fun i => by simp [decisionAt])
  have hmany : settled env s.node.core * blkSize ≤ (taken s.base).length :=
    (Nat.mul_le_mul_right _ (settled_le hnode)).trans (length_taken hqueue hok)
  have hfirst : (taken s.base).map Prod.fst <+: s.submitted := by
    rw [← hok.queued, List.map_append]
    exact List.prefix_append _ _
  rw [hcmds]
  refine List.prefix_of_prefix_length_le (List.take_prefix _ _) hfirst ?_
  rw [List.length_map]
  exact (List.length_take_le _ _).trans hmany

/-- The leader executes the submitted commands in the order of their submission, each once:
`blk_size` of them for each of its blocks but the last ones, with the number of the command in its
block, and the height and the hash of the block. -/
theorem leader_executes (hblk : 1 ≤ blkSize) (hkeys : id.val < keys.length)
    (hsize : keys.length + 63 < 2 ^ 32)
    (hr : Reachable ((leader γ env keys id key voteDisabled blkSize).restrict (Uncollided env))
      s) :
    executed s.base = (s.submitted.take (settled env s.node.core * blkSize)).mapIdx (fun i =>
      decisionAt id (proposed s.node.core).reverse (i / blkSize) (i % blkSize)) ∧
    settled env s.node.core * blkSize ≤ s.submitted.length := by
  obtain ⟨⟨m, older, hnode⟩, hqueue⟩ := pipelineOk_of_reachable hblk hkeys hsize hr
  have hok := serviceOk_of_reachable hblk hkeys hsize hr
  refine ⟨executed_eq hnode hqueue hok hblk, ?_⟩
  calc settled env s.node.core * blkSize ≤ s.node.pm.batches.length * blkSize :=
        Nat.mul_le_mul_right _ (settled_le hnode)
    _ ≤ (taken s.base).length := length_taken hqueue hok
    _ ≤ s.submitted.length := by
        rw [← hok.queued, List.length_map, List.length_append]
        exact Nat.le_add_right _ _

theorem leader_executes_led : executed led.base = [⟨0, 1, 0, 1, 1, 1⟩, ⟨0, 1, 1, 1, 2, 1⟩] ∧
    settled namedEnv led.node.core * 2 ≤ led.submitted.length := by
  obtain ⟨hexec, hmany⟩ := leader_executes (by decide) (by decide) (by decide) led_reachable
  have hdone : (led.submitted.take (settled namedEnv led.node.core * 2)).mapIdx (fun i =>
      decisionAt 0 (proposed led.node.core).reverse (i / 2) (i % 2)) =
        [⟨0, 1, 0, 1, 1, 1⟩, ⟨0, 1, 1, 1, 2, 1⟩] := by decide +kernel
  exact ⟨hexec.trans hdone, hmany⟩

theorem Answered.advance {n' : Node K} (hok : Answered s.base)
    (hnodup : ((taken s.base).map Prod.fst).Nodup)
    (hturn : (executed (s.advance n').base).map Finality.cmdHash <+:
      (taken (s.advance n').base).map Prod.fst) : Answered (s.advance n').base := by
  have htaken : taken (s.advance n').base = taken s.base := taken_decisions _ _
  rw [htaken] at hturn
  refine hok.foldl hnodup ?_
  rw [← executed_decisions]
  exact hturn

theorem submitted_step {a : LeaderInput K γ} (hstep : s.step env (.fixed id) a = some s') :
    s.submitted <+: s'.submitted := by
  rcases leader_cases hstep with ⟨cmdHash, callback, rfl⟩ | ⟨base, _, hend⟩ | ⟨b, n', _, rfl⟩
  · exact List.prefix_append _ _
  · rcases hend with rfl | ⟨cmds, beats, n', _, rfl⟩
    · exact List.prefix_refl _
    · exact List.prefix_refl _
  · exact List.prefix_refl _

theorem Answered.step {a : LeaderInput K γ} (hok : Answered s.base)
    (hnodup : ((taken s'.base).map Prod.fst).Nodup)
    (hturn : (executed s'.base).map Finality.cmdHash <+: (taken s'.base).map Prod.fst)
    (hstep : s.step env (.fixed id) a = some s') : Answered s'.base := by
  rcases leader_cases hstep with ⟨cmdHash, callback, rfl⟩ | ⟨base, hprocess, hend⟩ |
    ⟨b, n', _, rfl⟩
  · exact ⟨hok.most, hok.calls, hok.waits⟩
  · have htaken : taken s'.base = taken base := by
      rcases hend with rfl | ⟨cmds, beats, n', _, rfl⟩ <;> rfl
    have hbase : Answered base := hok.process (htaken ▸ hnodup) hprocess
    rcases hend with rfl | ⟨cmds, beats, n', _, rfl⟩
    · exact hbase
    · exact ⟨hbase.most, hbase.calls, hbase.waits⟩
  · have htaken : taken (s.advance n').base = taken s.base := taken_decisions _ _
    exact hok.advance (htaken ▸ hnodup) hturn

/-- As long as no command is submitted twice, every callback is called exactly once, with the
decision on its own command, in the order of the submissions, as soon as the command is executed;
the ones that wait are those of the commands taken since. -/
theorem leader_answers (hblk : 1 ≤ blkSize) (hkeys : id.val < keys.length)
    (hsize : keys.length + 63 < 2 ^ 32)
    (hr : Reachable ((leader γ env keys id key voteDisabled blkSize).restrict (Uncollided env)) s)
    (hnodup : s.submitted.Nodup) :
    called s.base = List.zipWith (fun e fin => (e.2, fin)) (taken s.base) (executed s.base) ∧
      (executed s.base).map Finality.cmdHash <+: (taken s.base).map Prod.fst ∧
      ∀ h callback, s.base.decisionWaiting h = some callback ↔
        (h, callback) ∈ (taken s.base).drop (executed s.base).length := by
  have hturn : ∀ {t : Leader K γ}, Reachable ((leader γ env keys id key voteDisabled
      blkSize).restrict (Uncollided env)) t → ServiceOk t ∧
        (executed t.base).map Finality.cmdHash <+: (taken t.base).map Prod.fst := by
    intro t ht
    obtain ⟨⟨m, older, hnode⟩, hqueue⟩ := pipelineOk_of_reachable hblk hkeys hsize ht
    have hok := serviceOk_of_reachable hblk hkeys hsize ht
    exact ⟨hok, executed_prefix hnode hqueue hok hblk⟩
  have hanswered : Answered s.base := by
    induction hr with
    | init hinit =>
        obtain rfl := hinit
        exact ⟨le_rfl, rfl, fun h callback => ⟨nofun, nofun⟩⟩
    | step ht hstep ih =>
        rename_i t t' a
        obtain ⟨hservice, hprefix⟩ := hturn (ht.step hstep)
        have htaken : ((taken t'.base).map Prod.fst).Nodup := by
          rw [← hservice.queued, List.map_append] at hnodup
          exact (List.nodup_append.mp hnodup).1
        exact (ih (hnodup.sublist (submitted_step hstep.2).sublist)).step htaken hprefix hstep.2
  exact ⟨hanswered.calls, (hturn hr).2, hanswered.waits⟩

theorem leader_answers_led :
    called led.base = [(0, ⟨0, 1, 0, 1, 1, 1⟩), (0, ⟨0, 1, 1, 1, 2, 1⟩)] ∧
      led.base.decisionWaiting 3 = some 0 := by
  obtain ⟨hcalled, _, hwaits⟩ := leader_answers (by decide) (by decide) (by decide) led_reachable
    (by decide +kernel)
  have hpairs : List.zipWith (fun (e : Uint256 × Nat) fin => (e.2, fin)) (taken led.base)
      (executed led.base) = [(0, ⟨0, 1, 0, 1, 1, 1⟩), (0, ⟨0, 1, 1, 1, 2, 1⟩)] := by
    decide +kernel
  exact ⟨hcalled.trans hpairs, (hwaits 3 0).mpr (by decide +kernel)⟩

end runs

end ArchipelagoHotStuff.Liveness.Service
