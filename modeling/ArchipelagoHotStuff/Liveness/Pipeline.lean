/- Module: ArchipelagoHotStuff/Liveness/Pipeline
   source: hotstuff.cpp (the cmd_pending handler in start, exec_command, do_decide, vote_handler),
     liveness.h (PaceMakerDummyFixed), consensus.cpp (on_propose, on_receive_vote)
   digest: The fixed leader with its queue of commands: each block follows the one before it,
     certifies it, and carries the next batch of commands. -/

import ArchipelagoHotStuff.Base.Commands
import ArchipelagoHotStuff.Liveness.Phases

set_option autoImplicit false
set_option relaxedAutoImplicit false

namespace ArchipelagoHotStuff.Liveness.Pipeline

open Crypto.Wire Crypto.Certificates
open Consensus.State Consensus.Effects Consensus.CommitLog Consensus.Machine
open Consensus.Tree hiding Node newEvents
open Consensus.HighTail Consensus.FailedProposals Consensus.Levels Consensus.Leading
open Consensus.Lines Consensus.Setup
open Consensus.VoteCount Base.Commands General.Transition Pacemaker Phases

universe u

variable {K : Secp256k1} {γ : Type u} {env : Env K}

/-- A replica with its queue of commands, its pacemaker and its core; `submitted` lists what has
been passed to `exec_command`, the oldest first. -/
structure Leader (K : Secp256k1) (γ : Type u) where
  base : HotStuffBase γ
  node : Node K
  submitted : List Uint256

/-- A command is submitted, the handler of `cmd_pending` takes one, a vote that has passed
`vote_handler` arrives, the running call goes on. -/
inductive LeaderInput (K : Secp256k1) (γ : Type u)
  | submit (cmdHash : Uint256) (callback : γ)
  | process
  | vote (vote : Vote K)
  | run

namespace Leader

variable (s : Leader K γ)

/-- The core has run; what it has decided is passed to `do_decide`. -/
def advance (node : Node K) : Leader K γ :=
  { s with
    base := ((Pacemaker.newEvents s.node.replica node.replica).filterMap decidedBy).reverse.foldl
      HotStuffBase.doDecide s.base
    node }

/-- One step.  The handler of `cmd_pending` calls `beat()` as soon as a block is full. -/
def step (env : Env K) (kind : Kind) : LeaderInput K γ → Option (Leader K γ)
  | .submit cmdHash callback =>
      some { s with
        base := s.base.execCommand cmdHash callback
        submitted := s.submitted ++ [cmdHash] }
  | .process =>
      if s.node.idle then
        (s.base.process (s.node.getProposer kind)).bind (fun base =>
          match base.beats with
          | [] => some { s with base }
          | cmds :: beats =>
              (s.node.step env kind (.beat cmds)).map (fun node =>
                { s with base := { base with beats }, node }))
      else none
  | .vote vote =>
      if (vote.verify s.node.core.config).toOption = some true ∧
          (s.node.core.blk vote.blkHash).delivered then
        (s.node.step env kind (.message (.receiveVote vote))).map s.advance
      else none
  | .run => (s.node.step env kind .run).map s.advance

end Leader

/-- A replica whose pacemaker is `PaceMakerDummyFixed` with the replica itself as the proposer. -/
def leader (γ : Type u) (env : Env K) (keys : List K.PubKey) (id : ReplicaID) (key : K.PrivKey)
    (voteDisabled : Bool) (blkSize : Nat) : System (Leader K γ) (LeaderInput K γ) where
  init s := s =
    { base := .start id blkSize
      node := .start env (.fixed id) (HotStuffCore.startConfig keys) id key voteDisabled
      submitted := [] }
  step s a s' := s.step env (.fixed id) a = some s'

/-- The block that the running call is about to build does not have the hash of another one. -/
def Uncollided (env : Env K) (s : Leader K γ) : LeaderInput K γ → Prop
  | .run =>
      match s.node.pm.agenda with
      | .handle pm :: _ => Unshared env s.node.core
          (s.node.core.newData ((s.node.pm.batches[pm]?).getD []) s.node.core.getParents [])
      | _ => True
  | .submit _ _ | .process | .vote _ => True

/-! The queue of commands. -/

section queue

variable {c c' : HotStuffBase γ}

/-- The batches are cut from what has been submitted, in order. -/
structure QueueOk (c : HotStuffBase γ) (batches : List (List Uint256)) (submitted : List Uint256)
    (id : ReplicaID) (blkSize : Nat) : Prop where
  own : c.id = id
  size : c.blkSize = blkSize
  beats : c.beats = []
  order : batches.flatten ++ c.cmdPendingBuffer ++ c.cmdPending.map Prod.fst = submitted
  full : ∀ cmds ∈ batches, cmds.length = blkSize
  short : c.cmdPendingBuffer.length < blkSize

theorem queue_doDecide (c : HotStuffBase γ) (fin : Finality) :
    ∃ waiting outcomes, c.doDecide fin = { c with decisionWaiting := waiting, outcomes } := by
  unfold HotStuffBase.doDecide
  dsimp only
  split
  · exact ⟨_, _, rfl⟩
  · exact ⟨_, _, rfl⟩

theorem queue_decisions (fins : List Finality) (c : HotStuffBase γ) :
    ∃ waiting outcomes, fins.foldl HotStuffBase.doDecide c =
      { c with decisionWaiting := waiting, outcomes } := by
  induction fins generalizing c with
  | nil => exact ⟨c.decisionWaiting, c.outcomes, rfl⟩
  | cons fin fins ih =>
      obtain ⟨waiting, outcomes, hrest⟩ := ih (c.doDecide fin)
      obtain ⟨waiting', outcomes', hfirst⟩ := queue_doDecide c fin
      refine ⟨waiting, outcomes, ?_⟩
      rw [List.foldl_cons, hrest, hfirst]

theorem QueueOk.decisions {batches : List (List Uint256)} {submitted : List Uint256}
    {id : ReplicaID} {blkSize : Nat} (hok : QueueOk c batches submitted id blkSize)
    (fins : List Finality) :
    QueueOk (fins.foldl HotStuffBase.doDecide c) batches submitted id blkSize := by
  obtain ⟨waiting, outcomes, heq⟩ := queue_decisions fins c
  rw [heq]
  exact ⟨hok.own, hok.size, hok.beats, hok.order, hok.full, hok.short⟩

/-- The proposer takes a command into its buffer, and cuts a block once it is full. -/
theorem process_own (hshort : c.cmdPendingBuffer.length < c.blkSize) (hbeats : c.beats = [])
    (hstep : c.process c.id = some c') :
    ∃ k cb, c.cmdPending = (k, cb) :: c'.cmdPending ∧ c'.id = c.id ∧ c'.blkSize = c.blkSize ∧
      c'.cmdPendingBuffer.length < c.blkSize ∧
      (c'.beats = [] ∧ c'.cmdPendingBuffer = c.cmdPendingBuffer ++ [k] ∨
        c'.beats = [c.cmdPendingBuffer ++ [k]] ∧ c'.cmdPendingBuffer = [] ∧
          (c.cmdPendingBuffer ++ [k]).length = c.blkSize) := by
  unfold HotStuffBase.process at hstep
  split at hstep
  · cases hstep
  · rename_i k cb rest hqueue
    dsimp only at hstep
    generalize hbase : (({ c with
      cmdPending := rest
      outcomes := .take k cb :: c.outcomes } : HotStuffBase γ).await k cb) = base at hstep
    obtain ⟨hid, hsize, hpending, hbuffer, hbeats'⟩ : base.id = c.id ∧ base.blkSize = c.blkSize ∧
        base.cmdPending = rest ∧ base.cmdPendingBuffer = c.cmdPendingBuffer ∧
          base.beats = [] := by
      subst hbase
      unfold HotStuffBase.await
      dsimp only
      split
      · exact ⟨rfl, rfl, rfl, rfl, hbeats⟩
      · exact ⟨rfl, rfl, rfl, rfl, hbeats⟩
    rw [if_neg (fun hne => hne hid.symm), hbuffer] at hstep
    obtain rfl := Option.some.inj hstep
    refine ⟨k, cb, ?_⟩
    have hlength : (c.cmdPendingBuffer ++ [k]).length = c.cmdPendingBuffer.length + 1 := by simp
    by_cases hfull : base.blkSize ≤ (c.cmdPendingBuffer ++ [k]).length
    · have hexact : (c.cmdPendingBuffer ++ [k]).length = c.blkSize := by omega
      have htake : (c.cmdPendingBuffer ++ [k]).take base.blkSize = c.cmdPendingBuffer ++ [k] :=
        List.take_of_length_le (by omega)
      have hdrop : (c.cmdPendingBuffer ++ [k]).drop base.blkSize = [] :=
        List.drop_of_length_le (by omega)
      unfold HotStuffBase.cutBlock
      rw [if_pos hfull]
      dsimp only
      rw [htake, hdrop, hbeats', hpending, List.nil_append]
      exact ⟨hqueue, hid, hsize, by simp; omega, .inr ⟨rfl, rfl, hexact⟩⟩
    · unfold HotStuffBase.cutBlock
      rw [if_neg hfull]
      dsimp only
      rw [hpending]
      exact ⟨hqueue, hid, hsize, by omega, .inl ⟨hbeats', rfl⟩⟩

theorem batch_eq {α : Type*} {size k : Nat} {batches : List (List α)} {cmds rest : List α}
    (hfull : ∀ l ∈ batches, l.length = size) (hget : batches[k]? = some cmds) :
    ((batches.flatten ++ rest).drop (k * size)).take size = cmds := by
  induction batches generalizing k with
  | nil => cases hget
  | cons l batches ih =>
      have hl := hfull l List.mem_cons_self
      rw [List.flatten_cons, List.append_assoc]
      cases k with
      | zero =>
          obtain rfl : l = cmds := Option.some.inj hget
          rw [Nat.zero_mul, List.drop_zero, ← hl, List.take_left]
      | succ k =>
          rw [Nat.succ_mul, Nat.add_comm, ← List.drop_drop, ← hl, List.drop_left, hl]
          exact ih (fun l' hl' => hfull l' (List.mem_cons_of_mem _ hl')) hget

end queue

/-! Runs of the leader. -/

section runs

variable {keys : List K.PubKey} {id : ReplicaID} {key : K.PrivKey} {voteDisabled : Bool}
  {blkSize : Nat} {s s' : Leader K γ}

/-- The blocks stand in a line, and the batches they carry come from the queue. -/
structure PipelineOk (env : Env K) (keys : List K.PubKey) (id : ReplicaID) (key : K.PrivKey)
    (voteDisabled : Bool) (blkSize : Nat) (s : Leader K γ) : Prop where
  node : ∃ m older, LeaderOk env keys id key voteDisabled s.node m older
  queue : QueueOk s.base s.node.pm.batches s.submitted id blkSize

theorem PipelineOk.submit (hok : PipelineOk env keys id key voteDisabled blkSize s)
    (cmdHash : Uint256) (callback : γ) :
    PipelineOk env keys id key voteDisabled blkSize { s with
      base := s.base.execCommand cmdHash callback
      submitted := s.submitted ++ [cmdHash] } := by
  refine ⟨hok.node, hok.queue.own, hok.queue.size, hok.queue.beats, ?_, hok.queue.full,
    hok.queue.short⟩
  show s.node.pm.batches.flatten ++ s.base.cmdPendingBuffer ++
    (s.base.cmdPending ++ [(cmdHash, callback)]).map Prod.fst = s.submitted ++ [cmdHash]
  rw [List.map_append, ← List.append_assoc, hok.queue.order]
  rfl

/-- The handler takes a command, and hands the batch to the pacemaker if it is full. -/
theorem PipelineOk.process (hok : PipelineOk env keys id key voteDisabled blkSize s)
    (hstep : s.step env (.fixed id) .process = some s') :
    PipelineOk env keys id key voteDisabled blkSize s' := by
  obtain ⟨⟨m, older, hnode⟩, hqueue⟩ := hok
  simp only [Leader.step] at hstep
  split at hstep
  swap
  · cases hstep
  obtain ⟨base, hprocess, hstep⟩ := Option.bind_eq_some_iff.mp hstep
  rw [show s.node.getProposer (.fixed id) = s.base.id from hqueue.own.symm] at hprocess
  obtain ⟨k, cb, hpending, hid, hsize, hshort, hcut⟩ :=
    process_own (by rw [hqueue.size]; exact hqueue.short) hqueue.beats hprocess
  have horder := hqueue.order
  rw [hpending, List.map_cons] at horder
  rcases hcut with ⟨hbeats, hbuffer⟩ | ⟨hbeats, hbuffer, hfull⟩
  · rw [hbeats] at hstep
    obtain rfl := Option.some.inj hstep
    refine ⟨⟨m, older, hnode⟩, hid.trans hqueue.own, hsize.trans hqueue.size, hbeats, ?_,
      hqueue.full, by rw [← hqueue.size]; exact hshort⟩
    show _ ++ base.cmdPendingBuffer ++ _ = s.submitted
    rw [hbuffer, ← horder]
    simp
  · rw [hbeats] at hstep
    obtain ⟨n', hbeat, rfl⟩ := Option.map_eq_some_iff.mp hstep
    obtain ⟨hnode', hbatches⟩ := hnode.beat hnode.settings.1 hbeat
    refine ⟨⟨m, older, hnode'⟩, hid.trans hqueue.own, hsize.trans hqueue.size, rfl, ?_,
      fun cmds hcmds => ?_, by rw [← hqueue.size]; exact hshort⟩
    · show n'.pm.batches.flatten ++ base.cmdPendingBuffer ++ _ = s.submitted
      rw [hbatches, hbuffer, ← horder]
      simp
    · rw [hbatches, List.mem_append, List.mem_singleton] at hcmds
      rcases hcmds with hcmds | rfl
      · exact hqueue.full cmds hcmds
      · exact hfull.trans hqueue.size

theorem PipelineOk.advance {n' : Node K} {m : Uint256} {older : List Uint256}
    (hok : PipelineOk env keys id key voteDisabled blkSize s)
    (hnode : LeaderOk env keys id key voteDisabled n' m older)
    (hbatches : n'.pm.batches = s.node.pm.batches) :
    PipelineOk env keys id key voteDisabled blkSize (s.advance n') := by
  refine ⟨⟨m, older, hnode⟩, ?_⟩
  show QueueOk _ n'.pm.batches s.submitted id blkSize
  rw [hbatches]
  exact hok.queue.decisions _

theorem PipelineOk.step {a : LeaderInput K γ} (hkeys : id.val < keys.length)
    (hsize : keys.length + 63 < 2 ^ 32) (hok : PipelineOk env keys id key voteDisabled blkSize s)
    (hown : Uncollided env s a) (hstep : s.step env (.fixed id) a = some s') :
    PipelineOk env keys id key voteDisabled blkSize s' := by
  obtain ⟨m, older, hnode⟩ := hok.node
  cases a with
  | submit cmdHash callback =>
      obtain rfl := Option.some.inj hstep
      exact hok.submit cmdHash callback
  | process => exact hok.process hstep
  | vote vote =>
      simp only [Leader.step] at hstep
      split at hstep
      swap
      · cases hstep
      rename_i hguard
      obtain ⟨n', hvote, rfl⟩ := Option.map_eq_some_iff.mp hstep
      have hvalid : vote.verify s.node.core.config = .ok true := by
        cases hv : vote.verify s.node.core.config with
        | error e =>
            rw [hv] at hguard
            cases hguard.1
        | ok b =>
            rw [hv] at hguard
            exact congrArg _ (Option.some.inj hguard.1)
      obtain ⟨hnode', hbatches⟩ := hnode.counts hvalid hguard.2 hvote
      exact hok.advance hnode' hbatches
  | run =>
      obtain ⟨n', hrun, rfl⟩ := Option.map_eq_some_iff.mp hstep
      by_cases hhandle : s.node.pm.agenda = [.handle older.length]
      · unfold Uncollided at hown
        rw [hhandle] at hown
        obtain ⟨c', h, _, hnext, hnode'⟩ := hnode.propose hkeys hsize hhandle hown
        obtain rfl := Option.some.inj (hnext.symm.trans hrun)
        exact hok.advance hnode' rfl
      · obtain ⟨hnode', hbatches⟩ := hnode.run hhandle hrun
        exact hok.advance hnode' hbatches

theorem pipelineOk_of_reachable (hblk : 1 ≤ blkSize) (hkeys : id.val < keys.length)
    (hsize : keys.length + 63 < 2 ^ 32)
    (hr : Reachable ((leader γ env keys id key voteDisabled blkSize).restrict (Uncollided env)) s) :
    PipelineOk env keys id key voteDisabled blkSize s := by
  refine hr.invariant ?_ (fun _ _ _ _ hok hstep => hok.step hkeys hsize hstep.1 hstep.2)
  rintro s rfl
  exact ⟨⟨env.genesisHash, [], .start env key voteDisabled hkeys⟩, rfl, rfl, rfl, rfl,
    by simp [Node.start, PaceMaker.start, PaceMaker.fresh], hblk⟩

/-- The block at a place of the line is as high as the place, and follows the one before. -/
theorem place_of_line {c : HotStuffCore K} {m b q : Uint256} {older : List Uint256} {k : Nat}
    (hline : Line env c m older) (htree : TreeOk env c)
    (hb : (m :: older).reverse[k + 1]? = some b) (hq : (m :: older).reverse[k]? = some q) :
    (c.blk b).height = k + 1 ∧ Certifies c b q := by
  have hlinked : (m :: older).reverse.IsChain (fun x y => Certifies c y x) :=
    List.isChain_reverse.mpr hline.linked
  obtain ⟨hlt, hgetb⟩ := List.getElem?_eq_some_iff.mp hb
  obtain ⟨hlt', hgetq⟩ := List.getElem?_eq_some_iff.mp hq
  have hcert := List.isChain_iff_getElem.mp hlinked k hlt
  rw [hgetb, hgetq] at hcert
  refine ⟨?_, hcert⟩
  have hlength : k + 1 < (m :: older).length := by
    rw [List.length_reverse] at hlt
    exact hlt
  rw [List.getElem?_reverse hlength] at hb
  have hheight := hline.height_at htree hb
  rw [List.length_cons] at hheight hlength
  omega

theorem place_of_height {c : HotStuffCore K} {m b : Uint256} {older : List Uint256}
    (hline : Line env c m older) (htree : TreeOk env c) (hb : b ∈ m :: older) :
    (m :: older).reverse[(c.blk b).height]? = some b := by
  obtain ⟨j, hj⟩ := List.mem_iff_getElem?.mp hb
  have hheight := hline.height_at htree hj
  have hlt : j < (m :: older).length := (List.getElem?_eq_some_iff.mp hj).1
  have hlt' : (c.blk b).height < (m :: older).length := by
    rw [List.length_cons]
    omega
  rw [List.getElem?_reverse hlt', ← hj, List.length_cons]
  congr 1
  omega

/-- The fixed leader never stops, `on_propose` does not throw when it is called, and the blocks it
has proposed, the oldest first, have heights 1, 2, and so on: each has the one before as its only
parent, carries its certificate and the next `blk_size` submitted commands; `b_exec` stays three
blocks behind the last one. -/
theorem pipeline_of_leader (hthree : env.twoStep = false) (hblk : 1 ≤ blkSize)
    (hkeys : id.val < keys.length) (hsize : keys.length + 63 < 2 ^ 32)
    (hr : Reachable ((leader γ env keys id key voteDisabled blkSize).restrict (Uncollided env))
      s) :
    s.node.halted = false ∧
    (∀ pm rest, s.node.pm.agenda = .handle pm :: rest → Uncollided env s .run →
      ∃ c, s.node.core.onPropose env ((s.node.pm.batches[pm]?).getD []) s.node.core.getParents [] =
        .ok (false, c)) ∧
    (∀ k b q, (proposed s.node.core).reverse[k]? = some b →
      (env.genesisHash :: (proposed s.node.core).reverse)[k]? = some q →
      (s.node.core.blk b).height = k + 1 ∧ (s.node.core.blk b).parents = [q] ∧
        (s.node.core.blk b).qcRef = some q ∧
        (s.node.core.blk b).data.cmds = (s.submitted.drop (k * blkSize)).take blkSize ∧
        (s.node.core.blk b).data.cmds.length = blkSize) ∧
    (env.genesisHash :: (proposed s.node.core).reverse)[(proposed s.node.core).length - 3]? =
      some s.node.core.bExec := by
  obtain ⟨⟨m, older, hnode⟩, hqueue⟩ := pipelineOk_of_reachable hblk hkeys hsize hr
  have hrep := replicaOk_of_reachable hnode.replica.of_restrict
  have hrow : env.genesisHash :: (proposed s.node.core).reverse = (m :: older).reverse := by
    rw [← hnode.made, List.reverse_append]
    rfl
  have hlength : (proposed s.node.core).length = older.length := by
    have hlength := congrArg List.length hnode.made
    simpa using hlength
  have hblocks : (proposed s.node.core).reverse = (m :: older).dropLast.reverse := by
    rw [← hnode.made, List.dropLast_concat]
  refine ⟨hnode.steady.halted, fun pm rest hagenda hown => ?_, fun k b q hb hq => ?_, ?_⟩
  · unfold Uncollided at hown
    rw [hagenda] at hown
    obtain ⟨c, _, hres, _⟩ := hnode.propose hkeys hsize hagenda hown
    exact ⟨c, hres⟩
  · have hb' : (m :: older).reverse[k + 1]? = some b := by
      rw [← hrow, List.getElem?_cons_succ]
      exact hb
    rw [hrow] at hq
    obtain ⟨hheight, hparent, hqc⟩ := place_of_line hnode.line hrep.tree hb' hq
    have hmem : b ∈ (m :: older).dropLast := by
      rw [hblocks] at hb
      exact List.mem_reverse.mp (List.mem_of_getElem? hb)
    -- The batch at that place is the one the block carries.
    have hcarried := congrArg (fun l => l[k]?) hnode.carried
    rw [hblocks] at hb
    rw [List.getElem?_map, hb, Option.map_some] at hcarried
    have hbatch : s.node.pm.batches[k]? = some (s.node.core.blk b).data.cmds := by
      rw [List.getElem?_take] at hcarried
      split at hcarried
      · exact hcarried.symm
      · cases hcarried
    refine ⟨hheight, ?_, hqc, ?_, hqueue.full _ (List.mem_of_getElem? hbatch)⟩
    · have hsingle := hnode.single b hmem
      obtain ⟨p, hp⟩ := List.length_eq_one_iff.mp hsingle
      rw [firstParent_eq (delivered_of_firstParent hparent), hp] at hparent
      rw [hp, Option.some.inj hparent]
    · rw [← hqueue.order, List.append_assoc]
      exact (batch_eq hqueue.full hbatch).symm
  · have hexecuted := (commitOk_of_reachable hnode.replica.of_restrict).bExec_delivered hrep.tree
    have hplace := place_of_height hnode.line hrep.tree (hnode.line.mem_of_delivered hexecuted)
    have hchain : chainLength env = 2 := by
      unfold chainLength
      rw [hthree]
      rfl
    have hheight := hnode.line.executed
    rw [hchain] at hheight
    rw [hrow, hlength]
    exact (congrArg _ hheight.symm).trans hplace

instance (s : Leader K γ) (a : LeaderInput K γ) : Decidable (Uncollided env s a) :=
  match a with
  | .run =>
      match hagenda : s.node.pm.agenda with
      | .handle pm :: _ =>
          decidable_of_iff (_ ≠ _ ∧ Distinct env s.node.core
            (s.node.core.newData ((s.node.pm.batches[pm]?).getD []) s.node.core.getParents []))
            (by simp only [Uncollided, hagenda]; rfl)
      | [] | .consensus _ :: _ | .wake _ :: _ | .callback _ :: _ | .attach _ :: _ | .lock :: _
      | .newConsensus _ _ :: _ | .finishNew _ _ :: _ | .hooks _ :: _ | .rehook :: _
      | .receiveHook _ :: _ | .resume :: _ | .rearm :: _ =>
          isTrue (by simp only [Uncollided, hagenda])
  | .submit _ _ | .process | .vote _ => isTrue trivial

/-- Replica `i` votes for a block. -/
def ballot (i : Nat) (h : Uint256) : LeaderInput clearScheme Nat :=
  .vote ⟨ReplicaID.ofIndex i, h, PartCert.create i h⟩

/-- Eight commands for four blocks; replica 1 votes twice for each of the first three, and
replica 2 once. -/
def ledInputs : List (LeaderInput clearScheme Nat) :=
  [1, 2, 3, 4, 5, 6, 7, 8].map (fun cmdHash => .submit cmdHash 0) ++ [.process, .process] ++
    List.replicate 7 .run ++
    [1, 3, 5].flatMap (fun h => [.process, .process, .run, .run, ballot 1 h, ballot 1 h,
      ballot 2 h] ++ List.replicate 6 .run)

def led : Leader clearScheme Nat :=
  (execute (guarded (Uncollided namedEnv) (fun s => s.step namedEnv (.fixed 0))) ledInputs
    { base := .start 0 2
      node := .start namedEnv (.fixed 0) (HotStuffCore.startConfig peerKeys) 0 (0 : Nat) false
      submitted := [] }).get (by decide +kernel)

theorem led_reachable : Reachable ((leader Nat namedEnv peerKeys 0 (0 : Nat) false 2).restrict
    (Uncollided namedEnv)) led :=
  Reachable.trans (.init rfl)
    (steps_of_execute (fun _ _ _ h => guarded_eq_some h) (Option.some_get _).symm)

theorem pipeline_of_leader_led : led.node.halted = false ∧ (led.node.core.blk 7).height = 4 ∧
    (led.node.core.blk 7).parents = [5] ∧ (led.node.core.blk 7).data.cmds = [7, 8] ∧
    led.node.core.bExec = 1 := by
  obtain ⟨hhalted, _, hplace, hexec⟩ :=
    pipeline_of_leader rfl (by decide) (by decide) (by decide) led_reachable
  obtain ⟨hheight, hparents, _, hcmds, _⟩ := hplace 3 7 5 (by decide +kernel) (by decide +kernel)
  have hsubmitted : (led.submitted.drop (3 * 2)).take 2 = [7, 8] := by decide +kernel
  have hfirst : (namedEnv.genesisHash :: (proposed led.node.core).reverse)[
      (proposed led.node.core).length - 3]? = some 1 := by decide +kernel
  exact ⟨hhalted, hheight, hparents, hcmds.trans hsubmitted,
    (Option.some.inj (hfirst.symm.trans hexec)).symm⟩

end runs

end ArchipelagoHotStuff.Liveness.Pipeline
