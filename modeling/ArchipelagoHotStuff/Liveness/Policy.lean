/- Module: ArchipelagoHotStuff/Liveness/Policy
   source: liveness.h, hotstuff.cpp (do_vote, do_broadcast_proposal)
   digest: A network of replicas with their pacemakers, which propose on get_parents() and wait for
     certificates of blocks they have been told of, so that the results on the protocol apply. -/

import ArchipelagoHotStuff.Liveness.Pacemaker
import ArchipelagoHotStuff.Network.Tails

set_option autoImplicit false
set_option relaxedAutoImplicit false

namespace ArchipelagoHotStuff.Liveness.Policy

open Crypto.Wire Crypto.Certificates
open Consensus.State Consensus.Effects Consensus.Ballots Consensus.Trails
open Consensus.Tree hiding Node newEvents
open Consensus.Machine General.Transition Pacemaker Network.Model Network.Tails

variable {K : Secp256k1}

/-! The calls of the core. -/

/-- The call of the core that a task may make. -/
def TaskCalls (kind : Kind) (n : Node K) : Task → Input K → Prop
  | .handle pm, i =>
      n.getProposer kind = n.core.id ∧
        i = .propose ((n.pm.batches[pm]?).getD []) n.core.getParents []
  | .newConsensus _ cmds, i => i = .propose cmds n.core.getParents []
  | .finishNew _ h, i | .hooks h, i => i = .wait h
  | .resume, i => i = .resume
  | _, _ => False

/-- The call of the core that a step may make. -/
def Calls (kind : Kind) (n : Node K) : NodeInput K → Input K → Prop
  | .message i, j => j = i
  | .beat _, j => j = .wait n.pm.lastProposed
  | .run, j => ∃ task ∈ n.pm.agenda.head?, TaskCalls kind n task j
  | .impeach, _ | .expire, _ | .elected _, _ => False

section calls

variable {env : Env K} {kind : Kind} {n n' : Node K} {i : Input K} {after : List Task}

theorem trace_asyncQcFinish (c : HotStuffCore K) (h : Uint256) :
    (c.asyncQcFinish h).trace = c.trace := by
  unfold HotStuffCore.asyncQcFinish
  split <;> rfl

/-- The core is as before, or has been called with an input of the given kind; the replica halts
when the call throws. -/
def Stepped (env : Env K) (n n' : Node K) (P : Input K → Prop) : Prop :=
  n'.replica = n.replica ∨ ∃ i, P i ∧ n.replica.step env i = some n'.replica ∧
    (failed n.replica n'.replica = true → n'.halted = true)

theorem stepped_call (h : n.call env i after = some n') : Stepped env n n' (fun j => j = i) := by
  obtain ⟨r, hstep, ⟨_, rfl⟩ | ⟨hok, rfl⟩⟩ := Node.call_eq_some h
  · exact .inr ⟨i, rfl, hstep, fun _ => rfl⟩
  · exact .inr ⟨i, rfl, hstep, fun hfailed => absurd (hok.symm.trans hfailed) Bool.false_ne_true⟩

theorem stepped_whenCertified (env : Env K) (n : Node K) (h : Uint256) (cb : Callback) :
    Stepped env n (n.whenCertified h cb) (fun j => j = .wait h) := by
  unfold Node.whenCertified
  split
  · exact .inl rfl
  · refine .inr ⟨_, rfl, rfl, fun hfailed => ?_⟩
    have hnone : newEvents n.replica ⟨n.core.asyncQcFinish h, n.replica.stack⟩ = [] := by
      unfold newEvents
      rw [trace_asyncQcFinish, show n.core.trace = n.replica.core.trace from rfl, Nat.sub_self,
        List.take_zero]
    rw [failed, hnone] at hfailed
    cases hfailed

theorem stepped_scheduleNext (env : Env K) (n : Node K) :
    Stepped env n n.scheduleNext (fun j => j = .wait n.pm.lastProposed) := by
  unfold Node.scheduleNext
  split
  · exact .inl rfl
  · split
    · exact .inl rfl
    · exact stepped_whenCertified env _ _ _

theorem stepped_runHooks (env : Env K) (n : Node K) (h : Uint256) :
    Stepped env n (n.runHooks h) (fun j => j = .wait h) := by
  unfold Node.runHooks
  dsimp only
  split
  · exact stepped_scheduleNext env _
  · exact .inl rfl

theorem stepped_perform {task : Task} (h : n.perform env kind task = some n') :
    Stepped env n n' (TaskCalls kind n task) := by
  cases task with
  | callback cb =>
      cases cb with
      | beat pm =>
          simp only [Node.perform] at h
          split at h <;> cases h <;> exact .inl rfl
      | manual x =>
          simp only [Node.perform] at h
          by_cases hlast : (if env.twoStep then 2 else 3) ≤ x
          · rw [if_pos hlast] at h
            cases h
            exact .inl rfl
          · rw [if_neg hlast] at h
            cases h
            exact .inl rfl
  | consensus k => cases kind <;> cases h <;> exact .inl rfl
  | attach pm =>
      simp only [Node.perform] at h
      split at h <;> cases h <;> exact .inl rfl
  | handle pm =>
      simp only [Node.perform] at h
      split at h
      · rename_i hid
        exact (stepped_call h).imp_right (fun ⟨i, hi, hstep⟩ => ⟨i, ⟨hid, hi⟩, hstep⟩)
      · cases h
        exact .inl rfl
  | newConsensus x cmds => exact stepped_call h
  | finishNew x k =>
      cases h
      exact stepped_whenCertified env _ _ _
  | hooks k =>
      cases h
      exact stepped_runHooks env n k
  | resume => exact stepped_call h
  | wake k | lock | rehook | receiveHook prop | rearm =>
      cases h
      exact .inl rfl

theorem stepped_step {i : NodeInput K} (h : n.step env kind i = some n') :
    Stepped env n n' (Calls kind n i) := by
  cases i with
  | message i =>
      simp only [Node.step] at h
      split at h
      · exact stepped_call h
      · cases h
  | beat cmds =>
      simp only [Node.step] at h
      split at h
      · split at h <;> cases h
        · unfold Node.beat
          dsimp only
          split
          · exact .inl rfl
          · exact stepped_scheduleNext env _
        · exact .inl rfl
      · cases h
  | impeach =>
      simp only [Node.step] at h
      split at h
      · split at h <;> cases h <;> exact .inl rfl
      · cases h
  | expire =>
      simp only [Node.step] at h
      split at h
      · split at h <;> cases h <;> exact .inl rfl
      · cases h
  | elected cmds =>
      simp only [Node.step] at h
      split at h <;> cases h
      exact .inl rfl
  | run =>
      simp only [Node.step] at h
      split at h
      · cases h
      · split at h
        · cases h
        · rename_i task agenda hagenda
          rcases stepped_perform h with hsame | ⟨i, hi, hstep⟩
          · exact .inl hsame
          · refine .inr ⟨i, ⟨task, ?_, ?_⟩, hstep⟩
            · rw [hagenda]
              exact Option.mem_some_self _
            · cases task <;> exact hi

theorem isMessage_of_step {a : NodeInput K} (h : n.step env kind a = some n') :
    ∀ i, a = .message i → Node.isMessage i = true := by
  rintro i rfl
  simp only [Node.step] at h
  split at h
  · rename_i hguard
    exact (Bool.and_eq_true_iff.mp hguard).2
  · cases h

end calls

/-! Proposing. -/

section proposing

variable {env : Env K} {kind : Kind} {n n' : Node K} {after : List Task}

theorem failed_emit {r : Replica K} {c : HotStuffCore K} {x : Exn}
    (hsuffix : r.core.trace <:+ c.trace) : failed r ⟨c.emit (.threw x), []⟩ = true := by
  obtain ⟨l, hl⟩ := hsuffix
  have hlen : (HotStuffCore.emit c (.threw x)).trace.length - r.core.trace.length =
      l.length + 1 := by
    rw [HotStuffCore.trace_emit, ← hl, List.length_cons, List.length_append]
    omega
  unfold failed newEvents
  dsimp only
  rw [hlen]
  rfl

theorem failed_of_thrown {P : Effect K → Prop} {r r' : Replica K} (h : Thrown env P r r') :
    failed r r' = true := by
  obtain ⟨e, c, htrail, _, rfl⟩ := h
  exact failed_emit (Consensus.Tree.grows_of_trail htrail).trace

theorem failed_announce (r : Replica K) (c : HotStuffCore K) (h : Uint256) (stack : List Frame) :
    failed r (Replica.announce c h stack) = false := by
  unfold failed newEvents
  cases (Replica.announce c h stack).core.trace.length - r.core.trace.length <;> rfl

/-- The replica has proposed a block and told the pacemaker of it. -/
structure Told (env : Env K) (n n' : Node K) (cmds : List Uint256) (after : List Task) : Prop where
  built : ∃ c, Trail env (Proposes env n.core (n.core.newData cmds n.core.getParents [])) n.core c ∧
    Proposed env n.core c (env.getHash (n.core.newData cmds n.core.getParents [])) ∧
    n'.replica = Replica.announce c (env.getHash (n.core.newData cmds n.core.getParents []))
      n.replica.stack
  pm : n'.pm = n.pm.push ((committed n.replica n'.replica).map .consensus ++
    [.hooks (env.getHash (n.core.newData cmds n.core.getParents [])), .resume] ++ after)
  halted : n'.halted = n.halted

/-- A call of `on_propose` on which nobody waits for the new block throws or tells of it. -/
theorem call_propose {cmds : List Uint256} (hcerts : CertsOk n.core)
    (hcalm : ∀ h, .proposed h ∉ n'.replica.stack)
    (h : n.call env (.propose cmds n.core.getParents []) after = some n') :
    (Thrown env (Proposes env n.core (n.core.newData cmds n.core.getParents [])) n.replica
        n'.replica ∧ n'.pm = n.pm ∧ n'.halted = true) ∨ Told env n n' cmds after := by
  obtain ⟨r, hstep, hend⟩ := Node.call_eq_some h
  have hstored : (n.core.storage n.core.hqc.2.objHash).isSome := by
    rw [hcerts.hqc_hash]
    exact hcerts.hqc_stored
  obtain ⟨_, hthrown | ⟨c, htrail, hprop, hstack⟩⟩ := step_propose hstored hstep
  · rcases hend with ⟨_, rfl⟩ | ⟨hok, _⟩
    · exact .inl ⟨hthrown, rfl, rfl⟩
    · rw [failed_of_thrown hthrown] at hok
      cases hok
  · have hreplica : n'.replica = r := by
      rcases hend with ⟨_, rfl⟩ | ⟨_, rfl⟩ <;> rfl
    rcases hstack with ⟨_, rfl⟩ | rfl
    · refine absurd ?_ (hcalm (env.getHash (n.core.newData cmds n.core.getParents [])))
      rw [hreplica]
      exact List.mem_cons_self
    · rcases hend with ⟨hfailed, _⟩ | ⟨_, rfl⟩
      · rw [failed_announce] at hfailed
        cases hfailed
      · exact .inr ⟨⟨c, htrail, hprop, rfl⟩, rfl, rfl⟩

end proposing

/-! What the pacemaker has been told of. -/

/-- The pacemaker works with blocks that it has seen proposed. -/
structure Informed (env : Env K) (n : Node K) : Prop where
  last : n.pm.lastProposed = env.genesisHash ∨ .propose n.pm.lastProposed ∈ n.core.trace
  hooks : ∀ h, .hooks h ∈ n.pm.agenda → .propose h ∈ n.core.trace
  finishes : ∀ x h, .finishNew x h ∈ n.pm.agenda → .propose h ∈ n.core.trace

/-- The task is not about a new block. -/
def Plain : Task → Prop
  | .hooks _ | .finishNew _ _ => False
  | _ => True

section informed

variable {env : Env K} {kind : Kind} {n n' : Node K}

theorem Informed.of_last (hinf : Informed env n) (htrace : n.core.trace ⊆ n'.core.trace)
    (hlast : n'.pm.lastProposed = env.genesisHash ∨ .propose n'.pm.lastProposed ∈ n'.core.trace)
    (hagenda : ∀ task ∈ n'.pm.agenda, task ∈ n.pm.agenda ∨ Plain task) : Informed env n' := by
  refine ⟨hlast, fun h hmem => ?_, fun x h hmem => ?_⟩
  · rcases hagenda _ hmem with hold | hplain
    · exact htrace (hinf.hooks h hold)
    · exact absurd hplain id
  · rcases hagenda _ hmem with hold | hplain
    · exact htrace (hinf.finishes x h hold)
    · exact absurd hplain id

theorem Informed.of_same (hinf : Informed env n) (htrace : n.core.trace ⊆ n'.core.trace)
    (hlast : n'.pm.lastProposed = n.pm.lastProposed)
    (hagenda : ∀ task ∈ n'.pm.agenda, task ∈ n.pm.agenda ∨ Plain task) : Informed env n' := by
  refine hinf.of_last htrace ?_ hagenda
  rw [hlast]
  exact hinf.last.imp_right (fun hmem => htrace hmem)

theorem Informed.of_eq (hinf : Informed env n) (htrace : n.core.trace ⊆ n'.core.trace)
    (hlast : n'.pm.lastProposed = n.pm.lastProposed) (hagenda : n'.pm.agenda = n.pm.agenda) :
    Informed env n' :=
  hinf.of_same htrace hlast (fun _ hmem => .inl (hagenda ▸ hmem))

theorem Informed.push (hinf : Informed env n) (tasks : List Task)
    (hplain : ∀ task ∈ tasks, Plain task) :
    Informed env ({ n with pm := n.pm.push tasks } : Node K) :=
  hinf.of_same (fun _ => id) rfl
    (fun _ hmem => (List.mem_append.mp hmem).symm.imp_right (hplain _))

theorem agenda_rejectQc (p : PaceMaker) (promise : Option Uint256) :
    (p.rejectQc promise).agenda = p.agenda :=
  PaceMaker.field_eq (PaceMaker.steady_rejectQc _ _) PaceMaker.agenda (fun _ => rfl)

theorem lastProposed_rejectQc (p : PaceMaker) (promise : Option Uint256) :
    (p.rejectQc promise).lastProposed = p.lastProposed :=
  PaceMaker.field_eq (PaceMaker.steady_rejectQc _ _) PaceMaker.lastProposed (fun _ => rfl)

theorem agenda_awaitQc (p : PaceMaker) (h : Uint256) (cb : Callback) :
    (p.awaitQc h cb).agenda = p.agenda :=
  PaceMaker.field_eq (PaceMaker.steady_awaitQc _ _ _) PaceMaker.agenda (fun _ => rfl)

theorem lastProposed_awaitQc (p : PaceMaker) (h : Uint256) (cb : Callback) :
    (p.awaitQc h cb).lastProposed = p.lastProposed :=
  PaceMaker.field_eq (PaceMaker.steady_awaitQc _ _ _) PaceMaker.lastProposed (fun _ => rfl)

theorem agenda_onConsensus (p : PaceMaker) (id : ReplicaID) (g h : Uint256) :
    (p.onConsensus id g h).agenda = p.agenda := by
  unfold PaceMaker.onConsensus
  dsimp only
  split
  · exact (agenda_rejectQc _ _).trans (agenda_rejectQc _ _)
  · rfl

theorem lastProposed_onConsensus (p : PaceMaker) (id : ReplicaID) (g h : Uint256) :
    (p.onConsensus id g h).lastProposed = g ∨
      (p.onConsensus id g h).lastProposed = p.lastProposed := by
  unfold PaceMaker.onConsensus
  dsimp only
  split
  · exact .inl rfl
  · exact .inr rfl

theorem recordBlk_same (p : PaceMaker) (registered : Bool) (rid : ReplicaID) (h : Uint256) :
    (p.recordBlk registered rid h).agenda = p.agenda ∧
      (p.recordBlk registered rid h).lastProposed = p.lastProposed := by
  unfold PaceMaker.recordBlk
  split <;> exact ⟨rfl, rfl⟩

theorem Informed.whenCertified (hinf : Informed env n) (h : Uint256) (cb : Callback) :
    Informed env (n.whenCertified h cb) := by
  unfold Node.whenCertified
  split
  · refine hinf.push _ (fun task hmem => ?_)
    rw [List.mem_singleton.mp hmem]
    exact trivial
  · refine hinf.of_eq (fun e he => ?_) (lastProposed_awaitQc n.pm h cb) (agenda_awaitQc n.pm h cb)
    show e ∈ (n.core.asyncQcFinish h).trace
    rwa [trace_asyncQcFinish]

theorem Informed.scheduleNext (hinf : Informed env n) : Informed env n.scheduleNext := by
  unfold Node.scheduleNext
  split
  · exact hinf
  · split
    · exact hinf
    · refine Informed.whenCertified ?_ _ _
      refine hinf.of_same (fun _ => id) (lastProposed_rejectQc _ _) (fun task hmem => ?_)
      rcases List.mem_cons.mp hmem with rfl | hold
      · exact .inr trivial
      · exact .inl hold

theorem Informed.runHooks (hinf : Informed env n) {h : Uint256}
    (hproposed : .propose h ∈ n.core.trace) : Informed env (n.runHooks h) := by
  obtain ⟨hagenda, hlast⟩ := recordBlk_same n.pm n.pm.regProposal n.core.id h
  unfold Node.runHooks
  dsimp only
  split
  · refine Informed.scheduleNext ?_
    refine hinf.of_last (fun _ => id) (.inr hproposed) (fun task hmem => ?_)
    rcases List.mem_cons.mp hmem with rfl | hold
    · exact .inr trivial
    · exact .inl hold
  · exact hinf.of_eq (fun _ => id) hlast hagenda

theorem plain_follows {i : Input K} {r r' : Replica K} (hcalm : ∀ h, .proposed h ∉ r.stack)
    (hi : ∀ cmds parents extra, i ≠ .propose cmds parents extra) :
    ∀ task ∈ follows r r' i, Plain task := by
  intro task hmem
  cases i with
  | propose cmds parents extra => exact absurd rfl (hi cmds parents extra)
  | resume =>
      simp only [follows] at hmem
      split at hmem
      · rename_i h stack heq
        refine absurd ?_ (hcalm h)
        rw [heq]
        exact List.mem_cons_self
      · rw [List.mem_singleton.mp hmem]
        exact trivial
      · cases hmem
  | receiveProposal prop =>
      simp only [follows] at hmem
      split at hmem
      · rcases List.mem_cons.mp hmem with rfl | hmem
        · exact trivial
        · rw [List.mem_singleton.mp hmem]
          exact trivial
      · rw [List.mem_singleton.mp hmem]
        exact trivial
  | receiveVote vote =>
      simp only [follows] at hmem
      split at hmem
      · rw [List.mem_singleton.mp hmem]
        exact trivial
      · cases hmem
  | fetch data | deliver h | wait h => cases hmem

theorem Informed.call {i : Input K} (hinf : Informed env n)
    (hcalm : ∀ h, .proposed h ∉ n.replica.stack) (htrace : n.core.trace ⊆ n'.core.trace)
    (hi : ∀ cmds parents extra, i ≠ .propose cmds parents extra)
    (h : n.call env i [] = some n') : Informed env n' := by
  obtain ⟨r, _, ⟨_, rfl⟩ | ⟨_, rfl⟩⟩ := Node.call_eq_some h
  · exact hinf.of_same htrace rfl (fun _ => .inl)
  · refine hinf.of_same htrace rfl (fun task hmem => ?_)
    rw [PaceMaker.push, List.append_nil] at hmem
    rcases List.mem_append.mp hmem with hmem | hold
    · rcases List.mem_append.mp hmem with hmem | hmem
      · obtain ⟨k, _, rfl⟩ := List.mem_map.mp hmem
        exact .inr trivial
      · exact .inr (plain_follows hcalm hi task hmem)
    · exact .inl hold

theorem Informed.propose {cmds : List Uint256} {after : Uint256 → List Task}
    (hinf : Informed env n) (hcerts : CertsOk n.core) (htrace : n.core.trace ⊆ n'.core.trace)
    (hcalm : ∀ h, .proposed h ∉ n'.replica.stack)
    (hafter : ∀ h, ∀ task ∈ after h, Plain task ∨ ∃ x, task = .finishNew x h)
    (h : n.propose env cmds after = some n') : Informed env n' := by
  rcases call_propose hcerts hcalm h with ⟨_, hpm, _⟩ | ⟨⟨c, _, _, hreplica⟩, hpm, _⟩
  · refine hinf.of_same htrace (by rw [hpm]) (fun task hmem => .inl ?_)
    rwa [hpm] at hmem
  · generalize env.getHash (n.core.newData cmds n.core.getParents []) = b at hreplica hpm hafter
    have hnew : .propose b ∈ n'.core.trace := by
      show _ ∈ n'.replica.core.trace
      rw [hreplica]
      exact List.mem_cons_self
    have hagenda : ∀ task ∈ n'.pm.agenda,
        task ∈ n.pm.agenda ∨ Plain task ∨ task = .hooks b ∨ ∃ x, task = .finishNew x b := by
      intro task hmem
      rw [hpm, PaceMaker.push] at hmem
      simp only [List.mem_append, List.mem_map, List.mem_cons, List.not_mem_nil, or_false] at hmem
      rcases hmem with ((⟨k, _, rfl⟩ | rfl | rfl) | hmem) | hold
      · exact .inr (.inl trivial)
      · exact .inr (.inr (.inl rfl))
      · exact .inr (.inl trivial)
      · exact .inr ((hafter b task hmem).imp_right .inr)
      · exact .inl hold
    refine ⟨?_, fun h hmem => ?_, fun x h hmem => ?_⟩
    · rw [hpm]
      exact hinf.last.imp_right (fun hmem => htrace hmem)
    · rcases hagenda _ hmem with hold | hplain | heq | ⟨x, heq⟩
      · exact htrace (hinf.hooks h hold)
      · exact absurd hplain id
      · cases heq
        exact hnew
      · cases heq
    · rcases hagenda _ hmem with hold | hplain | heq | ⟨x', heq⟩
      · exact htrace (hinf.finishes x h hold)
      · exact absurd hplain id
      · cases heq
      · cases heq
        exact hnew

theorem Informed.rotate (hinf : Informed env n) {nreplicas : Nat} :
    Informed env ({ n with pm := n.pm.rotate nreplicas } : Node K) := by
  refine hinf.of_eq (fun _ => id) ?_ ?_
  · exact (lastProposed_rejectQc _ _).trans (lastProposed_rejectQc _ _)
  · exact (agenda_rejectQc _ _).trans (agenda_rejectQc _ _)

theorem Informed.perform {task : Task} (hinf : Informed env n) (hcerts : CertsOk n.core)
    (hcalm : ∀ h, .proposed h ∉ n.replica.stack) (hcalm' : ∀ h, .proposed h ∉ n'.replica.stack)
    (htrace : n.core.trace ⊆ n'.core.trace)
    (hhooks : ∀ h, task = .hooks h → .propose h ∈ n.core.trace)
    (h : n.perform env kind task = some n') : Informed env n' := by
  cases task with
  | callback cb =>
      cases cb with
      | beat pm =>
          have hresolved : Informed env ({ n with
              pm := { n.pm with resolved := pm :: n.pm.resolved } } : Node K) :=
            hinf.of_same (fun _ => id) rfl (fun _ => .inl)
          simp only [Node.perform] at h
          split at h <;> cases h
          · exact hresolved
          · refine hresolved.push [.handle pm] (fun task hmem => ?_)
            rw [List.mem_singleton.mp hmem]
            exact trivial
      | manual x =>
          simp only [Node.perform] at h
          by_cases hlast : (if env.twoStep then 2 else 3) ≤ x
          · rw [if_pos hlast] at h
            cases h
            exact hinf
          · rw [if_neg hlast] at h
            cases h
            refine hinf.push [.newConsensus (x + 1) []] (fun task hmem => ?_)
            rw [List.mem_singleton.mp hmem]
            exact trivial
  | consensus k =>
      cases kind with
      | fixed proposer =>
          cases h
          exact hinf
      | roundRobin =>
          cases h
          refine hinf.of_last (fun _ => id) ?_
            (fun _ hmem => .inl (agenda_onConsensus n.pm n.core.id env.genesisHash k ▸ hmem))
          rcases lastProposed_onConsensus n.pm n.core.id env.genesisHash k with heq | heq
          · exact .inl heq
          · exact heq ▸ hinf.last
  | wake k =>
      cases h
      refine hinf.of_same (fun _ => id) rfl (fun task hmem => ?_)
      rcases List.mem_append.mp hmem with hmem | hold
      · obtain ⟨w, _, rfl⟩ := List.mem_map.mp hmem
        exact .inr trivial
      · exact .inl hold
  | attach pm =>
      simp only [Node.perform] at h
      split at h <;> cases h
      · refine hinf.push [.handle pm] (fun task hmem => ?_)
        rw [List.mem_singleton.mp hmem]
        exact trivial
      · exact hinf
  | handle pm =>
      simp only [Node.perform] at h
      split at h
      · exact hinf.propose hcerts htrace hcalm' (fun _ _ hmem => absurd hmem List.not_mem_nil) h
      · cases h
        exact hinf
  | newConsensus x cmds =>
      have hafter : ∀ b, ∀ task ∈ [Task.finishNew x b], Plain task ∨ ∃ x, task = .finishNew x b :=
        fun b task hmem => .inr ⟨x, List.mem_singleton.mp hmem⟩
      exact hinf.propose hcerts htrace hcalm' hafter h
  | finishNew x k =>
      cases h
      refine Informed.whenCertified ?_ _ _
      exact hinf.of_eq (fun _ => id) (lastProposed_rejectQc _ _) (agenda_rejectQc _ _)
  | hooks k =>
      cases h
      exact hinf.runHooks (hhooks k rfl)
  | resume => exact hinf.call hcalm htrace (fun _ _ _ h => by cases h) h
  | receiveHook prop =>
      cases h
      obtain ⟨hagenda, hlast⟩ :=
        recordBlk_same n.pm n.pm.regReceiveProposal prop.proposer prop.blk
      exact hinf.of_eq (fun _ => id) hlast hagenda
  | lock | rehook | rearm =>
      cases h
      exact hinf.of_eq (fun _ => id) rfl rfl

theorem Informed.step {i : NodeInput K} (hinf : Informed env n) (hcerts : CertsOk n.core)
    (hcalm : ∀ h, .proposed h ∉ n.replica.stack) (hcalm' : ∀ h, .proposed h ∉ n'.replica.stack)
    (htrace : n.core.trace ⊆ n'.core.trace) (h : n.step env kind i = some n') :
    Informed env n' := by
  cases i with
  | message i =>
      simp only [Node.step] at h
      split at h
      · rename_i hguard
        refine hinf.call hcalm htrace (fun cmds parents extra heq => ?_) h
        subst heq
        exact Bool.false_ne_true (Bool.and_eq_true_iff.mp hguard).2
      · cases h
  | beat cmds =>
      simp only [Node.step] at h
      split at h
      · rename_i hidle
        split at h <;> cases h
        · unfold Node.beat
          dsimp only
          split
          · refine hinf.of_same (fun _ => id) rfl (fun task hmem => .inr ?_)
            rw [List.mem_singleton.mp hmem]
            exact trivial
          · refine Informed.scheduleNext ?_
            refine hinf.of_same (fun _ => id) rfl (fun task hmem => .inr ?_)
            rw [List.mem_singleton.mp hmem]
            exact trivial
        · exact hinf
      · cases h
  | impeach =>
      simp only [Node.step] at h
      split at h
      · split at h <;> cases h
        · exact hinf.rotate
        · exact hinf
      · cases h
  | expire =>
      simp only [Node.step] at h
      split at h
      · split at h
        · cases h
        · cases h
          exact hinf.rotate
        · cases h
          refine hinf.of_same (fun _ => id) rfl (fun task hmem => .inr ?_)
          dsimp only at hmem
          split at hmem
          · rcases List.mem_cons.mp hmem with rfl | hmem
            · exact trivial
            · rw [List.mem_singleton.mp hmem]
              exact trivial
          · rw [List.mem_singleton.mp hmem]
            exact trivial
      · cases h
  | elected cmds =>
      simp only [Node.step] at h
      split at h <;> cases h
      refine hinf.of_same (fun _ => id) rfl (fun task hmem => .inr ?_)
      dsimp only at hmem
      split at hmem
      · cases hmem
      · rw [List.mem_singleton.mp hmem]
        exact trivial
  | run =>
      simp only [Node.step] at h
      split at h
      · cases h
      · split at h
        · cases h
        · rename_i task agenda hagenda
          have hpopped : Informed env ({ n with pm := { n.pm with agenda } } : Node K) :=
            hinf.of_same (fun _ => id) rfl
              (fun _ hmem => .inl (hagenda ▸ List.mem_cons_of_mem _ hmem))
          refine hpopped.perform hcerts hcalm hcalm' htrace (fun k hk => hinf.hooks k ?_) h
          rw [hagenda, hk]
          exact List.mem_cons_self

end informed

/-! The network. -/

/-- The state of every replica with its pacemaker. -/
abbrev Nodes (K : Secp256k1) := ReplicaID → Node K

def replicas (s : Nodes K) : Replicas K := fun r => (s r).replica

/-- The message a step handles, or the proposal that it makes. -/
def callOf (kind : Kind) (n : Node K) : NodeInput K → Option (Input K)
  | .message i => some i
  | .run =>
      match n.pm.agenda with
      | .handle pm :: _ =>
          if n.getProposer kind = n.core.id then
            some (.propose ((n.pm.batches[pm]?).getD []) n.core.getParents [])
          else none
      | .newConsensus _ cmds :: _ => some (.propose cmds n.core.getParents [])
      | _ => none
  | .beat _ | .impeach | .expire | .elected _ => none

section network

variable (D : Deployment K) (kind : Kind)

/-- What can happen to a correct replica with its pacemaker: the messages and the new blocks are
those of `Deployment.Admits`. -/
def Admitted (s : Nodes K) (a : ReplicaID × NodeInput K) : Prop :=
  D.Correct a.1 ∧ match callOf kind (s a.1) a.2 with
    | none => True
    | some i => D.Admits (replicas s) a.1 i

instance (s : Nodes K) (a : ReplicaID × NodeInput K) : Decidable (Admitted D kind s a) :=
  @instDecidableAnd _ _ _ (by split <;> infer_instance)

def startNodes : Nodes K :=
  fun r => Node.start D.env kind D.config r (D.key r) (D.voteDisabled r)

def advanceNode (s : Nodes K) (a : ReplicaID × NodeInput K) : Option (Nodes K) :=
  ((s a.1).step D.env kind a.2).map (Function.update s a.1)

/-- The correct replicas and their pacemakers take steps in any order. -/
def paceNetwork : System (Nodes K) (ReplicaID × NodeInput K) where
  init s := s = startNodes D kind
  step s a s' := Admitted D kind s a ∧ advanceNode D kind s a = some s'

variable {D kind} {s s' : Nodes K} {a : ReplicaID × NodeInput K} {r : ReplicaID}

theorem advanceNode_eq (h : advanceNode D kind s a = some s') :
    (s a.1).step D.env kind a.2 = some (s' a.1) ∧ ∀ r, r ≠ a.1 → s' r = s r := by
  obtain ⟨n, hstep, rfl⟩ := Option.map_eq_some_iff.mp h
  refine ⟨?_, fun r hne => Function.update_of_ne hne _ _⟩
  rw [Function.update_self]
  exact hstep

/-- What is called without being a message or a proposal is always admitted, and on blocks that
have been proposed. -/
theorem highTail_of_calls {j : Input K} (hinf : Informed D.env (s a.1))
    (hadm : Admitted D kind s a) (hcalls : Calls kind (s a.1) a.2 j)
    (hmessage : ∀ i, a.2 = .message i → Node.isMessage i = true) :
    D.Admits (replicas s) a.1 j ∧ HighTail D (replicas s) (a.1, j) := by
  obtain ⟨r, i⟩ := a
  have hadm := hadm.2
  cases i with
  | message i =>
      obtain rfl := hcalls
      refine ⟨hadm, ?_⟩
      have hmsg := hmessage j rfl
      cases j <;> first | exact trivial | cases hmsg
  | beat cmds =>
      obtain rfl := hcalls
      exact ⟨trivial, hinf.last⟩
  | impeach | expire | elected cmds => exact hcalls.elim
  | run =>
      obtain ⟨task, htask, hcalls⟩ := hcalls
      cases hagenda : (s r).pm.agenda with
      | nil =>
          rw [hagenda] at htask
          cases htask
      | cons task' agenda =>
          rw [hagenda] at htask
          cases htask
          have hhead : task ∈ (s r).pm.agenda := hagenda ▸ List.mem_cons_self
          cases task with
          | handle pm =>
              obtain ⟨hid, rfl⟩ := hcalls
              simp only [callOf, hagenda, hid, if_true] at hadm
              exact ⟨hadm, rfl⟩
          | newConsensus x cmds =>
              obtain rfl := hcalls
              simp only [callOf, hagenda] at hadm
              exact ⟨hadm, rfl⟩
          | finishNew x h =>
              obtain rfl := hcalls
              exact ⟨trivial, .inr (hinf.finishes x h hhead)⟩
          | hooks h =>
              obtain rfl := hcalls
              exact ⟨trivial, .inr (hinf.hooks h hhead)⟩
          | resume =>
              obtain rfl := hcalls
              exact ⟨trivial, trivial⟩
          | _ => exact hcalls.elim

/-- Cores in a network of pacemakers run in the network of replicas that keep to the policy, and
their pacemakers know of the blocks they work with. -/
theorem replicas_reachable (hs : Reachable (paceNetwork D kind) s) :
    Reachable (D.network.restrict (HighTail D)) (replicas s) ∧
      ∀ r, D.Correct r → Informed D.env (s r) := by
  refine hs.invariant (I := fun s => Reachable (D.network.restrict (HighTail D)) (replicas s) ∧
    ∀ r, D.Correct r → Informed D.env (s r)) ?_ ?_
  · rintro s rfl
    refine ⟨.init rfl, fun r _ => ?_⟩
    have hagenda : (startNodes D kind r).pm.agenda = [] ∧
        (startNodes D kind r).pm.lastProposed = D.env.genesisHash := by
      cases kind <;> exact ⟨rfl, rfl⟩
    refine ⟨.inl hagenda.2, fun h hmem => ?_, fun x h hmem => ?_⟩
    · rw [hagenda.1] at hmem
      cases hmem
    · rw [hagenda.1] at hmem
      cases hmem
  · rintro s a s' _ ⟨hreach, hinf⟩ ⟨hadm, hadv⟩
    obtain ⟨hstep, hother⟩ := advanceNode_eq hadv
    have hmessage := isMessage_of_step hstep
    have hcores : Reachable (D.network.restrict (HighTail D)) (replicas s') ∧
        (s a.1).core.trace ⊆ (s' a.1).core.trace := by
      rcases stepped_step hstep with hsame | ⟨j, hcalls, hcore, _⟩
      · have heq : replicas s' = replicas s := by
          funext r
          by_cases hr : r = a.1
          · subst hr
            exact hsame
          · exact congrArg Node.replica (hother r hr)
        refine ⟨heq ▸ hreach, ?_⟩
        show (s a.1).replica.core.trace ⊆ (s' a.1).replica.core.trace
        rw [hsame]
        exact fun _ => id
      · obtain ⟨hadmits, hhigh⟩ := highTail_of_calls (hinf a.1 hadm.1) hadm hcalls hmessage
        have hupdate : replicas s' = Function.update (replicas s) a.1 (s' a.1).replica := by
          funext r
          by_cases hr : r = a.1
          · subst hr
            rw [Function.update_self]
            rfl
          · rw [Function.update_of_ne hr]
            exact congrArg Node.replica (hother r hr)
        have hadvance : D.advance (replicas s) (a.1, j) = some (replicas s') := by
          rw [hupdate]
          exact congrArg (Option.map _) hcore
        have hnext : D.network.step (replicas s) (a.1, j) (replicas s') :=
          ⟨hadm.1, hadmits, hadvance⟩
        refine ⟨.step hreach ⟨hhigh, hnext⟩, ?_⟩
        obtain ⟨htrail, _⟩ := step_effects hreach.of_restrict (covers_true _ _ _)
          ⟨fun _ => trivial, fun _ => trivial, fun _ _ => trivial⟩ hnext
        exact (Consensus.Tree.grows_of_trail htrail).trace.subset
    refine ⟨hcores.1, fun r hr => ?_⟩
    by_cases hra : r = a.1
    · subst hra
      exact (hinf a.1 hr).step (localOk_of_reachable hreach.of_restrict a.1).certs
        (paceOk_of_reachable hreach a.1 hr).calm (paceOk_of_reachable hcores.1 a.1 hr).calm
        hcores.2 hstep
    · rw [hother r hra]
      exact hinf r hr

end network

end ArchipelagoHotStuff.Liveness.Policy
