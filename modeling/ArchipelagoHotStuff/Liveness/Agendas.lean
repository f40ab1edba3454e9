/- Module: ArchipelagoHotStuff/Liveness/Agendas
   source: liveness.h (do_new_consensus), consensus.cpp (on_propose, on_receive_proposal)
   digest: What a step puts on the agenda of a replica: one task for each call that a callback holds
     up, and rounds of do_new_consensus up to the last one. -/

import ArchipelagoHotStuff.Consensus.Levels
import ArchipelagoHotStuff.Liveness.Proposing

set_option autoImplicit false
set_option relaxedAutoImplicit false

namespace ArchipelagoHotStuff.Liveness.Agendas

open Crypto.Wire Crypto.Certificates
open Consensus.State Consensus.Effects Consensus.Trails
open Consensus.Tree hiding Node newEvents
open Consensus.Machine Consensus.Duplicates Consensus.Levels General.Transition
open Pacemaker Policy Proposing Network.Model Network.Tails

variable {K : Secp256k1} {env : Env K} {kind : Kind} {n n' n'' : Node K} {task : Task}

/-- The round after which `do_new_consensus` does not go on. -/
def lastRound (env : Env K) : Nat := if env.twoStep then 2 else 3

/-- A round of `do_new_consensus` is one that there is. -/
def Within (env : Env K) : Task → Prop
  | .newConsensus x _ => x ≤ lastRound env
  | _ => True

/-- The agenda lists the calls held up on the stack, and rounds of `do_new_consensus` that there
are. -/
structure AgendaOk (env : Env K) (n : Node K) : Prop where
  frames : n.halted = false → n.pm.agenda.count .resume = n.replica.stack.length
  rounds : ∀ task ∈ n.pm.agenda, Within env task

/-- Nothing is called that could be held up, and tasks are added that resume nothing. -/
structure Adds (env : Env K) (n n' : Node K) : Prop where
  stack : n'.replica.stack = n.replica.stack
  halted : n'.halted = n.halted
  agenda : ∃ tasks, n'.pm.agenda = tasks ++ n.pm.agenda ∧ .resume ∉ tasks ∧
    ∀ task ∈ tasks, Within env task

namespace Adds

theorem of_agenda {p : PaceMaker} (h : p.agenda = n.pm.agenda) :
    Adds env n ({ n with pm := p } : Node K) :=
  ⟨rfl, rfl, [], h, List.not_mem_nil, by simp⟩

theorem refl (n : Node K) : Adds env n n := .of_agenda rfl

theorem trans (h : Adds env n n') (h' : Adds env n' n'') : Adds env n n'' := by
  obtain ⟨tasks, heq, hresume, hwithin⟩ := h.agenda
  obtain ⟨tasks', heq', hresume', hwithin'⟩ := h'.agenda
  refine ⟨h'.stack.trans h.stack, h'.halted.trans h.halted, tasks' ++ tasks, ?_, ?_, ?_⟩
  · rw [heq', heq, List.append_assoc]
  · rw [List.mem_append, not_or]
    exact ⟨hresume', hresume⟩
  · intro task hmem
    rcases List.mem_append.mp hmem with hmem | hmem
    · exact hwithin' task hmem
    · exact hwithin task hmem

theorem push {tasks : List Task} (hresume : .resume ∉ tasks)
    (hwithin : ∀ task ∈ tasks, Within env task) :
    Adds env n ({ n with pm := n.pm.push tasks } : Node K) :=
  ⟨rfl, rfl, tasks, rfl, hresume, hwithin⟩

theorem cons {p : PaceMaker} {t : Task} (h : p.agenda = t :: n.pm.agenda) (hresume : t ≠ .resume)
    (hwithin : Within env t) : Adds env n ({ n with pm := p } : Node K) := by
  refine ⟨rfl, rfl, [t], h, ?_, ?_⟩
  · rw [List.mem_singleton]
    exact hresume.symm
  · intro task hmem
    rw [List.mem_singleton.mp hmem]
    exact hwithin

theorem whenCertified (n : Node K) (h : Uint256) (cb : Callback) :
    Adds env n (n.whenCertified h cb) := by
  unfold Node.whenCertified
  split
  · exact .cons rfl (by simp) trivial
  · exact ⟨rfl, rfl, [], agenda_awaitQc n.pm h cb, List.not_mem_nil, by simp⟩

theorem scheduleNext (n : Node K) : Adds env n n.scheduleNext := by
  unfold Node.scheduleNext
  split
  · exact .refl n
  · split
    · exact .refl n
    · refine Adds.trans ?_ (.whenCertified _ _ _)
      exact .cons rfl (by simp) trivial

theorem runHooks (n : Node K) (h : Uint256) : Adds env n (n.runHooks h) := by
  unfold Node.runHooks
  dsimp only
  split
  · refine Adds.trans ?_ (.scheduleNext _)
    exact .cons rfl (by simp) trivial
  · exact .of_agenda (recordBlk_same _ _ _ _).1

/-- A task that calls neither `on_propose` nor goes on with a call adds such tasks only. -/
theorem perform (hhandle : ∀ pm, task ≠ .handle pm) (hnew : ∀ x cmds, task ≠ .newConsensus x cmds)
    (hresume : task ≠ .resume) (h : n.perform env kind task = some n') : Adds env n n' := by
  cases task with
  | handle pm => exact absurd rfl (hhandle pm)
  | newConsensus x cmds => exact absurd rfl (hnew x cmds)
  | resume => exact absurd rfl hresume
  | consensus k =>
      cases kind with
      | fixed proposer =>
          cases h
          exact .refl n
      | roundRobin =>
          cases h
          exact .of_agenda (agenda_onConsensus _ _ _ _)
  | wake k =>
      cases h
      refine ⟨rfl, rfl, _, rfl, fun hmem => ?_, fun task hmem => ?_⟩
      · obtain ⟨w, _, heq⟩ := List.mem_map.mp hmem
        cases heq
      · obtain ⟨w, _, rfl⟩ := List.mem_map.mp hmem
        exact trivial
  | callback cb =>
      cases cb with
      | beat pm =>
          simp only [Node.perform] at h
          split at h <;> cases h
          · exact .of_agenda rfl
          · exact .cons rfl (by simp) trivial
      | manual x =>
          simp only [Node.perform] at h
          by_cases hlast : (if env.twoStep then 2 else 3) ≤ x
          · rw [if_pos hlast] at h
            cases h
            exact .refl n
          · rw [if_neg hlast] at h
            cases h
            exact .cons rfl (by simp) (Nat.not_le.mp hlast)
  | attach pm =>
      simp only [Node.perform] at h
      split at h <;> cases h
      · exact .cons rfl (by simp) trivial
      · exact .refl n
  | finishNew x k =>
      cases h
      refine Adds.trans ?_ (.whenCertified _ _ _)
      exact .of_agenda (agenda_rejectQc _ _)
  | hooks k =>
      cases h
      exact .runHooks n k
  | receiveHook prop =>
      cases h
      exact .of_agenda (recordBlk_same _ _ _ _).1
  | lock | rehook | rearm =>
      cases h
      exact .of_agenda rfl

end Adds

theorem AgendaOk.adds (hok : AgendaOk env n) (h : Adds env n n') : AgendaOk env n' := by
  obtain ⟨tasks, heq, hresume, hwithin⟩ := h.agenda
  refine ⟨fun hhalted => ?_, fun task hmem => ?_⟩
  · rw [heq, List.count_append, List.count_eq_zero_of_not_mem hresume, Nat.zero_add, h.stack]
    exact hok.frames (h.halted ▸ hhalted)
  · rw [heq] at hmem
    rcases List.mem_append.mp hmem with hmem | hmem
    · exact hwithin task hmem
    · exact hok.rounds task hmem

/-! Calls of the core. -/

theorem stack_of_message {r r' : Replica K} {i : Input K} (hi : Node.isMessage i = true)
    (h : r.step env i = some r') : r.stack = [] := by
  cases i with
  | propose cmds parents extra => cases hi
  | wait k => cases hi
  | resume => cases hi
  | deliver k =>
      simp only [Replica.step] at h
      split at h
      · rename_i hguard
        exact List.isEmpty_iff.mp (Bool.and_eq_true_iff.mp hguard).1
      · cases h
  | fetch data | receiveProposal prop | receiveVote vote =>
      simp only [Replica.step] at h
      split at h
      · rename_i hempty
        exact List.isEmpty_iff.mp hempty
      · cases h

/-- The tasks by which a held up call goes on. -/
def resumes : Input K → Nat
  | .resume => 1
  | _ => 0

/-- A call that returns holds up as many calls as it leaves tasks to resume them. -/
theorem count_follows {r r' : Replica K} {i : Input K} (hstep : r.step env i = some r')
    (hgrows : Grows r.core r'.core) (h : Returns env r i r') :
    (follows r r' i).count .resume + r.stack.length = r'.stack.length + resumes i := by
  cases h with
  | fetch | deliver hs hres =>
      rw [stack_of_message rfl hstep]
      rfl
  | propose hall hres =>
      rename_i woken _
      cases woken with
      | true => exact Nat.add_comm 1 _
      | false => exact Nat.add_comm 1 _
  | receiveProposal hres =>
      rename_i prop opinion woken d
      rw [stack_of_message rfl hstep]
      cases woken with
      | true =>
          -- Whoever has been woken waits for the certificate that the block carries.
          obtain ⟨q, _, hq⟩ := woken_receiveProposal hres
          obtain ⟨hd, _⟩ := onReceiveProposal_ok hres
          have hq' : (d.blk prop.blk).qcRef = some q := (hgrows.qcRef hd).trans hq
          simp [follows, hq', resumes]
      | false => rfl
  | receiveVote hres =>
      rw [stack_of_message rfl hstep]
      simp only [follows]
      split <;> rfl
  | wait => exact Nat.zero_add _
  | resume hstep =>
      rcases step_resume hstep with ⟨h, stack, heq, rfl⟩ | ⟨h, stack, heq, rfl⟩ |
        ⟨prop, opinion, stack, heq, rfl⟩
      · simp only [follows, heq]
        exact Nat.add_comm 1 _
      · simp only [follows, heq]
        exact Nat.zero_add _
      · simp only [follows, heq]
        exact Nat.zero_add _

theorem returns_of_not_failed {r r' : Replica K} {i : Input K} (hok : ReplicaOk env r)
    (hstep : r.step env i = some r') (hfailed : failed r r' = false) : Returns env r i r' := by
  rcases throws_or_returns hstep with ⟨x, d, hdef, hthrows, rfl⟩ | hreturns
  · have hstored : (r.core.storage r.core.hqc.2.objHash).isSome := by
      rw [hok.certs.hqc_hash]
      exact hok.certs.hqc_stored
    have htrace := (grows_of_trail (hthrows.trail hdef hstored)).trace
    rw [failed_emit htrace] at hfailed
    cases hfailed
  · exact hreturns

theorem within_follows {r r' : Replica K} {i : Input K} (htask : task ∈ follows r r' i) :
    Within env task := by
  cases task with
  | newConsensus x cmds =>
      cases i <;> simp only [follows] at htask <;> (try split at htask) <;> simp at htask
  | _ => exact trivial

theorem AgendaOk.call {i : Input K} {after : List Task} (hok : ReplicaOk env n.replica)
    (h : n.call env i after = some n')
    (hframes : n.halted = false →
      n.pm.agenda.count .resume + resumes i = n.replica.stack.length)
    (hrounds : ∀ task ∈ n.pm.agenda, Within env task) (hresume : .resume ∉ after)
    (hafter : ∀ task ∈ after, Within env task) : AgendaOk env n' := by
  obtain ⟨r, hstep, ⟨_, rfl⟩ | ⟨hfailed, rfl⟩⟩ := Node.call_eq_some h
  · exact ⟨fun hhalted => absurd hhalted (by simp), hrounds⟩
  refine ⟨fun hhalted => ?_, fun task hmem => ?_⟩
  · have hcount := count_follows hstep (grows_of_trail (hok.step hstep).2)
      (returns_of_not_failed hok hstep hfailed)
    have hnone : .resume ∉ (committed n.replica r).map Task.consensus := by
      intro hmem
      obtain ⟨_, _, heq⟩ := List.mem_map.mp hmem
      cases heq
    have hbefore := hframes hhalted
    simp only [PaceMaker.push, List.count_append, List.count_eq_zero_of_not_mem hnone,
      List.count_eq_zero_of_not_mem hresume]
    omega
  · rcases List.mem_append.mp hmem with hmem | hmem
    · rcases List.mem_append.mp hmem with hmem | hmem
      · rcases List.mem_append.mp hmem with hmem | hmem
        · obtain ⟨k, _, rfl⟩ := List.mem_map.mp hmem
          exact trivial
        · exact within_follows hmem
      · exact hafter task hmem
    · exact hrounds task hmem

theorem within_nil : ∀ task ∈ [], Within env task := by simp

theorem AgendaOk.step {i : NodeInput K} (hagenda : AgendaOk env n) (hok : ReplicaOk env n.replica)
    (h : n.step env kind i = some n') : AgendaOk env n' := by
  cases i with
  | message i =>
      simp only [Node.step] at h
      split at h
      · rename_i hguard
        have hresumes : resumes i = 0 := by
          have hi := (Bool.and_eq_true_iff.mp hguard).2
          cases i <;> first | rfl | cases hi
        refine AgendaOk.call hok h (fun hhalted => ?_) hagenda.rounds List.not_mem_nil within_nil
        rw [hresumes]
        exact hagenda.frames hhalted
      · cases h
  | beat cmds =>
      simp only [Node.step] at h
      split at h
      · rename_i hidle
        have hnil := Node.agenda_nil_of_idle hidle
        split at h <;> cases h
        · refine hagenda.adds ?_
          unfold Node.beat
          dsimp only
          split
          · exact .cons (t := .handle _) (by rw [hnil]) (by simp) trivial
          · refine Adds.trans ?_ (.scheduleNext _)
            exact .cons (t := .attach _) (by rw [hnil]) (by simp) trivial
        · exact hagenda
      · cases h
  | impeach =>
      simp only [Node.step] at h
      split at h
      · split at h <;> cases h
        · exact hagenda.adds (.of_agenda ((agenda_rejectQc _ _).trans (agenda_rejectQc _ _)))
        · exact hagenda
      · cases h
  | expire =>
      simp only [Node.step] at h
      split at h
      · rename_i hidle
        have hnil := Node.agenda_nil_of_idle hidle
        split at h
        · cases h
        · cases h
          exact hagenda.adds (.of_agenda ((agenda_rejectQc _ _).trans (agenda_rejectQc _ _)))
        · cases h
          refine hagenda.adds ⟨rfl, rfl, _, (List.append_nil _).symm.trans (by rw [hnil]), ?_, ?_⟩
          · split <;> simp
          · intro task hmem
            split at hmem
            · simp only [List.mem_cons, List.not_mem_nil, or_false] at hmem
              rcases hmem with rfl | rfl
              · exact Nat.zero_le _
              · exact trivial
            · rw [List.mem_singleton.mp hmem]
              exact trivial
      · cases h
  | elected cmds =>
      simp only [Node.step] at h
      split at h
      · rename_i hguard
        have hnil := Node.agenda_nil_of_idle (Bool.and_eq_true_iff.mp hguard).1
        cases h
        refine hagenda.adds ⟨rfl, rfl, _, (List.append_nil _).symm.trans (by rw [hnil]), ?_, ?_⟩
        · split <;> simp
        · intro task hmem
          split at hmem
          · cases hmem
          · rw [List.mem_singleton.mp hmem]
            exact Nat.zero_le _
      · cases h
  | run =>
      simp only [Node.step] at h
      split at h
      · cases h
      rename_i hhalted
      split at h
      · cases h
      rename_i task agenda heq
      have hrounds : ∀ task ∈ agenda, Within env task :=
        fun task hmem => hagenda.rounds task (heq ▸ List.mem_cons_of_mem _ hmem)
      have hframes := hagenda.frames (Bool.eq_false_iff.mpr hhalted)
      rw [heq] at hframes
      by_cases hresume : task = .resume
      · subst hresume
        rw [List.count_cons_self] at hframes
        exact AgendaOk.call (n := { n with pm := { n.pm with agenda } }) hok h
          (fun _ => hframes) hrounds List.not_mem_nil within_nil
      rw [List.count_cons_of_ne hresume] at hframes
      cases task with
      | handle pm =>
          simp only [Node.perform] at h
          split at h
          · exact AgendaOk.call (n := { n with pm := { n.pm with agenda } }) hok h
              (fun _ => hframes) hrounds List.not_mem_nil within_nil
          · cases h
            exact ⟨fun _ => hframes, hrounds⟩
      | newConsensus x cmds =>
          refine AgendaOk.call (n := { n with pm := { n.pm with agenda } }) hok h
            (fun _ => hframes) hrounds ?_ ?_
          · simp
          · intro task hmem
            rw [List.mem_singleton.mp hmem]
            exact trivial
      | _ =>
          refine AgendaOk.adds (n := { n with pm := { n.pm with agenda } })
            ⟨fun _ => hframes, hrounds⟩ (.perform (fun _ heq => ?_) (fun _ _ heq => ?_) hresume h)
          · cases heq
          · cases heq

/-! The network. -/

/-- The agenda is in order, and the heights are until an exception halts the replica. -/
structure Sound (env : Env K) (n : Node K) : Prop where
  agenda : AgendaOk env n
  level : n.halted = false → LevelOk n.core

theorem Sound.step {i : NodeInput K} (hsound : Sound env n) (hok : ReplicaOk env n.replica)
    (h : n.step env kind i = some n') : Sound env n' := by
  refine ⟨hsound.agenda.step hok h, fun hhalted => ?_⟩
  have hlevel := hsound.level (halted_of_step h)
  rcases stepped_step h with hsame | ⟨j, _, hcore, hhalt⟩
  · show LevelOk n'.replica.core
    rw [hsame]
    exact hlevel
  · refine hlevel.returns hok.tree hok.certs (returns_of_not_failed hok hcore ?_)
    rw [← Bool.not_eq_true]
    intro hfailed
    rw [hhalt hfailed] at hhalted
    cases hhalted

theorem sound_of_reachable {D : Deployment K} {s : Nodes K} (hs : Reachable (paceNetwork D kind) s)
    (r : ReplicaID) : Sound D.env (s r) := by
  refine hs.invariant (I := fun s => ∀ r, Sound D.env (s r)) ?_ ?_ r
  · rintro s rfl r
    have hagenda : (startNodes D kind r).pm.agenda = [] := by cases kind <;> rfl
    refine ⟨⟨fun _ => ?_, fun task hmem => ?_⟩, fun _ => .start ..⟩
    · rw [hagenda]
      rfl
    · rw [hagenda] at hmem
      cases hmem
  · intro s a s' hs hok ⟨_, hadv⟩ r
    obtain ⟨hstep, hother⟩ := advanceNode_eq hadv
    by_cases hr : r = a.1
    · subst hr
      have hreach := (replicas_reachable hs).1.of_restrict
      exact (hok a.1).step (replicaOk_of_reachable (Deployment.replica_reachable hreach a.1)) hstep
    · rw [hother r hr]
      exact hok r

end ArchipelagoHotStuff.Liveness.Agendas
