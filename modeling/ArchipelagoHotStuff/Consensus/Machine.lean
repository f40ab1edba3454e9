/- Module: ArchipelagoHotStuff/Consensus/Machine
   source: consensus.cpp, hotstuff.cpp (callers of the core), liveness.h (PMWaitQC)
   digest: One replica as a machine: its core, and the calls of the core that are under way while
     a callback may propose. -/

import ArchipelagoHotStuff.Consensus.Ballots
import ArchipelagoHotStuff.Consensus.Trails

set_option autoImplicit false
set_option relaxedAutoImplicit false

namespace ArchipelagoHotStuff.Consensus.Machine

open Crypto.Wire Crypto.Certificates State Handlers Effects Consensus.Tree Ballots Trails
open General.Transition

variable {K : Secp256k1}

/-- A call of the core that waits for a callback to return: `on_propose` inside `on_qc_finish` of
its own vote, `on_propose` inside `on_propose_`, `on_receive_proposal` inside `on_qc_finish`. -/
inductive Frame
  | proposed (h : Uint256)
  | announced (h : Uint256)
  | received (prop : Proposal) (opinion : Bool)

/-- A replica: its core and the calls under way, the innermost first. -/
structure Replica (K : Secp256k1) where
  core : HotStuffCore K
  stack : List Frame

/-- What can happen to a replica: a block arrives and is parsed, a block is delivered, a proposal
or a vote is handled, the replica proposes or waits for a certificate, a callback returns. -/
inductive Input (K : Secp256k1)
  | fetch (data : BlockData K)
  | deliver (h : Uint256)
  | propose (cmds parents : List Uint256) (extra : List UInt8)
  | receiveProposal (prop : Proposal)
  | receiveVote (vote : Vote K)
  | wait (h : Uint256)
  | resume

namespace Replica

/-- An exception leaves every call under way; behind undefined behaviour there is no state. -/
def throw (r : Exn × HotStuffCore K) : Option (Replica K) :=
  if r.1 = .undefinedBehaviour then none else some ⟨r.2.emit (.threw r.1), []⟩

/-- `on_propose_` sets the tail and then runs the callbacks that may propose. -/
def announce (c : HotStuffCore K) (h : Uint256) (stack : List Frame) : Replica K :=
  ⟨c.announce h, .announced h :: stack⟩

def finishReceive (c : HotStuffCore K) (prop : Proposal) (opinion : Bool) (stack : List Frame) :
    Replica K :=
  ⟨(c.noteProposal prop.blk).castVote prop opinion, stack⟩

/-- One step.  Messages are handled one at a time; only proposing happens inside callbacks. -/
def step (env : Env K) (r : Replica K) : Input K → Option (Replica K)
  | .fetch data =>
      if r.stack.isEmpty then some ⟨r.core.addBlk (env.getHash data) (.fetched data), []⟩ else none
  | .deliver h =>
      if r.stack.isEmpty && (r.core.storage h).isSome then
        match r.core.onDeliverBlk env h with
        | .error e => throw e
        | .ok (_, c) => some ⟨c, []⟩
      else none
  | .propose cmds parents extra =>
      if parents.all (fun p => (r.core.blk p).delivered) then
        match r.core.onPropose env cmds parents extra with
        | .error e => throw e
        | .ok (woken, c) =>
            let h := env.getHash (r.core.newData cmds parents extra)
            if woken then some ⟨c, .proposed h :: r.stack⟩ else some (announce c h r.stack)
      else none
  | .receiveProposal prop =>
      if r.stack.isEmpty then
        match r.core.onReceiveProposal env prop with
        | .error e => throw e
        | .ok (opinion, woken, c) =>
            if woken then some ⟨c, [.received prop opinion]⟩
            else some (finishReceive c prop opinion [])
      else none
  | .receiveVote vote =>
      if r.stack.isEmpty then
        match r.core.onReceiveVote vote with
        | .error e => throw e
        | .ok (_, c) => some ⟨c, []⟩
      else none
  | .wait h => some ⟨r.core.asyncQcFinish h, r.stack⟩
  | .resume =>
      match r.stack with
      | [] => none
      | .proposed h :: stack => some (announce r.core h stack)
      | .announced h :: stack => some ⟨r.core.broadcast h, stack⟩
      | .received prop opinion :: stack => some (finishReceive r.core prop opinion stack)

end Replica

open Replica

/-- The machine of one replica, started with a configuration and a key. -/
def machine (env : Env K) (config : ReplicaConfig K) (id : ReplicaID) (key : K.PrivKey)
    (voteDisabled : Bool) : System (Replica K) (Input K) where
  init r := r = ⟨HotStuffCore.start env config id key voteDisabled, []⟩
  step r i r' := r.step env i = some r'

/-! What a step can do, by kind of input. -/

/-- A step that ended in an exception after the given effects. -/
def Thrown (env : Env K) (P : Effect K → Prop) (r r' : Replica K) : Prop :=
  ∃ e c, Trail env P r.core c ∧ Allowed env c (.throw e) ∧ r' = ⟨c.emit (.threw e), []⟩

section inversion

variable {env : Env K} {r r' : Replica K}

private theorem thrown_of_throw {P : Effect K → Prop} {e : Exn} {c : HotStuffCore K}
    (hend : e ≠ .undefinedBehaviour → Trail env P r.core c ∧ Allowed env c (.throw e))
    (h : Replica.throw (e, c) = some r') : Thrown env P r r' := by
  unfold Replica.throw at h
  split at h
  · cases h
  · rename_i hne
    cases h
    exact ⟨e, c, (hend hne).1, (hend hne).2, rfl⟩

theorem step_fetch {data : BlockData K} (h : r.step env (.fetch data) = some r') :
    r.stack = [] ∧ r' = ⟨r.core.addBlk (env.getHash data) (.fetched data), []⟩ := by
  simp only [Replica.step] at h
  split at h
  · rename_i hempty
    cases h
    exact ⟨List.isEmpty_iff.mp hempty, rfl⟩
  · cases h

/-- The effects of delivering `h` in state `c`. -/
def Delivers (c : HotStuffCore K) (h : Uint256) : Effect K → Prop
  | .deliver k => k = h
  | .spoil k _ _ => k = h ∧ (c.blk h).data.parentHashes ≠ [] ∧ ¬ Deliverable c h
  | _ => False

theorem step_deliver {h : Uint256} (hstep : r.step env (.deliver h) = some r') :
    r.stack = [] ∧ (r.core.storage h).isSome ∧
      (Thrown env (Delivers r.core h) r r' ∨
        ∃ c, Trail env (Delivers r.core h) r.core c ∧ r' = ⟨c, []⟩) := by
  simp only [Replica.step] at hstep
  split at hstep
  · rename_i hguard
    rw [Bool.and_eq_true] at hguard
    refine ⟨List.isEmpty_iff.mp hguard.1, hguard.2, ?_⟩
    have hspec := onDeliverBlk_spec env hguard.2
    cases hres : r.core.onDeliverBlk env h with
    | error x =>
        obtain ⟨e, c⟩ := x
        rw [hres] at hspec hstep
        obtain ⟨⟨hund, hnot⟩, hparents, hne, parents, height, rfl⟩ := hspec
        refine .inl (thrown_of_throw (fun hdef => ⟨?_, allowed_throw hne⟩) hstep)
        exact Trail.single (e := .spoil h parents height) ⟨rfl, hparents hdef, hnot⟩ hund
    | ok x =>
        obtain ⟨b, c⟩ := x
        rw [hres] at hspec hstep
        cases hstep
        rcases hspec with ⟨_, rfl⟩ | ⟨hallow, rfl⟩
        · exact .inr ⟨_, .refl, rfl⟩
        · exact .inr ⟨_, Trail.single (e := .deliver h) rfl hallow, rfl⟩
  · cases hstep

theorem step_propose {cmds parents : List Uint256} {extra : List UInt8}
    (hstored : (r.core.storage r.core.hqc.2.objHash).isSome)
    (hstep : r.step env (.propose cmds parents extra) = some r') :
    (∀ p ∈ parents, (r.core.blk p).delivered = true) ∧
      (Thrown env (Proposes env r.core (r.core.newData cmds parents extra)) r r' ∨
        ∃ c, Trail env (Proposes env r.core (r.core.newData cmds parents extra)) r.core c ∧
          Proposed env r.core c (env.getHash (r.core.newData cmds parents extra)) ∧
          ((env.getHash (r.core.newData cmds parents extra) ∈ r.core.qcWaiting ∧
              r' = ⟨c, .proposed (env.getHash (r.core.newData cmds parents extra)) :: r.stack⟩) ∨
            r' = announce c (env.getHash (r.core.newData cmds parents extra)) r.stack)) := by
  simp only [Replica.step] at hstep
  split at hstep
  · rename_i hall
    rw [List.all_eq_true] at hall
    refine ⟨hall, ?_⟩
    have hspec := onPropose_spec env cmds extra hall hstored
    cases hres : r.core.onPropose env cmds parents extra with
    | error x =>
        obtain ⟨e, c⟩ := x
        rw [hres] at hspec hstep
        exact .inl (thrown_of_throw hspec hstep)
    | ok x =>
        obtain ⟨woken, c⟩ := x
        rw [hres] at hspec hstep
        obtain ⟨htrail, hprop, hwoken⟩ := hspec
        refine .inr ⟨c, htrail, hprop, ?_⟩
        dsimp only at hstep
        cases woken with
        | true =>
            cases hstep
            exact .inl ⟨hwoken rfl, rfl⟩
        | false =>
            cases hstep
            exact .inr rfl
  · cases hstep

theorem step_propose_nil {cmds : List Uint256} {extra : List UInt8}
    (hstep : r.step env (.propose cmds [] extra) = some r') :
    r' = ⟨r.core.emit (.threw .emptyParents), []⟩ := by
  have hthrown : Replica.throw (.emptyParents, r.core) = some r' := hstep
  cases hthrown
  rfl

theorem step_receiveProposal {prop : Proposal}
    (hstep : r.step env (.receiveProposal prop) = some r') :
    r.stack = [] ∧
      (Thrown env (Receives env r.core prop.blk) r r' ∨
        ∃ c opinion, (r.core.blk prop.blk).delivered = true ∧
          Trail env (Receives env r.core prop.blk) r.core c ∧
          (opinion = true → .accept prop.blk ∈ c.trace) ∧
          (r' = ⟨c, [.received prop opinion]⟩ ∨ r' = finishReceive c prop opinion [])) := by
  simp only [Replica.step] at hstep
  split at hstep
  · rename_i hempty
    refine ⟨List.isEmpty_iff.mp hempty, ?_⟩
    have hspec := onReceiveProposal_spec env r.core prop
    cases hres : r.core.onReceiveProposal env prop with
    | error x =>
        obtain ⟨e, c⟩ := x
        rw [hres] at hspec hstep
        exact .inl (thrown_of_throw (fun _ => hspec) hstep)
    | ok x =>
        obtain ⟨opinion, woken, c⟩ := x
        rw [hres] at hspec hstep
        refine .inr ⟨c, opinion, hspec.1, hspec.2.1, hspec.2.2, ?_⟩
        dsimp only at hstep
        cases woken with
        | true =>
            cases hstep
            exact .inl rfl
        | false =>
            cases hstep
            exact .inr rfl
  · cases hstep

theorem step_receiveVote {vote : Vote K} (hstep : r.step env (.receiveVote vote) = some r') :
    r.stack = [] ∧
      (Thrown env (Votes vote false) r r' ∨
        ∃ c, Trail env (Votes vote false) r.core c ∧ r' = ⟨c, []⟩) := by
  simp only [Replica.step] at hstep
  split at hstep
  · rename_i hempty
    refine ⟨List.isEmpty_iff.mp hempty, ?_⟩
    have hspec := onReceiveVote_spec (c := r.core) env vote false nofun
    cases hres : r.core.onReceiveVote vote with
    | error x =>
        obtain ⟨e, c⟩ := x
        rw [hres] at hspec hstep
        exact .inl (thrown_of_throw (fun hne => ⟨hspec.2 hne, allowed_throw hspec.1⟩) hstep)
    | ok x =>
        obtain ⟨woken, c⟩ := x
        rw [hres] at hspec hstep
        cases hstep
        exact .inr ⟨c, hspec.1, rfl⟩
  · cases hstep

theorem step_resume (hstep : r.step env .resume = some r') :
    (∃ h stack, r.stack = .proposed h :: stack ∧ r' = announce r.core h stack) ∨
      (∃ h stack, r.stack = .announced h :: stack ∧ r' = ⟨r.core.broadcast h, stack⟩) ∨
      ∃ prop opinion stack, r.stack = .received prop opinion :: stack ∧
        r' = finishReceive r.core prop opinion stack := by
  simp only [Replica.step] at hstep
  split at hstep
  · cases hstep
  · rename_i h stack heq
    cases hstep
    exact .inl ⟨h, stack, heq, rfl⟩
  · rename_i h stack heq
    cases hstep
    exact .inr (.inl ⟨h, stack, heq, rfl⟩)
  · rename_i prop opinion stack heq
    cases hstep
    exact .inr (.inr ⟨prop, opinion, stack, heq, rfl⟩)

end inversion

/-! Every step is a run of effects. -/

/-- A frame that will vote does so for a block that the replica has accepted. -/
def FramesOk (r : Replica K) : Prop :=
  ∀ prop, .received prop true ∈ r.stack → .accept prop.blk ∈ r.core.trace

/-- A predicate on effects that holds of all that a step on the input may have. -/
def Covers (env : Env K) (r : Replica K) (P : Effect K → Prop) : Input K → Prop
  | .fetch data => P (.store data)
  | .deliver h => ∀ e, Delivers r.core h e → P e
  | .propose cmds parents extra =>
      (∀ e, Proposes env r.core (r.core.newData cmds parents extra) e → P e) ∧
        P (.announce (env.getHash (r.core.newData cmds parents extra)))
  | .receiveProposal prop =>
      (∀ e, Receives env r.core prop.blk e → P e) ∧ P (.note prop.blk) ∧ P (.sign prop.blk)
  | .receiveVote vote => ∀ e, Votes vote false e → P e
  | .wait h => P (.wait h)
  | .resume => (∀ h, P (.announce h)) ∧ (∀ h, P (.note h)) ∧ ∀ h, P (.sign h)

/-- Effects that only produce output. -/
structure Outputs (P : Effect K → Prop) : Prop where
  throw : ∀ e, P (.throw e)
  broadcast : ∀ h, P (.broadcast h)
  sendVote : ∀ r v, P (.sendVote r v)

section trails

variable {env : Env K} {r r' : Replica K} {P : Effect K → Prop} {i : Input K}

private theorem Thrown.trail {Q : Effect K → Prop} (h : Thrown env Q r r') (hQ : ∀ e, Q e → P e)
    (hthrow : ∀ e, P (.throw e)) : Trail env P r.core r'.core ∧ r'.stack = [] := by
  obtain ⟨e, c, htrail, hallow, rfl⟩ := h
  exact ⟨(htrail.mono hQ).trans (Trail.single (e := .throw e) (hthrow e) hallow), rfl⟩

private theorem finishReceive_trail {c : HotStuffCore K} {prop : Proposal} {opinion : Bool}
    {stack : List Frame} (hacc : opinion = true → .accept prop.blk ∈ c.trace)
    (hout : Outputs P) (hnote : P (.note prop.blk)) (hsign : P (.sign prop.blk)) :
    Trail env P c (finishReceive c prop opinion stack).core := by
  refine (noteProposal_trail hnote).trans (castVote_trail ?_ hsign hout.sendVote)
  rw [trace_noteProposal]
  exact hacc

theorem FramesOk.of_grows (h : FramesOk r) (hg : Grows r.core r'.core)
    (hstack : ∀ prop, .received prop true ∈ r'.stack → .received prop true ∈ r.stack) :
    FramesOk r' :=
  fun prop hmem => hg.trace.subset (h prop (hstack prop hmem))

theorem covers_and {P Q : Effect K → Prop} (hP : Covers env r P i)
    (hQ : Covers env r Q i) : Covers env r (fun e => P e ∧ Q e) i := by
  cases i with
  | fetch data => exact ⟨hP, hQ⟩
  | deliver h => exact fun e he => ⟨hP e he, hQ e he⟩
  | propose cmds parents extra => exact ⟨fun e he => ⟨hP.1 e he, hQ.1 e he⟩, hP.2, hQ.2⟩
  | receiveProposal prop =>
      exact ⟨fun e he => ⟨hP.1 e he, hQ.1 e he⟩, ⟨hP.2.1, hQ.2.1⟩, hP.2.2, hQ.2.2⟩
  | receiveVote vote => exact fun e he => ⟨hP e he, hQ e he⟩
  | wait h => exact ⟨hP, hQ⟩
  | resume =>
      exact ⟨fun h => ⟨hP.1 h, hQ.1 h⟩, fun h => ⟨hP.2.1 h, hQ.2.1 h⟩,
        fun h => ⟨hP.2.2 h, hQ.2.2 h⟩⟩

theorem step_trail (hframes : FramesOk r) (hcerts : CertsOk r.core) (hP : Covers env r P i)
    (hout : Outputs P) (hstep : r.step env i = some r') :
    Trail env P r.core r'.core ∧ FramesOk r' := by
  -- Frames are either the old ones or carry the opinion of the call that has just run.
  have hkeep : Trail env P r.core r'.core →
      (∀ prop, .received prop true ∈ r'.stack → .received prop true ∈ r.stack) →
      Trail env P r.core r'.core ∧ FramesOk r' :=
    fun htrail hstack => ⟨htrail, hframes.of_grows (grows_of_trail htrail) hstack⟩
  cases i with
  | fetch data =>
      obtain ⟨_, rfl⟩ := step_fetch hstep
      exact hkeep (addBlk_trail (fun _ => hP)) nofun
  | deliver h =>
      obtain ⟨_, _, hthrown | ⟨c, htrail, rfl⟩⟩ := step_deliver hstep
      · obtain ⟨htrail, hnil⟩ := hthrown.trail hP hout.throw
        exact hkeep htrail (by rw [hnil]; nofun)
      · exact hkeep (htrail.mono hP) nofun
  | propose cmds parents extra =>
      obtain ⟨_, hthrown | ⟨c, htrail, hprop, hend⟩⟩ :=
        step_propose (by rw [hcerts.hqc_hash]; exact hcerts.hqc_stored) hstep
      · obtain ⟨htrail, hnil⟩ := hthrown.trail hP.1 hout.throw
        exact hkeep htrail (by rw [hnil]; nofun)
      · rcases hend with ⟨_, rfl⟩ | rfl
        · refine hkeep (htrail.mono hP.1) (fun prop hmem => ?_)
          rcases List.mem_cons.mp hmem with heq | hmem
          · cases heq
          · exact hmem
        · refine hkeep ((htrail.mono hP.1).trans
            (Trail.single (e := .announce _) hP.2 trivial)) (fun prop hmem => ?_)
          rcases List.mem_cons.mp hmem with heq | hmem
          · cases heq
          · exact hmem
  | receiveProposal prop =>
      obtain ⟨_, hthrown | ⟨c, opinion, _, htrail, hacc, hend⟩⟩ := step_receiveProposal hstep
      · obtain ⟨htrail, hnil⟩ := hthrown.trail hP.1 hout.throw
        exact hkeep htrail (by rw [hnil]; nofun)
      · rcases hend with rfl | rfl
        · refine ⟨htrail.mono hP.1, fun prop' hmem => ?_⟩
          cases List.mem_singleton.mp hmem
          exact hacc rfl
        · exact hkeep ((htrail.mono hP.1).trans (finishReceive_trail hacc hout hP.2.1 hP.2.2))
            nofun
  | receiveVote vote =>
      obtain ⟨_, hthrown | ⟨c, htrail, rfl⟩⟩ := step_receiveVote hstep
      · obtain ⟨htrail, hnil⟩ := hthrown.trail hP hout.throw
        exact hkeep htrail (by rw [hnil]; nofun)
      · exact hkeep (htrail.mono hP) nofun
  | wait h =>
      cases hstep
      exact hkeep (asyncQcFinish_trail hP) (fun _ => id)
  | resume =>
      rcases step_resume hstep with ⟨h, stack, heq, rfl⟩ | ⟨h, stack, heq, rfl⟩ |
        ⟨prop, opinion, stack, heq, rfl⟩
      · refine hkeep (Trail.single (e := .announce h) (hP.1 h) trivial) (fun prop hmem => ?_)
        rw [heq]
        rcases List.mem_cons.mp hmem with heq | hmem
        · cases heq
        · exact List.mem_cons_of_mem _ hmem
      · refine hkeep (Trail.single (e := .broadcast h) (hout.broadcast h) trivial)
          (fun prop hmem => ?_)
        rw [heq]
        exact List.mem_cons_of_mem _ hmem
      · refine hkeep (finishReceive_trail ?_ hout (hP.2.1 _) (hP.2.2 _)) (fun prop' hmem => ?_)
        · rintro rfl
          exact hframes prop (by rw [heq]; exact List.mem_cons_self)
        · rw [heq]
          exact List.mem_cons_of_mem _ hmem

end trails

section reachable

variable {env : Env K} {config : ReplicaConfig K} {id : ReplicaID} {key : K.PrivKey}
  {voteDisabled : Bool} {r : Replica K}

/-- What holds of every reachable replica, whatever it receives. -/
structure ReplicaOk (env : Env K) (r : Replica K) : Prop where
  tree : TreeOk env r.core
  certs : CertsOk r.core
  frames : FramesOk r

theorem covers_true (env : Env K) (r : Replica K) (i : Input K) :
    Covers env r (fun _ => True) i := by
  cases i <;> simp [Covers]

theorem trail_ok {P : Effect K → Prop} {c c' : HotStuffCore K} (h : Trail env P c c')
    (htree : TreeOk env c) (hcerts : CertsOk c) : TreeOk env c' ∧ CertsOk c' :=
  Trail.invariant (I := fun d => TreeOk env d ∧ CertsOk d) h ⟨htree, hcerts⟩
    (fun _ _ _ hinv he => ⟨hinv.1.apply he, hinv.2.apply hinv.1 he⟩)

theorem ReplicaOk.step {r' : Replica K} {i : Input K} (hok : ReplicaOk env r)
    (hstep : r.step env i = some r') :
    ReplicaOk env r' ∧ Trail env (fun _ => True) r.core r'.core := by
  obtain ⟨htrail, hframes⟩ := step_trail hok.frames hok.certs (covers_true env r i)
    ⟨fun _ => trivial, fun _ => trivial, fun _ _ => trivial⟩ hstep
  obtain ⟨htree, hcerts⟩ := trail_ok htrail hok.tree hok.certs
  exact ⟨⟨htree, hcerts, hframes⟩, htrail⟩

theorem replicaOk_of_reachable (h : Reachable (machine env config id key voteDisabled) r) :
    ReplicaOk env r := by
  refine h.invariant ?_ (fun s i s' _ hok hstep => (hok.step hstep).1)
  rintro r rfl
  exact ⟨.start _ _ _ _ _, .start _ _ _ _ _, nofun⟩

/-- What the effects that the inputs of a run cover preserve is an invariant of the run. -/
theorem invariant_of_covered {I : HotStuffCore K → Prop} {P : Effect K → Prop}
    {ok : Replica K → Input K → Prop}
    (h : Reachable ((machine env config id key voteDisabled).restrict ok) r)
    (hcovers : ∀ s i, ok s i → Covers env s P i) (hout : Outputs P)
    (hinit : I (HotStuffCore.start env config id key voteDisabled))
    (hstep : ∀ c e, TreeOk env c → CertsOk c → P e → I c → Allowed env c e →
      I (Effects.apply env c e)) : I r.core := by
  refine Reachable.invariant (I := fun r => I r.core) h ?_ ?_
  · rintro r rfl
    exact hinit
  · intro s i s' hs hinv hi
    have hok := replicaOk_of_reachable hs.of_restrict
    have htrail := (step_trail hok.frames hok.certs (hcovers s i hi.1) hout hi.2).1
    refine (Trail.invariant (I := fun d => TreeOk env d ∧ CertsOk d ∧ I d) htrail
      ⟨hok.tree, hok.certs, hinv⟩ ?_).2.2
    intro c e hP hc he
    exact ⟨hc.1.apply he, hc.2.1.apply hc.1 he, hstep c e hc.1 hc.2.1 hP hc.2.2 he⟩

/-- An invariant of the effects is one of the machine. -/
theorem invariant_of_effects {I : HotStuffCore K → Prop}
    (h : Reachable (machine env config id key voteDisabled) r)
    (hinit : I (HotStuffCore.start env config id key voteDisabled))
    (hstep : ∀ c e, TreeOk env c → CertsOk c → I c → Allowed env c e →
      I (Effects.apply env c e)) : I r.core :=
  invariant_of_covered (h.restrict (fun _ _ => trivial)) (fun s i _ => covers_true env s i)
    ⟨fun _ => trivial, fun _ => trivial, fun _ _ => trivial⟩ hinit
    (fun c e htree hcerts _ hinv he => hstep c e htree hcerts hinv he)

theorem reachable_of_execute {inputs : List (Input K)}
    (h : execute (Replica.step env) inputs ⟨.start env config id key voteDisabled, []⟩ = some r) :
    Reachable (machine env config id key voteDisabled) r :=
  Reachable.trans (.init rfl) (steps_of_execute (fun _ _ _ hstep => hstep) h)

end reachable

/-! A replica without peers, whose blocks are named by their first command. -/

def clearEnv (twoStep : Bool) : Env clearScheme where
  getHash data := data.cmds.headD 0
  genesisHash := 0
  twoStep
  addr _ h := h.toNat

def soleConfig : ReplicaConfig clearScheme := HotStuffCore.startConfig [(0 : Nat)]

def soleMachine : System (Replica clearScheme) (Input clearScheme) :=
  machine (clearEnv false) soleConfig 0 (0 : Nat) false

/-- Four blocks proposed on top of one another, the last of which commits the first. -/
def soleRun : List (Input clearScheme) :=
  [.propose [1] [0] [], .resume, .propose [2] [1] [], .resume, .propose [3] [2] [], .resume,
    .propose [4] [3] [], .resume]

def soleReplica : Replica clearScheme :=
  (execute (Replica.step (clearEnv false)) soleRun
    ⟨.start (clearEnv false) soleConfig 0 (0 : Nat) false, []⟩).get (by decide +kernel)

theorem soleReplica_reachable : Reachable soleMachine soleReplica :=
  reachable_of_execute (Option.some_get _).symm

end ArchipelagoHotStuff.Consensus.Machine
