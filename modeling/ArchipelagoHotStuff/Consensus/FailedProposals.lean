/- Module: ArchipelagoHotStuff/Consensus/FailedProposals
   source: consensus.cpp (on_propose)
   digest: What a call of `on_propose` that throws leaves behind: nothing without parents; the
     new block and what `update` makes of it when the block is not higher than `vheight`. -/

import ArchipelagoHotStuff.Consensus.HighTail

set_option autoImplicit false
set_option relaxedAutoImplicit false

namespace ArchipelagoHotStuff.Consensus.FailedProposals

open Crypto.Wire Crypto.Certificates State Handlers Effects Consensus.Tree Ballots Trails Machine
open HighTail General.Transition

variable {K : Secp256k1} {env : Env K} {c d c' : HotStuffCore K} {data : BlockData K}

/-- All that is neither a block, an event nor a tail is the same. -/
def SameRegisters (c d : HotStuffCore K) : Prop :=
  { registers d with tails := c.tails } = registers c

/-- The new block's hash is that of no other block, the genesis block included. -/
def Unshared (env : Env K) (c : HotStuffCore K) (data : BlockData K) : Prop :=
  env.getHash data ≠ env.genesisHash ∧ Distinct env c data

/-- In state `d` the block that `on_propose` builds in state `c` has been stored and delivered,
and nothing else has happened.  A block that is there already loses its certificate, and keeps
its votes. -/
structure Inserted (env : Env K) (c : HotStuffCore K) (data : BlockData K) (d : HotStuffCore K) :
    Prop where
  storage : ∀ x, x ≠ env.getHash data → d.storage x = c.storage x
  registers : SameRegisters c d
  trace : d.trace = c.trace ∨ d.trace = .created (env.getHash data) :: c.trace
  delivered : (d.blk (env.getHash data)).delivered = true
  selfQc : (d.blk (env.getHash data)).selfQc =
    some (QuorumCert.create c.config (env.getHash data))
  voted : (d.blk (env.getHash data)).voted = (c.blk (env.getHash data)).voted
  decision : (d.blk (env.getHash data)).decision = (c.blk (env.getHash data)).decision
  inserted : (c.blk (env.getHash data)).delivered = false → env.getHash data ∈ d.tails
  erased : ∀ t, t ∈ d.tails → t = env.getHash data ∨ (t ∈ c.tails ∧ t ∉ data.parentHashes)
  kept : Unshared env c data → ∀ t, t ∈ c.tails → t ∉ data.parentHashes → t ∈ d.tails
  qcRef : Unshared env c data → (d.blk (env.getHash data)).qcRef = some data.qc.objHash

/-- What `update` may change: the certificate, the lock and the execution head, the tail of the
pacemaker, and which blocks are decided. -/
structure Updated (d c' : HotStuffCore K) : Prop where
  blk : ∀ x, { c'.blk x with decision := (d.blk x).decision } = d.blk x
  stored : ∀ x, (c'.storage x).isSome = (d.storage x).isSome
  tails : c'.tails = d.tails
  vheight : c'.vheight = d.vheight
  qcWaiting : c'.qcWaiting = d.qcWaiting
  trace : ∀ a ∈ c'.trace, a ∈ d.trace ∨ (∃ h, a = .hqcUpdate h) ∨ (∃ h, a = .consensus h) ∨
    ∃ fin, a = .decide fin

/-! The block is stored and delivered. -/

/-- The core when `on_propose` is about to deliver the block it has built. -/
def stage (env : Env K) (c : HotStuffCore K) (data : BlockData K) : HotStuffCore K :=
  ((c.eraseTails data.parentHashes).addNew (env.getHash data) data).modifyBlk (env.getHash data)
    (fun b => { b with selfQc := some (QuorumCert.create c.config (env.getHash data)) })

theorem build_eq (env : Env K) (c : HotStuffCore K) (data : BlockData K) :
    c.build env data = match (stage env c data).onDeliverBlk env (env.getHash data) with
      | .error x => .error x
      | .ok r => r.2.update env (env.getHash data) := by
  unfold HotStuffCore.build stage
  simp only [bind, Except.bind]
  rw [config_addNew, show (c.eraseTails data.parentHashes).config = c.config from rfl]
  split <;> (rename_i heq; rw [heq])

/-- Before its delivery the new block is the stored one, or one that carries the new data; its
certificate is fresh in either case. -/
theorem staged (env : Env K) (c : HotStuffCore K) (data : BlockData K) :
    ∃ (b : Block K) (trace : List (Event K)),
      stage env c data =
        { c.eraseTails data.parentHashes with
          storage := Function.update c.storage (env.getHash data) (some b), trace } ∧
      (trace = c.trace ∨ trace = .created (env.getHash data) :: c.trace) ∧
      b.selfQc = some (QuorumCert.create c.config (env.getHash data)) ∧
      b.voted = (c.blk (env.getHash data)).voted ∧
      b.decision = (c.blk (env.getHash data)).decision ∧
      b.delivered = (c.blk (env.getHash data)).delivered ∧
      ((c.storage (env.getHash data)).isSome →
        b.qcRef = (c.blk (env.getHash data)).qcRef) ∧
      b.data = if (c.storage (env.getHash data)).isSome then (c.blk (env.getHash data)).data
        else data := by
  unfold stage
  cases hs : c.storage (env.getHash data) with
  | some b =>
      refine ⟨{ b with selfQc := some (QuorumCert.create c.config (env.getHash data)) }, c.trace,
        ?_, .inl rfl, rfl, ?_, ?_, ?_, ?_, ?_⟩
      · simp [HotStuffCore.addNew, HotStuffCore.modifyBlk, hs, HotStuffCore.eraseTails]
      all_goals simp [HotStuffCore.blk, hs]
  | none =>
      refine ⟨{ data
                parents := data.parentHashes
                qcRef := some c.hqc.1
                selfQc := some (QuorumCert.create c.config (env.getHash data))
                height := (data.parentHashes.head?.elim 0 (fun p => (c.blk p).height)) + 1
                delivered := false
                decision := false
                voted := ∅ }, .created (env.getHash data) :: c.trace, ?_, .inr rfl, rfl, ?_, ?_, ?_,
        ?_, ?_⟩
      · simp [HotStuffCore.addNew, HotStuffCore.addBlk, HotStuffCore.modifyBlk,
          HotStuffCore.emit, hs, HotStuffCore.eraseTails, HotStuffCore.blk]
      all_goals simp [HotStuffCore.blk, hs, Block.absent, Block.fetched]

/-- A staged block that is no other is delivered if its parents are and the certified block is
stored. -/
theorem deliver_staged (htree : TreeOk env c) (hdist : Distinct env c data)
    (hne : data.parentHashes ≠ []) (hparents : ∀ p ∈ data.parentHashes, (c.blk p).delivered = true)
    (hstored : (c.storage data.qc.objHash).isSome) :
    ∃ woken d, (stage env c data).onDeliverBlk env (env.getHash data) = .ok (woken, d) := by
  obtain ⟨b, trace, hstaged, _, _, _, _, hdel, _, hdata⟩ := staged env c data
  have hblk : (stage env c data).blk (env.getHash data) = b := by
    simp [HotStuffCore.blk, hstaged]
  have hother : ∀ x, x ≠ env.getHash data → (stage env c data).storage x = c.storage x := by
    intro x hx
    simp [hstaged, hx]
  have hsome : ((stage env c data).storage (env.getHash data)).isSome := by simp [hstaged]
  have hspec := onDeliverBlk_spec env hsome
  cases hres : (stage env c data).onDeliverBlk env (env.getHash data) with
  | ok x => exact ⟨x.1, x.2, rfl⟩
  | error x =>
      obtain ⟨e, c'⟩ := x
      rw [hres] at hspec
      obtain ⟨⟨hund, hnot⟩, _⟩ := hspec
      rw [hblk, hdel] at hund
      -- The stored block has the parents and the certified block of the new one.
      have hsame : b.data.parentHashes = data.parentHashes ∧
          b.data.qc.objHash = data.qc.objHash := by
        rw [hdata]
        split
        · rename_i hs
          refine hdist (fun heq => ?_) hs
          rw [heq, htree.genesis.delivered] at hund
          cases hund
        · exact ⟨rfl, rfl⟩
      refine absurd ⟨?_, fun p hp => ?_, ?_⟩ hnot
      · rw [hblk, hsame.1]
        exact hne
      · rw [hblk, hsame.1] at hp
        have hpne : p ≠ env.getHash data := by
          rintro rfl
          rw [hparents _ hp] at hund
          cases hund
        simp only [HotStuffCore.blk, hother p hpne]
        exact hparents p hp
      · rw [hblk, hsame.2]
        by_cases hx : data.qc.objHash = env.getHash data
        · rw [hx]
          exact hsome
        · rw [hother _ hx]
          exact hstored

theorem inserted_of_deliver (htree : TreeOk env c) {woken : Bool}
    (hres : (stage env c data).onDeliverBlk env (env.getHash data) = .ok (woken, d)) :
    Inserted env c data d := by
  obtain ⟨b, trace, hstaged, htrace, hselfQc, hvoted, hdec, hdel, hqcRef, hdata⟩ :=
    staged env c data
  rw [hstaged] at hres
  have hblk : ∀ c₁ : HotStuffCore K,
      c₁.storage = Function.update c.storage (env.getHash data) (some b) →
        c₁.blk (env.getHash data) = b := by
    intro c₁ h₁
    simp [HotStuffCore.blk, h₁]
  have hne : ∀ x, x ≠ env.getHash data →
      Function.update c.storage (env.getHash data) (some b) x = c.storage x := by
    intro x hx
    simp [hx]
  generalize hc₁ : ({ c.eraseTails data.parentHashes with
    storage := Function.update c.storage (env.getHash data) (some b), trace } : HotStuffCore K) = c₁
    at hres
  have hst : c₁.storage = Function.update c.storage (env.getHash data) (some b) := by rw [← hc₁]
  have htails : ∀ t, t ∈ c₁.tails ↔ t ∈ c.tails ∧ t ∉ data.parentHashes := by
    intro t
    rw [← hc₁]
    exact c.mem_tails_eraseTails
  have hregs : SameRegisters c c₁ := by
    rw [← hc₁]
    rfl
  have htr : c₁.trace = trace := by rw [← hc₁]
  have hs : (c₁.storage (env.getHash data)).isSome := by simp [hst]
  have hspec := onDeliverBlk_spec env hs
  rw [hres] at hspec
  rcases hspec with ⟨hd, rfl⟩ | ⟨hallow, rfl⟩
  · rw [hblk _ hst] at hd
    refine ⟨fun x hx => by rw [hst, hne x hx], hregs, by rw [htr]; exact htrace, ?_, ?_, ?_, ?_,
      fun hnot => ?_, fun t ht => .inr ((htails t).mp ht),
      fun _ t ht hnot => (htails t).mpr ⟨ht, hnot⟩, fun hown => ?_⟩
    · rw [hblk _ hst, hd]
    · rw [hblk _ hst, hselfQc]
    · rw [hblk _ hst, hvoted]
    · rw [hblk _ hst, hdec]
    · rw [← hdel, hd] at hnot
      cases hnot
    · have hold : (c.blk (env.getHash data)).delivered = true := hdel.symm.trans hd
      have hsome := isSome_of_delivered hold
      rw [hblk _ hst, hqcRef hsome, (htree.deliveredOk _ hown.1 hold).qcRef,
        (hown.2 hown.1 hsome).2]
  · have hself : (apply env c₁ (.deliver (env.getHash data))).blk (env.getHash data) = _ :=
      blk_deliverBlk_self env hs
    have hmem : ∀ t, t ∈ (apply env c₁ (.deliver (env.getHash data))).tails ↔
        t = env.getHash data ∨ (t ∈ c₁.tails ∧ t ∉ b.data.parentHashes) := by
      intro t
      rw [← hblk _ hst]
      exact (HotStuffCore.mem_tails_insertTail _).trans
        (or_congr_right (HotStuffCore.mem_tails_eraseTails _))
    have hund : (c.blk (env.getHash data)).delivered = false := by
      rw [← hdel, ← hblk _ hst]
      exact hallow.2.1
    refine ⟨fun x hx => ?_, hregs, by rw [← htr] at htrace; exact htrace, ?_, ?_, ?_, ?_,
      fun _ => (hmem _).mpr (.inl rfl), fun t ht => ?_, fun hown t ht hnot => ?_, fun hown => ?_⟩
    · show (c₁.modifyBlk _ _).storage x = _
      rw [c₁.storage_modifyBlk, if_neg hx, hst, hne x hx]
    · rw [hself]
    · rw [hself, hblk _ hst, hselfQc]
    · rw [hself, hblk _ hst, hvoted]
    · rw [hself, hblk _ hst, hdec]
    · exact ((hmem t).mp ht).imp_right (fun h => (htails t).mp h.1)
    · refine (hmem t).mpr (.inr ⟨(htails t).mpr ⟨ht, hnot⟩, ?_⟩)
      rw [hdata]
      split
      · rename_i hsome
        rw [(hown.2 hown.1 hsome).1]
        exact hnot
      · exact hnot
    · rw [hself, hblk _ hst, hdata]
      split
      · rename_i hsome
        rw [(hown.2 hown.1 hsome).2]
      · rfl

theorem update_exn {h : Uint256} {e : Exn} (hup : c.update env h = .error (e, c')) :
    e ≠ .notHigherThanVheight := by
  have hcommit : ∀ {d : HotStuffCore K} {b : Uint256}, d.commit b = .error (e, c') →
      e ≠ .notHigherThanVheight := by
    intro d b hres
    unfold HotStuffCore.commit at hres
    split at hres
    · cases hres
      exact nofun
    · split at hres <;> cases hres
      exact nofun
  unfold HotStuffCore.update at hup
  split at hup
  · unfold HotStuffCore.updateTwoStep at hup
    repeat' split at hup
    all_goals try cases hup
    dsimp only at hup
    repeat' split at hup
    all_goals first | cases hup | exact hcommit hup
  · unfold HotStuffCore.updateThreeStep at hup
    repeat' split at hup
    all_goals try cases hup
    dsimp only at hup
    repeat' split at hup
    all_goals first | cases hup | exact hcommit hup

theorem onDeliverBlk_exn {h : Uint256} {e : Exn} (hres : c.onDeliverBlk env h = .error (e, c')) :
    e ≠ .notHigherThanVheight := by
  unfold HotStuffCore.onDeliverBlk at hres
  repeat' split at hres
  all_goals try cases hres
  all_goals dsimp only at hres
  all_goals repeat' split at hres
  all_goals cases hres
  all_goals exact nofun

theorem onReceiveVote_exn {vote : Vote K} {e : Exn}
    (hres : c.onReceiveVote vote = .error (e, c')) : e ≠ .notHigherThanVheight := by
  unfold HotStuffCore.onReceiveVote at hres
  split at hres
  swap
  · cases hres
    exact nofun
  dsimp only at hres
  repeat' split at hres
  all_goals try cases hres
  rename_i hadd
  rcases addPart_error hadd with ⟨rfl, _⟩ | rfl <;> exact nofun

/-- `on_propose` gives up on a block that is too low in the state in which it has built it. -/
theorem built_of_tooLow {cmds parents : List Uint256} {extra : List UInt8}
    (hthrow : c.onPropose env cmds parents extra = .error (.notHigherThanVheight, c')) :
    c.build env (c.newData cmds parents extra) = .ok c' := by
  unfold HotStuffCore.onPropose at hthrow
  split at hthrow
  · cases hthrow
  simp only [bind, Except.bind] at hthrow
  generalize c.newData cmds parents extra = data at hthrow ⊢
  cases hbuild : c.build env data with
  | error r =>
      obtain ⟨e, d⟩ := r
      rw [hbuild] at hthrow
      cases hthrow
      unfold HotStuffCore.build at hbuild
      simp only [bind, Except.bind] at hbuild
      split at hbuild
      · rename_i hdel
        cases hbuild
        exact absurd rfl (onDeliverBlk_exn hdel)
      · exact absurd rfl (update_exn hbuild)
  | ok d =>
      rw [hbuild] at hthrow
      dsimp only at hthrow
      split at hthrow
      · cases hthrow
        rfl
      · exact absurd rfl (onReceiveVote_exn hthrow)

theorem inserted_of_build (htree : TreeOk env c) (hbuild : c.build env data = .ok c') :
    ∃ d, Inserted env c data d ∧ d.update env (env.getHash data) = .ok c' := by
  rw [build_eq] at hbuild
  split at hbuild
  · cases hbuild
  · rename_i r hres
    exact ⟨r.2, inserted_of_deliver htree hres, hbuild⟩

/-! `update` runs. -/

private theorem undecided_commitAll (queue : List Uint256) (c : HotStuffCore K) (x : Uint256)
    (b : Bool) : { (queue.foldl HotStuffCore.commitBlk c).blk x with decision := b } =
      { c.blk x with decision := b } := by
  induction queue generalizing c with
  | nil => rfl
  | cons h queue ih =>
      rw [List.foldl_cons, ih]
      exact c.field_modifyBlk (f := fun k => { k with decision := true })
        (fun k => { k with decision := b }) h x (fun _ => rfl)

theorem Updated.refl (d : HotStuffCore K) : Updated d d :=
  ⟨fun _ => rfl, fun _ => rfl, rfl, rfl, rfl, fun _ ha => .inl ha⟩

theorem Updated.apply {h : Uint256} {e : Effect K} {d' : HotStuffCore K} (hup : Updated d d')
    (hP : Updates d h e) : Updated d (Effects.apply env d' e) := by
  cases e with
  | raiseHqc t qc =>
      refine ⟨hup.blk, hup.stored, hup.tails, hup.vheight, hup.qcWaiting, fun a ha => ?_⟩
      rw [trace_eq] at ha
      rcases List.mem_append.mp ha with hnew | hold
      · exact .inr (.inl ⟨t, List.mem_singleton.mp hnew⟩)
      · exact hup.trace a hold
  | raiseLock t => exact ⟨hup.blk, hup.stored, hup.tails, hup.vheight, hup.qcWaiting, hup.trace⟩
  | commit queue t =>
      have hregs := registers_commitAll d' queue.reverse
      refine ⟨fun x => ?_, fun x => ?_, (congrArg Registers.tails hregs).trans hup.tails,
        (congrArg Registers.vheight hregs).trans hup.vheight,
        (congrArg Registers.qcWaiting hregs).trans hup.qcWaiting, fun a ha => ?_⟩
      · exact (undecided_commitAll queue.reverse d' x _).trans (hup.blk x)
      · exact (isSome_eq (map_node_commitAll queue.reverse x)).trans (hup.stored x)
      · rw [trace_eq] at ha
        rcases List.mem_append.mp ha with hnew | hold
        · obtain ⟨x, _, hx⟩ := List.mem_flatMap.mp hnew
          rcases mem_commitEvents hx with rfl | ⟨fin, rfl⟩
          · exact .inr (.inr (.inl ⟨x, rfl⟩))
          · exact .inr (.inr (.inr ⟨fin, rfl⟩))
        · exact hup.trace a hold
  | _ => exact absurd hP id

theorem updated_of_update {h : Uint256} (hd : (d.blk h).delivered = true)
    (hup : d.update env h = .ok c') : Updated d c' :=
  Trail.invariant (I := Updated d) (update_ok hd hup).1 (.refl d)
    (fun _ _ hP hinv _ => hinv.apply hP)

theorem hqc_of_update {h : Uint256} (hd : (d.blk h).delivered = true)
    (hq : (d.blk h).qcRef = some d.hqc.1) (hup : d.update env h = .ok c') :
    c'.hqc = d.hqc ∧ c'.hqcTail = d.hqcTail := by
  refine (Trail.invariant (I := fun d' => (∀ x, (d'.blk x).height = (d.blk x).height) ∧
    d'.hqc = d.hqc ∧ d'.hqcTail = d.hqcTail) (update_ok hd hup).1 ⟨fun _ => rfl, rfl, rfl⟩ ?_).2
  rintro d' e hP ⟨hheight, hhqc, htail⟩ he
  have hraise : ∀ t qc, e ≠ .raiseHqc t qc := by
    rintro t qc rfl
    obtain rfl := Option.some.inj (hq.symm.trans hP)
    have hlt := he.1
    rw [hhqc] at hlt
    exact lt_irrefl _ hlt
  refine ⟨fun x => ?_, (hqc_apply env d' hraise).trans hhqc,
    (hqcTail_apply hraise ?_ ?_).trans htail⟩
  · refine (congrArg Node.height (node_blk_eq (map_node_apply ?_ x))).trans (hheight x)
    cases e <;> first | exact id | exact fun _ => hP
  all_goals
    rintro t rfl
    exact hP

section failing

variable {config : ReplicaConfig K} {id : ReplicaID} {key : K.PrivKey} {voteDisabled : Bool}
  {r : Replica K} {cmds parents : List Uint256} {extra : List UInt8} {e : Exn}

/-- Without parents nothing has happened when `on_propose` throws.  When it finds the block too
low, the block is there and `update` has run on it, but nothing has been signed or sent, and the
certificate held is the same. -/
theorem failed_proposal (h : Reachable (machine env config id key voteDisabled) r)
    (hthrow : r.core.onPropose env cmds parents extra = .error (e, c')) :
    (parents = [] → e = .emptyParents ∧ c' = r.core) ∧
      (e = .notHigherThanVheight → ∃ d, Inserted env r.core (r.core.newData cmds parents extra) d ∧
        d.update env (env.getHash (r.core.newData cmds parents extra)) = .ok c' ∧
        Updated d c' ∧ (Unshared env r.core (r.core.newData cmds parents extra) →
          c'.hqc = r.core.hqc ∧ c'.hqcTail = r.core.hqcTail)) := by
  have hrep := replicaOk_of_reachable h
  refine ⟨?_, ?_⟩
  · rintro rfl
    cases hthrow
    exact ⟨rfl, rfl⟩
  · rintro rfl
    obtain ⟨d, hins, hup⟩ := inserted_of_build hrep.tree (built_of_tooLow hthrow)
    refine ⟨d, hins, hup, updated_of_update hins.delivered hup, fun hown => ?_⟩
    have hhqc : d.hqc = r.core.hqc := congrArg Registers.hqc hins.registers
    have htail : d.hqcTail = r.core.hqcTail := congrArg Registers.hqcTail hins.registers
    have hq := hins.qcRef hown
    rw [show (r.core.newData cmds parents extra).qc = r.core.hqc.2 from rfl, hrep.certs.hqc_hash,
      ← hhqc] at hq
    obtain ⟨hsame, hsameTail⟩ := hqc_of_update hins.delivered hq hup
    exact ⟨hsame.trans hhqc, hsameTail.trans htail⟩

end failing

/-! The replica without peers proposes next to its chain of four blocks. -/

/-- What a call throws and leaves. -/
def thrown : BoolResult K → Exn × HotStuffCore K
  | .ok r => (.undefinedBehaviour, r.2)
  | .error r => r

theorem eq_error_of_thrown {res : BoolResult K} {e : Exn} (h : (thrown res).1 = e)
    (hne : e ≠ .undefinedBehaviour) : res = .error (e, (thrown res).2) := by
  cases res with
  | ok r => exact absurd h.symm hne
  | error r =>
      obtain ⟨x, d⟩ := r
      obtain rfl : x = e := h
      rfl

def lateState : HotStuffCore clearScheme :=
  (thrown (soleReplica.core.onPropose (clearEnv false) [5] [0] [])).2

theorem lateState_thrown : soleReplica.core.onPropose (clearEnv false) [5] [0] [] =
    .error (.notHigherThanVheight, lateState) :=
  eq_error_of_thrown (by decide +kernel) nofun

/-- The certificate stays, and nothing is signed. -/
theorem failed_proposal_late : ∃ d, Inserted (clearEnv false) soleReplica.core
      (soleReplica.core.newData [5] [0] []) d ∧ Updated d lateState ∧
    lateState.hqc = soleReplica.core.hqc := by
  obtain ⟨d, hins, _, hup, hhqc⟩ :=
    (failed_proposal soleReplica_reachable lateState_thrown).2 rfl
  exact ⟨d, hins, hup, (hhqc ⟨by decide +kernel, by decide +kernel⟩).1⟩

/-- The block stays, as a tail; the lock and the execution head have moved on. -/
theorem failed_proposal_stays :
    Reachable soleMachine soleReplica ∧
      soleReplica.core.onPropose (clearEnv false) [5] [0] [] =
        .error (.notHigherThanVheight, lateState) ∧
      (soleReplica.core.storage 5).isSome = false ∧ (lateState.blk 5).delivered = true ∧
      soleReplica.core.tails = [4] ∧ lateState.tails = [4, 5] ∧
      soleReplica.core.bLock = 2 ∧ lateState.bLock = 3 ∧
      soleReplica.core.bExec = 1 ∧ lateState.bExec = 2 ∧
      (soleReplica.core.blk 2).decision = false ∧ (lateState.blk 2).decision = true :=
  ⟨soleReplica_reachable, lateState_thrown, by decide +kernel⟩

end ArchipelagoHotStuff.Consensus.FailedProposals
