/- Module: ArchipelagoHotStuff/Consensus/Leaves
   source: consensus.cpp (on_deliver_blk, on_propose), liveness.h (PMHighTail)
   digest: The tails are the leaves of the block tree, kept one delivery at a time, and scanning
     them finds a highest block above the highest certified one. -/

import ArchipelagoHotStuff.Consensus.HighTail
import ArchipelagoHotStuff.General.Sorting

set_option autoImplicit false
set_option relaxedAutoImplicit false

namespace ArchipelagoHotStuff.Consensus.Leaves

open Crypto.Wire Crypto.Certificates State Handlers Effects Consensus.Tree Trails Machine HighTail
open VoteCount General.Transition General.ParentTree General.Sorting

variable {K : Secp256k1} {env : Env K} {c c' : HotStuffCore K} {e : Effect K} {h t x : Uint256}

/-- A delivered block that is not among the parents of any delivered block. -/
def Leaf (c : HotStuffCore K) (t : Uint256) : Prop :=
  (c.blk t).delivered = true ∧ ∀ x, (c.blk x).delivered = true → t ∉ (c.blk x).parents

/-- The tails are the leaves. -/
def LeavesOk (c : HotStuffCore K) : Prop := ∀ t, t ∈ c.tails ↔ Leaf c t

/-- Effects that drop no tails without delivering a block. -/
def KeepsTails : Effect K → Prop
  | .eraseTails _ => False
  | _ => True

theorem tails_apply (hkeep : KeepsTails e) (hx : ∀ x, ¬ DeliversAt env x e) :
    (apply env c e).tails = c.tails := by
  cases e with
  | store data => exact congrArg Registers.tails (registers_addBlk c _ _)
  | create data => exact absurd rfl (hx _)
  | deliver h => exact absurd rfl (hx _)
  | eraseTails hs => exact absurd hkeep id
  | count vote own qc => exact congrArg Registers.tails (registers_countVote c vote qc)
  | commit queue h => exact congrArg Registers.tails (registers_commitAll c queue.reverse)
  | _ => rfl

theorem delivered_of_mem_parents (htree : TreeOk env c) (hd : (c.blk h).delivered = true)
    (hx : x ∈ (c.blk h).parents) : (c.blk x).delivered = true := by
  by_cases hne : h = env.genesisHash
  · rw [hne, htree.genesis.parents] at hx
    cases hx
  · exact (htree.deliveredOk h hne hd).delivered x hx

/-- Delivering one block takes its parents from the leaves and adds the block. -/
theorem LeavesOk.insert (htree : TreeOk env c) (hok : LeavesOk c) (hg : Grows c c')
    (hnew : (c.blk x).delivered = false) (hd : (c'.blk x).delivered = true)
    (hsame : ∀ y, y ≠ x → (c'.blk y).delivered = (c.blk y).delivered)
    (hparents : ∀ p ∈ (c'.blk x).parents, (c.blk p).delivered = true)
    (htails : ∀ t, t ∈ c'.tails ↔ t = x ∨ (t ∈ c.tails ∧ t ∉ (c'.blk x).parents)) :
    LeavesOk c' := by
  intro t
  rw [htails]
  constructor
  · rintro (rfl | ⟨ht, hnot⟩)
    · -- Parents of delivered blocks have been delivered before, so that `t` is none.
      refine ⟨hd, fun y hy hmem => ?_⟩
      have hold : (c.blk t).delivered = true := by
        by_cases heq : y = t
        · exact hparents t (heq ▸ hmem)
        · rw [hsame y heq] at hy
          rw [hg.parents hy] at hmem
          exact delivered_of_mem_parents htree hy hmem
      rw [hnew] at hold
      cases hold
    · obtain ⟨htd, hleaf⟩ := (hok t).mp ht
      refine ⟨hg.delivered htd, fun y hy => ?_⟩
      by_cases heq : y = x
      · rw [heq]
        exact hnot
      · rw [hsame y heq] at hy
        rw [hg.parents hy]
        exact hleaf y hy
  · rintro ⟨htd, hleaf⟩
    by_cases heq : t = x
    · exact .inl heq
    · rw [hsame t heq] at htd
      refine .inr ⟨(hok t).mpr ⟨htd, fun y hy => ?_⟩, hleaf x hd⟩
      rw [← hg.parents hy]
      exact hleaf y (hg.delivered hy)

theorem LeavesOk.of_same (hok : LeavesOk c) (hg : Grows c c')
    (hsame : ∀ y, (c'.blk y).delivered = (c.blk y).delivered) (htails : c'.tails = c.tails) :
    LeavesOk c' := by
  intro t
  rw [htails, hok t]
  unfold Leaf
  simp only [hsame]
  refine and_congr_right (fun _ => forall₂_congr (fun y hy => ?_))
  rw [hg.parents hy]

theorem LeavesOk.apply (htree : TreeOk env c) (hok : LeavesOk c) (hkeep : KeepsTails e)
    (he : Allowed env c e) : LeavesOk (Effects.apply env c e) := by
  have hg := grows_apply he
  by_cases hdel : ∃ x, DeliversAt env x e
  swap
  · have hno : ∀ x, ¬ DeliversAt env x e := fun x hx => hdel ⟨x, hx⟩
    exact hok.of_same hg (fun y => delivered_apply he (hno y)) (tails_apply hkeep hno)
  have hother : ∀ x, DeliversAt env x e → ∀ y, y ≠ x →
      ((Effects.apply env c e).blk y).delivered = (c.blk y).delivered := by
    refine fun x hx y hne => delivered_apply he (fun hy => hne ?_)
    cases e with
    | create data => exact hy.symm.trans hx
    | deliver k => exact hy.symm.trans hx
    | _ => exact absurd hx id
  obtain ⟨x, hx⟩ := hdel
  have hsame := hother x hx
  cases e with
  | create data =>
      obtain rfl := hx
      have hblk : (Effects.apply env c (.create data)).blk (env.getHash data) = _ :=
        blk_createBlk_self env data
      refine hok.insert (x := env.getHash data) htree hg ?_ (by rw [hblk]) hsame ?_ ?_
      · rw [c.blk_of_none he.1]
        rfl
      · rw [hblk]
        exact he.2.2.2.1
      · intro t
        rw [hblk]
        exact (HotStuffCore.mem_tails_insertTail _).trans
          (or_congr_right (HotStuffCore.mem_tails_eraseTails _))
  | deliver k =>
      obtain rfl := hx
      have hblk : (Effects.apply env c (.deliver k)).blk k = _ := blk_deliverBlk_self env he.1
      refine hok.insert (x := k) htree hg he.2.1 (by rw [hblk]) hsame ?_ ?_
      · rw [hblk]
        exact he.2.2.2.1
      · intro t
        rw [hblk]
        exact (HotStuffCore.mem_tails_insertTail _).trans
          (or_congr_right (HotStuffCore.mem_tails_eraseTails _))
  | _ => exact absurd hx id

theorem LeavesOk.start (env : Env K) (config : ReplicaConfig K) (rid : ReplicaID)
    (key : K.PrivKey) (voteDisabled : Bool) :
    LeavesOk (HotStuffCore.start env config rid key voteDisabled) := by
  have htree := TreeOk.start env config rid key voteDisabled
  have hsole : ∀ x, ((HotStuffCore.start env config rid key voteDisabled).blk x).delivered = true →
      x = env.genesisHash := by
    intro x hx
    by_contra hne
    have hnone : (HotStuffCore.start env config rid key voteDisabled).storage x = none := by
      simp [HotStuffCore.start, hne]
    rw [HotStuffCore.blk_of_none _ hnone] at hx
    cases hx
  intro t
  constructor
  · intro ht
    obtain rfl := List.mem_singleton.mp ht
    refine ⟨htree.genesis.delivered, fun x hx => ?_⟩
    rw [hsole x hx, htree.genesis.parents]
    exact List.not_mem_nil
  · intro ht
    exact List.mem_singleton.mpr (hsole t ht.1)

/-! What leaves the tree and its tails alone. -/

/-- The same nodes and the same tails. -/
structure Same (c c' : HotStuffCore K) : Prop where
  nodes : ∀ x, (c'.storage x).map node = (c.storage x).map node
  tails : c'.tails = c.tails

theorem Same.refl (c : HotStuffCore K) : Same c c := ⟨fun _ => rfl, rfl⟩

theorem Same.trans {c'' : HotStuffCore K} (h : Same c c') (h' : Same c' c'') : Same c c'' :=
  ⟨fun x => (h'.nodes x).trans (h.nodes x), h'.tails.trans h.tails⟩

theorem Same.node_eq (h : Same c c') (x : Uint256) : node (c'.blk x) = node (c.blk x) :=
  node_blk_eq (h.nodes x)

theorem Same.tree (h : Same c c') (htree : TreeOk env c) : TreeOk env c' := by
  have hdata : ∀ x, (c'.blk x).data = (c.blk x).data :=
    fun x => congrArg Node.data (h.node_eq x)
  have hparents : ∀ x, (c'.blk x).parents = (c.blk x).parents :=
    fun x => congrArg Node.parents (h.node_eq x)
  have hqcRef : ∀ x, (c'.blk x).qcRef = (c.blk x).qcRef :=
    fun x => congrArg Node.qcRef (h.node_eq x)
  have hheight : ∀ x, (c'.blk x).height = (c.blk x).height :=
    fun x => congrArg Node.height (h.node_eq x)
  have hdel : ∀ x, (c'.blk x).delivered = (c.blk x).delivered :=
    fun x => congrArg Node.delivered (h.node_eq x)
  have hstored : ∀ x, (c'.storage x).isSome = (c.storage x).isSome :=
    fun x => isSome_eq (h.nodes x)
  obtain ⟨⟨hgd, hgh, hgq, hgp⟩, hdeliv, hund⟩ := htree
  refine ⟨⟨?_, ?_, ?_, ?_⟩, fun x hne hd => ?_, fun x hd => ?_⟩
  · rw [hdel, hgd]
  · rw [hheight, hgh]
  · rw [hqcRef, hgq]
  · rw [hparents, hgp]
  · rw [hdel] at hd
    obtain ⟨hp, hnonempty, hpd, hph, hq, hqs⟩ := hdeliv x hne hd
    constructor <;> simp only [hdata, hparents, hqcRef, hheight, hdel, hstored] <;> assumption
  · rw [hdel] at hd
    rw [hqcRef, hund x hd]

theorem Same.leaves (h : Same c c') (hok : LeavesOk c) : LeavesOk c' := by
  have hdel : ∀ x, (c'.blk x).delivered = (c.blk x).delivered :=
    fun x => congrArg Node.delivered (h.node_eq x)
  have hparents : ∀ x, (c'.blk x).parents = (c.blk x).parents :=
    fun x => congrArg Node.parents (h.node_eq x)
  intro t
  rw [h.tails, hok t]
  unfold Leaf
  simp only [hdel, hparents]

/-- Effects that only touch certificates, votes and registers. -/
def Still (e : Effect K) : Prop := ¬ Shapes e ∧ KeepsTails e

theorem same_of_trail (h : Trail env Still c c') : Same c c' := by
  refine Trail.invariant (I := Same c) h (Same.refl c) ?_
  intro d e hP hsame _
  refine hsame.trans ⟨fun x => map_node_apply hP.1 x, tails_apply hP.2 ?_⟩
  intro x hx
  cases e <;> first | exact hP.1 trivial | exact hx

theorem same_update (env : Env K) (hd : (c.blk h).delivered = true) :
    match c.update env h with
    | .ok c' => Same c c'
    | .error (_, c') => Same c c' := by
  cases hres : c.update env h with
  | ok c' =>
      refine same_of_trail (?_ : Trail env Still c c')
      refine (update_ok hd hres).1.mono (fun e he => ?_)
      cases e <;> first | exact ⟨id, trivial⟩ | exact absurd he id
  | error r =>
      refine same_of_trail (?_ : Trail env Still c r.2)
      refine (update_error hd hres).1.mono (fun e he => ?_)
      cases e <;> first | exact ⟨id, trivial⟩ | exact absurd he id

theorem same_vote (env : Env K) (vote : Vote K) :
    match c.onReceiveVote vote with
    | .ok (_, c') => Same c c'
    | .error (e, c') => e ≠ .undefinedBehaviour → Same c c' := by
  have hstill : ∀ e : Effect K, Votes vote false e → Still e := by
    intro e he
    cases e <;> first | exact ⟨id, trivial⟩ | exact absurd he id
  have hspec := onReceiveVote_spec (c := c) env vote false nofun
  cases hres : c.onReceiveVote vote with
  | ok r =>
      rw [hres] at hspec
      exact same_of_trail (hspec.1.mono hstill)
  | error r =>
      rw [hres] at hspec
      exact fun hne => same_of_trail ((hspec.2 hne).mono hstill)

section creating

variable {data : BlockData K} (hst : c.storage (env.getHash data) = none)
  (hne : data.parentHashes ≠ [])
  (hparents : ∀ p ∈ data.parentHashes, (c.blk p).delivered = true)
  (hstored : (c.storage data.qc.objHash).isSome)

include hst hne hparents hstored

theorem same_build :
    match c.build env data with
    | .ok c' => Same (createBlk env c data) c'
    | .error (_, c') => Same (createBlk env c data) c' := by
  rw [build_fresh env hst hne hparents hstored]
  exact same_update env (by rw [blk_createBlk_self])

end creating

theorem same_propose {cmds parents : List Uint256} {extra : List UInt8}
    (hst : c.storage (env.getHash (c.newData cmds parents extra)) = none) (hne : parents ≠ [])
    (hparents : ∀ p ∈ parents, (c.blk p).delivered = true)
    (hstored : (c.storage c.hqc.2.objHash).isSome) :
    match c.onPropose env cmds parents extra with
    | .ok (_, c') => Same (createBlk env c (c.newData cmds parents extra)) c'
    | .error (e, c') => e ≠ .undefinedBehaviour →
        Same (createBlk env c (c.newData cmds parents extra)) c' := by
  have hbuild := same_build hst hne hparents hstored
  unfold HotStuffCore.onPropose
  rw [if_neg (by simpa using hne)]
  simp only [bind, Except.bind]
  generalize c.newData cmds parents extra = data at hbuild ⊢
  cases hres : c.build env data with
  | error r =>
      rw [hres] at hbuild
      exact fun _ => hbuild
  | ok d =>
      rw [hres] at hbuild
      dsimp only
      by_cases hlow : (d.blk (env.getHash data)).height ≤ d.vheight
      · rw [if_pos hlow]
        exact fun _ => hbuild
      rw [if_neg hlow]
      have hsigned : Same d ((d.accept (env.getHash data)).emit
          (.partCert (env.getHash data))) := ⟨fun _ => rfl, rfl⟩
      generalize (d.accept (env.getHash data)).emit (.partCert (env.getHash data)) = d' at hsigned ⊢
      have hvote := same_vote (c := d') env
        ⟨d.id, env.getHash data, PartCert.create d.privKey (env.getHash data)⟩
      cases hvres : d'.onReceiveVote
          ⟨d.id, env.getHash data, PartCert.create d.privKey (env.getHash data)⟩ with
      | ok r =>
          rw [hvres] at hvote
          exact hbuild.trans (hsigned.trans hvote)
      | error r =>
          rw [hvres] at hvote
          exact fun hdef => hbuild.trans (hsigned.trans (hvote hdef))

/-! Runs. -/

/-- Every block `on_propose` is called for is a new one. -/
def Creates (env : Env K) (r : Replica K) : Input K → Prop
  | .propose cmds parents extra =>
      r.core.storage (env.getHash (r.core.newData cmds parents extra)) = none
  | .fetch _ | .deliver _ | .receiveProposal _ | .receiveVote _ | .wait _ | .resume => True

section runs

variable {r r' : Replica K} {i : Input K}

private theorem leaves_throw {d : HotStuffCore K} {e : Exn}
    (hok : e ≠ .undefinedBehaviour → LeavesOk d) (h : Replica.throw (e, d) = some r') :
    LeavesOk r'.core := by
  unfold Replica.throw at h
  split at h
  · cases h
  · rename_i hne
    cases h
    exact hok hne

/-- The block is created on top of its parents; the rest of the step leaves the tree alone. -/
theorem LeavesOk.propose {cmds parents : List Uint256} {extra : List UInt8} (hrep : ReplicaOk env r)
    (hok : LeavesOk r.core) (hnew : Creates env r (.propose cmds parents extra))
    (hstep : r.step env (.propose cmds parents extra) = some r') : LeavesOk r'.core := by
  by_cases hne : parents = []
  · subst hne
    rw [step_propose_nil hstep]
    exact hok
  simp only [Replica.step] at hstep
  split at hstep
  swap
  · cases hstep
  rename_i hall
  rw [List.all_eq_true] at hall
  have hstored : (r.core.storage r.core.hqc.2.objHash).isSome := by
    rw [hrep.certs.hqc_hash]
    exact hrep.certs.hqc_stored
  have hcreate : LeavesOk (createBlk env r.core (r.core.newData cmds parents extra)) :=
    hok.apply (e := .create (r.core.newData cmds parents extra)) hrep.tree trivial
      ⟨hnew, rfl, hne, hall, hstored⟩
  have hsame := same_propose hnew hne hall hstored
  cases hres : r.core.onPropose env cmds parents extra with
  | error x =>
      obtain ⟨e, d⟩ := x
      rw [hres] at hsame hstep
      exact leaves_throw (fun hdef => (hsame hdef).leaves hcreate) hstep
  | ok x =>
      obtain ⟨woken, d⟩ := x
      rw [hres] at hsame hstep
      dsimp only at hstep
      split at hstep <;> cases hstep <;> exact hsame.leaves hcreate

theorem LeavesOk.step (hrep : ReplicaOk env r) (hok : LeavesOk r.core) (hnew : Creates env r i)
    (hstep : r.step env i = some r') : LeavesOk r'.core := by
  by_cases hi : ∃ cmds parents extra, i = .propose cmds parents extra
  · obtain ⟨cmds, parents, extra, rfl⟩ := hi
    exact hok.propose hrep hnew hstep
  have hcovers : Covers env r KeepsTails i := by
    cases i with
    | propose cmds parents extra => exact absurd ⟨_, _, _, rfl⟩ hi
    | deliver h =>
        intro e he
        cases e <;> first | exact trivial | exact absurd he id
    | receiveProposal prop =>
        refine ⟨fun e he => ?_, trivial, trivial⟩
        cases e <;> first | exact trivial | exact absurd he id
    | receiveVote vote =>
        intro e he
        cases e <;> first | exact trivial | exact absurd he id
    | fetch _ | wait _ => exact trivial
    | resume => exact ⟨fun _ => trivial, fun _ => trivial, fun _ => trivial⟩
  have htrail := (step_trail hrep.frames hrep.certs hcovers
    ⟨fun _ => trivial, fun _ => trivial, fun _ _ => trivial⟩ hstep).1
  exact (Trail.invariant (I := fun d => TreeOk env d ∧ LeavesOk d) htrail ⟨hrep.tree, hok⟩
    (fun _ _ hP hinv he => ⟨hinv.1.apply he, hinv.2.apply hinv.1 hP he⟩)).2

end runs

theorem leavesOk_of_reachable {config : ReplicaConfig K} {id : ReplicaID} {key : K.PrivKey}
    {voteDisabled : Bool} {r : Replica K}
    (h : Reachable ((machine env config id key voteDisabled).restrict (Creates env)) r) :
    LeavesOk r.core := by
  refine h.invariant (I := fun r => LeavesOk r.core) ?_ ?_
  · rintro r rfl
    exact .start _ _ _ _ _
  · intro s i s' hs hok hstep
    exact hok.step (replicaOk_of_reachable hs.of_restrict) hstep.1 hstep.2

/-! The scan of `on_hqc_update`. -/

/-- No delivered block has a second parent. -/
def SingleParent (c : HotStuffCore K) : Prop :=
  ∀ x, (c.blk x).delivered = true → (c.blk x).parents.length ≤ 1

/-- The tail of the pacemaker is a highest block among those at or above the certified one.  A
certified block whose delivery failed has no blocks above it. -/
structure Highest (c : HotStuffCore K) : Prop where
  above : Extends (firstParent c) c.hqcTail c.hqc.1
  delivered : (c.blk c.hqc.1).delivered = true → (c.blk c.hqcTail).delivered = true
  highest : ∀ x, (c.blk x).delivered = true → Extends (firstParent c) x c.hqc.1 →
    (c.blk x).height ≤ (c.blk c.hqcTail).height

instance : Finite Uint256 :=
  Finite.of_injective (fun x : Uint256 => x.toFin) (fun _ _ h => BitVec.eq_of_toFin_eq h)

/-- Above every delivered block stands a tail that is no lower than any block above it. -/
theorem LeavesOk.exists_tail (htree : TreeOk env c) (hok : LeavesOk c) (hsingle : SingleParent c)
    (hd : (c.blk h).delivered = true) :
    ∃ t ∈ c.tails, Extends (firstParent c) t h ∧
      ∀ x, Extends (firstParent c) x h → (c.blk x).height ≤ (c.blk t).height := by
  have hup : ∀ x p, firstParent c x = some p → (c.blk p).height < (c.blk x).height := by
    intro x p hp
    have := (htree.delivered_firstParent hp).2
    omega
  obtain ⟨t, ht, hmax, hleaf⟩ := exists_highest hup h
  have htd : (c.blk t).delivered = true := by
    cases ht with
    | refl _ => exact hd
    | step hp _ => exact delivered_of_firstParent hp
  refine ⟨t, (hok t).mpr ⟨htd, fun x hx hmem => hleaf x ?_⟩, ht, hmax⟩
  have hlen := hsingle x hx
  rw [firstParent_eq hx]
  cases hps : (c.blk x).parents with
  | nil =>
      rw [hps] at hmem
      cases hmem
  | cons p ps =>
      rw [hps] at hmem hlen
      cases ps with
      | nil => rw [List.head?_cons, List.mem_singleton.mp hmem]
      | cons _ _ => simp at hlen

theorem highest_updateHqc {qc : QuorumCert K} (htree : TreeOk env c) (hok : LeavesOk c)
    (hsingle : SingleParent c) (hraise : (c.updateHqc h qc).hqc ≠ c.hqc) :
    Highest (c.updateHqc h qc) := by
  rcases updateHqc_cases c h qc with ⟨heq, _⟩ | ⟨_, heq⟩
  · rw [heq] at hraise
    exact absurd rfl hraise
  rw [heq]
  have hanc : ∀ t, (show HotStuffCore K from { c with hqc := (h, qc) }).checkAncestry h t =
      c.checkAncestry h t := fun t => checkAncestry_congr (fun _ => rfl)
  obtain ⟨hend, _, hall⟩ := scan_spec (fun x => (c.blk x).height)
    (fun t => (show HotStuffCore K from { c with hqc := (h, qc) }).checkAncestry h t) c.tails h
  have habove : ∀ t ∈ c.tails,
      (show HotStuffCore K from { c with hqc := (h, qc) }).checkAncestry h t = true →
        (c.blk t).delivered = true ∧ Extends (firstParent c) t h := by
    intro t ht hadm
    have htd := ((hok t).mp ht).1
    exact ⟨htd, htree.extends_of_checkAncestry htd (hanc t ▸ hadm)⟩
  refine ⟨?_, fun hd => ?_, fun x hx hxh => ?_⟩
  · rcases hend with heq | ⟨hmem, hadm⟩
    · have htail : (({ c with hqc := (h, qc) } : HotStuffCore K).onHqcUpdate).hqcTail = h := heq
      rw [htail]
      exact .refl h
    · exact (habove _ hmem hadm).2
  · rcases hend with heq | ⟨hmem, hadm⟩
    · have htail : (({ c with hqc := (h, qc) } : HotStuffCore K).onHqcUpdate).hqcTail = h := heq
      rw [htail]
      exact hd
    · exact (habove _ hmem hadm).1
  · have hd := (htree.height_le_of_extends hx hxh).1
    obtain ⟨t, ht, hth, hmax⟩ := hok.exists_tail htree hsingle hd
    have htd := ((hok t).mp ht).1
    exact (hmax x hxh).trans
      (hall t ht ((hanc t).trans (htree.checkAncestry_of_extends htd hth)))

/-- Blocks that are fetched or proposed name one parent at most. -/
def OneParent : Input K → Prop
  | .fetch data => data.parentHashes.length ≤ 1
  | .propose _ parents _ => parents.length ≤ 1
  | .deliver _ | .receiveProposal _ | .receiveVote _ | .wait _ | .resume => True

/-- As `OneParent`, for effects. -/
def NamesOne : Effect K → Prop
  | .store data | .create data => data.parentHashes.length ≤ 1
  | _ => True

theorem covers_namesOne {r : Replica K} {i : Input K} (hone : OneParent i) :
    Covers env r NamesOne i := by
  cases i with
  | fetch data => exact hone
  | propose cmds parents extra =>
      refine ⟨fun e he => ?_, trivial⟩
      cases e with
      | create d =>
          obtain rfl : d = _ := he
          exact hone
      | store d => exact absurd he id
      | _ => exact trivial
  | deliver h =>
      intro e he
      cases e <;> first | exact trivial | exact absurd he id
  | receiveProposal prop =>
      refine ⟨fun e he => ?_, trivial, trivial⟩
      cases e <;> first | exact trivial | exact absurd he id
  | receiveVote vote =>
      intro e he
      cases e <;> first | exact trivial | exact absurd he id
  | wait h => exact trivial
  | resume => exact ⟨fun _ => trivial, fun _ => trivial, fun _ => trivial⟩

/-- Every block names one parent at most. -/
def OneNamed (c : HotStuffCore K) : Prop := ∀ x, (c.blk x).data.parentHashes.length ≤ 1

theorem OneNamed.apply (hone : OneNamed c) (hP : NamesOne e) (he : Allowed env c e) :
    OneNamed (Effects.apply env c e) := by
  intro x
  by_cases hx : StoresAt env x e
  · cases e with
    | store data =>
        obtain rfl := hx
        have hblk : (Effects.apply env c (.store data)).blk (env.getHash data) = _ :=
          blk_store_self env he
        rw [hblk]
        exact hP
    | create data =>
        obtain rfl := hx
        have hblk : (Effects.apply env c (.create data)).blk (env.getHash data) = _ :=
          blk_createBlk_self env data
        rw [hblk]
        exact hP
    | _ => exact absurd hx id
  · rw [data_apply he hx]
    exact hone x

theorem OneNamed.singleParent (htree : TreeOk env c) (hone : OneNamed c) : SingleParent c := by
  intro x hx
  by_cases hne : x = env.genesisHash
  · rw [hne, htree.genesis.parents]
    exact Nat.zero_le 1
  · rw [(htree.deliveredOk x hne hx).parents]
    exact hone x

theorem oneNamed_of_reachable {config : ReplicaConfig K} {id : ReplicaID} {key : K.PrivKey}
    {voteDisabled : Bool} {r : Replica K}
    (h : Reachable ((machine env config id key voteDisabled).restrict (fun _ i => OneParent i)) r) :
    OneNamed r.core := by
  refine invariant_of_covered (P := NamesOne) h (fun _ _ => covers_namesOne)
    ⟨fun _ => trivial, fun _ => trivial, fun _ _ => trivial⟩ ?_
    (fun _ _ _ _ hP hone he => hone.apply hP he)
  intro x
  by_cases hx : x = env.genesisHash
  · simp [HotStuffCore.blk, HotStuffCore.start, HotStuffCore.genesis, hx]
  · simp [HotStuffCore.blk, HotStuffCore.start, hx, Block.absent, Block.fetched]

/-! Where `update_hqc` is called. -/

/-- The vote is counted and completes the certificate of its block. -/
def Completes (c : HotStuffCore K) (vote : Vote K) (qc : QuorumCert K) : Prop :=
  (c.blk vote.blkHash).delivered = true ∧ vote.voter ∉ (c.blk vote.blkHash).voted ∧
    (c.blk vote.blkHash).voted.card + 1 = c.config.nmajority ∧
    ((c.blk vote.blkHash).selfQc.getD (QuorumCert.create c.config vote.blkHash)).addPart
      vote.voter vote.cert = .ok qc

/-- The certificate of `n` is for `t`, which is not decided. -/
def Certifies (c : HotStuffCore K) (n t : Uint256) : Prop :=
  (c.blk n).qcRef = some t ∧ (c.blk t).decision = false

/-- The states before and after each call of `update_hqc` in a step on an input: `update` calls it
for the block received and for the block built, `on_receive_vote` for a vote received and for the
replica's own vote on the block built. -/
inductive UpdatesHqc (env : Env K) (c : HotStuffCore K) :
    Input K → HotStuffCore K → HotStuffCore K → Prop
  | received {prop : Proposal} {t : Uint256} : (c.blk prop.blk).delivered = true →
      Certifies c prop.blk t →
      UpdatesHqc env c (.receiveProposal prop) c (c.updateHqc t (c.blk prop.blk).data.qc)
  | voted {vote : Vote K} {qc : QuorumCert K} : Completes c vote qc →
      UpdatesHqc env c (.receiveVote vote) (countVote c vote qc)
        ((countVote c vote qc).updateHqc vote.blkHash qc)
  | built {cmds parents : List Uint256} {extra : List UInt8} {data : BlockData K} {b : Bool}
      {d : HotStuffCore K} {t : Uint256} : parents ≠ [] →
      (∀ p ∈ parents, (c.blk p).delivered = true) → c.newData cmds parents extra = data →
      (((c.eraseTails parents).addNew (env.getHash data) data).modifyBlk (env.getHash data)
        (fun b => { b with
          selfQc := some (QuorumCert.create c.config (env.getHash data)) })).onDeliverBlk env
            (env.getHash data) = .ok (b, d) →
      Certifies d (env.getHash data) t →
      UpdatesHqc env c (.propose cmds parents extra) d
        (d.updateHqc t (d.blk (env.getHash data)).data.qc)
  | votedOwn {cmds parents : List Uint256} {extra : List UInt8} {data : BlockData K}
      {d d' : HotStuffCore K} {vote : Vote K} {qc : QuorumCert K} : parents ≠ [] →
      (∀ p ∈ parents, (c.blk p).delivered = true) → c.newData cmds parents extra = data →
      c.build env data = .ok d → d.vheight < (d.blk (env.getHash data)).height →
      (d.accept (env.getHash data)).emit (.partCert (env.getHash data)) = d' →
      vote = ⟨d.id, env.getHash data, PartCert.create d.privKey (env.getHash data)⟩ →
      Completes d' vote qc →
      UpdatesHqc env c (.propose cmds parents extra) (countVote d' vote qc)
        ((countVote d' vote qc).updateHqc vote.blkHash qc)

theorem same_countVote (env : Env K) (c : HotStuffCore K) (vote : Vote K) (qc : QuorumCert K) :
    Same c (countVote c vote qc) :=
  ⟨fun x => (map_node_apply id x :
      ((apply env c (.count vote false qc)).storage x).map node = _),
    congrArg Registers.tails (registers_countVote c vote qc)⟩

theorem leaves_before {r : Replica K} {i : Input K} {d d' : HotStuffCore K}
    (hrep : ReplicaOk env r) (hok : LeavesOk r.core) (hnew : Creates env r i)
    (hcall : UpdatesHqc env r.core i d d') : TreeOk env d ∧ LeavesOk d := by
  have hstored : (r.core.storage r.core.hqc.2.objHash).isSome := by
    rw [hrep.certs.hqc_hash]
    exact hrep.certs.hqc_stored
  have hcreate : ∀ {data : BlockData K}, r.core.storage (env.getHash data) = none →
      data.qc = r.core.hqc.2 → data.parentHashes ≠ [] →
      (∀ p ∈ data.parentHashes, (r.core.blk p).delivered = true) →
      TreeOk env (createBlk env r.core data) ∧ LeavesOk (createBlk env r.core data) := by
    intro data hst hqc hne hall
    have hallow : Allowed env r.core (.create data) := ⟨hst, hqc, hne, hall, hqc ▸ hstored⟩
    exact ⟨hrep.tree.apply hallow, hok.apply (e := .create data) hrep.tree trivial hallow⟩
  cases hcall with
  | received _ _ => exact ⟨hrep.tree, hok⟩
  | @voted vote qc _ =>
      have hsame := same_countVote env r.core vote qc
      exact ⟨hsame.tree hrep.tree, hsame.leaves hok⟩
  | @built cmds parents extra _ b d t hne hall hdata hins _ =>
      subst hdata
      obtain ⟨b', hfresh⟩ := insert_fresh (c := r.core.eraseTails parents) env
        (show r.core.storage (env.getHash (r.core.newData cmds parents extra)) = none from hnew)
        hne hall hstored
      have heq := createBlk_eraseTails env r.core (r.core.newData cmds parents extra)
      rw [(Prod.mk.inj (Except.ok.inj (hins.symm.trans hfresh))).2]
      exact heq ▸ hcreate hnew rfl hne hall
  | @votedOwn cmds parents extra _ d _ vote qc hne hall hdata hbuild _ hsigned _ _ =>
      subst hdata hsigned
      obtain ⟨htree, hleaves⟩ := hcreate hnew rfl hne hall
      have hsame := same_build hnew hne hall hstored
      rw [hbuild] at hsame
      have hsigned : Same d ((d.accept (env.getHash (r.core.newData cmds parents extra))).emit
          (.partCert (env.getHash (r.core.newData cmds parents extra)))) :=
        ⟨fun _ => rfl, rfl⟩
      have hvoted := hsame.trans (hsigned.trans (same_countVote env _ vote qc))
      exact ⟨hvoted.tree htree, hvoted.leaves hleaves⟩

section leaves

variable {config : ReplicaConfig K} {id : ReplicaID} {key : K.PrivKey} {voteDisabled : Bool}
  {r : Replica K}

/-- The tails are the leaves; `check_ancestry` ends on delivered blocks and decides descent; and
where blocks have one parent, raising the certificate leaves the pacemaker on a highest block
above it. -/
theorem tails_leaves
    (h : Reachable ((machine env config id key voteDisabled).restrict (Creates env)) r) :
    (∀ t, t ∈ r.core.tails ↔ Leaf r.core t) ∧
      (∀ a b, (r.core.blk a).delivered = true → (r.core.blk b).delivered = true →
        (r.core.descend (r.core.blk a).height b).isSome ∧
        (r.core.checkAncestry a b = true ↔ Extends (firstParent r.core) b a)) ∧
      ∀ i d d', Creates env r i → UpdatesHqc env r.core i d d' → d'.hqc ≠ d.hqc →
        SingleParent d → Highest d' := by
  have hrep := replicaOk_of_reachable h.of_restrict
  have hok := leavesOk_of_reachable h
  refine ⟨hok, fun a b _ hb => ⟨?_, ?_, ?_⟩, fun i d d' hnew hcall hraise hsingle => ?_⟩
  · obtain ⟨queue, x, hdesc⟩ := hrep.tree.descend_isSome hb (r.core.blk a).height
    rw [hdesc]
    rfl
  · exact hrep.tree.extends_of_checkAncestry hb
  · exact hrep.tree.checkAncestry_of_extends hb
  · obtain ⟨htree, hleaves⟩ := leaves_before hrep hok hnew hcall
    cases hcall <;> exact highest_updateHqc htree hleaves hsingle hraise

end leaves

/-! A run. -/

instance (env : Env K) (r : Replica K) (i : Input K) : Decidable (Creates env r i) :=
  match i with
  | .propose cmds parents extra =>
      decidable_of_iff
        ((r.core.storage (env.getHash (r.core.newData cmds parents extra))).isNone = true)
        Option.isNone_iff_eq_none
  | .fetch _ | .deliver _ | .receiveProposal _ | .receiveVote _ | .wait _ | .resume =>
      isTrue trivial

instance (i : Input K) : Decidable (OneParent i) :=
  match i with
  | .fetch data => inferInstanceAs (Decidable (data.parentHashes.length ≤ 1))
  | .propose _ parents _ => inferInstanceAs (Decidable (parents.length ≤ 1))
  | .deliver _ | .receiveProposal _ | .receiveVote _ | .wait _ | .resume => isTrue trivial

/-- Two blocks side by side, and one on top of the first. -/
def forkedPeer : Replica clearScheme :=
  (execute (guarded (Creates (clearEnv false)) (guarded (fun _ i => OneParent i)
      (Replica.step (clearEnv false))))
    [.propose [1] [0] [], .resume, .fetch ⟨[0], [2], QuorumCert.create peerConfig 0, []⟩,
      .deliver 2, .fetch ⟨[1], [3], QuorumCert.create peerConfig 0, []⟩, .deliver 3,
      .receiveVote (voteOf 1)]
    ⟨.start (clearEnv false) peerConfig 0 (0 : Nat) false, []⟩).get (by decide +kernel)

theorem forkedPeer_reachable :
    Reachable ((machine (clearEnv false) peerConfig 0 (0 : Nat) false).restrict
      (Creates (clearEnv false))) forkedPeer ∧
    Reachable ((machine (clearEnv false) peerConfig 0 (0 : Nat) false).restrict
      (fun _ i => OneParent i)) forkedPeer := by
  refine ⟨Reachable.trans (.init rfl) (steps_of_execute ?_ (Option.some_get _).symm),
    Reachable.trans (.init rfl) (steps_of_execute ?_ (Option.some_get _).symm)⟩
  · intro s i s' hstep
    obtain ⟨hnew, hstep⟩ := guarded_eq_some hstep
    exact ⟨hnew, (guarded_eq_some hstep).2⟩
  · intro s i s' hstep
    exact guarded_eq_some (guarded_eq_some hstep).2

/-- The certificate of the first block with the vote of replica 2. -/
def lastQc : QuorumCert clearScheme :=
  (((forkedPeer.core.blk 1).selfQc.getD (QuorumCert.create forkedPeer.core.config 1)).addPart
    (voteOf 2).voter (voteOf 2).cert).toOption.get (by decide +kernel)

/-- The last vote needed for the first block moves the pacemaker to the block on top of it. -/
theorem tails_leaves_forked : Leaf forkedPeer.core 2 ∧ ¬ Leaf forkedPeer.core 1 ∧
    ∃ d', UpdatesHqc (clearEnv false) forkedPeer.core (.receiveVote (voteOf 2))
      (countVote forkedPeer.core (voteOf 2) lastQc) d' ∧ Highest d' ∧ d'.hqcTail = 3 := by
  obtain ⟨hnew, hone⟩ := forkedPeer_reachable
  obtain ⟨hleaves, _, hupdates⟩ := tails_leaves hnew
  have hadd : ((forkedPeer.core.blk 1).selfQc.getD
      (QuorumCert.create forkedPeer.core.config 1)).addPart (voteOf 2).voter (voteOf 2).cert =
        .ok lastQc := by
    have hget : some lastQc = _ := Option.some_get _
    generalize ((forkedPeer.core.blk 1).selfQc.getD
      (QuorumCert.create forkedPeer.core.config 1)).addPart (voteOf 2).voter (voteOf 2).cert = x
      at hget
    cases x with
    | error e => cases hget
    | ok qc => rw [Option.some.inj hget]
  have hcall : UpdatesHqc (clearEnv false) forkedPeer.core (.receiveVote (voteOf 2))
      (countVote forkedPeer.core (voteOf 2) lastQc) _ :=
    .voted
      ⟨by decide +kernel, by decide +kernel, by decide +kernel, hadd⟩
  have hsame := same_countVote (clearEnv false) forkedPeer.core (voteOf 2) lastQc
  have hsingle : SingleParent (countVote forkedPeer.core (voteOf 2) lastQc) := by
    refine OneNamed.singleParent
      (hsame.tree (replicaOk_of_reachable hnew.of_restrict).tree) (fun x => ?_)
    have hdata : ((countVote forkedPeer.core (voteOf 2) lastQc).blk x).data =
      (forkedPeer.core.blk x).data := congrArg Node.data (hsame.node_eq x)
    rw [hdata]
    exact oneNamed_of_reachable hone x
  refine ⟨(hleaves 2).mp (by decide +kernel), fun h => ?_, _, hcall,
    hupdates (.receiveVote (voteOf 2)) _ _ trivial hcall (fun h => ?_) hsingle,
    by decide +kernel⟩
  · exact absurd ((hleaves 1).mpr h) (by decide +kernel)
  · exact absurd (congrArg Prod.fst h) (by decide +kernel)

end ArchipelagoHotStuff.Consensus.Leaves
