/- Module: ArchipelagoHotStuff/Consensus/Pruning
   source: consensus.cpp (prune), entity.h (try_release_blk)
   digest: A replica that prunes, beside one that takes the same calls and does not: the live part
     of the tree stays, and the calls do the same. -/

import ArchipelagoHotStuff.Consensus.Leaves
import ArchipelagoHotStuff.Consensus.Pruned

set_option autoImplicit false
set_option relaxedAutoImplicit false

namespace ArchipelagoHotStuff.Consensus.Pruning

open Crypto.Wire Crypto.Certificates State Handlers Effects Consensus.Tree Trails Stages Levels
open CommitLog Leaves Machine Prune Pruned General.ParentTree General.Transition

variable {K : Secp256k1} {env : Env K} {E R : Finset Uint256} {c d : HotStuffCore K}
  {keys : List Uint256} {held : Uint256 → Bool} {b h p x : Uint256}

/-! What `prune` does to the cut. -/

section pruning

theorem emptied_ok (hok : CutOk env E R c) (hd : (c.blk b).delivered = true)
    (hdec : (c.blk b).decision = true) (hle : (c.blk b).height ≤ (c.blk c.bExec).height) :
    CutOk env (insert b E) R c where
  subset h hR := Finset.mem_insert_of_mem (hok.subset h hR)
  delivered h hE := by
    rcases Finset.mem_insert.mp hE with rfl | hE
    · exact hd
    · exact hok.delivered h hE
  decided h hE := by
    rcases Finset.mem_insert.mp hE with rfl | hE
    · exact hdec
    · exact hok.decided h hE
  le_exec h hE := by
    rcases Finset.mem_insert.mp hE with rfl | hE
    · exact hle
    · exact hok.le_exec h hE
  parents x hx := hok.parents x (fun hE => hx (Finset.mem_insert_of_mem hE))
  qcRef x hx := hok.qcRef x (fun hE => hx (Finset.mem_insert_of_mem hE))
  held := hok.held

theorem released_ok (hok : CutOk env E R c) (hkeys : Listed keys (cut E R c)) (hb : b ∈ E)
    (hfree : (cut E R c).refers env keys b = false) : CutOk env E (insert b R) c := by
  unfold HotStuffCore.refers at hfree
  rw [Bool.or_eq_false_iff, decide_eq_false_iff_not, List.any_eq_false] at hfree
  obtain ⟨hheld, hlinks⟩ := hfree
  have hstored : ∀ x, x ∉ E → (c.storage x).isSome → x ∈ keys := by
    intro x hx hs
    refine hkeys x ?_
    rw [isSome_cut (fun hR => hx (hok.subset x hR))]
    exact hs
  refine ⟨fun h hR => ?_, hok.delivered, hok.decided, hok.le_exec, fun x hx p hp hR => ?_,
    fun x hx t ht hR => ?_, fun h hh hR => ?_⟩
  · rcases Finset.mem_insert.mp hR with rfl | hR
    · exact hb
    · exact hok.subset h hR
  · rcases Finset.mem_insert.mp hR with rfl | hR
    · have hs : (c.storage x).isSome := by
        cases hs : c.storage x with
        | some k => rfl
        | none =>
            rw [c.blk_of_none hs] at hp
            cases hp
      have hnone := hlinks x (hstored x hx hs)
      rw [hok.blk_eq hx] at hnone
      simp [hp] at hnone
    · exact hok.parents x hx p hp hR
  · rcases Finset.mem_insert.mp hR with rfl | hR
    · have hs : (c.storage x).isSome := by
        cases hs : c.storage x with
        | some k => rfl
        | none =>
            rw [c.blk_of_none hs] at ht
            cases ht
      have hnone := hlinks x (hstored x hx hs)
      rw [hok.blk_eq hx] at hnone
      simp [ht] at hnone
    · exact hok.qcRef x hx t ht hR
  · rcases Finset.mem_insert.mp hR with rfl | hR
    · exact hheld hh
    · exact hok.held h hh hR

theorem cut_release (E R : Finset Uint256) (c : HotStuffCore K) (b : Uint256) :
    { cut E R c with storage := Function.update (cut E R c).storage b none } =
      cut E (insert b R) c := by
  have hstorage : Function.update (cut E R c).storage b none = (cut E (insert b R) c).storage := by
    funext x
    rw [storage_cut, Function.update_apply, storage_cut]
    by_cases hx : x = b
    · rw [if_pos hx, if_pos (Finset.mem_insert.mpr (.inl hx))]
    · rw [if_neg hx]
      simp only [Finset.mem_insert, hx, false_or]
  exact congrArg (fun s => { c with storage := s }) hstorage

theorem cut_empty (hE : b ∉ E) (hR : b ∉ R) {f : Block K → Block K}
    (hf : f (c.blk b) = (c.blk b).emptied) : (cut E R c).modifyBlk b f = cut (insert b E) R c := by
  have hstorage : ((cut E R c).modifyBlk b f).storage = (cut (insert b E) R c).storage := by
    funext x
    rw [HotStuffCore.storage_modifyBlk, storage_cut, storage_cut, storage_cut]
    by_cases hx : x = b
    · subst hx
      rw [if_pos rfl, if_neg hR, if_neg hE, if_neg hR, if_pos (Finset.mem_insert_self x E)]
      cases hs : c.storage x with
      | none => rfl
      | some k =>
          have hk : c.blk x = k := by simp [HotStuffCore.blk, hs]
          rw [hk] at hf
          exact congrArg some hf
    · rw [if_neg hx]
      simp only [Finset.mem_insert, hx, false_or]
  exact congrArg (fun s => { c with storage := s }) hstorage

/-- The first loop climbs down the decided blocks, past blocks that are not emptied. -/
theorem pruneStart_spec {start : Uint256} {staleness : Nat} (hok : CutOk env E R c)
    (htree : TreeOk env c) (hlog : CommitOk env c) (hb : b ∉ R) (hdec : (c.blk b).decision = true)
    (hle : ∀ h ∈ E, (c.blk h).height ≤ (c.blk b).height)
    (hstart : (cut E R c).pruneStart staleness b = some start) :
    start ∉ R ∧ (c.blk start).decision = true ∧ Extends (firstParent c) b start ∧
      (c.blk start).height + staleness = (c.blk b).height ∧
      ∀ h ∈ E, (c.blk h).height ≤ (c.blk start).height := by
  induction staleness generalizing b with
  | zero =>
      obtain rfl : b = start := Option.some.inj hstart
      exact ⟨hb, hdec, .refl b, rfl, hle⟩
  | succ staleness ih =>
      obtain ⟨p, hp, hrest⟩ := Option.bind_eq_some_iff.mp hstart
      have hE : b ∉ E := by
        intro hE
        rw [blk_cut hb, if_pos hE] at hp
        cases hp
      rw [hok.blk_eq hE] at hp
      obtain ⟨hpdec, hparent, hheight⟩ := hlog.decided_parent htree hdec hp
      -- An emptied block as high as `b` would be `b`.
      have hbelow : ∀ h ∈ E, (c.blk h).height ≤ (c.blk p).height := by
        intro h hh
        have hle' := hle h hh
        have hne : (c.blk h).height ≠ (c.blk b).height := by
          intro heq
          rw [hlog.decided_unique htree (hok.decided h hh) hdec heq] at hh
          exact hE hh
        omega
      obtain ⟨hR, hsdec, hext, hsum, hall⟩ :=
        ih (hok.parents b hE p (List.mem_of_head? hp)) hpdec hbelow hrest
      exact ⟨hR, hsdec, .step hparent hext, by omega, hall⟩

/-- What the second loop maintains: its state is a cut of the core, all of it no higher than the
block it began with, and the blocks below the top of the stack are emptied. -/
structure Looping (env : Env K) (E R : Finset Uint256) (c : HotStuffCore K)
    (held : Uint256 → Bool) (top : Nat) (d : HotStuffCore K) (s : List Uint256)
    (E' R' : Finset Uint256) : Prop where
  eq : d = cut E' R' c
  ok : CutOk env E' R' c
  emptied : ∀ h ∈ E, h ∈ E'
  released : ∀ h ∈ R, h ∈ R'
  free : ∀ h ∈ R', h ∈ R ∨ held h = false
  height : ∀ h ∈ E', (c.blk h).height ≤ top
  stack : ∀ x ∈ s.tail, x ∈ E'
  top : ∀ x, s.head? = some x → (c.blk x).decision = true ∧ (c.blk x).height ≤ top

theorem Looping.round {top : Nat} {s : List Uint256} {E' R' : Finset Uint256}
    (hloop : Looping env E R c held top d (b :: s) E' R') (htree : TreeOk env c)
    (hlog : CommitOk env c) (hsingle : SingleParent c) (hkeys : Listed keys d) :
    ∃ E'' R'', Looping env E R c held top (d.pruneRound env keys held b s).1
      (d.pruneRound env keys held b s).2 E'' R'' := by
  obtain ⟨rfl, hok, hemptied, hreleased, hfree, hheight, hstack, htop⟩ := hloop
  obtain ⟨hdec, hbtop⟩ := htop b rfl
  have hnext : ∀ x, s.head? = some x → (c.blk x).decision = true ∧ (c.blk x).height ≤ top := by
    intro x hx
    have hE := hstack x (List.mem_of_head? hx)
    exact ⟨hok.decided x hE, hheight x hE⟩
  have htail : ∀ x ∈ s.tail, x ∈ E' := fun x hx => hstack x (List.mem_of_mem_tail hx)
  unfold HotStuffCore.pruneRound
  by_cases hE : b ∈ E'
  · -- The block is emptied already, and may go now.
    have hnone : ((cut E' R' c).blk b).parents.getLast? = none := by
      by_cases hR : b ∈ R'
      · rw [HotStuffCore.blk_of_none _ (by rw [storage_cut, if_pos hR])]
        rfl
      · rw [blk_cut hR, if_pos hE]
        rfl
    rw [hnone]
    unfold HotStuffCore.tryReleaseBlk
    dsimp only
    split
    · exact ⟨E', R', rfl, hok, hemptied, hreleased, hfree, hheight, htail, hnext⟩
    · rename_i hrel
      rw [Bool.or_eq_true, not_or, Bool.not_eq_true, Bool.not_eq_true] at hrel
      refine ⟨E', insert b R', cut_release E' R' c b, released_ok hok hkeys hE hrel.1, hemptied,
        fun h hh => Finset.mem_insert_of_mem (hreleased h hh), fun h hh => ?_, hheight, htail,
        hnext⟩
      rcases Finset.mem_insert.mp hh with rfl | hh
      · exact .inr hrel.2
      · exact hfree h hh
  have hR : b ∉ R' := fun hR => hE (hok.subset b hR)
  have hd := hlog.delivered_of_decided htree hdec
  rw [hok.blk_eq hE]
  cases hp : (c.blk b).parents with
  | nil =>
      -- Only the genesis block has no parents, and it stays.
      have hgenesis : b = env.genesisHash := by
        by_contra hne
        exact (htree.deliveredOk b hne hd).nonempty hp
      have hrefers : (cut E' R' c).refers env keys b = true := by
        unfold HotStuffCore.refers
        rw [Bool.or_eq_true]
        exact .inl (decide_eq_true (.inl hgenesis))
      unfold HotStuffCore.tryReleaseBlk
      rw [hrefers]
      exact ⟨E', R', rfl, hok, hemptied, hreleased, hfree, hheight, htail, hnext⟩
  | cons p ps =>
      have hps : ps = [] := by
        have hlen := hsingle b hd
        rw [hp, List.length_cons] at hlen
        exact List.length_eq_zero_iff.mp (by omega)
      subst hps
      obtain ⟨hpdec, _, hph⟩ := hlog.decided_parent htree hdec (by rw [hp]; rfl)
      have hempty : (cut E' R' c).popParent b = cut (insert b E') R' c :=
        cut_empty hE hR (by simp [hp, Block.emptied])
      refine ⟨insert b E', R', hempty,
        emptied_ok hok hd hdec (hlog.height_le_of_decided htree hdec),
        fun h hh => Finset.mem_insert_of_mem (hemptied h hh), hreleased, hfree, fun h hh => ?_,
        fun x hx => ?_, fun x hx => ?_⟩
      · rcases Finset.mem_insert.mp hh with rfl | hh
        · exact hbtop
        · exact hheight h hh
      · rcases List.mem_cons.mp hx with rfl | hx
        · exact Finset.mem_insert_self x E'
        · exact Finset.mem_insert_of_mem (hstack x hx)
      · obtain rfl : p = x := Option.some.inj hx
        exact ⟨hpdec, by omega⟩

/-- The first round begins in a cut of the core, or does what it would do there. -/
theorem pruneLoop_start {start : Uint256} (keys : List Uint256) (held : Uint256 → Bool)
    (fuel : Nat) (hok : CutOk env E R c) (hR : start ∉ R)
    (hd : (c.blk start).delivered = true) (hdec : (c.blk start).decision = true)
    (hle : (c.blk start).height ≤ (c.blk c.bExec).height) :
    ∃ E₀, (∀ h ∈ E, h ∈ E₀) ∧ (∀ h ∈ E₀, h ∈ E ∨ h = start) ∧ CutOk env E₀ R c ∧
      (∀ x, ((cut E₀ R c).storage x).isSome → ((cut E R c).storage x).isSome) ∧
      HotStuffCore.pruneLoop env keys held fuel
        ((cut E R c).modifyBlk start (fun b => { b with qcRef := none })) [start] =
          HotStuffCore.pruneLoop env keys held fuel (cut E₀ R c) [start] := by
  by_cases hE : start ∈ E
  · refine ⟨E, fun _ => id, fun _ => .inl, hok, fun _ => id, ?_⟩
    have hblk : (cut E R c).blk start = (c.blk start).emptied := by rw [blk_cut hR, if_pos hE]
    have hsame : (cut E R c).modifyBlk start (fun b => { b with qcRef := none }) = cut E R c := by
      rw [HotStuffCore.modifyBlk_congr (g := id) _ (by rw [hblk]; rfl)]
      simp [HotStuffCore.modifyBlk]
    rw [hsame]
  · cases hp : (c.blk start).parents with
    | nil =>
        refine ⟨insert start E, fun h hh => Finset.mem_insert_of_mem hh, fun h hh => ?_,
          emptied_ok hok hd hdec hle, fun x hx => ?_, ?_⟩
        · exact (Finset.mem_insert.mp hh).symm
        · by_cases hxR : x ∈ R
          · rw [storage_cut, if_pos hxR] at hx
            cases hx
          · rw [isSome_cut hxR] at hx ⊢
            exact hx
        · rw [cut_empty hE hR (by simp [Block.emptied, hp])]
    | cons p ps =>
        refine ⟨E, fun _ => id, fun _ => .inl, hok, fun _ => id, ?_⟩
        cases fuel with
        | zero => rfl
        | succ fuel =>
            rw [pruneLoop_succ, pruneLoop_succ]
            have hblk : (cut E R c).blk start = c.blk start := hok.blk_eq hE
            have hs : ((cut E R c).storage start).isSome := by
              rw [isSome_cut hR]
              exact isSome_of_delivered hd
            have hround : HotStuffCore.pruneRound
                ((cut E R c).modifyBlk start (fun b => { b with qcRef := none })) env keys held
                start [] = (cut E R c).pruneRound env keys held start [] := by
              unfold HotStuffCore.pruneRound HotStuffCore.popParent
              rw [HotStuffCore.blk_modifyBlk_self _ hs, hblk]
              dsimp only
              rw [hp, List.getLast?_cons, HotStuffCore.modifyBlk_modifyBlk]
            rw [hround]

/-- `prune` turns a cut of the core into a cut of it that goes further; if it does not return
early, nothing that is emptied is higher than where it began. -/
theorem prune_spec {fuel staleness : Nat} (hok : CutOk env E R c) (htree : TreeOk env c)
    (hlog : CommitOk env c) (hsingle : SingleParent c) (hkeys : Listed keys (cut E R c))
    (hprune : (cut E R c).prune env keys held fuel staleness = some d) :
    ∃ E' R', d = cut E' R' c ∧ CutOk env E' R' c ∧ (∀ h ∈ R', h ∈ R ∨ held h = false) ∧
      match (cut E R c).pruneStart staleness c.bExec with
      | none => E' = E ∧ R' = R
      | some start => ∀ h ∈ E', (c.blk h).height ≤ (c.blk start).height := by
  unfold HotStuffCore.prune at hprune
  rw [show (cut E R c).bExec = c.bExec from rfl] at hprune
  cases hstart : (cut E R c).pruneStart staleness c.bExec with
  | none =>
      rw [hstart] at hprune
      cases hprune
      exact ⟨E, R, rfl, hok, fun _ => .inl, rfl, rfl⟩
  | some start =>
  rw [hstart] at hprune
  dsimp only at hprune ⊢
  obtain ⟨hR, hdec, hext, _, hbelow⟩ := pruneStart_spec hok htree hlog hok.bExec hlog.bExec_decided
    hok.le_exec hstart
  obtain ⟨E₀, hsub, hnew, hok₀, hstored, hloop⟩ := pruneLoop_start keys
    (fun h => held h || h == start) fuel hok hR
    (hlog.delivered_of_decided htree hdec) hdec (hlog.height_le_of_decided htree hdec)
  rw [hloop] at hprune
  have hbegin : Looping env E R c (fun h => held h || h == start) (c.blk start).height
      (cut E₀ R c) [start] E₀ R := by
    refine ⟨rfl, hok₀, hsub, fun _ => id, fun _ => .inl, fun h hh => ?_, nofun, fun x hx => ?_⟩
    · rcases hnew h hh with hh | rfl
      · exact hbelow h hh
      · exact le_rfl
    · obtain rfl : start = x := Option.some.inj hx
      exact ⟨hdec, le_rfl⟩
  obtain ⟨⟨E', R', hend⟩, _⟩ := pruneLoop_invariant
    (I := fun d s => (∃ E' R', Looping env E R c (fun h => held h || h == start)
      (c.blk start).height d s E' R') ∧ Listed keys d)
    (fun d b s hI => by
      obtain ⟨⟨E', R', hl⟩, hlisted⟩ := hI
      exact ⟨hl.round htree hlog hsingle hlisted, (links_pruneRound env _ _ hlisted b).1⟩)
    ⟨⟨E₀, R, hbegin⟩, hkeys.of_le hstored⟩ hprune
  refine ⟨E', R', hend.eq, hend.ok, fun h hh => ?_, hend.height⟩
  rcases hend.free h hh with hh | hh
  · exact .inl hh
  · exact .inr (Bool.or_eq_false_iff.mp hh).1

end pruning

/-! The replica that prunes and the one that does not. -/

/-- Two replicas that take the same calls, and the keys of the storage of the second, which
prunes in between. -/
structure Twin (K : Secp256k1) where
  plain : Replica K
  pruned : Replica K
  keys : List Uint256

/-- A call, or a call of `prune` while references are held to some blocks. -/
inductive Action (K : Secp256k1)
  | call (i : Input K)
  | prune (staleness : Nat) (held : Uint256 → Bool)

def stores (env : Env K) (c : HotStuffCore K) : Input K → List Uint256
  | .fetch data => [env.getHash data]
  | .propose cmds parents extra => [env.getHash (c.newData cmds parents extra)]
  | .deliver _ | .receiveProposal _ | .receiveVote _ | .wait _ | .resume => []

namespace Twin

/-- Rounds enough for the second loop of `prune`. -/
def rounds (s : Twin K) : Nat := 2 * links s.keys s.pruned.core + 1

def step (env : Env K) (s : Twin K) : Action K → Option (Twin K)
  | .call i =>
      match s.plain.step env i, s.pruned.step env i with
      | some plain, some pruned => some ⟨plain, pruned, stores env s.pruned.core i ++ s.keys⟩
      | _, _ => none
  | .prune staleness held =>
      if s.pruned.stack.all (fun f => held (frameBlk f)) then
        (s.pruned.core.prune env s.keys held s.rounds staleness).map
          (fun d => { s with pruned := ⟨d, s.pruned.stack⟩ })
      else none

def Gone (s : Twin K) (h : Uint256) : Prop :=
  (s.plain.core.storage h).isSome ∧ ¬ (s.pruned.core.storage h).isSome

def Severed (s : Twin K) (h : Uint256) : Prop :=
  (s.pruned.core.blk h).parents ≠ (s.plain.core.blk h).parents ∨
    (s.pruned.core.blk h).qcRef ≠ (s.plain.core.blk h).qcRef

/-- The parents and the certified block that a stored block names are still stored. -/
def Named (s : Twin K) (h : Uint256) : Prop :=
  (∀ p ∈ (s.plain.core.blk h).data.parentHashes, ¬ s.Gone p) ∧
    ¬ s.Gone (s.plain.core.blk h).data.qc.objHash

def Live (s : Twin K) : Prop := ∀ x, .threw x ∉ s.pruned.core.trace

/-- The call names no block that is gone, and neither handles a proposal of a severed block nor
proposes one. -/
def Spared (env : Env K) (s : Twin K) : Input K → Prop
  | .fetch data => ¬ s.Gone (env.getHash data)
  | .deliver h => ¬ s.Gone h ∧ s.Named h
  | .propose cmds parents extra =>
      (∀ p ∈ parents, ¬ s.Gone p) ∧
        ¬ s.Severed (env.getHash (s.plain.core.newData cmds parents extra)) ∧
        ((s.plain.core.storage (env.getHash (s.plain.core.newData cmds parents extra))).isSome →
          s.Named (env.getHash (s.plain.core.newData cmds parents extra)))
  | .receiveProposal prop => ¬ s.Severed prop.blk
  | .receiveVote vote => ¬ s.Gone vote.blkHash
  | .wait h => ¬ s.Gone h
  | .resume => True

/-- The process is running, and calls spare the blocks that have been pruned. -/
def Sparing (env : Env K) (s : Twin K) : Action K → Prop
  | .call i => s.Live ∧ s.Spared env i
  | .prune _ _ => s.Live

end Twin

def twins (env : Env K) (config : ReplicaConfig K) (id : ReplicaID) (key : K.PrivKey)
    (voteDisabled : Bool) : System (Twin K) (Action K) where
  init s := s = ⟨⟨.start env config id key voteDisabled, []⟩,
    ⟨.start env config id key voteDisabled, []⟩, [env.genesisHash]⟩
  step s a s' := s.step env a = some s'

/-- The pruning replica is a cut of the other. -/
structure TwinOk (env : Env K) (E R : Finset Uint256) (s : Twin K) : Prop where
  eq : s.pruned = cutReplica E R s.plain
  replica : ReplicaCut env E R s.plain
  level : LevelOk s.plain.core
  listed : Listed s.keys s.plain.core

section twins

variable {config : ReplicaConfig K} {id : ReplicaID} {key : K.PrivKey} {voteDisabled : Bool}
  {s s' : Twin K} {r r' : Replica K} {i : Input K}

theorem stored_of_step (hok : ReplicaOk env r) (hstep : r.step env i = some r')
    (hx : (r'.core.storage x).isSome) :
    (r.core.storage x).isSome ∨ x ∈ stores env r.core i := by
  by_contra hnot
  rw [not_or] at hnot
  have hcovers : Covers env r (fun e => ¬ StoresAt env x e) i := by
    cases i with
    | fetch data => exact fun he => hnot.2 (List.mem_singleton.mpr he.symm)
    | propose cmds parents extra =>
        refine ⟨fun e he hat => ?_, nofun⟩
        cases e with
        | create data =>
            obtain rfl : data = _ := he
            exact hnot.2 (List.mem_singleton.mpr hat.symm)
        | store data => exact he
        | _ => exact hat
    | deliver h => exact fun e he hat => by cases e <;> first | exact hat | exact he
    | receiveProposal prop =>
        exact ⟨fun e he hat => by cases e <;> first | exact hat | exact he, nofun, nofun⟩
    | receiveVote vote => exact fun e he hat => by cases e <;> first | exact hat | exact he
    | wait h => exact nofun
    | resume => exact ⟨nofun, nofun, nofun⟩
  have htrail := (step_trail hok.frames hok.certs hcovers ⟨nofun, nofun, nofun⟩ hstep).1
  rw [stored_of_trail htrail (fun _ he => he)] at hx
  exact hnot.1 hx

namespace TwinOk

theorem not_released (hok : TwinOk env E R s) (hh : ¬ s.Gone h) : h ∉ R := by
  intro hR
  refine hh ⟨isSome_of_delivered (hok.replica.core.delivered h (hok.replica.core.subset h hR)), ?_⟩
  rw [hok.eq, show (cutReplica E R s.plain).core = cut E R s.plain.core from rfl, storage_cut,
    if_pos hR]
  exact Bool.false_ne_true

theorem not_emptied (hok : TwinOk env E R s) (htree : TreeOk env s.plain.core)
    (hh : ¬ s.Severed h) : h ∉ E := by
  intro hE
  have hd := hok.replica.core.delivered h hE
  have hlinks : ((cut E R s.plain.core).blk h).parents = [] ∧
      ((cut E R s.plain.core).blk h).qcRef = none := by
    by_cases hR : h ∈ R
    · rw [HotStuffCore.blk_of_none _ (by rw [storage_cut, if_pos hR])]
      exact ⟨rfl, rfl⟩
    · rw [blk_cut hR, if_pos hE]
      exact ⟨rfl, rfl⟩
  unfold Twin.Severed at hh
  rw [hok.eq, show (cutReplica E R s.plain).core = cut E R s.plain.core from rfl, hlinks.1,
    hlinks.2, not_or, not_not, not_not] at hh
  by_cases hgenesis : h = env.genesisHash
  · rw [hgenesis, htree.genesis.qcRef] at hh
    cases hh.2
  · exact (htree.deliveredOk h hgenesis hd).nonempty hh.1.symm

theorem names (hok : TwinOk env E R s) (hnamed : s.Named h) : Names R s.plain.core h :=
  ⟨fun p hp => hok.not_released (hnamed.1 p hp), hok.not_released hnamed.2⟩

theorem spares (hok : TwinOk env E R s) (htree : TreeOk env s.plain.core)
    (hspared : s.Spared env i) : Spares env E R s.plain i := by
  cases i with
  | fetch data => exact hok.not_released hspared
  | deliver h => exact ⟨hok.not_released hspared.1, hok.names hspared.2⟩
  | propose cmds parents extra =>
      obtain ⟨hparents, hnew, hnamed⟩ := hspared
      exact ⟨fun p hp => hok.not_released (hparents p hp), hok.not_emptied htree hnew,
        fun hs => hok.names (hnamed hs)⟩
  | receiveProposal prop => exact hok.not_emptied htree hspared
  | receiveVote vote => exact hok.not_released hspared
  | wait h => exact hok.not_released hspared
  | resume => trivial

theorem start (env : Env K) (config : ReplicaConfig K) (id : ReplicaID) (key : K.PrivKey)
    (voteDisabled : Bool) : TwinOk env ∅ ∅ ⟨⟨.start env config id key voteDisabled, []⟩,
      ⟨.start env config id key voteDisabled, []⟩, [env.genesisHash]⟩ where
  eq := rfl
  replica := by
    refine ⟨⟨?_, ?_, ?_, ?_, ?_, ?_, ?_⟩, ?_⟩ <;> simp
  level := .start env config id key voteDisabled
  listed x hx := by
    by_cases heq : x = env.genesisHash
    · exact List.mem_singleton.mpr heq
    · simp [HotStuffCore.start, heq] at hx

theorem call (hok : TwinOk env E R s) (hrep : ReplicaOk env s.plain) (hspared : s.Spared env i)
    (hstep : s.step env (.call i) = some s') (hlive : s'.Live) : TwinOk env E R s' := by
  have hspares := hok.spares hrep.tree hspared
  have hsame := step_cut hok.replica hok.level hrep hspares
  simp only [Twin.step] at hstep
  split at hstep
  swap
  · cases hstep
  rename_i plain pruned hplain hpruned
  rw [hok.eq, hsame, hplain] at hpruned
  cases hstep
  obtain rfl : cutReplica E R plain = pruned := Option.some.inj hpruned
  rcases throws_or_returns hplain with ⟨x, d, _, _, rfl⟩ | hreturns
  · exact absurd List.mem_cons_self (hlive x)
  · refine ⟨rfl, hok.replica.returns hok.level hrep hspares hreturns,
      hok.level.returns hrep.tree hrep.certs hreturns, fun x hx => ?_⟩
    rcases stored_of_step hrep hplain hx with hold | hnew
    · exact List.mem_append_right _ (hok.listed x hold)
    · rw [hok.eq]
      exact List.mem_append_left _ hnew

theorem listed_pruned (hok : TwinOk env E R s) : Listed s.keys s.pruned.core := by
  intro x hx
  rw [hok.eq] at hx
  by_cases hR : x ∈ R
  · rw [show (cutReplica E R s.plain).core = cut E R s.plain.core from rfl, storage_cut,
      if_pos hR] at hx
    cases hx
  · rw [show (cutReplica E R s.plain).core = cut E R s.plain.core from rfl, isSome_cut hR] at hx
    exact hok.listed x hx

theorem prune {staleness : Nat} (hok : TwinOk env E R s) (htree : TreeOk env s.plain.core)
    (hlog : CommitOk env s.plain.core) (hsingle : SingleParent s.plain.core)
    (hstep : s.step env (.prune staleness held) = some s') :
    ∃ E' R', TwinOk env E' R' s' := by
  simp only [Twin.step] at hstep
  split at hstep
  swap
  · cases hstep
  rename_i hheld
  rw [List.all_eq_true] at hheld
  obtain ⟨d, hprune, rfl⟩ := Option.map_eq_some_iff.mp hstep
  have hlisted := hok.listed_pruned
  rw [hok.eq] at hprune hlisted hheld
  obtain ⟨E', R', rfl, hcore, hfree, _⟩ :=
    prune_spec hok.replica.core htree hlog hsingle hlisted hprune
  refine ⟨E', R', ?_, ⟨hcore, fun f hf hR => ?_⟩, hok.level, hok.listed⟩
  · rw [hok.eq]
    rfl
  · rcases hfree _ hR with hR | hfalse
    · exact hok.replica.frames f hf hR
    · rw [hheld f hf] at hfalse
      cases hfalse

end TwinOk

theorem plain_step (hstep : s.step env (.call i) = some s') :
    s.plain.step env i = some s'.plain := by
  simp only [Twin.step] at hstep
  split at hstep
  · rename_i plain pruned hplain _
    cases hstep
    exact hplain
  · cases hstep

theorem plain_prune {staleness : Nat} (hstep : s.step env (.prune staleness held) = some s') :
    s'.plain = s.plain := by
  simp only [Twin.step] at hstep
  split at hstep
  · obtain ⟨d, _, rfl⟩ := Option.map_eq_some_iff.mp hstep
    rfl
  · cases hstep

theorem singleParent_of_grows (hg : Grows c d) (hsingle : SingleParent d) : SingleParent c := by
  intro x hx
  rw [← hg.parents hx]
  exact hsingle x (hg.delivered hx)

theorem plain_reachable {ok : Twin K → Action K → Prop} (ok' : Replica K → Input K → Prop)
    (h : Reachable ((twins env config id key voteDisabled).restrict ok) s)
    (hok : ∀ s i, ok s (.call i) → ok' s.plain i) :
    Reachable ((machine env config id key voteDisabled).restrict ok') s.plain := by
  induction h with
  | init h =>
      rw [h]
      exact .init rfl
  | @step s s' a _ hs ih =>
      cases a with
      | call i => exact .step ih ⟨hok s i hs.1, plain_step hs.2⟩
      | prune staleness held =>
          rw [plain_prune hs.2]
          exact ih

theorem twinOk_of_reachable
    (h : Reachable ((twins env config id key voteDisabled).restrict (Twin.Sparing env)) s)
    (hlive : s.Live) (hsingle : SingleParent s.plain.core) : ∃ E R, TwinOk env E R s := by
  induction h with
  | init h =>
      rw [h]
      exact ⟨∅, ∅, .start env config id key voteDisabled⟩
  | @step s s' a hr hs ih =>
      have hreach := (plain_reachable (fun _ _ => True) hr (fun _ _ _ => trivial)).of_restrict
      have hrep := replicaOk_of_reachable hreach
      obtain ⟨hok, hstep⟩ := hs
      cases a with
      | call i =>
          have hg := grows_of_trail (hrep.step (plain_step hstep)).2
          obtain ⟨E, R, hprev⟩ := ih hok.1 (singleParent_of_grows hg hsingle)
          exact ⟨E, R, hprev.call hrep hok.2 hstep hlive⟩
      | prune staleness held =>
          rw [plain_prune hstep] at hsingle
          obtain ⟨E, R, hprev⟩ := ih hok hsingle
          exact hprev.prune hrep.tree (commitOk_of_reachable hreach) hsingle hstep

end twins

/-! Which parents the functions follow. -/

/-- The blocks whose first parent `update` compares with the block they certify. -/
def compared (env : Env K) (c : HotStuffCore K) (n : Uint256) : List Uint256 :=
  if env.twoStep then ((certified c n).filter (fun t => (certified c t).isSome)).toList
  else
    match certified c n with
    | none => []
    | some blk2 =>
        match certified c blk2 with
        | none => []
        | some blk1 => if (certified c blk1).isSome then [blk2, blk1] else []

/-- The blocks whose first parent a walk down to a height follows. -/
def passed (c : HotStuffCore K) (floor : Nat) : Nat → Uint256 → List Uint256
  | fuel, b =>
    if (c.blk b).height ≤ floor then []
    else
      match fuel with
      | 0 => [b]
      | fuel + 1 => b :: (c.blk b).parents.head?.elim [] (passed c floor fuel)

section follows

variable {n t : Uint256}

/-- An undecided block that certifies another has been delivered, and has parents. -/
theorem parents_of_certified (htree : TreeOk env c) (hlog : CommitOk env c)
    (ht : (c.blk t).decision = false) (hcert : (certified c t).isSome) :
    (c.blk t).parents ≠ [] := by
  obtain ⟨q, hq⟩ := Option.isSome_iff_exists.mp hcert
  have hd := htree.delivered_of_qcRef (certified_eq_some.mp hq).1
  refine (htree.deliveredOk t ?_ hd).nonempty
  rintro rfl
  rw [(hlog.decided _).mpr (.inl rfl)] at ht
  cases ht

theorem compared_spec (hok : CutOk env E R c) (htree : TreeOk env c) (hlog : CommitOk env c)
    (hn : n ∉ E) (hx : x ∈ compared env (cut E R c) n) :
    ((cut E R c).blk x).parents = (c.blk x).parents ∧ (c.blk x).parents ≠ [] := by
  have hmem : (c.blk x).decision = false ∧ (certified c x).isSome := by
    unfold compared at hx
    rw [hok.certified hn] at hx
    cases hc : certified c n with
    | none =>
        rw [hc] at hx
        split at hx <;> cases hx
    | some t =>
        have ht := (certified_eq_some.mp hc).2
        have hcert := hok.certified (hok.not_mem_of_undecided ht)
        rw [hc, Option.filter_some] at hx
        dsimp only at hx
        rw [hcert] at hx
        split at hx
        · split at hx
          · rename_i hsome
            rw [List.mem_singleton.mp hx]
            exact ⟨ht, hsome⟩
          · cases hx
        · cases hc' : certified c t with
          | none =>
              rw [hc'] at hx
              cases hx
          | some p =>
              have hp := (certified_eq_some.mp hc').2
              rw [hc'] at hx
              dsimp only at hx
              rw [hok.certified (hok.not_mem_of_undecided hp)] at hx
              split at hx
              · rename_i hsome
                rcases List.mem_cons.mp hx with rfl | hx
                · exact ⟨ht, by rw [hc']; rfl⟩
                · rw [List.mem_singleton.mp hx]
                  exact ⟨hp, hsome⟩
              · cases hx
  have hE := hok.not_mem_of_undecided hmem.1
  rw [hok.blk_eq hE]
  exact ⟨rfl, parents_of_certified htree hlog hmem.1 hmem.2⟩

theorem passed_spec {floor fuel : Nat} (hok : CutOk env E R c) (htree : TreeOk env c)
    (hlevel : LevelOk c) (hfloor : (c.blk c.bExec).height ≤ floor) (hb : b ∉ R)
    (hx : x ∈ passed (cut E R c) floor fuel b) :
    ((cut E R c).blk x).parents = (c.blk x).parents ∧ (c.blk x).parents ≠ [] := by
  -- What lies above the floor is delivered, and is not the genesis block.
  have hhigh : ∀ {y}, y ∉ R → ¬ ((cut E R c).blk y).height ≤ floor →
      y ∉ E ∧ (c.blk y).parents ≠ [] := by
    intro y hy hnot
    rw [height_cut hy, Nat.not_le] at hnot
    have hE : y ∉ E := fun hE => Nat.not_lt.mpr ((hok.le_exec y hE).trans hfloor) hnot
    refine ⟨hE, (htree.deliveredOk y ?_ (hlevel.flat.delivered (Nat.zero_lt_of_lt hnot))).nonempty⟩
    rintro rfl
    rw [htree.genesis.height] at hnot
    cases hnot
  have hself : ∀ {y}, y ∉ E → (c.blk y).parents ≠ [] →
      ((cut E R c).blk y).parents = (c.blk y).parents ∧ (c.blk y).parents ≠ [] :=
    fun hE hne => ⟨by rw [hok.blk_eq hE], hne⟩
  induction fuel generalizing b with
  | zero =>
      unfold passed at hx
      split at hx
      · cases hx
      · rename_i hnot
        obtain ⟨hE, hne⟩ := hhigh hb hnot
        rw [List.mem_singleton.mp hx]
        exact hself hE hne
  | succ fuel ih =>
      unfold passed at hx
      split at hx
      · cases hx
      · rename_i hnot
        obtain ⟨hE, hne⟩ := hhigh hb hnot
        rcases List.mem_cons.mp hx with rfl | hx
        · exact hself hE hne
        · rw [hok.blk_eq hE] at hx
          cases hp : (c.blk b).parents.head? with
          | none =>
              rw [hp] at hx
              cases hx
          | some p =>
              rw [hp] at hx
              exact ih (hok.parents b hE p (List.mem_of_head? hp)) hx

end follows

theorem not_emptied_of_extends {n : Uint256} (hok : CutOk env E R c) (htree : TreeOk env c)
    (hext : Extends (firstParent c) n c.bExec) (hne : n ≠ c.bExec) : n ∉ E := by
  intro hE
  exact hne (extends_eq htree (hok.delivered n hE) hext (hok.le_exec n hE))

/-- Pruning keeps the live part of the tree.  `prune` ends; it changes nothing but the storage,
and there nothing delivered above the block at which it begins: each such block is stored as in a
replica that has never pruned.  As long as calls spare what has been pruned, `update`,
`on_receive_proposal` and `check_ancestry` on blocks above `b_exec` do what they do in that
replica, and every parent they follow is there. -/
theorem pruning_keeps_live_part {config : ReplicaConfig K} {id : ReplicaID} {key : K.PrivKey}
    {voteDisabled : Bool} {s : Twin K}
    (h : Reachable ((twins env config id key voteDisabled).restrict (Twin.Sparing env)) s)
    (hlive : s.Live) (hsingle : SingleParent s.plain.core) :
    (∀ staleness held, ∃ rounds d,
      (∀ fuel, rounds ≤ fuel →
        s.pruned.core.prune env s.keys held fuel staleness = some d) ∧
      d = { s.pruned.core with storage := d.storage } ∧
      match s.pruned.core.pruneStart staleness s.pruned.core.bExec with
      | none => d = s.pruned.core
      | some start =>
          Extends (firstParent s.plain.core) s.plain.core.bExec start ∧
            (s.plain.core.blk start).height + staleness =
              (s.plain.core.blk s.plain.core.bExec).height ∧
            ∀ x, (s.plain.core.blk x).delivered = true →
              (s.plain.core.blk start).height < (s.plain.core.blk x).height →
              d.storage x = s.plain.core.storage x) ∧
    ∃ E R, s.pruned = cutReplica E R s.plain ∧
      (∀ x ∈ E, Extends (firstParent s.plain.core) s.plain.core.bExec x) ∧ (∀ x ∈ R, x ∈ E) ∧
      (s.plain.core.blk s.plain.core.bExec).height ≤
        (s.plain.core.blk s.plain.core.hqc.1).height ∧
      (s.plain.core.blk s.plain.core.bExec).height ≤ (s.plain.core.blk s.plain.core.bLock).height ∧
      ∀ n, Extends (firstParent s.plain.core) n s.plain.core.bExec → n ≠ s.plain.core.bExec →
        s.pruned.core.update env n = cutResult E R (cut E R) (s.plain.core.update env n) ∧
        (∀ proposer, s.pruned.core.onReceiveProposal env ⟨proposer, n⟩ =
          cutResult E R (fun r => (r.1, r.2.1, cut E R r.2.2))
            (s.plain.core.onReceiveProposal env ⟨proposer, n⟩)) ∧
        (∀ a, Extends (firstParent s.plain.core) a s.plain.core.bExec →
          s.pruned.core.checkAncestry a n = s.plain.core.checkAncestry a n) ∧
        (∀ x ∈ compared env s.pruned.core n, (s.pruned.core.blk x).parents ≠ []) ∧
        ∀ floor fuel, (s.plain.core.blk s.plain.core.bExec).height ≤ floor →
          ∀ x ∈ passed s.pruned.core floor fuel n, (s.pruned.core.blk x).parents ≠ [] := by
  obtain ⟨E, R, hok⟩ := twinOk_of_reachable h hlive hsingle
  have hreach : Reachable (machine env config id key voteDisabled) s.plain :=
    (plain_reachable (fun _ _ => True) h (fun _ _ _ => trivial)).of_restrict
  have htree := (replicaOk_of_reachable hreach).tree
  have hlog := commitOk_of_reachable hreach
  have hcore := hok.replica.core
  have hpruned : s.pruned.core = cut E R s.plain.core := congrArg Replica.core hok.eq
  refine ⟨fun staleness held => ?_, E, R, hok.eq, fun x hx => hlog.extends_decided
    (hcore.decided x hx), hcore.subset, hok.level.exec_le, hok.level.exec_le_lock,
    fun n hn hne => ?_⟩
  · obtain ⟨rounds, d, hd⟩ := exists_prune env held hok.listed_pruned staleness
    have hprune := hd rounds le_rfl
    refine ⟨rounds, d, hd, prune_storage hprune, ?_⟩
    have hlisted := hok.listed_pruned
    rw [hpruned] at hprune hlisted ⊢
    obtain ⟨E', R', rfl, hok', _, hend⟩ :=
      prune_spec hcore htree hlog hsingle hlisted hprune
    rw [show (cut E R s.plain.core).bExec = s.plain.core.bExec from rfl]
    cases hstart : (cut E R s.plain.core).pruneStart staleness s.plain.core.bExec with
    | none =>
        rw [hstart] at hend
        obtain ⟨rfl, rfl⟩ := hend
        rfl
    | some start =>
        rw [hstart] at hend
        obtain ⟨_, _, hext, hsum, _⟩ := pruneStart_spec hcore htree hlog hcore.bExec
          hlog.bExec_decided hcore.le_exec hstart
        refine ⟨hext, hsum, fun x _ hlt => ?_⟩
        have hE : x ∉ E' := fun hE => Nat.not_lt.mpr (hend x hE) hlt
        rw [storage_cut, if_neg (fun hR => hE (hok'.subset x hR)), if_neg hE]
  · have hE := not_emptied_of_extends hcore htree hn hne
    have hR : n ∉ R := fun hR => hE (hcore.subset n hR)
    rw [hpruned]
    refine ⟨(hcore.update hok.level.exec_le hE).1,
      fun proposer => (hcore.onReceiveProposal hok.level htree hE).1, fun a ha => ?_,
      fun x hx => ?_, fun floor fuel hfloor x hx => ?_⟩
    · by_cases hexec : a = s.plain.core.bExec
      · rw [hexec]
        exact hcore.checkAncestry hcore.bExec le_rfl hR
      · have hd : (s.plain.core.blk a).delivered = true := by
          cases ha with
          | refl _ => exact absurd rfl hexec
          | step hp _ => exact delivered_of_firstParent hp
        exact hcore.checkAncestry (fun hR => not_emptied_of_extends hcore htree ha hexec
          (hcore.subset a hR)) (htree.height_le_of_extends hd ha).2 hR
    · obtain ⟨heq, hparents⟩ := compared_spec hcore htree hlog hE hx
      rw [heq]
      exact hparents
    · obtain ⟨heq, hparents⟩ := passed_spec hcore htree hok.level hfloor hR hx
      rw [heq]
      exact hparents

/-! Runs of a replica without peers. -/

section decidable

variable (env : Env K) (s : Twin K) (h : Uint256)

instance : Decidable (s.Gone h) := inferInstanceAs (Decidable (_ ∧ _))

instance : Decidable (s.Severed h) := inferInstanceAs (Decidable (_ ∨ _))

instance : Decidable (s.Named h) :=
  @instDecidableAnd _ _ (List.decidableBAll _ _) _

instance : Decidable s.Live :=
  decidable_of_iff
    (∀ e ∈ s.pruned.core.trace, (match e with | .threw _ => false | _ => true) = true)
    ⟨fun hall x hx => absurd (hall _ hx) Bool.false_ne_true,
      fun hlive e he => by cases e <;> first | rfl | exact absurd he (hlive _)⟩

instance (i : Input K) : Decidable (s.Spared env i) :=
  match i with
  | .fetch _ | .receiveProposal _ | .receiveVote _ | .wait _ => inferInstanceAs (Decidable (¬ _))
  | .deliver _ => inferInstanceAs (Decidable (_ ∧ _))
  | .propose _ _ _ =>
      @instDecidableAnd _ _ (List.decidableBAll _ _) (inferInstanceAs (Decidable (_ ∧ (_ → _))))
  | .resume => isTrue trivial

instance (a : Action K) : Decidable (s.Sparing env a) :=
  match a with
  | .call _ => inferInstanceAs (Decidable (_ ∧ _))
  | .prune _ _ => inferInstanceAs (Decidable (Twin.Live _))

end decidable

def Single : Action K → Prop
  | .call i => OneParent i
  | .prune _ _ => True

instance (a : Action K) : Decidable (Single a) :=
  match a with
  | .call i => inferInstanceAs (Decidable (OneParent i))
  | .prune _ _ => isTrue trivial

def soleTwins : System (Twin clearScheme) (Action clearScheme) :=
  twins (clearEnv false) soleConfig 0 (0 : Nat) false

def freshTwin : Twin clearScheme :=
  ⟨⟨.start (clearEnv false) soleConfig 0 (0 : Nat) false, []⟩,
    ⟨.start (clearEnv false) soleConfig 0 (0 : Nat) false, []⟩, [0]⟩

theorem singleParent_of_single {s : Twin clearScheme}
    (h : Reachable (soleTwins.restrict (fun _ a => Single a)) s) : SingleParent s.plain.core := by
  have hplain := plain_reachable (fun _ i => OneParent i) h (fun _ _ hone => hone)
  exact (oneNamed_of_reachable hplain).singleParent (replicaOk_of_reachable hplain.of_restrict).tree

/-- Four blocks, of which the first is committed and cut, and a fifth, which commits the second. -/
def prunedTwin : Twin clearScheme :=
  (execute (guarded (fun s a => Single a ∧ s.Sparing (clearEnv false) a)
    (Twin.step (clearEnv false)))
    (soleRun.map .call ++ [.prune 0 (fun _ => false), .call (.propose [5] [4] []), .call .resume,
      .prune 0 (fun _ => false)]) freshTwin).get (by decide +kernel)

theorem prunedTwin_reachable :
    Reachable (soleTwins.restrict (fun s a => Single a ∧ s.Sparing (clearEnv false) a))
      prunedTwin :=
  Reachable.trans (.init rfl)
    (steps_of_execute (fun _ _ _ hstep => guarded_eq_some hstep) (Option.some_get _).symm)

theorem pruning_keeps_live_part_sole :
    (prunedTwin.pruned.core.bExec = 2 ∧ prunedTwin.Gone 1 ∧ ¬ prunedTwin.Severed 3) ∧
      ∃ E R, prunedTwin.pruned = cutReplica E R prunedTwin.plain := by
  refine ⟨by decide +kernel, ?_⟩
  obtain ⟨E, R, heq, _⟩ := (pruning_keeps_live_part
    (prunedTwin_reachable.restrict_mono (fun _ _ hok => hok.2)) (by decide +kernel)
    (singleParent_of_single (prunedTwin_reachable.restrict_mono (fun _ _ hok => hok.1)))).2
  exact ⟨E, R, heq⟩

/-! Blocks that come back, and a block that is still stored. -/

/-- The certificate of the replica alone. -/
def soleQc (h : Uint256) : QuorumCert clearScheme :=
  ((QuorumCert.create soleConfig h).addPart 0 (PartCert.create (0 : Nat) h)).toOption.getD
    (QuorumCert.create soleConfig h)

/-- A block arrives, with its parent and the block it certifies. -/
def arrival (h parent certified : Uint256) : List (Action clearScheme) :=
  [.call (.fetch ⟨[parent], [h], soleQc certified, []⟩), .call (.deliver h)]

def loneTwin (run : List (Action clearScheme)) : Option (Twin clearScheme) :=
  execute (guarded (fun _ a => Single a) (Twin.step (clearEnv false))) run freshTwin

theorem loneTwin_reachable {run : List (Action clearScheme)} {s : Twin clearScheme}
    (h : loneTwin run = some s) : Reachable (soleTwins.restrict (fun _ a => Single a)) s :=
  Reachable.trans (.init rfl) (steps_of_execute (fun _ _ _ hstep => guarded_eq_some hstep) h)

/-- The first two blocks are released, and come back for the sake of a block beside the third. -/
def returnedTwin : Twin clearScheme :=
  (loneTwin (([1, 2, 3, 4, 5, 6] : List Uint256).flatMap (fun h => arrival h (h - 1) (h - 1)) ++
    [.call (.receiveProposal ⟨0, 6⟩), .prune 0 (fun _ => false)] ++
    arrival 1 0 0 ++ arrival 2 1 1 ++ arrival 10 2 2 ++ arrival 11 6 10)).get (by decide +kernel)

theorem returnedTwin_reachable :
    Reachable (soleTwins.restrict (fun _ a => Single a)) returnedTwin :=
  loneTwin_reachable (Option.some_get _).symm

/-- The second block, whose certificate is high, is cut but held, and its proposal comes late. -/
def lateTwin : Twin clearScheme :=
  (loneTwin (arrival 12 0 0 ++
    ([13, 14, 15, 16, 17] : List Uint256).flatMap (fun h => arrival h (h - 1) 0) ++
    arrival 1 0 0 ++ arrival 2 1 17 ++
    ([3, 4, 5, 6, 7] : List Uint256).flatMap (fun h => arrival h (h - 1) (h - 1)) ++
    [.call (.receiveProposal ⟨0, 6⟩), .prune 0 (fun h => h == 2),
      .call (.receiveProposal ⟨0, 2⟩)])).get (by decide +kernel)

theorem lateTwin_reachable :
    Reachable (soleTwins.restrict (fun _ a => Single a)) lateTwin :=
  loneTwin_reachable (Option.some_get _).symm

/-- The replica that prunes throws on a block that the other one accepts, and stays with an older
certificate where the other one has a newer one. -/
theorem pruned_calls_differ :
    (Reachable (soleTwins.restrict (fun _ a => Single a)) returnedTwin ∧
      SingleParent returnedTwin.plain.core ∧ returnedTwin.Live ∧
      (∃ p q, (returnedTwin.pruned.core.blk 11).parents = [p] ∧
        (returnedTwin.pruned.core.blk 11).qcRef = some q ∧
        (returnedTwin.pruned.core.storage p).isSome ∧
        (returnedTwin.pruned.core.storage q).isSome) ∧
      Extends (firstParent returnedTwin.pruned.core) 11 returnedTwin.pruned.core.bExec ∧
      11 ≠ returnedTwin.pruned.core.bExec ∧
      (returnedTwin.plain.core.update (clearEnv false) 11).isOk = true ∧
      ∃ d, returnedTwin.pruned.core.update (clearEnv false) 11 = .error (.safetyBreached, d)) ∧
    (Reachable (soleTwins.restrict (fun _ a => Single a)) lateTwin ∧
      SingleParent lateTwin.plain.core ∧ lateTwin.Live ∧
      (∃ p q, (lateTwin.pruned.core.blk 7).parents = [p] ∧
        (lateTwin.pruned.core.blk 7).qcRef = some q ∧
        (lateTwin.pruned.core.storage p).isSome ∧ (lateTwin.pruned.core.storage q).isSome) ∧
      Extends (firstParent lateTwin.pruned.core) 7 lateTwin.pruned.core.bExec ∧
      7 ≠ lateTwin.pruned.core.bExec ∧
      ((lateTwin.plain.core.update (clearEnv false) 7).toOption.map (fun d => d.hqc.1) = some 17) ∧
      (lateTwin.pruned.core.update (clearEnv false) 7).toOption.map (fun d => d.hqc.1) =
        some 6) := by
  refine ⟨⟨returnedTwin_reachable, singleParent_of_single returnedTwin_reachable,
    by decide +kernel, ⟨6, 10, by decide +kernel⟩, ?_, by decide +kernel, by decide +kernel, ?_⟩,
    lateTwin_reachable, singleParent_of_single lateTwin_reachable, by decide +kernel,
    ⟨6, 6, by decide +kernel⟩, ?_, by decide +kernel, by decide +kernel, by decide +kernel⟩
  · rw [show returnedTwin.pruned.core.bExec = 3 by decide +kernel]
    exact .step (p := 6) (by decide +kernel) (.step (p := 5) (by decide +kernel)
      (.step (p := 4) (by decide +kernel) (.step (p := 3) (by decide +kernel) (.refl _))))
  · have hexn : (match returnedTwin.pruned.core.update (clearEnv false) 11 with
        | .error x => some x.1
        | .ok _ => none) = some Exn.safetyBreached := by decide +kernel
    split at hexn
    · next x hx =>
      obtain ⟨e, d⟩ := x
      cases hexn
      exact ⟨d, hx⟩
    · cases hexn
  · rw [show lateTwin.pruned.core.bExec = 3 by decide +kernel]
    exact .step (p := 6) (by decide +kernel) (.step (p := 5) (by decide +kernel)
      (.step (p := 4) (by decide +kernel) (.step (p := 3) (by decide +kernel) (.refl _))))

end ArchipelagoHotStuff.Consensus.Pruning
