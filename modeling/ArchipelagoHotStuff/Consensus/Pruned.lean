/- Module: ArchipelagoHotStuff/Consensus/Pruned
   source: consensus.cpp (prune and the functions that run after it)
   digest: A core some of whose old blocks are emptied or gone, beside the core that has kept
     them: what the functions of the core do is the same in both. -/

import ArchipelagoHotStuff.Consensus.Levels
import ArchipelagoHotStuff.Consensus.Prune

set_option autoImplicit false
set_option relaxedAutoImplicit false

namespace ArchipelagoHotStuff.Consensus.Pruned

open Crypto.Wire Crypto.Certificates State Handlers Effects Consensus.Tree Trails Stages Levels
open CommitLog FailedProposals Ballots Machine

variable {K : Secp256k1} {env : Env K} {E R : Finset Uint256} {c c' d : HotStuffCore K}
  {b h n p t x : Uint256}

/-- The core once the blocks in `E` are emptied and those in `R` have left the storage. -/
def cut (E R : Finset Uint256) (c : HotStuffCore K) : HotStuffCore K :=
  { c with
    storage := fun h =>
      if h ∈ R then none
      else if h ∈ E then (c.storage h).map Block.emptied else c.storage h }

/-- What a function returns, or the state in which it throws, after the cut. -/
def cutResult {α : Type} (E R : Finset Uint256) (f : α → α) :
    Except (Exn × HotStuffCore K) α → Except (Exn × HotStuffCore K) α
  | .error (e, c) => .error (e, cut E R c)
  | .ok a => .ok (f a)

/-- The emptied blocks are decided, none of them above `b_exec`; the blocks that are gone are
among them, and neither the core nor a block that is not emptied refers to one. -/
structure CutOk (env : Env K) (E R : Finset Uint256) (c : HotStuffCore K) : Prop where
  subset : ∀ h ∈ R, h ∈ E
  delivered : ∀ h ∈ E, (c.blk h).delivered = true
  decided : ∀ h ∈ E, (c.blk h).decision = true
  le_exec : ∀ h ∈ E, (c.blk h).height ≤ (c.blk c.bExec).height
  parents : ∀ x, x ∉ E → ∀ p ∈ (c.blk x).parents, p ∉ R
  qcRef : ∀ x, x ∉ E → ∀ t, (c.blk x).qcRef = some t → t ∉ R
  held : ∀ h, c.Holds env h → h ∉ R

/-- The blocks that a stored block names are there. -/
def Names (R : Finset Uint256) (c : HotStuffCore K) (h : Uint256) : Prop :=
  (∀ p ∈ (c.blk h).data.parentHashes, p ∉ R) ∧ (c.blk h).data.qc.objHash ∉ R

/-- What the new block refers to is there, and it is not an emptied block. -/
structure Fresh (env : Env K) (E R : Finset Uint256) (c : HotStuffCore K) (data : BlockData K) :
    Prop where
  parents : ∀ p ∈ data.parentHashes, p ∉ R
  fresh : env.getHash data ∉ E
  names : (c.storage (env.getHash data)).isSome → Names R c (env.getHash data)

/-! What is read of a block. -/

theorem storage_cut (E R : Finset Uint256) (c : HotStuffCore K) (h : Uint256) :
    (cut E R c).storage h =
      if h ∈ R then none else if h ∈ E then (c.storage h).map Block.emptied else c.storage h := rfl

theorem blk_cut (hx : x ∉ R) :
    (cut E R c).blk x = if x ∈ E then (c.blk x).emptied else c.blk x := by
  unfold HotStuffCore.blk
  rw [storage_cut, if_neg hx]
  split
  · cases c.storage x <;> rfl
  · rfl

theorem field_cut {γ : Type} (g : Block K → γ) (hg : ∀ b, g b.emptied = g b) (hx : x ∉ R) :
    g ((cut E R c).blk x) = g (c.blk x) := by
  rw [blk_cut hx]
  split
  · exact hg _
  · rfl

theorem height_cut (hx : x ∉ R) : ((cut E R c).blk x).height = (c.blk x).height :=
  field_cut Block.height (fun _ => rfl) hx

theorem decision_cut (hx : x ∉ R) : ((cut E R c).blk x).decision = (c.blk x).decision :=
  field_cut Block.decision (fun _ => rfl) hx

theorem delivered_cut (hx : x ∉ R) : ((cut E R c).blk x).delivered = (c.blk x).delivered :=
  field_cut Block.delivered (fun _ => rfl) hx

theorem isSome_cut (hx : x ∉ R) : ((cut E R c).storage x).isSome = (c.storage x).isSome := by
  rw [storage_cut, if_neg hx]
  split
  · rw [Option.isSome_map]
  · rfl

/-- A change that reads and writes neither links commutes with the cut; any change of a block
that is not emptied does. -/
theorem modifyBlk_cut {f : Block K → Block K} (hf : h ∈ E → ∀ b, f b.emptied = (f b).emptied) :
    (cut E R c).modifyBlk h f = cut E R (c.modifyBlk h f) := by
  have hstorage : ((cut E R c).modifyBlk h f).storage = (cut E R (c.modifyBlk h f)).storage := by
    funext x
    rw [HotStuffCore.storage_modifyBlk, storage_cut, storage_cut, storage_cut,
      HotStuffCore.storage_modifyBlk]
    by_cases hx : x = h
    · subst hx
      rw [if_pos rfl, if_pos rfl]
      by_cases hR : x ∈ R
      · rw [if_pos hR, if_pos hR]
        rfl
      · rw [if_neg hR, if_neg hR]
        split
        · rename_i hE
          cases c.storage x with
          | none => rfl
          | some b => exact congrArg some (hf hE b)
        · rfl
    · rw [if_neg hx, if_neg hx]
  exact congrArg (fun s => { c with storage := s }) hstorage

/-! Parts of the functions. -/

theorem takeWhile_eq {α : Type} {f g : α → Bool} {l : List α} (hfg : ∀ a ∈ l, f a = g a) :
    l.takeWhile f = l.takeWhile g := by
  induction l with
  | nil => rfl
  | cons a l ih =>
      rw [List.takeWhile_cons, List.takeWhile_cons, hfg a List.mem_cons_self,
        ih (fun b hb => hfg b (List.mem_cons_of_mem a hb))]

theorem commitBlk_cut (E : Finset Uint256) (hh : h ∉ R) :
    (cut E R c).commitBlk h = cut E R (c.commitBlk h) := by
  have hfin : (cut E R c).finalities h = c.finalities h := by
    unfold HotStuffCore.finalities
    rw [field_cut Block.data (fun _ => rfl) hh, height_cut hh]
    rfl
  have hmod := modifyBlk_cut (E := E) (R := R) (c := c) (h := h)
    (f := fun b => { b with decision := true }) (fun _ _ => rfl)
  unfold HotStuffCore.commitBlk
  rw [hfin]
  exact congrArg (fun u : HotStuffCore K =>
    { u with trace := (c.finalities h).reverse ++ Event.consensus h :: c.trace }) hmod

theorem commitAll_cut (E : Finset Uint256) (queue : List Uint256) (c : HotStuffCore K)
    (hqueue : ∀ h ∈ queue, h ∉ R) :
    queue.foldl HotStuffCore.commitBlk (cut E R c) =
      cut E R (queue.foldl HotStuffCore.commitBlk c) := by
  induction queue generalizing c with
  | nil => rfl
  | cons h queue ih =>
      rw [List.foldl_cons, List.foldl_cons, commitBlk_cut E (hqueue h List.mem_cons_self)]
      exact ih _ (fun x hx => hqueue x (List.mem_cons_of_mem _ hx))

theorem walk_high {floor fuel : Nat} {queue : List Uint256}
    (hwalk : c.walk floor fuel b = some (queue, t)) : ∀ x ∈ queue, floor < (c.blk x).height := by
  induction fuel generalizing b queue with
  | zero =>
      rw [HotStuffCore.walk_zero] at hwalk
      split at hwalk
      · cases hwalk
        exact nofun
      · cases hwalk
  | succ fuel ih =>
      rw [HotStuffCore.walk_succ] at hwalk
      split at hwalk
      · cases hwalk
        exact nofun
      rename_i hhigh
      split at hwalk
      · cases hwalk
      rename_i p hp
      obtain ⟨⟨rest, t'⟩, hrest, heq⟩ := Option.map_eq_some_iff.mp hwalk
      cases heq
      intro x hx
      rcases List.mem_cons.mp hx with rfl | hx
      · exact Nat.lt_of_not_le hhigh
      · exact ih hrest x hx

section staging

variable {data : BlockData K}

/-- The blocks that the new block names are there, and `b_exec` is still delivered. -/
theorem stage_names (hexec : (c.blk c.bExec).delivered = true)
    (hparents : ∀ p ∈ data.parentHashes, p ∉ R) (hcert : data.qc.objHash ∉ R)
    (hnames : (c.storage (env.getHash data)).isSome → Names R c (env.getHash data)) :
    Names R (stage env c data) (env.getHash data) ∧
      ((stage env c data).storage (env.getHash data)).isSome ∧
      ((stage env c data).blk (stage env c data).bExec).delivered = true := by
  obtain ⟨b, trace, hstaged, _, _, _, _, hdel, _, hdata⟩ := staged env c data
  have hstage : stage env c data = { c.eraseTails data.parentHashes with
      storage := Function.update c.storage (env.getHash data) (some b), trace } := hstaged
  have hself : (stage env c data).blk (env.getHash data) = b := by
    rw [hstage]
    simp [HotStuffCore.blk]
  refine ⟨?_, ?_, ?_⟩
  · unfold Names
    rw [hself, hdata]
    split
    · rename_i hs
      exact hnames hs
    · exact ⟨hparents, hcert⟩
  · rw [hstage]
    simp
  · by_cases hx : c.bExec = env.getHash data
    · rw [show (stage env c data).bExec = env.getHash data by rw [hstage]; exact hx, hself, hdel,
        ← hx]
      exact hexec
    · rw [hstage]
      simpa [HotStuffCore.blk, HotStuffCore.eraseTails, hx] using hexec

end staging

namespace CutOk

theorem not_mem_of_undecided (hok : CutOk env E R c) (hx : (c.blk x).decision = false) :
    x ∉ E := by
  intro hE
  rw [hok.decided x hE] at hx
  cases hx

theorem blk_eq (hok : CutOk env E R c) (hx : x ∉ E) : (cut E R c).blk x = c.blk x := by
  rw [blk_cut (fun hR => hx (hok.subset x hR)), if_neg hx]

/-! Walks. -/

section walks

/-- A walk that ends no lower than `b_exec` meets no emptied block on its way. -/
theorem walk (hok : CutOk env E R c) {floor : Nat} (hfloor : (c.blk c.bExec).height ≤ floor)
    (fuel : Nat) (hb : b ∉ R) : (cut E R c).walk floor fuel b = c.walk floor fuel b := by
  induction fuel generalizing b with
  | zero => rw [HotStuffCore.walk_zero, HotStuffCore.walk_zero, height_cut hb]
  | succ fuel ih =>
      rw [HotStuffCore.walk_succ, HotStuffCore.walk_succ, height_cut hb]
      split
      · rfl
      · rename_i hhigh
        have hE : b ∉ E := fun hE => hhigh ((hok.le_exec b hE).trans hfloor)
        rw [hok.blk_eq hE]
        cases hp : (c.blk b).parents.head? with
        | none => rfl
        | some p =>
            dsimp only
            rw [ih (hok.parents b hE p (List.mem_of_head? hp))]

theorem descend (hok : CutOk env E R c) {floor : Nat} (hfloor : (c.blk c.bExec).height ≤ floor)
    (hb : b ∉ R) : (cut E R c).descend floor b = c.descend floor b := by
  unfold HotStuffCore.descend
  rw [height_cut hb, hok.walk hfloor _ hb]

theorem checkAncestry (hok : CutOk env E R c) (hh : h ∉ R)
    (hfloor : (c.blk c.bExec).height ≤ (c.blk h).height) (hb : b ∉ R) :
    (cut E R c).checkAncestry h b = c.checkAncestry h b := by
  unfold HotStuffCore.checkAncestry
  rw [height_cut hh, hok.descend hfloor hb]

end walks

/-! What the core holds. -/

theorem hqc (hok : CutOk env E R c) : c.hqc.1 ∉ R := hok.held _ (.inr (.inl rfl))

theorem bLock (hok : CutOk env E R c) : c.bLock ∉ R := hok.held _ (.inr (.inr (.inl rfl)))

theorem bExec (hok : CutOk env E R c) : c.bExec ∉ R :=
  hok.held _ (.inr (.inr (.inr (.inl rfl))))

theorem hqcTail (hok : CutOk env E R c) : c.hqcTail ∉ R :=
  hok.held _ (.inr (.inr (.inr (.inr (.inl rfl)))))

theorem tails (hok : CutOk env E R c) (ht : t ∈ c.tails) : t ∉ R :=
  hok.held _ (.inr (.inr (.inr (.inr (.inr (.inl ht))))))

theorem qcWaiting (hok : CutOk env E R c) (ht : t ∈ c.qcWaiting) : t ∉ R :=
  hok.held _ (.inr (.inr (.inr (.inr (.inr (.inr ht))))))

theorem of_grows (hok : CutOk env E R c) (hg : Grows c c')
    (hdec : ∀ x, (c.blk x).decision = true → (c'.blk x).decision = true)
    (hexec : (c.blk c.bExec).height ≤ (c'.blk c'.bExec).height)
    (hparents : ∀ x, x ∉ E → ∀ p ∈ (c'.blk x).parents, p ∉ R)
    (hqcRef : ∀ x, x ∉ E → ∀ t, (c'.blk x).qcRef = some t → t ∉ R)
    (hhqc : c'.hqc.1 ∉ R) (hlock : c'.bLock ∉ R) (hb : c'.bExec ∉ R) (htail : c'.hqcTail ∉ R)
    (htails : ∀ t ∈ c'.tails, t ∉ R) (hwait : ∀ t ∈ c'.qcWaiting, t ∉ R) : CutOk env E R c' where
  subset := hok.subset
  delivered h hE := hg.delivered (hok.delivered h hE)
  decided h hE := hdec h (hok.decided h hE)
  le_exec h hE := by
    rw [hg.height (hok.delivered h hE)]
    exact (hok.le_exec h hE).trans hexec
  parents := hparents
  qcRef := hqcRef
  held h hh := by
    rcases hh with rfl | rfl | rfl | rfl | rfl | hh | hh
    · exact hok.held _ (.inl rfl)
    · exact hhqc
    · exact hlock
    · exact hb
    · exact htail
    · exact htails h hh
    · exact hwait h hh

theorem of_blk (hok : CutOk env E R c) (hblk : ∀ x, c'.blk x = c.blk x)
    (hexec : (c.blk c.bExec).height ≤ (c.blk c'.bExec).height)
    (hhqc : c'.hqc.1 ∉ R) (hlock : c'.bLock ∉ R) (hb : c'.bExec ∉ R) (htail : c'.hqcTail ∉ R)
    (htails : ∀ t ∈ c'.tails, t ∉ R) (hwait : ∀ t ∈ c'.qcWaiting, t ∉ R) : CutOk env E R c' where
  subset := hok.subset
  delivered h hE := (congrArg Block.delivered (hblk h)).trans (hok.delivered h hE)
  decided h hE := (congrArg Block.decision (hblk h)).trans (hok.decided h hE)
  le_exec h hE := by
    rw [hblk, hblk]
    exact (hok.le_exec h hE).trans hexec
  parents x hx := by
    rw [hblk]
    exact hok.parents x hx
  qcRef x hx := by
    rw [hblk]
    exact hok.qcRef x hx
  held h hh := by
    rcases hh with rfl | rfl | rfl | rfl | rfl | hh | hh
    · exact hok.held _ (.inl rfl)
    · exact hhqc
    · exact hlock
    · exact hb
    · exact htail
    · exact htails h hh
    · exact hwait h hh

theorem emit (hok : CutOk env E R c) (e : Event K) : CutOk env E R (c.emit e) :=
  hok.of_blk (fun _ => rfl) le_rfl hok.hqc hok.bLock hok.bExec hok.hqcTail (fun _ => hok.tails)
    (fun _ => hok.qcWaiting)

/-! Raising. -/

section raising

/-- The scan of the tails comes to the same block, one of them or the first. -/
theorem scan (hok : CutOk env E R c) (hhqc : h ∉ R)
    (hfloor : (c.blk c.bExec).height ≤ (c.blk h).height) (l : List Uint256)
    (hl : ∀ t ∈ l, t ∉ R) (hb : b ∉ R) :
    l.foldl (fun best t => if (cut E R c).checkAncestry h t &&
        decide (((cut E R c).blk best).height < ((cut E R c).blk t).height) then t else best) b =
      l.foldl (fun best t => if c.checkAncestry h t &&
        decide ((c.blk best).height < (c.blk t).height) then t else best) b ∧
    l.foldl (fun best t => if c.checkAncestry h t &&
        decide ((c.blk best).height < (c.blk t).height) then t else best) b ∉ R := by
  induction l generalizing b with
  | nil => exact ⟨rfl, hb⟩
  | cons t l ih =>
      have ht : t ∉ R := hl t List.mem_cons_self
      rw [List.foldl_cons, List.foldl_cons, hok.checkAncestry hhqc hfloor ht, height_cut hb,
        height_cut ht]
      refine ih (fun x hx => hl x (List.mem_cons_of_mem _ hx)) ?_
      split
      · exact ht
      · exact hb

theorem updateHqc (hok : CutOk env E R c) (hlevel : (c.blk c.bExec).height ≤
    (c.blk c.hqc.1).height) (ht : t ∉ R) (qc : QuorumCert K) :
    (cut E R c).updateHqc t qc = cut E R (c.updateHqc t qc) ∧
      CutOk env E R (c.updateHqc t qc) := by
  unfold HotStuffCore.updateHqc
  rw [show (cut E R c).hqc = c.hqc from rfl, height_cut hok.hqc, height_cut ht]
  split
  swap
  · exact ⟨rfl, hok⟩
  rename_i hlt
  have hok' : CutOk env E R ({ c with hqc := (t, qc) } : HotStuffCore K) :=
    hok.of_blk (fun _ => rfl) le_rfl ht hok.bLock hok.bExec hok.hqcTail (fun _ => hok.tails)
      (fun _ => hok.qcWaiting)
  obtain ⟨hsame, hmem⟩ := hok'.scan ht (hlevel.trans hlt.le) c.tails (fun _ => hok.tails) ht
  refine ⟨?_, hok'.of_blk (fun _ => rfl) le_rfl ht hok.bLock hok.bExec hmem (fun _ => hok.tails)
    (fun _ => hok.qcWaiting)⟩
  unfold HotStuffCore.onHqcUpdate
  exact congrArg (fun b => ({ cut E R (({ c with hqc := (t, qc) } : HotStuffCore K).emit
    (.hqcUpdate t)) with hqcTail := b } : HotStuffCore K)) hsame

theorem raiseLock (hok : CutOk env E R c) (hp : p ∉ R) :
    (cut E R c).raiseLock p = cut E R (c.raiseLock p) ∧ CutOk env E R (c.raiseLock p) := by
  unfold HotStuffCore.raiseLock
  rw [show (cut E R c).bLock = c.bLock from rfl, height_cut hok.bLock, height_cut hp]
  split
  · exact ⟨rfl, hok.of_blk (fun _ => rfl) le_rfl hok.hqc hp hok.bExec hok.hqcTail
      (fun _ => hok.tails) (fun _ => hok.qcWaiting)⟩
  · exact ⟨rfl, hok⟩

end raising

/-! What `update` reads. -/

section reads

theorem certified (hok : CutOk env E R c) (hn : n ∉ E) :
    certified (cut E R c) n = certified c n := by
  unfold Stages.certified
  rw [hok.blk_eq hn]
  cases hq : (c.blk n).qcRef with
  | none => rfl
  | some t => rw [Option.filter_some, Option.filter_some, decision_cut (hok.qcRef n hn t hq)]

theorem direct (hok : CutOk env E R c) (hn : n ∉ E) : direct (cut E R c) n = direct c n := by
  unfold Stages.direct
  rw [hok.certified hn, hok.blk_eq hn]

/-- What a block that is not emptied certifies and is not decided is not emptied either. -/
theorem not_mem_of_certified (hok : CutOk env E R c) (hc : Stages.certified c n = some t) :
    t ∉ E :=
  hok.not_mem_of_undecided (certified_eq_some.mp hc).2

theorem not_mem_of_direct (hok : CutOk env E R c) (hc : Stages.direct c n = some t) : t ∉ E :=
  hok.not_mem_of_undecided (direct_eq_some.mp hc).2.1

theorem bind_certified (hok : CutOk env E R c) {f g : Uint256 → Option Uint256}
    (hfg : ∀ t, t ∉ E → f t = g t) (hn : n ∉ E) :
    (Stages.certified (cut E R c) n).bind f = (Stages.certified c n).bind g := by
  rw [hok.certified hn]
  cases hc : Stages.certified c n with
  | none => rfl
  | some t => exact hfg t (hok.not_mem_of_certified hc)

theorem lockable (hok : CutOk env E R c) (hn : n ∉ E) :
    lockable env (cut E R c) n = lockable env c n := by
  unfold Stages.lockable
  split
  · exact hok.certified hn
  · exact hok.bind_certified (fun _ => hok.certified) hn

theorem target (hok : CutOk env E R c) (hn : n ∉ E) :
    target env (cut E R c) n = target env c n := by
  unfold Stages.target
  split
  · exact hok.bind_certified (fun _ => hok.direct) hn
  · rw [hok.bind_certified (fun _ => hok.direct) hn]
    cases hd : (Stages.certified c n).bind (Stages.direct c) with
    | none => rfl
    | some p =>
        obtain ⟨t, _, hp⟩ := Option.bind_eq_some_iff.mp hd
        exact hok.direct (hok.not_mem_of_direct hp)

theorem not_mem_of_lockable (hok : CutOk env E R c) (hp : Stages.lockable env c n = some p) :
    p ∉ E := by
  unfold Stages.lockable at hp
  split at hp
  · exact hok.not_mem_of_certified hp
  · obtain ⟨t, _, hp⟩ := Option.bind_eq_some_iff.mp hp
    exact hok.not_mem_of_certified hp

theorem raised (hok : CutOk env E R c) (hlevel : (c.blk c.bExec).height ≤
    (c.blk c.hqc.1).height) (hn : n ∉ E) :
    raised env (cut E R c) n = cut E R (raised env c n) ∧ CutOk env E R (raised env c n) := by
  have hcert : (Stages.certified c n).elim (cut E R c)
      (fun t => (cut E R c).updateHqc t (c.blk n).data.qc) =
        cut E R ((Stages.certified c n).elim c (fun t => c.updateHqc t (c.blk n).data.qc)) ∧
      CutOk env E R ((Stages.certified c n).elim c
        (fun t => c.updateHqc t (c.blk n).data.qc)) := by
    cases hc : Stages.certified c n with
    | none => exact ⟨rfl, hok⟩
    | some t =>
        have ht : t ∉ R := fun hR => hok.not_mem_of_certified hc (hok.subset t hR)
        exact hok.updateHqc hlevel ht _
  unfold Stages.raised
  rw [hok.certified hn, hok.lockable hn, hok.blk_eq hn]
  cases hp : Stages.lockable env c n with
  | none => exact hcert
  | some p =>
      have hR : p ∉ R := fun hR => hok.not_mem_of_lockable hp (hok.subset p hR)
      dsimp only [Option.elim_some]
      rw [hcert.1]
      exact hcert.2.raiseLock hR

end reads

/-! Committing. -/

section committing

theorem commit (hok : CutOk env E R c) (hb : b ∉ R) :
    (cut E R c).commit b = cutResult E R (cut E R) (c.commit b) := by
  unfold HotStuffCore.commit
  rw [show (cut E R c).bExec = c.bExec from rfl, height_cut hok.bExec, hok.descend le_rfl hb]
  cases hdesc : c.descend (c.blk c.bExec).height b with
  | none => rfl
  | some r =>
      obtain ⟨queue, x⟩ := r
      dsimp only
      split
      · have hqueue : ∀ h ∈ queue.reverse, h ∉ R := fun h hh hR =>
          Nat.not_lt.mpr (hok.le_exec h (hok.subset h hR))
            (walk_high hdesc h (List.mem_reverse.mp hh))
        rw [commitAll_cut E queue.reverse c hqueue]
        rfl
      · rfl

theorem of_commit (hok : CutOk env E R c) (hb : b ∉ R) (hres : c.commit b = .ok c') :
    CutOk env E R c' := by
  obtain ⟨queue, hdesc, rfl⟩ := commit_ok hres
  have hle : (c.blk c.bExec).height ≤ (c.blk b).height := by
    rcases Nat.le_total (c.blk c.bExec).height (c.blk b).height with hle | hle
    · exact hle
    · unfold HotStuffCore.descend HotStuffCore.walk at hdesc
      rw [if_pos hle] at hdesc
      cases hdesc
      exact le_rfl
  have hdec := decides_commitAll queue.reverse c
  have hregs := registers_commitAll c queue.reverse
  generalize queue.reverse.foldl HotStuffCore.commitBlk c = d at hdec hregs
  have hhqc : d.hqc = c.hqc := congrArg Registers.hqc hregs
  have hlock : d.bLock = c.bLock := congrArg Registers.bLock hregs
  have htail : d.hqcTail = c.hqcTail := congrArg Registers.hqcTail hregs
  have htails : d.tails = c.tails := congrArg Registers.tails hregs
  have hwait : d.qcWaiting = c.qcWaiting := congrArg Registers.qcWaiting hregs
  refine ⟨hok.subset, fun h hE => ?_, fun h hE => hdec.decision h (hok.decided h hE),
    fun h hE => ?_, fun x hx => ?_, fun x hx => ?_, fun h hh => ?_⟩
  · exact (congrArg Tree.Node.delivered (hdec.node_eq h)).trans (hok.delivered h hE)
  · show (d.blk h).height ≤ (d.blk b).height
    rw [hdec.height, hdec.height]
    exact (hok.le_exec h hE).trans hle
  · show ∀ p ∈ (d.blk x).parents, p ∉ R
    rw [hdec.parents]
    exact hok.parents x hx
  · show ∀ t, (d.blk x).qcRef = some t → t ∉ R
    rw [hdec.qcRef]
    exact hok.qcRef x hx
  · rcases hh with rfl | rfl | rfl | rfl | rfl | hh | hh
    · exact hok.held _ (.inl rfl)
    · show d.hqc.1 ∉ R
      rw [hhqc]
      exact hok.hqc
    · show d.bLock ∉ R
      rw [hlock]
      exact hok.bLock
    · exact hb
    · show d.hqcTail ∉ R
      rw [htail]
      exact hok.hqcTail
    · exact hok.tails (htails ▸ hh)
    · exact hok.qcWaiting (hwait ▸ hh)

theorem not_mem_of_target (hok : CutOk env E R c) (hb : Stages.target env c n = some b) :
    b ∉ E :=
  hok.not_mem_of_undecided (undecided_of_target hb)

theorem update (hok : CutOk env E R c) (hlevel : (c.blk c.bExec).height ≤
    (c.blk c.hqc.1).height) (hn : n ∉ E) :
    (cut E R c).update env n = cutResult E R (cut E R) (c.update env n) ∧
      ∀ c', c.update env n = .ok c' → CutOk env E R c' := by
  obtain ⟨hraised, hok'⟩ := hok.raised hlevel hn
  rw [update_eq, update_eq, hok.target hn, hraised]
  cases hb : Stages.target env c n with
  | none =>
      refine ⟨rfl, fun c' hres => ?_⟩
      cases hres
      exact hok'
  | some b =>
      have hR : b ∉ R := fun hR => hok.not_mem_of_target hb (hok.subset b hR)
      exact ⟨hok'.commit hR, fun c' hres => hok'.of_commit hR hres⟩

end committing

/-! Proposals received. -/

section receiving

variable {prop : Proposal}

theorem qcAboveLock (hok : CutOk env E R c) (hh : h ∉ E) :
    (cut E R c).qcAboveLock h = c.qcAboveLock h := by
  unfold HotStuffCore.qcAboveLock
  rw [hok.blk_eq hh, show (cut E R c).bLock = c.bLock from rfl, height_cut hok.bLock]
  cases hq : (c.blk h).qcRef with
  | none => rfl
  | some q =>
      rw [Option.any_some, Option.any_some, height_cut (hok.qcRef h hh q hq)]

theorem accept (hok : CutOk env E R c) (hh : h ∉ R) :
    (cut E R c).accept h = cut E R (c.accept h) ∧ CutOk env E R (c.accept h) := by
  refine ⟨?_, hok.of_blk (fun _ => rfl) le_rfl hok.hqc hok.bLock hok.bExec hok.hqcTail
    (fun _ => hok.tails) (fun _ => hok.qcWaiting)⟩
  unfold HotStuffCore.accept
  rw [height_cut hh]
  rfl

theorem decideVote (hok : CutOk env E R c) (hlevel : (c.blk c.bExec).height ≤
    (c.blk c.bLock).height) (hh : h ∉ E) :
    (cut E R c).decideVote h =
        cutResult E R (fun r => (r.1, cut E R r.2)) (c.decideVote h) ∧
      ∀ opinion c', c.decideVote h = .ok (opinion, c') → CutOk env E R c' := by
  have hR : h ∉ R := fun hR => hh (hok.subset h hR)
  have haccept := hok.accept hR
  refine ⟨?_, fun opinion c' hres => ?_⟩
  · unfold HotStuffCore.decideVote
    rw [height_cut hR, show (cut E R c).vheight = c.vheight from rfl, hok.qcAboveLock hh,
      show (cut E R c).bLock = c.bLock from rfl, height_cut hok.bLock, hok.descend hlevel hR,
      haccept.1]
    split
    · rfl
    split
    · rfl
    cases c.descend (c.blk c.bLock).height h with
    | none => rfl
    | some r =>
        dsimp only
        split <;> rfl
  · rcases decideVote_cases hres with rfl | ⟨rfl, _⟩
    · exact hok
    · exact haccept.2

theorem onQcFinish (hok : CutOk env E R c) (h : Uint256) :
    (cut E R c).onQcFinish h = ((c.onQcFinish h).1, cut E R (c.onQcFinish h).2) ∧
      CutOk env E R (c.onQcFinish h).2 := by
  unfold HotStuffCore.onQcFinish
  rw [show (cut E R c).qcWaiting = c.qcWaiting from rfl]
  split
  · exact ⟨rfl, hok.of_blk (fun _ => rfl) le_rfl hok.hqc hok.bLock hok.bExec hok.hqcTail
      (fun _ => hok.tails) (fun _ ht => hok.qcWaiting (Finset.mem_of_mem_erase ht))⟩
  · exact ⟨rfl, hok⟩

theorem onReceiveProposal (hok : CutOk env E R c) (hlevel : LevelOk c) (htree : TreeOk env c)
    (hh : prop.blk ∉ E) :
    (cut E R c).onReceiveProposal env prop =
        cutResult E R (fun r => (r.1, r.2.1, cut E R r.2.2)) (c.onReceiveProposal env prop) ∧
      ∀ opinion woken c', c.onReceiveProposal env prop = .ok (opinion, woken, c') →
        CutOk env E R c' := by
  have hR : prop.blk ∉ R := fun hR => hh (hok.subset _ hR)
  obtain ⟨hupdate, hkept⟩ := hok.update hlevel.exec_le hh
  unfold HotStuffCore.onReceiveProposal
  rw [delivered_cut hR, hupdate]
  split
  swap
  · exact ⟨rfl, fun _ _ _ hres => by cases hres⟩
  cases hup : c.update env prop.blk with
  | error x => exact ⟨rfl, fun _ _ _ hres => by cases hres⟩
  | ok c₁ =>
  have hok₁ := hkept c₁ hup
  obtain ⟨hvote, hkept₁⟩ := hok₁.decideVote (hlevel.update htree hup).exec_le_lock hh
  simp only [bind, Except.bind, cutResult]
  rw [hvote]
  cases hdec : c₁.decideVote prop.blk with
  | error x => exact ⟨rfl, fun _ _ _ hres => by cases hres⟩
  | ok r =>
  obtain ⟨opinion, c₂⟩ := r
  have hok₂ := hkept₁ opinion c₂ hdec
  simp only [cutResult]
  rw [hok₂.blk_eq hh]
  cases (c₂.blk prop.blk).qcRef with
  | none =>
      refine ⟨rfl, fun _ _ _ hres => ?_⟩
      cases hres
      exact hok₂
  | some q =>
      obtain ⟨hfin, hok₃⟩ := hok₂.onQcFinish q
      dsimp only
      rw [hfin]
      refine ⟨rfl, fun _ _ c' hres => ?_⟩
      have hlast : (c₂.onQcFinish q).2 = c' :=
        congrArg (fun r : Bool × Bool × HotStuffCore K => r.2.2) (Except.ok.inj hres)
      rw [← hlast]
      exact hok₃

theorem noteProposal (hok : CutOk env E R c) (hlevel : LevelOk c) (hh : h ∉ R) :
    (cut E R c).noteProposal h = cut E R (c.noteProposal h) ∧
      CutOk env E R (c.noteProposal h) := by
  unfold HotStuffCore.noteProposal
  rw [show (cut E R c).hqc = c.hqc from rfl, show (cut E R c).hqcTail = c.hqcTail from rfl,
    hok.checkAncestry hok.hqc hlevel.exec_le hh, height_cut hok.hqcTail, height_cut hh]
  split
  · exact ⟨rfl, hok.of_blk (fun _ => rfl) le_rfl hok.hqc hok.bLock hok.bExec hh
      (fun _ => hok.tails) (fun _ => hok.qcWaiting)⟩
  · exact ⟨rfl, hok⟩

theorem castVote (hok : CutOk env E R c) (prop : Proposal) (opinion : Bool) :
    (cut E R c).castVote prop opinion = cut E R (c.castVote prop opinion) ∧
      CutOk env E R (c.castVote prop opinion) := by
  unfold HotStuffCore.castVote
  rw [show (cut E R c).voteDisabled = c.voteDisabled from rfl]
  split
  · exact ⟨rfl, hok.of_blk (fun _ => rfl) le_rfl hok.hqc hok.bLock hok.bExec hok.hqcTail
      (fun _ => hok.tails) (fun _ => hok.qcWaiting)⟩
  · exact ⟨rfl, hok⟩

theorem asyncQcFinish (hok : CutOk env E R c) (hh : h ∉ R) :
    (cut E R c).asyncQcFinish h = cut E R (c.asyncQcFinish h) ∧
      CutOk env E R (c.asyncQcFinish h) := by
  unfold HotStuffCore.asyncQcFinish
  rw [show (cut E R c).config = c.config from rfl, field_cut Block.voted (fun _ => rfl) hh]
  split
  · exact ⟨rfl, hok⟩
  · refine ⟨rfl, hok.of_blk (fun _ => rfl) le_rfl hok.hqc hok.bLock hok.bExec hok.hqcTail
      (fun _ => hok.tails) (fun t ht => ?_)⟩
    rcases Finset.mem_insert.mp ht with rfl | ht
    · exact hh
    · exact hok.qcWaiting ht

end receiving

/-! Votes. -/

section voting

variable {vote : Vote K}

theorem of_modifyBlk (hok : CutOk env E R c) {f : Block K → Block K}
    (hnode : ∀ b, node (f b) = node b) (hdec : ∀ b, (f b).decision = b.decision) (h : Uint256) :
    CutOk env E R (c.modifyBlk h f) := by
  have hfield : ∀ x, node ((c.modifyBlk h f).blk x) = node (c.blk x) :=
    fun x => c.field_modifyBlk node h x hnode
  have hheight : ∀ x, ((c.modifyBlk h f).blk x).height = (c.blk x).height :=
    fun x => congrArg Tree.Node.height (hfield x)
  refine ⟨hok.subset, fun x hE => ?_, fun x hE => ?_, fun x hE => ?_, fun x hx => ?_,
    fun x hx => ?_, hok.held⟩
  · exact (congrArg Tree.Node.delivered (hfield x)).trans (hok.delivered x hE)
  · exact (c.field_modifyBlk Block.decision h x hdec).trans (hok.decided x hE)
  · rw [hheight, hheight]
    exact hok.le_exec x hE
  · rw [show ((c.modifyBlk h f).blk x).parents = (c.blk x).parents from
      congrArg Tree.Node.parents (hfield x)]
    exact hok.parents x hx
  · rw [show ((c.modifyBlk h f).blk x).qcRef = (c.blk x).qcRef from
      congrArg Tree.Node.qcRef (hfield x)]
    exact hok.qcRef x hx

theorem counted (hok : CutOk env E R c) (vote : Vote K) (qc : QuorumCert K) :
    CutOk env E R (Levels.counted c vote qc) := by
  refine hok.of_modifyBlk ?_ ?_ vote.blkHash
  · exact fun _ => rfl
  · exact fun _ => rfl

theorem onReceiveVote (hok : CutOk env E R c) (hlevel : LevelOk c) (hh : vote.blkHash ∉ R) :
    (cut E R c).onReceiveVote vote =
        cutResult E R (fun r => (r.1, cut E R r.2)) (c.onReceiveVote vote) ∧
      ∀ woken c', c.onReceiveVote vote = .ok (woken, c') → CutOk env E R c' := by
  unfold HotStuffCore.onReceiveVote
  rw [delivered_cut hh, field_cut Block.voted (fun _ => rfl) hh,
    field_cut Block.selfQc (fun _ => rfl) hh, show (cut E R c).config = c.config from rfl]
  split
  swap
  · exact ⟨rfl, fun _ _ hres => by cases hres⟩
  dsimp only
  split
  · refine ⟨rfl, fun _ _ hres => ?_⟩
    cases hres
    exact hok
  split
  · refine ⟨rfl, fun _ _ hres => ?_⟩
    cases hres
    exact hok
  rw [modifyBlk_cut]
  swap
  · exact fun _ _ => rfl
  cases ((c.blk vote.blkHash).selfQc.getD (QuorumCert.create c.config vote.blkHash)).addPart
      vote.voter vote.cert with
  | error e => exact ⟨rfl, fun _ _ hres => by cases hres⟩
  | ok qc =>
  dsimp only
  rw [modifyBlk_cut]
  swap
  · exact fun _ _ => rfl
  rw [HotStuffCore.modifyBlk_modifyBlk]
  have hcount := (hok.counted vote qc).emit (.quorum vote.blkHash qc)
  split
  swap
  · refine ⟨rfl, fun _ _ hres => ?_⟩
    cases hres
    exact hok.counted vote qc
  have hle : ((Levels.counted c vote qc).blk c.bExec).height ≤
      ((Levels.counted c vote qc).blk c.hqc.1).height := by
    rw [height_counted, height_counted]
    exact hlevel.exec_le
  obtain ⟨hraise, hok₁⟩ := hcount.updateHqc hle hh qc
  obtain ⟨hfin, hok₂⟩ := hok₁.onQcFinish vote.blkHash
  refine ⟨?_, fun _ c' hres => ?_⟩
  · show Except.ok (HotStuffCore.onQcFinish (HotStuffCore.updateHqc (cut E R
      ((Levels.counted c vote qc).emit (.quorum vote.blkHash qc))) vote.blkHash qc) _) = _
    rw [hraise, hfin]
    rfl
  · have hlast : ((((Levels.counted c vote qc).emit (.quorum vote.blkHash qc)).updateHqc
        vote.blkHash qc).onQcFinish vote.blkHash).2 = c' :=
      congrArg Prod.snd (Except.ok.inj hres)
    rw [← hlast]
    exact hok₂

end voting

/-! Blocks that arrive. -/

section arriving

variable {data : BlockData K}

theorem addBlk (hok : CutOk env E R c) (hexec : (c.blk c.bExec).delivered = true)
    (hs : c.storage h = none)
    {k : Block K} (hparents : ∀ p ∈ k.parents, p ∉ R) (hqcRef : ∀ t, k.qcRef = some t → t ∉ R) :
    (cut E R c).addBlk h k = cut E R (c.addBlk h k) ∧ CutOk env E R (c.addBlk h k) := by
  have hnew : ∀ x, (c.blk x).delivered = true → x ≠ h := by
    rintro x hd rfl
    have hsome := isSome_of_delivered hd
    rw [hs] at hsome
    cases hsome
  have hE : h ∉ E := fun hE => hnew h (hok.delivered h hE) rfl
  have hR : h ∉ R := fun hR => hE (hok.subset h hR)
  have hnone : (cut E R c).storage h = none := by
    rw [storage_cut, if_neg hR, if_neg hE, hs]
  have hblk := c.blk_addBlk_of_none hs k
  have hregs := registers_addBlk c h k
  have hsame : ∀ x, (c.blk x).delivered = true → (c.addBlk h k).blk x = c.blk x :=
    fun x hd => by rw [hblk, if_neg (hnew x hd)]
  have hbExec : (c.addBlk h k).bExec = c.bExec := congrArg Registers.bExec hregs
  refine ⟨?_, hok.subset, fun x hx => ?_, fun x hx => ?_, fun x hx => ?_, fun x hx => ?_,
    fun x hx => ?_, fun x hx => ?_⟩
  · have hstorage : ((cut E R c).addBlk h k).storage = (cut E R (c.addBlk h k)).storage := by
      funext x
      rw [HotStuffCore.storage_addBlk_of_none _ hnone, storage_cut, storage_cut,
        c.storage_addBlk_of_none hs]
      by_cases hx : x = h
      · rw [if_pos hx, if_pos hx, hx, if_neg hR, if_neg hE]
      · rw [if_neg hx, if_neg hx]
    unfold HotStuffCore.addBlk at hstorage ⊢
    rw [hnone, hs] at hstorage ⊢
    exact congrArg (fun s => { c with storage := s }) hstorage
  · rw [hsame x (hok.delivered x hx)]
    exact hok.delivered x hx
  · rw [hsame x (hok.delivered x hx)]
    exact hok.decided x hx
  · rw [hbExec, hsame x (hok.delivered x hx), hsame _ hexec]
    exact hok.le_exec x hx
  · rw [hblk]
    split
    · exact hparents
    · exact hok.parents x hx
  · rw [hblk]
    split
    · exact hqcRef
    · exact hok.qcRef x hx
  · refine hok.held x ?_
    unfold HotStuffCore.addBlk at hx
    rw [hs] at hx
    exact hx

theorem fetch (hok : CutOk env E R c) (hexec : (c.blk c.bExec).delivered = true)
    (hh : env.getHash data ∉ R) :
    (cut E R c).addBlk (env.getHash data) (.fetched data) =
        cut E R (c.addBlk (env.getHash data) (.fetched data)) ∧
      CutOk env E R (c.addBlk (env.getHash data) (.fetched data)) := by
  cases hs : c.storage (env.getHash data) with
  | some b =>
      have hsome : (c.storage (env.getHash data)).isSome := by rw [hs]; rfl
      rw [c.addBlk_of_isSome hsome,
        (cut E R c).addBlk_of_isSome (by rw [isSome_cut hh]; exact hsome)]
      exact ⟨rfl, hok⟩
  | none => exact hok.addBlk hexec hs nofun nofun

theorem onDeliverBlk (hok : CutOk env E R c) (hh : h ∉ R) (hnames : Names R c h) :
    (cut E R c).onDeliverBlk env h =
      cutResult E R (fun r => (r.1, cut E R r.2)) (c.onDeliverBlk env h) := by
  unfold HotStuffCore.onDeliverBlk
  rw [delivered_cut hh]
  split
  · rfl
  rename_i hd
  have hE : h ∉ E := fun hE => hd (hok.delivered h hE)
  rw [hok.blk_eq hE, isSome_cut hnames.2]
  have htake := takeWhile_eq (f := fun p => ((cut E R c).blk p).delivered)
    (g := fun p => (c.blk p).delivered) (fun p hp => delivered_cut (hnames.1 p hp))
  dsimp only
  rw [htake]
  have hmod : ∀ f : Block K → Block K,
      (cut E R c).modifyBlk h f = cut E R (c.modifyBlk h f) :=
    fun f => modifyBlk_cut (fun hE' => absurd hE' hE)
  simp only [hmod]
  split
  · rfl
  cases htaken : (c.blk h).data.parentHashes.takeWhile (fun p => (c.blk p).delivered) with
  | nil => rfl
  | cons p ps =>
      have hp : p ∈ (c.blk h).data.parentHashes :=
        (List.takeWhile_sublist _).subset (htaken ▸ List.mem_cons_self)
      dsimp only
      rw [height_cut (hnames.1 p hp)]
      split <;> rfl

theorem of_deliver {woken : Bool} (hok : CutOk env E R c)
    (hexec : (c.blk c.bExec).delivered = true) (hh : h ∉ R) (hnames : Names R c h)
    (hs : (c.storage h).isSome)
    (hres : c.onDeliverBlk env h = .ok (woken, c')) : CutOk env E R c' := by
  have hspec := onDeliverBlk_spec env hs
  rw [hres] at hspec
  rcases hspec with ⟨_, rfl⟩ | ⟨hallow, rfl⟩
  · exact hok
  have hg := grows_apply hallow
  have hblk : ∀ x, x ≠ h → (deliverBlk env c h).blk x = c.blk x := fun x => blk_deliverBlk_ne
  have hself := blk_deliverBlk_self env hs
  refine hok.of_grows hg (fun x hx => ?_) (hg.height hexec).ge (fun x hx => ?_)
    (fun x hx => ?_) hok.hqc hok.bLock hok.bExec hok.hqcTail (fun t ht => ?_)
    (fun _ => hok.qcWaiting)
  · rw [decision_apply hallow nofun]
    exact hx
  · show ∀ p ∈ ((deliverBlk env c h).blk x).parents, p ∉ R
    by_cases heq : x = h
    · rw [heq, hself]
      exact hnames.1
    · rw [hblk x heq]
      exact hok.parents x hx
  · show ∀ t, ((deliverBlk env c h).blk x).qcRef = some t → t ∉ R
    by_cases heq : x = h
    · rw [heq, hself]
      exact fun t ht => Option.some.inj ht ▸ hnames.2
    · rw [hblk x heq]
      exact hok.qcRef x hx
  · rcases (HotStuffCore.mem_tails_insertTail _).mp ht with rfl | ht
    · exact hh
    · exact hok.tails ((HotStuffCore.mem_tails_eraseTails _).mp ht).1

end arriving

/-! Proposing. -/

section proposing

variable {data : BlockData K}

theorem eraseTails (hok : CutOk env E R c) (hs : List Uint256) :
    (cut E R c).eraseTails hs = cut E R (c.eraseTails hs) ∧ CutOk env E R (c.eraseTails hs) :=
  ⟨rfl, hok.of_blk (fun _ => rfl) le_rfl hok.hqc hok.bLock hok.bExec hok.hqcTail
    (fun _ ht => hok.tails ((c.mem_tails_eraseTails).mp ht).1) (fun _ => hok.qcWaiting)⟩

theorem addNew (hok : CutOk env E R c) (hexec : (c.blk c.bExec).delivered = true) (hh : h ∉ R)
    (hparents : ∀ p ∈ data.parentHashes, p ∉ R) :
    (cut E R c).addNew h data = cut E R (c.addNew h data) ∧ CutOk env E R (c.addNew h data) := by
  unfold HotStuffCore.addNew
  rw [isSome_cut hh]
  split
  · exact ⟨rfl, hok⟩
  rename_i hnone
  rw [Option.not_isSome_iff_eq_none] at hnone
  have hheight : data.parentHashes.head?.elim 0 (fun p => ((cut E R c).blk p).height) =
      data.parentHashes.head?.elim 0 (fun p => (c.blk p).height) := by
    cases hp : data.parentHashes.head? with
    | none => rfl
    | some p => exact height_cut (hparents p (List.mem_of_head? hp))
  rw [hheight]
  obtain ⟨hadd, hok'⟩ := hok.addBlk hexec hnone
    (k := { data
            parents := data.parentHashes
            qcRef := some c.hqc.1
            selfQc := none
            height := (data.parentHashes.head?.elim 0 (fun p => (c.blk p).height)) + 1
            delivered := false
            decision := false
            voted := ∅ }) hparents (fun t ht => Option.some.inj ht ▸ hok.hqc)
  exact ⟨congrArg (fun u : HotStuffCore K => u.emit (.created h)) hadd, hok'.emit _⟩

theorem stage_ok (hok : CutOk env E R c) (hexec : (c.blk c.bExec).delivered = true)
    (hh : env.getHash data ∉ R) (hparents : ∀ p ∈ data.parentHashes, p ∉ R) :
    stage env (cut E R c) data = cut E R (stage env c data) ∧ CutOk env E R (stage env c data) := by
  obtain ⟨hadd, hok'⟩ := (hok.eraseTails data.parentHashes).2.addNew hexec hh hparents
  unfold stage
  rw [show (cut E R c).eraseTails data.parentHashes = cut E R (c.eraseTails data.parentHashes)
    from rfl, hadd, modifyBlk_cut]
  · refine ⟨rfl, hok'.of_modifyBlk ?_ ?_ (env.getHash data)⟩
    · exact fun _ => rfl
    · exact fun _ => rfl
  · exact fun _ _ => rfl

theorem build (hok : CutOk env E R c) (hlevel : LevelOk c) (htree : TreeOk env c)
    (hne : data.parentHashes ≠ []) (hdel : ∀ p ∈ data.parentHashes, (c.blk p).delivered = true)
    (hqc : data.qc = c.hqc.2) (hstored : (c.storage data.qc.objHash).isSome)
    (hcert : data.qc.objHash ∉ R) (hfresh : Fresh env E R c data) :
    (cut E R c).build env data = cutResult E R (cut E R) (c.build env data) ∧
      ∀ c', c.build env data = .ok c' → CutOk env E R c' := by
  have hR : env.getHash data ∉ R := fun hR => hfresh.fresh (hok.subset _ hR)
  obtain ⟨hstage, hokStage⟩ := hok.stage_ok hlevel.executed hR hfresh.parents
  obtain ⟨hnames, hs, hexec⟩ :=
    stage_names hlevel.executed hfresh.parents hcert hfresh.names
  have hdeliver := deliver_stage env hne hdel hqc hstored
  rw [build_eq, build_eq, hstage, hokStage.onDeliverBlk hR hnames]
  cases hres : (stage env c data).onDeliverBlk env (env.getHash data) with
  | error x => exact ⟨rfl, fun _ hbuilt => by cases hbuilt⟩
  | ok r =>
  obtain ⟨woken, d⟩ := r
  rw [hres] at hdeliver
  have hlevelD := hlevel.inserted (grows_of_trail hdeliver.1) (inserted_of_deliver htree hres)
  exact (hokStage.of_deliver hexec hR hnames hs hres).update hlevelD.exec_le hfresh.fresh

theorem onPropose {cmds parents : List Uint256} {extra : List UInt8} (hok : CutOk env E R c)
    (hlevel : LevelOk c) (htree : TreeOk env c)
    (hdel : ∀ p ∈ parents, (c.blk p).delivered = true)
    (hcerts : CertsOk c) (hfresh : Fresh env E R c (c.newData cmds parents extra)) :
    (cut E R c).onPropose env cmds parents extra =
        cutResult E R (fun r => (r.1, cut E R r.2)) (c.onPropose env cmds parents extra) ∧
      ∀ woken c', c.onPropose env cmds parents extra = .ok (woken, c') → CutOk env E R c' := by
  have hR : env.getHash (c.newData cmds parents extra) ∉ R :=
    fun hR => hfresh.fresh (hok.subset _ hR)
  unfold HotStuffCore.onPropose
  split
  · exact ⟨rfl, fun _ _ hres => by cases hres⟩
  rename_i hempty
  have hne : parents ≠ [] := fun hnil => hempty (by rw [hnil]; rfl)
  have hstored : (c.storage c.hqc.2.objHash).isSome := by
    rw [hcerts.hqc_hash]
    exact hcerts.hqc_stored
  have hcert : c.hqc.2.objHash ∉ R := by
    rw [hcerts.hqc_hash]
    exact hok.hqc
  obtain ⟨hbuild, hkept⟩ := hok.build hlevel htree hne hdel rfl hstored hcert hfresh
  simp only [bind, Except.bind]
  rw [show (cut E R c).newData cmds parents extra = c.newData cmds parents extra from rfl, hbuild]
  cases hres : c.build env (c.newData cmds parents extra) with
  | error x => exact ⟨rfl, fun _ _ hres => by cases hres⟩
  | ok u =>
  obtain ⟨d, htrail, hins, hup⟩ := build_parts hne hdel rfl hstored htree hres
  have htreeD : TreeOk env d := Trail.invariant htrail htree (fun _ _ _ hinv he => hinv.apply he)
  have hlevelU : LevelOk u := (hlevel.inserted (grows_of_trail htrail) hins).update htreeD hup
  have hokU := hkept u hres
  simp only [cutResult]
  rw [height_cut hR, show (cut E R u).vheight = u.vheight from rfl]
  split
  · exact ⟨rfl, fun _ _ hres => by cases hres⟩
  obtain ⟨haccept, hokA⟩ := hokU.accept hR
  have hlevelA : LevelOk ((u.accept (env.getHash (c.newData cmds parents extra))).emit
      (.partCert (env.getHash (c.newData cmds parents extra)))) :=
    hlevelU.congr (fun _ => rfl) rfl rfl rfl rfl
  rw [haccept]
  exact (hokA.emit (.partCert (env.getHash (c.newData cmds parents extra)))).onReceiveVote
    hlevelA hR

end proposing

end CutOk

/-! The steps of a replica. -/

section steps

variable {r r' : Replica K} {i : Input K}

/-- The block a call under way keeps a reference to. -/
def frameBlk : Frame → Uint256
  | .proposed h => h
  | .announced h => h
  | .received prop _ => prop.blk

def cutReplica (E R : Finset Uint256) (r : Replica K) : Replica K := ⟨cut E R r.core, r.stack⟩

/-- The replica with what its calls hold on to. -/
structure ReplicaCut (env : Env K) (E R : Finset Uint256) (r : Replica K) : Prop where
  core : CutOk env E R r.core
  frames : ∀ f ∈ r.stack, frameBlk f ∉ R

/-- The input names no block that is gone, and is no proposal of an emptied block. -/
def Spares (env : Env K) (E R : Finset Uint256) (r : Replica K) : Input K → Prop
  | .fetch data => env.getHash data ∉ R
  | .deliver h => h ∉ R ∧ Names R r.core h
  | .propose cmds parents extra => Fresh env E R r.core (r.core.newData cmds parents extra)
  | .receiveProposal prop => prop.blk ∉ E
  | .receiveVote vote => vote.blkHash ∉ R
  | .wait h => h ∉ R
  | .resume => True

theorem throw_cut (x : Exn × HotStuffCore K) :
    Replica.throw (x.1, cut E R x.2) = (Replica.throw x).map (cutReplica E R) := by
  unfold Replica.throw
  split <;> rfl

theorem finishReceive_cut {prop : Proposal} (hok : CutOk env E R c) (hlevel : LevelOk c)
    (hh : prop.blk ∉ R) (opinion : Bool) (stack : List Frame) :
    Replica.finishReceive (cut E R c) prop opinion stack =
        cutReplica E R (Replica.finishReceive c prop opinion stack) ∧
      CutOk env E R (Replica.finishReceive c prop opinion stack).core := by
  obtain ⟨hnote, hok₁⟩ := hok.noteProposal hlevel hh
  obtain ⟨hcast, hok₂⟩ := hok₁.castVote prop opinion
  unfold Replica.finishReceive
  rw [hnote, hcast]
  exact ⟨rfl, hok₂⟩

theorem announce_cut (hok : CutOk env E R c) (hh : h ∉ R) :
    CutOk env E R (c.announce h) :=
  hok.of_blk (fun _ => rfl) le_rfl hok.hqc hok.bLock hok.bExec hh (fun _ => hok.tails)
    (fun _ => hok.qcWaiting)

theorem step_cut (hcut : ReplicaCut env E R r) (hlevel : LevelOk r.core) (hok : ReplicaOk env r)
    (hspares : Spares env E R r i) :
    (cutReplica E R r).step env i = (r.step env i).map (cutReplica E R) := by
  obtain ⟨hcore, hframes⟩ := hcut
  cases i with
  | fetch data =>
      simp only [Replica.step]
      rw [show (cutReplica E R r).stack = r.stack from rfl]
      split
      · rw [show (cutReplica E R r).core = cut E R r.core from rfl,
          (hcore.fetch hlevel.executed hspares).1]
        rfl
      · rfl
  | deliver h =>
      simp only [Replica.step]
      rw [show (cutReplica E R r).stack = r.stack from rfl,
        show (cutReplica E R r).core = cut E R r.core from rfl, isSome_cut hspares.1,
        hcore.onDeliverBlk hspares.1 hspares.2]
      split
      · cases r.core.onDeliverBlk env h with
        | error x => exact throw_cut x
        | ok x => rfl
      · rfl
  | propose cmds parents extra =>
      simp only [Replica.step]
      rw [show (cutReplica E R r).core = cut E R r.core from rfl]
      have hall : parents.all (fun p => ((cut E R r.core).blk p).delivered) =
          parents.all (fun p => (r.core.blk p).delivered) := by
        rw [Bool.eq_iff_iff, List.all_eq_true, List.all_eq_true]
        refine forall₂_congr (fun p hp => ?_)
        rw [delivered_cut (hspares.parents p hp)]
      rw [hall]
      split
      · rename_i hdel
        rw [List.all_eq_true] at hdel
        rw [(hcore.onPropose hlevel hok.tree hdel hok.certs hspares).1]
        cases r.core.onPropose env cmds parents extra with
        | error x => exact throw_cut x
        | ok x =>
            obtain ⟨woken, c⟩ := x
            cases woken <;> rfl
      · rfl
  | receiveProposal prop =>
      simp only [Replica.step]
      rw [show (cutReplica E R r).stack = r.stack from rfl,
        show (cutReplica E R r).core = cut E R r.core from rfl,
        (hcore.onReceiveProposal hlevel hok.tree hspares).1]
      split
      · cases hres : r.core.onReceiveProposal env prop with
        | error x => exact throw_cut x
        | ok x =>
            obtain ⟨opinion, woken, c⟩ := x
            cases woken with
            | true => rfl
            | false =>
                have hokC := (hcore.onReceiveProposal hlevel hok.tree hspares).2 _ _ _ hres
                exact congrArg some (finishReceive_cut hokC (hlevel.receiveProposal hok.tree hres)
                  (fun hR => hspares (hcore.subset _ hR)) opinion []).1
      · rfl
  | receiveVote vote =>
      simp only [Replica.step]
      rw [show (cutReplica E R r).stack = r.stack from rfl,
        show (cutReplica E R r).core = cut E R r.core from rfl,
        (hcore.onReceiveVote hlevel hspares).1]
      split
      · cases r.core.onReceiveVote vote with
        | error x => exact throw_cut x
        | ok x => rfl
      · rfl
  | wait h =>
      simp only [Replica.step]
      rw [show (cutReplica E R r).core = cut E R r.core from rfl, (hcore.asyncQcFinish hspares).1]
      rfl
  | resume =>
      simp only [Replica.step]
      rw [show (cutReplica E R r).stack = r.stack from rfl]
      cases hstack : r.stack with
      | nil => rfl
      | cons f stack =>
          cases f with
          | proposed h => rfl
          | announced h => rfl
          | received prop opinion =>
              have hR := hframes (.received prop opinion) (by rw [hstack]; exact List.mem_cons_self)
              exact congrArg some (finishReceive_cut hcore hlevel hR opinion stack).1

theorem ReplicaCut.returns (hcut : ReplicaCut env E R r) (hlevel : LevelOk r.core)
    (hok : ReplicaOk env r) (hspares : Spares env E R r i) (hreturns : Returns env r i r') :
    ReplicaCut env E R r' := by
  obtain ⟨hcore, hframes⟩ := hcut
  cases hreturns with
  | fetch => exact ⟨(hcore.fetch hlevel.executed hspares).2, nofun⟩
  | deliver hs hres =>
      exact ⟨hcore.of_deliver hlevel.executed hspares.1 hspares.2 hs hres, nofun⟩
  | propose hdel hres =>
      rename_i cmds parents extra woken c
      have hokC := (hcore.onPropose hlevel hok.tree hdel hok.certs hspares).2 _ _ hres
      have hR : env.getHash (r.core.newData cmds parents extra) ∉ R :=
        fun hR => hspares.fresh (hcore.subset _ hR)
      cases woken with
      | true =>
          refine ⟨hokC, fun f hf => ?_⟩
          rcases List.mem_cons.mp hf with rfl | hf
          · exact hR
          · exact hframes f hf
      | false =>
          refine ⟨announce_cut hokC hR, fun f hf => ?_⟩
          rcases List.mem_cons.mp hf with rfl | hf
          · exact hR
          · exact hframes f hf
  | receiveProposal hres =>
      rename_i prop opinion woken c
      have hokC := (hcore.onReceiveProposal hlevel hok.tree hspares).2 _ _ _ hres
      have hR : prop.blk ∉ R := fun hR => hspares (hcore.subset _ hR)
      cases woken with
      | true =>
          refine ⟨hokC, fun f hf => ?_⟩
          rw [List.mem_singleton.mp hf]
          exact hR
      | false =>
          exact ⟨(finishReceive_cut hokC (hlevel.receiveProposal hok.tree hres) hR opinion []).2,
            nofun⟩
  | receiveVote hres => exact ⟨(hcore.onReceiveVote hlevel hspares).2 _ _ hres, nofun⟩
  | wait => exact ⟨(hcore.asyncQcFinish hspares).2, hframes⟩
  | resume hstep =>
      have hrest : ∀ {g : Frame} {stack : List Frame}, r.stack = g :: stack →
          frameBlk g ∉ R ∧ ∀ f ∈ stack, frameBlk f ∉ R := by
        intro g stack heq
        rw [heq] at hframes
        exact ⟨hframes g List.mem_cons_self,
          fun f hf => hframes f (List.mem_cons_of_mem _ hf)⟩
      rcases step_resume hstep with ⟨h, stack, heq, rfl⟩ | ⟨h, stack, heq, rfl⟩ |
        ⟨prop, opinion, stack, heq, rfl⟩
      · obtain ⟨hR, hstack⟩ := hrest heq
        refine ⟨announce_cut hcore hR, fun f hf => ?_⟩
        rcases List.mem_cons.mp hf with rfl | hf
        · exact hR
        · exact hstack f hf
      · exact ⟨hcore.emit _, (hrest heq).2⟩
      · obtain ⟨hR, hstack⟩ := hrest heq
        exact ⟨(finishReceive_cut hcore hlevel hR opinion stack).2, hstack⟩

end steps

end ArchipelagoHotStuff.Consensus.Pruned
