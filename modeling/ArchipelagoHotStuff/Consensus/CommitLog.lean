/- Module: ArchipelagoHotStuff/Consensus/CommitLog
   source: consensus.cpp (update)
   digest: The blocks a replica commits form the path from the genesis block to `b_exec`, and the
     decisions it reports are their commands in order. -/

import ArchipelagoHotStuff.Consensus.Machine

set_option autoImplicit false
set_option relaxedAutoImplicit false

namespace ArchipelagoHotStuff.Consensus.CommitLog

open Crypto.Wire Crypto.Certificates State Handlers Effects Consensus.Tree Ballots Trails Machine
open General.Transition General.ParentTree

variable {K : Secp256k1} {env : Env K} {c c' : HotStuffCore K} {e : Effect K}
  {h t x : Uint256} {k : Nat} {queue : List Uint256}

/-- The block an event passes to `do_consensus`. -/
def committedBy : Event K → Option Uint256
  | .consensus h => some h
  | _ => none

/-- `do_consensus` and `do_decide`. -/
def isOutput : Event K → Bool
  | .consensus _ => true
  | .decide _ => true
  | _ => false

/-- The blocks passed to `do_consensus`, in order. -/
def commits (c : HotStuffCore K) : List Uint256 := (c.trace.filterMap committedBy).reverse

/-- The calls of `do_consensus` and `do_decide`, in order. -/
def outputs (c : HotStuffCore K) : List (Event K) := (c.trace.filter isOutput).reverse

/-- The calls that go with the blocks of a log. -/
def reports (c : HotStuffCore K) (log : List Uint256) : List (Event K) :=
  log.flatMap (fun h => .consensus h :: c.finalities h)

/-! The effects on the log. -/

theorem isOutput_of_mem_commitEvents {a : Event K} (ha : a ∈ commitEvents c h) :
    isOutput a = true := by
  rcases mem_commitEvents ha with rfl | ⟨fin, rfl⟩ <;> rfl

theorem committedBy_commitEvents (c : HotStuffCore K) (h : Uint256) :
    (commitEvents c h).filterMap committedBy = [h] := by
  have hfin : (c.finalities h).reverse.filterMap committedBy = [] := by
    rw [List.filterMap_eq_nil_iff]
    intro a ha
    unfold HotStuffCore.finalities at ha
    rw [List.mem_reverse, List.mem_mapIdx] at ha
    obtain ⟨i, hi, rfl⟩ := ha
    rfl
  unfold commitEvents
  rw [List.filterMap_append, hfin]
  rfl

theorem newEvents_not_output (he : ∀ queue h, e ≠ .commit queue h) :
    ∀ a ∈ newEvents env c e, isOutput a = false := by
  intro a ha
  cases e with
  | commit queue h => exact absurd rfl (he queue h)
  | count vote own qc =>
      simp only [newEvents] at ha
      split at ha
      · rw [List.mem_singleton.mp ha]
        rfl
      · cases ha
  | create _ | raiseHqc _ _ | accept _ _ | acceptOwn _ _ _ | sign _ | announce _ | broadcast _
  | sendVote _ _ | throw _ =>
      rw [List.mem_singleton.mp ha]
      rfl
  | _ => cases ha

theorem outputs_apply (he : ∀ queue h, e ≠ .commit queue h) :
    outputs (apply env c e) = outputs c := by
  have hnone : (newEvents env c e).filter isOutput = [] := by
    rw [List.filter_eq_nil_iff]
    intro a ha
    simp [newEvents_not_output he a ha]
  unfold outputs
  rw [trace_eq, List.filter_append, hnone, List.nil_append]

theorem commits_apply (he : ∀ queue h, e ≠ .commit queue h) :
    commits (apply env c e) = commits c := by
  have hnone : (newEvents env c e).filterMap committedBy = [] := by
    rw [List.filterMap_eq_nil_iff]
    intro a ha
    have hout := newEvents_not_output he a ha
    cases a with
    | consensus h => cases hout
    | _ => rfl
  unfold commits
  rw [trace_eq, List.filterMap_append, hnone, List.nil_append]

theorem commits_commit : commits (apply env c (.commit queue h)) = commits c ++ queue.reverse := by
  have hnew : (newEvents env c (.commit queue h)).filterMap committedBy = queue := by
    show (queue.flatMap (commitEvents c)).filterMap committedBy = queue
    rw [List.filterMap_flatMap]
    simp only [committedBy_commitEvents]
    exact List.flatMap_singleton' queue
  unfold commits
  rw [trace_eq, List.filterMap_append, hnew, List.reverse_append]

theorem outputs_commit :
    outputs (apply env c (.commit queue h)) = outputs c ++ reports c queue.reverse := by
  have hnew : (newEvents env c (.commit queue h)).filter isOutput =
      queue.flatMap (commitEvents c) := by
    refine List.filter_eq_self.mpr ?_
    intro a ha
    obtain ⟨x, _, hx⟩ := List.mem_flatMap.mp ha
    exact isOutput_of_mem_commitEvents hx
  have hreverse : ∀ x, (commitEvents c x).reverse = .consensus x :: c.finalities x := by
    intro x
    simp [commitEvents]
  unfold outputs
  rw [trace_eq, List.filter_append, hnew, List.reverse_append, List.reverse_flatMap]
  unfold reports
  congr 1
  exact List.flatMap_congr (fun x _ => hreverse x)

/-! The effects on decisions. -/

theorem decision_apply (he : Allowed env c e) (hc : ∀ queue h, e ≠ .commit queue h)
    (x : Uint256) : ((apply env c e).blk x).decision = (c.blk x).decision := by
  cases e with
  | commit queue h => exact absurd rfl (hc queue h)
  | store data =>
      by_cases hx : x = env.getHash data
      · subst hx
        have hnew : (apply env c (.store data)).blk (env.getHash data) = .fetched data :=
          blk_store_self env he
        rw [hnew, c.blk_of_none he]
        rfl
      · exact congrArg Block.decision (blk_store_ne he hx)
  | create data =>
      by_cases hx : x = env.getHash data
      · subst hx
        have hnew : (apply env c (.create data)).blk (env.getHash data) = _ :=
          blk_createBlk_self env data
        rw [hnew, c.blk_of_none he.1]
        rfl
      · exact congrArg Block.decision (blk_createBlk_ne hx)
  | deliver h => exact c.field_modifyBlk Block.decision h x (fun _ => rfl)
  | spoil h _ _ => exact c.field_modifyBlk Block.decision h x (fun _ => rfl)
  | resetSelfQc h _ => exact c.field_modifyBlk Block.decision h x (fun _ => rfl)
  | miscount vote => exact c.field_modifyBlk Block.decision vote.blkHash x (fun _ => rfl)
  | count vote own qc =>
      show ((countVote c vote qc).blk x).decision = _
      unfold countVote
      dsimp only
      split <;> exact c.field_modifyBlk Block.decision vote.blkHash x (fun _ => rfl)
  | _ => rfl

theorem decision_commit (hall : ∀ b ∈ queue, (c.storage b).isSome) :
    ((apply env c (.commit queue h)).blk x).decision = true ↔
      (c.blk x).decision = true ∨ x ∈ queue := by
  have hdec : ((apply env c (.commit queue h)).blk x).decision = true ↔
      (c.blk x).decision = true ∨ (x ∈ queue.reverse ∧ (c.storage x).isSome) :=
    decision_commitAll queue.reverse
  rw [hdec, List.mem_reverse]
  constructor
  · rintro (hold | ⟨hmem, _⟩)
    · exact .inl hold
    · exact .inr hmem
  · rintro (hold | hmem)
    · exact .inl hold
    · exact .inr ⟨hmem, hall x hmem⟩

/-! Links. -/

theorem Linked.delivered (htree : TreeOk env c) (ht : (c.blk t).delivered = true)
    (hlink : Linked c k t h) : (c.blk h).delivered = true := by
  induction k generalizing t with
  | zero =>
      cases hlink
      exact ht
  | succ k ih =>
      obtain ⟨p, _, hp, hrest⟩ := hlink
      rw [← firstParent_eq ht] at hp
      exact ih (htree.delivered_firstParent hp).1 hrest

theorem chainLength_pos (env : Env K) : 0 < chainLength env := by
  unfold chainLength
  split <;> omega

theorem delivered_of_commitReady (htree : TreeOk env c) (hready : CommitReady env c h) :
    (c.blk h).delivered = true := by
  obtain ⟨n, t, p, _, _, _, hlink, _⟩ := hready.chain
  have hpos := chainLength_pos env
  obtain ⟨k, hk⟩ : ∃ k, chainLength env = k + 1 := ⟨chainLength env - 1, by omega⟩
  have ht : (c.blk t).delivered = true := by
    rw [hk] at hlink
    obtain ⟨q, hq, _⟩ := hlink
    exact htree.delivered_of_qcRef hq
  exact Linked.delivered htree ht hlink

/-! The log. -/

/-- The log leads from the genesis block to `b_exec`, it and the genesis block are what is
decided, and every command in it has been reported. -/
structure CommitOk (env : Env K) (c : HotStuffCore K) : Prop where
  path : RootPath (firstParent c) env.genesisHash (commits c)
  last : tip env.genesisHash (commits c) = c.bExec
  decided : ∀ h, (c.blk h).decision = true ↔ h = env.genesisHash ∨ h ∈ commits c
  reported : outputs c = reports c (commits c)

theorem CommitOk.delivered (hok : CommitOk env c) (hmem : h ∈ commits c) :
    (c.blk h).delivered = true := by
  obtain ⟨k, hdepth, _⟩ := hok.path.mem_depth hmem
  cases hdepth with
  | child hp _ => exact delivered_of_firstParent hp

theorem CommitOk.bExec_delivered (htree : TreeOk env c) (hok : CommitOk env c) :
    (c.blk c.bExec).delivered = true := by
  have hdepth := hok.path.depth_tip
  rw [hok.last] at hdepth
  generalize c.bExec = b, (commits c).length = n at hdepth ⊢
  cases hdepth with
  | root => exact htree.genesis.delivered
  | child hp _ => exact delivered_of_firstParent hp

theorem CommitOk.bExec_decided (hok : CommitOk env c) : (c.blk c.bExec).decision = true := by
  rw [hok.decided, ← hok.last]
  cases hlog : commits c with
  | nil => exact .inl rfl
  | cons x xs =>
      have hlast : tip env.genesisHash (x :: xs) = (x :: xs).getLast (List.cons_ne_nil x xs) :=
        List.getLast_cons (List.cons_ne_nil x xs)
      rw [hlast]
      exact .inr (List.getLast_mem _)

/-! What is decided is a chain that ends at `b_exec`. -/

section decided

variable {b p x : Uint256}

theorem CommitOk.extends_decided (hok : CommitOk env c) (hb : (c.blk b).decision = true) :
    Extends (firstParent c) c.bExec b := by
  rw [← hok.last]
  rcases (hok.decided b).mp hb with rfl | hmem
  · exact hok.path.tip_extends_root
  · exact hok.path.tip_extends hmem

theorem CommitOk.decided_of_extends (hok : CommitOk env c) (htree : TreeOk env c)
    (hb : Extends (firstParent c) c.bExec b) : (c.blk b).decision = true := by
  rw [← hok.last] at hb
  exact (hok.decided b).mpr (hok.path.mem_of_extends htree.firstParent_genesis hb)

theorem CommitOk.delivered_of_decided (hok : CommitOk env c) (htree : TreeOk env c)
    (hb : (c.blk b).decision = true) : (c.blk b).delivered = true := by
  rcases (hok.decided b).mp hb with rfl | hmem
  · exact htree.genesis.delivered
  · exact hok.delivered hmem

theorem CommitOk.height_le_of_decided (hok : CommitOk env c) (htree : TreeOk env c)
    (hb : (c.blk b).decision = true) : (c.blk b).height ≤ (c.blk c.bExec).height :=
  (htree.height_le_of_extends (hok.bExec_delivered htree) (hok.extends_decided hb)).2

theorem CommitOk.decided_parent (hok : CommitOk env c) (htree : TreeOk env c)
    (hb : (c.blk b).decision = true) (hp : (c.blk b).parents.head? = some p) :
    (c.blk p).decision = true ∧ firstParent c b = some p ∧
      (c.blk b).height = (c.blk p).height + 1 := by
  rw [← firstParent_eq (hok.delivered_of_decided htree hb)] at hp
  refine ⟨?_, hp, (htree.delivered_firstParent hp).2⟩
  exact hok.decided_of_extends htree ((hok.extends_decided hb).trans (.step hp (.refl p)))

theorem CommitOk.decided_unique (hok : CommitOk env c) (htree : TreeOk env c)
    (hb : (c.blk b).decision = true) (hx : (c.blk x).decision = true)
    (heq : (c.blk b).height = (c.blk x).height) : b = x := by
  rcases (hok.extends_decided hb).comparable (hok.extends_decided hx) with hext | hext
  · exact extends_eq htree (hok.delivered_of_decided htree hb) hext heq.le
  · exact (extends_eq htree (hok.delivered_of_decided htree hx) hext heq.ge).symm

theorem CommitOk.decided_mono (hok : CommitOk env c) (hok' : CommitOk env c')
    (htrace : c.trace <:+ c'.trace) (hb : (c.blk b).decision = true) :
    (c'.blk b).decision = true := by
  refine (hok'.decided b).mpr (((hok.decided b).mp hb).imp_right (fun hmem => ?_))
  obtain ⟨l, hl⟩ := htrace
  rw [commits, ← hl, List.filterMap_append, List.reverse_append]
  exact List.mem_append_left _ hmem

end decided

theorem reports_grows (hg : Grows c c') (hid : c'.id = c.id) {log : List Uint256}
    (hd : ∀ b ∈ log, (c.blk b).delivered = true) : reports c' log = reports c log := by
  refine List.flatMap_congr (fun b hb => ?_)
  rw [finalities_congr hid (hg.node_eq b (hd b hb))]

theorem CommitOk.apply (htree : TreeOk env c) (hok : CommitOk env c) (he : Allowed env c e) :
    CommitOk env (Effects.apply env c e) := by
  have hg := grows_apply he
  have hpath : RootPath (firstParent (Effects.apply env c e)) env.genesisHash (commits c) :=
    hok.path.mono (fun _ _ hp => firstParent_mono hg hp)
  have hreports := reports_grows hg (id_apply env c) (fun b hb => hok.delivered hb)
  by_cases hc : ∃ queue h, e = .commit queue h
  · obtain ⟨queue, h, rfl⟩ := hc
    obtain ⟨hready, hdesc⟩ := he
    obtain ⟨hnew, htip, _, _, hqueue⟩ :=
      htree.walk_path (delivered_of_commitReady htree hready) hdesc
    have hnew' : RootPath (firstParent (Effects.apply env c (.commit queue h)))
        (tip env.genesisHash (commits c)) queue.reverse := by
      rw [hok.last]
      exact hnew.mono (fun _ _ hp => firstParent_mono hg hp)
    refine ⟨?_, ?_, ?_, ?_⟩
    · rw [commits_commit]
      exact hpath.append hnew'
    · rw [commits_commit, tip_append, hok.last, htip]
      rfl
    · intro x
      rw [decision_commit (fun b hb => isSome_of_delivered (hqueue b hb).2), hok.decided,
        commits_commit, List.mem_append, List.mem_reverse, or_assoc]
    · have hrest := reports_grows hg (id_apply env c)
        (fun b hb => (hqueue b (List.mem_reverse.mp hb)).2)
      have hsplit : reports (Effects.apply env c (.commit queue h))
          (commits c ++ queue.reverse) =
          reports (Effects.apply env c (.commit queue h)) (commits c) ++
            reports (Effects.apply env c (.commit queue h)) queue.reverse :=
        List.flatMap_append
      rw [outputs_commit, commits_commit, hsplit, hreports, hrest, hok.reported]
  · have hne : ∀ queue h, e ≠ .commit queue h := fun queue h heq => hc ⟨queue, h, heq⟩
    refine ⟨?_, ?_, ?_, ?_⟩
    · rw [commits_apply hne]
      exact hpath
    · rw [commits_apply hne, bExec_apply env c hne]
      exact hok.last
    · intro x
      rw [decision_apply he hne, commits_apply hne]
      exact hok.decided x
    · rw [outputs_apply hne, commits_apply hne, hreports]
      exact hok.reported

theorem CommitOk.start (env : Env K) (config : ReplicaConfig K) (id : ReplicaID)
    (key : K.PrivKey) (voteDisabled : Bool) :
    CommitOk env (HotStuffCore.start env config id key voteDisabled) := by
  refine ⟨rootPath_nil, rfl, fun x => ?_, rfl⟩
  by_cases hx : x = env.genesisHash
  · subst hx
    simp [HotStuffCore.blk, HotStuffCore.start, HotStuffCore.genesis]
  · simp only [HotStuffCore.blk, HotStuffCore.start, Function.update_of_ne hx]
    simp [hx, commits, Block.absent, Block.fetched]

theorem decided_of_update_error {n : Uint256} {err : Exn} (hd : (c.blk n).delivered = true)
    (hup : c.update env n = .error (err, c')) :
    (∀ b, (c'.blk b).decision = (c.blk b).decision) ∧ c'.bExec = c.bExec ∧
      commits c' = commits c ∧ outputs c' = outputs c := by
  obtain ⟨htrail, _⟩ := update_error hd hup
  refine Trail.invariant (I := fun d => (∀ b, (d.blk b).decision = (c.blk b).decision) ∧
    d.bExec = c.bExec ∧ commits d = commits c ∧ outputs d = outputs c) htrail
    ⟨fun _ => rfl, rfl, rfl, rfl⟩ ?_
  intro d e hP hinv he
  have hne : ∀ queue h, e ≠ .commit queue h := by
    rintro queue h rfl
    exact hP
  obtain ⟨hdec, hexec, hlog, hout⟩ := hinv
  refine ⟨fun b => ?_, ?_, ?_, ?_⟩
  · rw [decision_apply he hne, hdec]
  · rw [bExec_apply env d hne, hexec]
  · rw [commits_apply hne, hlog]
  · rw [outputs_apply hne, hout]

section machine

variable {config : ReplicaConfig K} {id : ReplicaID} {key : K.PrivKey} {voteDisabled : Bool}
  {r : Replica K}

theorem commitOk_of_reachable (hr : Reachable (machine env config id key voteDisabled) r) :
    CommitOk env r.core :=
  invariant_of_effects hr (.start _ _ _ _ _) (fun _ _ htree _ hok he => hok.apply htree he)

theorem CommitOk.height (htree : TreeOk env c) (hok : CommitOk env c)
    (hk : (commits c)[k]? = some h) : (c.blk h).height = k + 1 := by
  obtain ⟨hlt, hget⟩ := List.getElem?_eq_some_iff.mp hk
  have hmem : h ∈ commits c := hget ▸ List.getElem_mem hlt
  obtain ⟨i, hdepth, hle, hi⟩ := hok.path.mem_depth hmem
  have hnodup := hok.path.nodup htree.firstParent_genesis
  have hik : i = k := by
    obtain ⟨hlt', hget'⟩ := List.getElem?_eq_some_iff.mp hi
    exact (List.Nodup.getElem_inj_iff hnodup).mp (hget'.trans hget.symm)
  rw [← hik]
  exact (htree.depth (hok.delivered hmem)).unique htree.firstParent_genesis hdepth

/-- The commit log of a replica: the blocks passed to `do_consensus` lead from the genesis block
to `b_exec` by first parents, one of each height and none twice; they and the genesis block are
what is decided; each is followed by the decisions on its commands; and an `update` that throws
leaves all of this as it was. -/
theorem commit_log (hr : Reachable (machine env config id key voteDisabled) r) :
    (RootPath (fun h => (r.core.blk h).parents.head?) env.genesisHash (commits r.core) ∧
      tip env.genesisHash (commits r.core) = r.core.bExec ∧
      (commits r.core).Nodup ∧
      ∀ k h, (commits r.core)[k]? = some h → (r.core.blk h).height = k + 1) ∧
    (∀ h, (r.core.blk h).decision = true ↔ h = env.genesisHash ∨ h ∈ commits r.core) ∧
    outputs r.core = (commits r.core).flatMap (fun h => .consensus h ::
      (r.core.blk h).data.cmds.mapIdx (fun i cmd => .decide
        { rid := r.core.id, decision := 1, cmdIdx := i, cmdHeight := (r.core.blk h).height,
          cmdHash := cmd, blkHash := h })) ∧
    ∀ n err c', (r.core.blk n).delivered = true → r.core.update env n = .error (err, c') →
      (∀ h, (c'.blk h).decision = (r.core.blk h).decision) ∧ c'.bExec = r.core.bExec ∧
        commits c' = commits r.core ∧ outputs c' = outputs r.core := by
  have htree := (replicaOk_of_reachable hr).tree
  have hok := commitOk_of_reachable hr
  refine ⟨⟨?_, hok.last, hok.path.nodup htree.firstParent_genesis,
    fun k h hk => hok.height htree hk⟩, hok.decided, hok.reported,
    fun n err c' hd hup => decided_of_update_error hd hup⟩
  refine hok.path.mono (fun x p hp => ?_)
  rw [firstParent_eq (delivered_of_firstParent hp)] at hp
  exact hp

theorem commit_log_sole : commits soleReplica.core = [1] ∧
    ∀ h, (soleReplica.core.blk h).decision = true ↔ h = 0 ∨ h ∈ commits soleReplica.core :=
  ⟨by decide +kernel, (commit_log soleReplica_reachable).2.1⟩

end machine

end ArchipelagoHotStuff.Consensus.CommitLog
