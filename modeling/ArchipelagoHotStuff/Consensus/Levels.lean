/- Module: ArchipelagoHotStuff/Consensus/Levels
   source: consensus.cpp (update, on_receive_vote, on_propose, on_receive_proposal)
   digest: In a replica whose calls return, no block that is executed or has votes enough is higher
     than the highest certified block. -/

import ArchipelagoHotStuff.Consensus.Duplicates
import ArchipelagoHotStuff.Consensus.FailedProposals

set_option autoImplicit false
set_option relaxedAutoImplicit false

namespace ArchipelagoHotStuff.Consensus.Levels

open Crypto.Wire Crypto.Certificates State Handlers Effects Consensus.Tree Ballots Trails Machine
open CommitLog Duplicates FailedProposals HighTail Stages General.Transition

variable {K : Secp256k1} {env : Env K} {c c' d : HotStuffCore K} {h n t : Uint256}

/-! Calls that return and calls that throw. -/

/-- The call returns, or is held up by a callback, and leaves the given replica. -/
inductive Returns (env : Env K) (r : Replica K) : Input K → Replica K → Prop
  | fetch {data : BlockData K} :
      Returns env r (.fetch data) ⟨r.core.addBlk (env.getHash data) (.fetched data), []⟩
  | deliver {h : Uint256} {b : Bool} {c : HotStuffCore K} :
      (r.core.storage h).isSome → r.core.onDeliverBlk env h = .ok (b, c) →
      Returns env r (.deliver h) ⟨c, []⟩
  | propose {cmds parents : List Uint256} {extra : List UInt8} {woken : Bool}
      {c : HotStuffCore K} :
      (∀ p ∈ parents, (r.core.blk p).delivered = true) →
      r.core.onPropose env cmds parents extra = .ok (woken, c) →
      Returns env r (.propose cmds parents extra)
        (if woken then
          ⟨c, .proposed (env.getHash (r.core.newData cmds parents extra)) :: r.stack⟩
        else Replica.announce c (env.getHash (r.core.newData cmds parents extra)) r.stack)
  | receiveProposal {prop : Proposal} {opinion woken : Bool} {c : HotStuffCore K} :
      r.core.onReceiveProposal env prop = .ok (opinion, woken, c) →
      Returns env r (.receiveProposal prop)
        (if woken then ⟨c, [.received prop opinion]⟩
        else Replica.finishReceive c prop opinion [])
  | receiveVote {vote : Vote K} {woken : Bool} {c : HotStuffCore K} :
      r.core.onReceiveVote vote = .ok (woken, c) → Returns env r (.receiveVote vote) ⟨c, []⟩
  | wait {h : Uint256} : Returns env r (.wait h) ⟨r.core.asyncQcFinish h, r.stack⟩
  | resume {r' : Replica K} : r.step env .resume = some r' → Returns env r .resume r'

/-- The call throws an exception in the given state. -/
inductive Throws (env : Env K) (r : Replica K) : Input K → Exn → HotStuffCore K → Prop
  | deliver {h : Uint256} {x : Exn} {c : HotStuffCore K} :
      (r.core.storage h).isSome → r.core.onDeliverBlk env h = .error (x, c) →
      Throws env r (.deliver h) x c
  | propose {cmds parents : List Uint256} {extra : List UInt8} {x : Exn} {c : HotStuffCore K} :
      (∀ p ∈ parents, (r.core.blk p).delivered = true) →
      r.core.onPropose env cmds parents extra = .error (x, c) →
      Throws env r (.propose cmds parents extra) x c
  | receiveProposal {prop : Proposal} {x : Exn} {c : HotStuffCore K} :
      r.core.onReceiveProposal env prop = .error (x, c) →
      Throws env r (.receiveProposal prop) x c
  | receiveVote {vote : Vote K} {x : Exn} {c : HotStuffCore K} :
      r.core.onReceiveVote vote = .error (x, c) → Throws env r (.receiveVote vote) x c

section steps

variable {r r' : Replica K} {i : Input K} {x y : Exn}

theorem throw_eq_some (h : Replica.throw (x, c) = some r') :
    x ≠ .undefinedBehaviour ∧ r' = ⟨c.emit (.threw x), []⟩ := by
  unfold Replica.throw at h
  split at h
  · cases h
  · rename_i hne
    cases h
    exact ⟨hne, rfl⟩

theorem throws_or_returns (hstep : r.step env i = some r') :
    (∃ x d, x ≠ .undefinedBehaviour ∧ Throws env r i x d ∧ r' = ⟨d.emit (.threw x), []⟩) ∨
      Returns env r i r' := by
  cases i with
  | fetch data =>
      obtain ⟨_, rfl⟩ := step_fetch hstep
      exact .inr .fetch
  | deliver h =>
      simp only [Replica.step] at hstep
      split at hstep
      swap
      · cases hstep
      rename_i hguard
      rw [Bool.and_eq_true] at hguard
      split at hstep
      · rename_i res hres
        obtain ⟨hne, rfl⟩ := throw_eq_some hstep
        exact .inl ⟨res.1, res.2, hne, .deliver hguard.2 hres, rfl⟩
      · rename_i hres
        cases hstep
        exact .inr (.deliver hguard.2 hres)
  | propose cmds parents extra =>
      simp only [Replica.step] at hstep
      split at hstep
      swap
      · cases hstep
      rename_i hall
      rw [List.all_eq_true] at hall
      split at hstep
      · rename_i res hres
        obtain ⟨hne, rfl⟩ := throw_eq_some hstep
        exact .inl ⟨res.1, res.2, hne, .propose hall hres, rfl⟩
      · rename_i woken d hres
        have hreturns := Returns.propose hall hres
        cases woken <;> cases hstep <;> exact .inr hreturns
  | receiveProposal prop =>
      simp only [Replica.step] at hstep
      split at hstep
      swap
      · cases hstep
      split at hstep
      · rename_i res hres
        obtain ⟨hne, rfl⟩ := throw_eq_some hstep
        exact .inl ⟨res.1, res.2, hne, .receiveProposal hres, rfl⟩
      · rename_i opinion woken d hres
        have hreturns := Returns.receiveProposal hres
        cases woken <;> cases hstep <;> exact .inr hreturns
  | receiveVote vote =>
      simp only [Replica.step] at hstep
      split at hstep
      swap
      · cases hstep
      split at hstep
      · rename_i res hres
        obtain ⟨hne, rfl⟩ := throw_eq_some hstep
        exact .inl ⟨res.1, res.2, hne, .receiveVote hres, rfl⟩
      · rename_i hres
        cases hstep
        exact .inr (.receiveVote hres)
  | wait h =>
      cases hstep
      exact .inr .wait
  | resume => exact .inr (.resume hstep)

def Quiet (e : Effect K) : Prop := ∀ x, e ≠ .throw x

theorem threw_of_trail (htrail : Trail env Quiet c c') (hmem : .threw x ∈ c'.trace) :
    .threw x ∈ c.trace := by
  refine Trail.invariant (I := fun d => .threw x ∈ d.trace → .threw x ∈ c.trace) htrail id ?_ hmem
  intro d e hPe hd _ hthrew
  rw [trace_eq, List.mem_append, mem_newEvents id] at hthrew
  rcases hthrew with hnew | hold
  · refine absurd ?_ (hPe x)
    cases e <;> simp [eventOf] at hnew
    rw [hnew]
  · exact hd hold

theorem Throws.trail (hthrows : Throws env r i x d) (hne : x ≠ .undefinedBehaviour)
    (hstored : (r.core.storage r.core.hqc.2.objHash).isSome) : Trail env Quiet r.core d := by
  cases hthrows with
  | deliver hs hres =>
      have hspec := onDeliverBlk_spec env hs
      rw [hres] at hspec
      obtain ⟨⟨hund, _⟩, _, _, parents, height, rfl⟩ := hspec
      exact Trail.single (e := .spoil _ parents height) (fun _ h => by cases h) hund
  | propose hall hres =>
      rename_i cmds _ extra
      have hspec := onPropose_spec env cmds extra hall hstored
      rw [hres] at hspec
      refine (hspec hne).1.mono (fun e he => ?_)
      rintro y rfl
      exact he
  | receiveProposal hres =>
      rename_i prop
      have hspec := onReceiveProposal_spec env r.core prop
      rw [hres] at hspec
      refine hspec.1.mono (fun e he => ?_)
      rintro y rfl
      exact he
  | receiveVote hres =>
      rename_i vote
      have hspec := onReceiveVote_spec (c := r.core) env vote false (fun h => by cases h)
      rw [hres] at hspec
      refine (hspec.2 hne).mono (fun e he => ?_)
      rintro y rfl
      exact he

theorem threw_castVote (prop : Proposal) (opinion : Bool)
    (hmem : .threw y ∈ (c.castVote prop opinion).trace) : .threw y ∈ c.trace := by
  unfold HotStuffCore.castVote at hmem
  split at hmem
  · simpa using hmem
  · exact hmem

theorem Returns.threw (hreturns : Returns env r i r')
    (hstored : (r.core.storage r.core.hqc.2.objHash).isSome)
    (hmem : .threw y ∈ r'.core.trace) : .threw y ∈ r.core.trace := by
  cases hreturns with
  | fetch =>
      unfold HotStuffCore.addBlk at hmem
      split at hmem <;> exact hmem
  | deliver hs hres =>
      have hspec := onDeliverBlk_spec env hs
      rw [hres] at hspec
      rcases hspec with ⟨_, rfl⟩ | ⟨_, rfl⟩ <;> exact hmem
  | propose hall hres =>
      rename_i cmds parents extra woken d
      have hspec := onPropose_spec env cmds extra hall hstored
      rw [hres] at hspec
      refine threw_of_trail (hspec.1.mono (fun e he => ?_)) (x := y) ?_
      · rintro x rfl
        exact he
      · cases woken with
        | true => exact hmem
        | false => simpa [Replica.announce, HotStuffCore.announce] using hmem
  | receiveProposal hres =>
      rename_i prop opinion woken d
      have hspec := onReceiveProposal_spec env r.core prop
      rw [hres] at hspec
      refine threw_of_trail (hspec.2.1.mono (fun e he => ?_)) (x := y) ?_
      · rintro x rfl
        exact he
      · cases woken with
        | true => exact hmem
        | false =>
            have hnoted := threw_castVote prop opinion hmem
            rwa [trace_noteProposal] at hnoted
  | receiveVote hres =>
      rename_i vote woken d
      have hspec := onReceiveVote_spec (c := r.core) env vote false (fun h => by cases h)
      rw [hres] at hspec
      refine threw_of_trail (hspec.1.mono (fun e he => ?_)) hmem
      rintro x rfl
      exact he
  | wait =>
      unfold HotStuffCore.asyncQcFinish at hmem
      split at hmem <;> exact hmem
  | resume hstep =>
      rcases step_resume hstep with ⟨h, stack, _, rfl⟩ | ⟨h, stack, _, rfl⟩ |
        ⟨prop, opinion, stack, _, rfl⟩
      · simpa [Replica.announce, HotStuffCore.announce] using hmem
      · simpa [HotStuffCore.broadcast] using hmem
      · have hnoted := threw_castVote prop opinion hmem
        rwa [trace_noteProposal] at hnoted

theorem Throws.tooLow (hthrows : Throws env r i .notHigherThanVheight d) :
    ∃ cmds parents extra, i = .propose cmds parents extra ∧
      r.core.onPropose env cmds parents extra = .error (.notHigherThanVheight, d) := by
  cases hthrows with
  | deliver hs hres => exact absurd rfl (onDeliverBlk_exn hres)
  | propose hall hres => exact ⟨_, _, _, rfl, hres⟩
  | receiveProposal hres =>
      rcases onReceiveProposal_error hres (fun heq => by cases heq) with ⟨_, heq, _⟩ | ⟨_, hup⟩
      · cases heq
      · exact absurd rfl (update_exn hup)
  | receiveVote hres => exact absurd rfl (onReceiveVote_exn hres)

end steps

/-! What the calls consist of. -/

def counted (c : HotStuffCore K) (vote : Vote K) (qc : QuorumCert K) : HotStuffCore K :=
  c.modifyBlk vote.blkHash (fun b =>
    { b with voted := insert vote.voter b.voted, selfQc := some qc })

/-- A vote that does not count leaves the core; one that counts is added, and the last one needed
raises `hqc` and wakes those who wait. -/
theorem receiveVote_parts {vote : Vote K} {woken : Bool}
    (hres : c.onReceiveVote vote = .ok (woken, c')) :
    c' = c ∨ ∃ qc, (c.blk vote.blkHash).delivered = true ∧
      vote.voter ∉ (c.blk vote.blkHash).voted ∧
      (c.blk vote.blkHash).voted.card < c.config.nmajority ∧
      ((c.blk vote.blkHash).voted.card + 1 ≠ c.config.nmajority ∧ c' = counted c vote qc ∨
        (c.blk vote.blkHash).voted.card + 1 = c.config.nmajority ∧
          (woken, c') = (((counted c vote qc).emit (.quorum vote.blkHash qc)).updateHqc
            vote.blkHash qc).onQcFinish vote.blkHash) := by
  unfold HotStuffCore.onReceiveVote at hres
  split at hres
  swap
  · cases hres
  rename_i hd
  dsimp only at hres
  split at hres
  · cases hres
    exact .inl rfl
  rename_i hfew
  split at hres
  · cases hres
    exact .inl rfl
  rename_i hvoted
  split at hres
  · cases hres
  rename_i qc _
  rw [HotStuffCore.modifyBlk_modifyBlk] at hres
  refine .inr ⟨qc, hd, hvoted, Nat.lt_of_not_le hfew, ?_⟩
  split at hres
  · rename_i hlast
    exact .inr ⟨hlast, (Except.ok.inj hres).symm⟩
  · rename_i hmore
    cases hres
    exact .inl ⟨hmore, rfl⟩

theorem decideVote_cases {b : Uint256} {opinion : Bool}
    (hvote : c.decideVote b = .ok (opinion, c')) :
    c' = c ∨ (c' = c.accept b ∧ c.vheight < (c.blk b).height ∧
      (c.qcAboveLock b = true ∨ c.checkAncestry c.bLock b = true)) := by
  unfold HotStuffCore.decideVote at hvote
  split at hvote
  · cases hvote
    exact .inl rfl
  rename_i hlow
  split at hvote
  · rename_i hlive
    cases hvote
    exact .inr ⟨rfl, Nat.lt_of_not_le hlow, .inl hlive⟩
  split at hvote
  · cases hvote
  rename_i queue x hdesc
  split at hvote
  · rename_i hx
    subst hx
    cases hvote
    exact .inr ⟨rfl, Nat.lt_of_not_le hlow, .inr (checkAncestry_iff.mpr ⟨queue, hdesc⟩)⟩
  · cases hvote
    exact .inl rfl

section counted

variable (c) (vote : Vote K) (qc : QuorumCert K) (x : Uint256)

@[simp] theorem height_counted : ((counted c vote qc).blk x).height = (c.blk x).height :=
  c.field_modifyBlk Block.height vote.blkHash x (fun _ => rfl)

@[simp] theorem delivered_counted :
    ((counted c vote qc).blk x).delivered = (c.blk x).delivered :=
  c.field_modifyBlk Block.delivered vote.blkHash x (fun _ => rfl)

@[simp] theorem parents_counted : ((counted c vote qc).blk x).parents = (c.blk x).parents :=
  c.field_modifyBlk Block.parents vote.blkHash x (fun _ => rfl)

theorem voted_counted (hs : (c.storage vote.blkHash).isSome) :
    ((counted c vote qc).blk x).voted =
      if x = vote.blkHash then insert vote.voter (c.blk x).voted else (c.blk x).voted := by
  by_cases hx : x = vote.blkHash
  · subst hx
    rw [counted, c.blk_modifyBlk_self hs, if_pos rfl]
  · rw [counted, c.blk_modifyBlk_ne hx, if_neg hx]

end counted

section proposing

variable {data : BlockData K} {u : HotStuffCore K}

/-- The delivery of the new block and what comes before it are effects of `on_propose`. -/
theorem deliver_stage (env : Env K) (hne : data.parentHashes ≠ [])
    (hparents : ∀ p ∈ data.parentHashes, (c.blk p).delivered = true) (hqc : data.qc = c.hqc.2)
    (hstored : (c.storage data.qc.objHash).isSome) :
    match (stage env c data).onDeliverBlk env (env.getHash data) with
    | .ok (_, d) => Trail env (Builds env c data) c d ∧ (d.blk (env.getHash data)).delivered = true
    | .error (e, d) => Trail env (Builds env c data) c d ∧ e ≠ .safetyBreached := by
  have hinsert : match (stage env c data).onDeliverBlk env (env.getHash data) with
      | .ok (_, d) => Trail env (Inserts env (c.eraseTails data.parentHashes) data)
          (c.eraseTails data.parentHashes) d ∧ (d.blk (env.getHash data)).delivered = true
      | .error (e, d) => Trail env (Inserts env (c.eraseTails data.parentHashes) data)
          (c.eraseTails data.parentHashes) d ∧ e ≠ .safetyBreached :=
    insert_spec (c := c.eraseTails data.parentHashes) env hne hparents hqc hstored
  have htrail : ∀ d, Trail env (Inserts env (c.eraseTails data.parentHashes) data)
      (c.eraseTails data.parentHashes) d → Trail env (Builds env c data) c d := by
    intro d hd
    refine (Trail.single (e := .eraseTails data.parentHashes) trivial trivial).trans
      (hd.mono (fun e he => ?_))
    cases e <;> first | exact he | exact absurd he id
  cases hres : (stage env c data).onDeliverBlk env (env.getHash data) with
  | error x =>
      rw [hres] at hinsert
      exact ⟨htrail _ hinsert.1, hinsert.2⟩
  | ok r =>
      rw [hres] at hinsert
      exact ⟨htrail _ hinsert.1, hinsert.2⟩

theorem build_parts (hne : data.parentHashes ≠ [])
    (hparents : ∀ p ∈ data.parentHashes, (c.blk p).delivered = true) (hqc : data.qc = c.hqc.2)
    (hstored : (c.storage c.hqc.2.objHash).isSome) (htree : TreeOk env c)
    (hbuild : c.build env data = .ok u) :
    ∃ d, Trail env (Builds env c data) c d ∧ Inserted env c data d ∧
      d.update env (env.getHash data) = .ok u := by
  have hinsert := deliver_stage env hne hparents hqc (by rw [hqc]; exact hstored)
  rw [build_eq] at hbuild
  split at hbuild
  · cases hbuild
  rename_i r hres
  rw [hres] at hinsert
  exact ⟨r.2, hinsert.1, inserted_of_deliver htree hres, hbuild⟩

/-- `on_propose` builds the block, finds it high enough, and counts the replica's own vote. -/
theorem propose_parts {cmds parents : List Uint256} {extra : List UInt8} {woken : Bool}
    (hres : c.onPropose env cmds parents extra = .ok (woken, c')) :
    parents ≠ [] ∧ ∃ u, c.build env (c.newData cmds parents extra) = .ok u ∧
      u.vheight < (u.blk (env.getHash (c.newData cmds parents extra))).height ∧
      ((u.accept (env.getHash (c.newData cmds parents extra))).emit
        (.partCert (env.getHash (c.newData cmds parents extra)))).onReceiveVote
          ⟨u.id, env.getHash (c.newData cmds parents extra),
            PartCert.create u.privKey (env.getHash (c.newData cmds parents extra))⟩ =
        .ok (woken, c') := by
  unfold HotStuffCore.onPropose at hres
  split at hres
  · cases hres
  rename_i hempty
  simp only [bind, Except.bind] at hres
  split at hres
  · cases hres
  rename_i u hbuild
  split at hres
  · cases hres
  rename_i hhigh
  refine ⟨fun hnil => hempty (by rw [hnil]; rfl), u, hbuild, Nat.lt_of_not_le hhigh, hres⟩

end proposing

/-! The height of what `update` commits. -/

theorem height_of_direct {x y : Uint256} (htree : TreeOk env c) (h : direct c x = some y) :
    firstParent c x = some y ∧ (c.blk x).height = (c.blk y).height + 1 := by
  obtain ⟨hq, _, hp⟩ := direct_eq_some.mp h
  rw [← firstParent_eq (htree.delivered_of_qcRef hq)] at hp
  exact ⟨hp, (htree.delivered_firstParent hp).2⟩

/-- The block to commit lies one or two links below the one whose certificate has arrived. -/
theorem height_of_target {b : Uint256} (htree : TreeOk env c) (hb : target env c n = some b) :
    ∃ t, certified c n = some t ∧ (c.blk t).height = (c.blk b).height + chainLength env := by
  unfold target at hb
  unfold chainLength
  split at hb
  · rename_i henv
    obtain ⟨t, ht, hb⟩ := Option.bind_eq_some_iff.mp hb
    rw [if_pos henv]
    exact ⟨t, ht, (height_of_direct htree hb).2⟩
  · rename_i henv
    obtain ⟨p, hp, hb⟩ := Option.bind_eq_some_iff.mp hb
    obtain ⟨t, ht, hp⟩ := Option.bind_eq_some_iff.mp hp
    rw [if_neg henv]
    exact ⟨t, ht, (height_of_direct htree hp).2.trans
      (congrArg (· + 1) (height_of_direct htree hb).2)⟩

theorem lockable_of_target {b : Uint256} (htree : TreeOk env c) (hb : target env c n = some b) :
    ∃ p, lockable env c n = some p ∧ (c.blk p).height = (c.blk b).height + 1 := by
  unfold target at hb
  unfold lockable
  split at hb
  · rename_i henv
    obtain ⟨t, ht, hb⟩ := Option.bind_eq_some_iff.mp hb
    rw [if_pos henv]
    exact ⟨t, ht, (height_of_direct htree hb).2⟩
  · rename_i henv
    obtain ⟨p, hp, hb⟩ := Option.bind_eq_some_iff.mp hb
    obtain ⟨t, ht, hp⟩ := Option.bind_eq_some_iff.mp hp
    rw [if_neg henv]
    obtain ⟨hq, hdec, _⟩ := direct_eq_some.mp hp
    exact ⟨p, Option.bind_eq_some_iff.mpr ⟨t, ht, certified_eq_some.mpr ⟨hq, hdec⟩⟩,
      (height_of_direct htree hb).2⟩

/-! Nothing executed, and nothing with votes enough, is higher than `hqc`. -/

/-- What is executed is no higher than what is certified or locked; blocks have no height and no
votes before they are delivered. -/
structure LevelOk (c : HotStuffCore K) : Prop where
  flat : Flat c
  hqc : (c.blk c.hqc.1).delivered = true
  locked : (c.blk c.bLock).delivered = true
  executed : (c.blk c.bExec).delivered = true
  exec_le : (c.blk c.bExec).height ≤ (c.blk c.hqc.1).height
  exec_le_lock : (c.blk c.bExec).height ≤ (c.blk c.bLock).height
  unvoted : ∀ h, (c.blk h).delivered = false → (c.blk h).voted = ∅
  quorum_le : 0 < c.config.nmajority → ∀ h, c.config.nmajority ≤ (c.blk h).voted.card →
    (c.blk h).height ≤ (c.blk c.hqc.1).height

namespace LevelOk

theorem delivered_of_voted (hok : LevelOk c) (hvoted : 0 < (c.blk h).voted.card) :
    (c.blk h).delivered = true := by
  cases hd : (c.blk h).delivered with
  | true => rfl
  | false =>
      rw [hok.unvoted h hd] at hvoted
      cases hvoted

theorem of_grows (hok : LevelOk c) (hg : Grows c c') (hflat : Flat c')
    (hhqc : c'.hqc.1 = c.hqc.1) (hlock : c'.bLock = c.bLock) (hexec : c'.bExec = c.bExec)
    (hconfig : c'.config = c.config) (hvoted : ∀ x, (c'.blk x).voted = (c.blk x).voted) :
    LevelOk c' := by
  refine ⟨hflat, ?_, ?_, ?_, ?_, ?_, fun x hd => ?_, fun hmaj x hmany => ?_⟩
  · rw [hhqc]
    exact hg.delivered hok.hqc
  · rw [hlock]
    exact hg.delivered hok.locked
  · rw [hexec]
    exact hg.delivered hok.executed
  · rw [hhqc, hexec, hg.height hok.hqc, hg.height hok.executed]
    exact hok.exec_le
  · rw [hlock, hexec, hg.height hok.locked, hg.height hok.executed]
    exact hok.exec_le_lock
  · rw [hvoted]
    refine hok.unvoted x ?_
    cases hd' : (c.blk x).delivered with
    | false => rfl
    | true =>
        rw [hg.delivered hd'] at hd
        cases hd
  · rw [hconfig] at hmaj
    rw [hvoted, hconfig] at hmany
    have hdx := hok.delivered_of_voted (hmaj.trans_le hmany)
    rw [hhqc, hg.height hdx, hg.height hok.hqc]
    exact hok.quorum_le hmaj x hmany

theorem congr (hok : LevelOk c) (hblk : ∀ x, c'.blk x = c.blk x) (hhqc : c'.hqc.1 = c.hqc.1)
    (hlock : c'.bLock = c.bLock) (hexec : c'.bExec = c.bExec) (hconfig : c'.config = c.config) :
    LevelOk c' := by
  obtain ⟨hflat, hq, hl, he, hle, hle', hun, hmany⟩ := hok
  refine ⟨?_, ?_, ?_, ?_, ?_, ?_, ?_, ?_⟩ <;>
    simp only [Flat, hblk, hhqc, hlock, hexec, hconfig] <;> assumption

theorem updateHqc (hok : LevelOk c) (t : Uint256) (qc : QuorumCert K) :
    LevelOk (c.updateHqc t qc) := by
  rcases updateHqc_cases c t qc with ⟨heq, _⟩ | ⟨hlt, heq⟩
  · rw [heq]
    exact hok
  · rw [heq]
    exact ⟨hok.flat, hok.flat.delivered (Nat.zero_lt_of_lt hlt), hok.locked, hok.executed,
      hok.exec_le.trans hlt.le, hok.exec_le_lock, hok.unvoted,
      fun hmaj x hmany => (hok.quorum_le hmaj x hmany).trans hlt.le⟩

theorem raiseLock (hok : LevelOk c) (p : Uint256) : LevelOk (c.raiseLock p) := by
  unfold HotStuffCore.raiseLock
  split
  · rename_i hlt
    exact ⟨hok.flat, hok.hqc, hok.flat.delivered (Nat.zero_lt_of_lt hlt), hok.executed,
      hok.exec_le, hok.exec_le_lock.trans hlt.le, hok.unvoted, hok.quorum_le⟩
  · exact hok

theorem raised (hok : LevelOk c) (n : Uint256) : LevelOk (raised env c n) := by
  have hcert : LevelOk ((certified c n).elim c (fun t => c.updateHqc t (c.blk n).data.qc)) := by
    cases certified c n with
    | none => exact hok
    | some t => exact hok.updateHqc t _
  unfold Stages.raised
  cases lockable env c n with
  | none => exact hcert
  | some p => exact hcert.raiseLock p

theorem executes {b : Uint256} (hok : LevelOk c) (hdec : Decides c d)
    (hvoted : ∀ x, (d.blk x).voted = (c.blk x).voted) (hregs : registers d = registers c)
    (hb : (c.blk b).delivered = true) (hle : (c.blk b).height ≤ (c.blk c.hqc.1).height)
    (hle' : (c.blk b).height ≤ (c.blk c.bLock).height) : LevelOk { d with bExec := b } := by
  have hdel : ∀ x, (d.blk x).delivered = (c.blk x).delivered :=
    fun x => congrArg Tree.Node.delivered (hdec.node_eq x)
  have hhqc : d.hqc = c.hqc := congrArg Registers.hqc hregs
  have hlock : d.bLock = c.bLock := congrArg Registers.bLock hregs
  have hconfig : d.config = c.config := congrArg Registers.config hregs
  refine ⟨fun x hd => ?_, ?_, ?_, ?_, ?_, ?_, fun x hd => ?_, fun hmaj x hmany => ?_⟩
  · exact (hdec.height x).trans (hok.flat x ((hdel x).symm.trans hd))
  · show (d.blk d.hqc.1).delivered = true
    rw [hhqc, hdel]
    exact hok.hqc
  · show (d.blk d.bLock).delivered = true
    rw [hlock, hdel]
    exact hok.locked
  · exact (hdel b).trans hb
  · show (d.blk b).height ≤ (d.blk d.hqc.1).height
    rw [hhqc, hdec.height, hdec.height]
    exact hle
  · show (d.blk b).height ≤ (d.blk d.bLock).height
    rw [hlock, hdec.height, hdec.height]
    exact hle'
  · exact (hvoted x).trans (hok.unvoted x ((hdel x).symm.trans hd))
  · have hmaj' : 0 < d.config.nmajority := hmaj
    have hmany' : d.config.nmajority ≤ (d.blk x).voted.card := hmany
    rw [hconfig] at hmaj'
    rw [hvoted, hconfig] at hmany'
    show (d.blk x).height ≤ (d.blk d.hqc.1).height
    rw [hhqc, hdec.height, hdec.height]
    exact hok.quorum_le hmaj' x hmany'

/-- `update` commits nothing above the blocks it has found certified and locked. -/
theorem update (hok : LevelOk c) (htree : TreeOk env c) (hup : c.update env n = .ok c') :
    LevelOk c' := by
  rw [update_eq] at hup
  have hraised : LevelOk (Stages.raised env c n) := hok.raised n
  have hblk : ∀ x, (Stages.raised env c n).blk x = c.blk x := fun x => blk_raised env c n
  cases hb : target env c n with
  | none =>
      rw [hb] at hup
      cases hup
      exact hraised
  | some b =>
      rw [hb] at hup
      obtain ⟨queue, _, rfl⟩ := commit_ok hup
      obtain ⟨t, ht, hheight⟩ := height_of_target htree hb
      obtain ⟨p, hp, hnext⟩ := lockable_of_target htree hb
      have hsettled := settled_raised env c n
      have hcert := hsettled.cert t ((certified_congr hblk).trans ht)
      have hlock := hsettled.lock p ((lockable_congr env hblk).trans hp)
      refine hraised.executes (decides_commitAll queue.reverse _)
        (fun x => congrArg Prod.fst (ballot_commitAll queue.reverse x))
        (registers_commitAll _ queue.reverse) ?_ ?_ ?_
      · rw [hblk]
        exact delivered_of_target htree hb
      · rw [hblk t, hheight] at hcert
        rw [hblk b]
        exact (Nat.le_add_right _ _).trans hcert
      · rw [hblk p, hnext] at hlock
        rw [hblk b]
        exact (Nat.le_succ _).trans hlock

/-- The vote is counted, and `hqc` is as high as before and as the block, if that is complete. -/
theorem counted {vote : Vote K} {qc : QuorumCert K} (hok : LevelOk c)
    (hd : (c.blk vote.blkHash).delivered = true) (hvoted : vote.voter ∉ (c.blk vote.blkHash).voted)
    (hblk : ∀ x, d.blk x = (Levels.counted c vote qc).blk x) (hlock : d.bLock = c.bLock)
    (hexec : d.bExec = c.bExec) (hconfig : d.config = c.config)
    (hdq : (c.blk d.hqc.1).delivered = true)
    (hle : (c.blk c.hqc.1).height ≤ (c.blk d.hqc.1).height)
    (hlast : (c.blk vote.blkHash).voted.card + 1 = c.config.nmajority →
      (c.blk vote.blkHash).height ≤ (c.blk d.hqc.1).height) : LevelOk d := by
  have hs := isSome_of_delivered hd
  have hheight : ∀ x, (d.blk x).height = (c.blk x).height :=
    fun x => by rw [hblk, height_counted]
  have hdel : ∀ x, (d.blk x).delivered = (c.blk x).delivered :=
    fun x => by rw [hblk, delivered_counted]
  refine ⟨fun x hx => ?_, ?_, ?_, ?_, ?_, ?_, fun x hx => ?_, fun hmaj x hmany => ?_⟩
  · rw [hdel] at hx
    rw [hheight]
    exact hok.flat x hx
  · rw [hdel]
    exact hdq
  · rw [hdel, hlock]
    exact hok.locked
  · rw [hdel, hexec]
    exact hok.executed
  · rw [hheight, hheight, hexec]
    exact hok.exec_le.trans hle
  · rw [hheight, hheight, hexec, hlock]
    exact hok.exec_le_lock
  · rw [hdel] at hx
    have hne : x ≠ vote.blkHash := by
      rintro rfl
      rw [hd] at hx
      cases hx
    rw [hblk, voted_counted c vote qc x hs, if_neg hne]
    exact hok.unvoted x hx
  · rw [hconfig] at hmaj
    rw [hblk, hconfig, voted_counted c vote qc x hs] at hmany
    rw [hheight, hheight]
    split at hmany
    · rename_i hx
      subst hx
      rw [Finset.card_insert_of_notMem hvoted] at hmany
      rcases Nat.lt_or_ge (c.blk vote.blkHash).voted.card c.config.nmajority with hlt | hge
      · exact hlast (by omega)
      · exact (hok.quorum_le hmaj _ hge).trans hle
    · exact (hok.quorum_le hmaj x hmany).trans hle

/-- A vote that completes the certificate of a block raises `hqc` to its height. -/
theorem receiveVote {vote : Vote K} {woken : Bool} (hok : LevelOk c)
    (hres : c.onReceiveVote vote = .ok (woken, c')) : LevelOk c' := by
  rcases receiveVote_parts hres with rfl | ⟨qc, hd, hvoted, _, ⟨hmore, rfl⟩ | ⟨_, heq⟩⟩
  · exact hok
  · exact hok.counted hd hvoted (fun _ => rfl) rfl rfl rfl hok.hqc le_rfl
      (fun h => absurd h hmore)
  obtain ⟨woken', w, hfin⟩ := onQcFinish_eq
    (((Levels.counted c vote qc).emit (.quorum vote.blkHash qc)).updateHqc vote.blkHash qc)
    vote.blkHash
  rw [hfin] at heq
  cases heq
  rcases updateHqc_cases ((Levels.counted c vote qc).emit (.quorum vote.blkHash qc))
    vote.blkHash qc with ⟨hsame, hle⟩ | ⟨hlt, hsame⟩
  · have hle' : ((Levels.counted c vote qc).blk vote.blkHash).height ≤
        ((Levels.counted c vote qc).blk c.hqc.1).height := hle
    rw [height_counted, height_counted] at hle'
    rw [hsame]
    exact hok.counted hd hvoted (fun _ => rfl) rfl rfl rfl hok.hqc le_rfl (fun _ => hle')
  · have hlt' : ((Levels.counted c vote qc).blk c.hqc.1).height <
        ((Levels.counted c vote qc).blk vote.blkHash).height := hlt
    rw [height_counted, height_counted] at hlt'
    rw [hsame]
    exact hok.counted hd hvoted (fun _ => rfl) rfl rfl rfl hd hlt'.le (fun _ => le_rfl)

theorem inserted {data : BlockData K} (hok : LevelOk c) (hg : Grows c d)
    (hins : Inserted env c data d) : LevelOk d := by
  have hother : ∀ x, x ≠ env.getHash data → d.blk x = c.blk x := by
    intro x hx
    unfold HotStuffCore.blk
    rw [hins.storage x hx]
  refine hok.of_grows hg (fun x hd => ?_)
    (congrArg (fun r : Registers K => r.hqc.1) hins.registers)
    (congrArg Registers.bLock hins.registers) (congrArg Registers.bExec hins.registers)
    (congrArg Registers.config hins.registers) (fun x => ?_)
  · by_cases hx : x = env.getHash data
    · rw [hx, hins.delivered] at hd
      cases hd
    · rw [hother x hx] at hd ⊢
      exact hok.flat x hd
  · by_cases hx : x = env.getHash data
    · rw [hx]
      exact hins.voted
    · rw [hother x hx]

/-- Proposing stores a block without votes, commits what `update` finds, and counts a vote. -/
theorem propose {cmds parents : List Uint256} {extra : List UInt8} {woken : Bool}
    (hok : LevelOk c) (htree : TreeOk env c) (hall : ∀ p ∈ parents, (c.blk p).delivered = true)
    (hstored : (c.storage c.hqc.2.objHash).isSome)
    (hres : c.onPropose env cmds parents extra = .ok (woken, c')) : LevelOk c' := by
  obtain ⟨hne, u, hbuild, _, hvote⟩ := propose_parts hres
  obtain ⟨d, htrail, hins, hup⟩ := build_parts hne hall rfl hstored htree hbuild
  have htree' : TreeOk env d := Trail.invariant htrail htree (fun _ _ _ hinv he => hinv.apply he)
  have hu : LevelOk u := (hok.inserted (grows_of_trail htrail) hins).update htree' hup
  have hsigned : LevelOk ((u.accept (env.getHash (c.newData cmds parents extra))).emit
      (.partCert (env.getHash (c.newData cmds parents extra)))) :=
    hu.congr (fun _ => rfl) rfl rfl rfl rfl
  exact hsigned.receiveVote hvote

theorem receiveProposal {prop : Proposal} {opinion woken : Bool} (hok : LevelOk c)
    (htree : TreeOk env c)
    (hres : c.onReceiveProposal env prop = .ok (opinion, woken, c')) : LevelOk c' := by
  obtain ⟨_, c₁, c₂, w, hup, hvote, rfl⟩ := onReceiveProposal_ok hres
  have h₁ : LevelOk c₁ := hok.update htree hup
  have h₂ : LevelOk c₂ := by
    rcases decideVote_cases hvote with rfl | ⟨rfl, _⟩
    · exact h₁
    · exact h₁.congr (fun _ => rfl) rfl rfl rfl rfl
  exact h₂.congr (fun _ => rfl) rfl rfl rfl rfl

theorem start (env : Env K) (config : ReplicaConfig K) (rid : ReplicaID) (key : K.PrivKey)
    (voteDisabled : Bool) :
    LevelOk (HotStuffCore.start env config rid key voteDisabled) := by
  have hgenesis := (TreeOk.start env config rid key voteDisabled).genesis
  have hother : ∀ x, x ≠ env.genesisHash →
      (HotStuffCore.start env config rid key voteDisabled).blk x = .absent := by
    intro x hx
    exact HotStuffCore.blk_of_none _ (by simp [HotStuffCore.start, hx])
  have hnew : ∀ x, ((HotStuffCore.start env config rid key voteDisabled).blk x).delivered = false →
      x ≠ env.genesisHash := by
    rintro x hd rfl
    rw [hgenesis.delivered] at hd
    cases hd
  refine ⟨fun x hd => ?_, hgenesis.delivered, hgenesis.delivered, hgenesis.delivered, le_rfl,
    le_rfl, fun x hd => ?_, fun _ x _ => ?_⟩
  · rw [hother x (hnew x hd)]
    rfl
  · rw [hother x (hnew x hd)]
    rfl
  · by_cases hx : x = env.genesisHash
    · rw [hx]
      exact le_rfl
    · rw [hother x hx]
      exact Nat.zero_le _

theorem noteProposal (hok : LevelOk c) (h : Uint256) : LevelOk (c.noteProposal h) := by
  unfold HotStuffCore.noteProposal
  split
  · exact hok.congr (fun _ => rfl) rfl rfl rfl rfl
  · exact hok

theorem castVote (hok : LevelOk c) (prop : Proposal) (opinion : Bool) :
    LevelOk (c.castVote prop opinion) := by
  unfold HotStuffCore.castVote
  split
  · exact hok.congr (fun _ => rfl) rfl rfl rfl rfl
  · exact hok

theorem fetch (hok : LevelOk c) (env : Env K) (data : BlockData K) :
    LevelOk (c.addBlk (env.getHash data) (.fetched data)) := by
  have hregs := registers_addBlk c (env.getHash data) (.fetched data)
  cases hs : c.storage (env.getHash data) with
  | some b =>
      rw [c.addBlk_of_isSome (by rw [hs]; rfl)]
      exact hok
  | none =>
      have hblk := c.blk_addBlk_of_none hs (.fetched data)
      refine hok.of_grows (grows_of_trail (addBlk_trail (P := fun _ => True) (fun _ => trivial)))
        (fun x hd => ?_) (congrArg (fun r : Registers K => r.hqc.1) hregs)
        (congrArg Registers.bLock hregs) (congrArg Registers.bExec hregs)
        (congrArg Registers.config hregs) (fun x => ?_)
      · rw [hblk] at hd ⊢
        split
        · rfl
        · rename_i hx
          rw [if_neg hx] at hd
          exact hok.flat x hd
      · rw [hblk]
        split
        · rename_i hx
          rw [hx, c.blk_of_none hs]
          rfl
        · rfl

theorem returns {r r' : Replica K} {i : Input K} (hok : LevelOk r.core) (htree : TreeOk env r.core)
    (hcerts : CertsOk r.core) (hreturns : Returns env r i r') : LevelOk r'.core := by
  cases hreturns with
  | fetch => exact hok.fetch env _
  | deliver hs hres =>
      have hspec := onDeliverBlk_spec env hs
      rw [hres] at hspec
      rcases hspec with ⟨_, rfl⟩ | ⟨hallow, rfl⟩
      · exact hok
      · exact hok.of_grows (grows_apply hallow) (hok.flat.apply (e := .deliver _) trivial hallow)
          rfl rfl rfl rfl (voted_apply hallow id)
  | propose hall hres =>
      rename_i cmds parents extra woken d
      have hd : LevelOk d :=
        hok.propose htree hall (by rw [hcerts.hqc_hash]; exact hcerts.hqc_stored) hres
      cases woken with
      | true => exact hd
      | false => exact hd.congr (fun _ => rfl) rfl rfl rfl rfl
  | receiveProposal hres =>
      rename_i prop opinion woken d
      have hd := hok.receiveProposal htree hres
      cases woken with
      | true => exact hd
      | false => exact (hd.noteProposal prop.blk).castVote prop opinion
  | receiveVote hres => exact hok.receiveVote hres
  | wait =>
      rename_i h
      obtain ⟨w, hw⟩ := asyncQcFinish_eq r.core h
      show LevelOk (r.core.asyncQcFinish h)
      rw [hw]
      exact hok.congr (fun _ => rfl) rfl rfl rfl rfl
  | resume hstep =>
      rcases step_resume hstep with ⟨h, stack, _, rfl⟩ | ⟨h, stack, _, rfl⟩ |
        ⟨prop, opinion, stack, _, rfl⟩
      · exact hok.congr (fun _ => rfl) rfl rfl rfl rfl
      · exact hok.congr (fun _ => rfl) rfl rfl rfl rfl
      · exact (hok.noteProposal prop.blk).castVote prop opinion

end LevelOk

end ArchipelagoHotStuff.Consensus.Levels
