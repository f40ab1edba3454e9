/- Module: ArchipelagoHotStuff/Base/Wakeups
   source: hotstuff.cpp (on_fetch_blk, on_deliver_blk, propose_handler), consensus.cpp (on_propose),
     consensus.h (Proposal::unserialize)
   digest: Blocks come into the storage at three places, only one of which wakes those that wait for
     them: when nobody is left asleep. -/

import ArchipelagoHotStuff.Base.Promises

set_option autoImplicit false
set_option relaxedAutoImplicit false

namespace ArchipelagoHotStuff.Base.Wakeups

open Crypto.Wire Crypto.Certificates Consensus Consensus.State Consensus.Effects Consensus.Tree
open Consensus.Trails Consensus.VoteCount General.Transition Delivery Promises
open Consensus.Machine hiding Input

variable {K : Secp256k1}

/-! Nobody is left asleep. -/

/-- What is waited for has not come, and no delivery waits in vain. -/
structure Awake (s : HotStuffBase K) : Prop where
  fetching : ∀ h ∈ s.blkFetchWaiting, s.fetched h = false
  delivering : ∀ h ∈ s.blkDeliveryWaiting, s.delivered h = false
  kept : ∀ h, s.deliveries.lookup h ≠ some .rejected

section awake

variable {env : Env K} {s s' : HotStuffBase K} {h : Uint256} {d : Stage}

theorem Awake.mono (ha : Awake s) (hfetching : s'.blkFetchWaiting ⊆ s.blkFetchWaiting)
    (hdelivering : s'.blkDeliveryWaiting ⊆ s.blkDeliveryWaiting)
    (hdeliveries : s'.deliveries = s.deliveries)
    (hfetched : ∀ x ∈ s'.blkFetchWaiting, s'.fetched x = s.fetched x)
    (hdelivered : ∀ x ∈ s'.blkDeliveryWaiting, s'.delivered x = s.delivered x) : Awake s' := by
  refine ⟨fun x hx => ?_, fun x hx => ?_, fun x => ?_⟩
  · rw [hfetched x hx]
    exact ha.fetching x (hfetching hx)
  · rw [hdelivered x hx]
    exact ha.delivering x (hdelivering hx)
  · rw [hdeliveries]
    exact ha.kept x

theorem Awake.insert (ha : Awake s) (hd : d ≠ .rejected) :
    Awake { s with deliveries := s.deliveries.insert h d } := by
  refine ⟨ha.fetching, ha.delivering, fun x => ?_⟩
  show (s.deliveries.insert h d).lookup x ≠ some .rejected
  by_cases hx : x = h
  · subst hx
    rw [AList.lookup_insert]
    exact fun heq => hd (Option.some.inj heq)
  · rw [AList.lookup_insert_ne hx]
    exact ha.kept x

theorem Awake.asyncFetchBlk (ha : Awake s) (h : Uint256) : Awake (s.asyncFetchBlk h) := by
  unfold HotStuffBase.asyncFetchBlk
  split
  · exact ha
  · rename_i hnone
    refine ⟨fun x hx => ?_, ha.delivering, ha.kept⟩
    rcases Finset.mem_insert.mp hx with rfl | hx
    · exact (Bool.not_eq_true _).mp hnone
    · exact ha.fetching x hx

theorem Awake.asyncFetchBlks (ha : Awake s) (hs : List Uint256) :
    Awake (hs.foldl HotStuffBase.asyncFetchBlk s) :=
  List.foldlRecOn hs HotStuffBase.asyncFetchBlk ha (fun _ ha h _ => ha.asyncFetchBlk h)

theorem Awake.asyncDeliverBlk (ha : Awake s) (h : Uint256) : Awake (s.asyncDeliverBlk h) := by
  unfold HotStuffBase.asyncDeliverBlk
  split
  · exact ha
  rename_i hnew
  split
  · exact ha
  have hfetch := ha.asyncFetchBlk h
  have hkept : Awake
      { s with
        deliveries := s.deliveries.insert h (if s.fetched h then .fetched else .fetching) } := by
    refine ha.insert ?_
    split
    · nofun
    · nofun
  refine ⟨hfetch.fetching, fun x hx => ?_, hkept.kept⟩
  show (s.asyncFetchBlk h).delivered x = false
  rcases Finset.mem_insert.mp hx with rfl | hx
  · unfold HotStuffBase.delivered HotStuffBase.blk
    rw [replica_asyncFetchBlk]
    exact (Bool.not_eq_true _).mp hnew
  · exact hfetch.delivering x (by rwa [blkDeliveryWaiting_asyncFetchBlk])

theorem Awake.asyncDeliverBlks (ha : Awake s) (hs : List Uint256) :
    Awake (hs.foldl HotStuffBase.asyncDeliverBlk s) :=
  List.foldlRecOn hs HotStuffBase.asyncDeliverBlk ha (fun _ ha h _ => ha.asyncDeliverBlk h)

theorem Awake.beginDelivery (ha : Awake s) (h : Uint256) : Awake (s.beginDelivery env h) :=
  ((ha.asyncFetchBlk _).asyncDeliverBlks _).insert nofun

theorem Awake.await (ha : Awake s) (callback : Callback K) : Awake (s.await callback) := by
  unfold HotStuffBase.await
  split
  · exact ⟨ha.fetching, ha.delivering, ha.kept⟩
  · have hasks := ha.asyncDeliverBlk callback.blk
    exact ⟨hasks.fetching, hasks.delivering, hasks.kept⟩

end awake

section awake

variable {env : Env K} {s s' : HotStuffBase K} {h x : Uint256}

theorem blkFetchWaiting_onFetchBlk (s : HotStuffBase K) (h : Uint256) :
    (s.onFetchBlk h).blkFetchWaiting = s.blkFetchWaiting.erase h := by
  unfold HotStuffBase.onFetchBlk
  split
  · rfl
  · rename_i hnot
    exact (Finset.erase_eq_of_notMem hnot).symm

theorem blkDeliveryWaiting_onFetchBlk (s : HotStuffBase K) (h : Uint256) :
    (s.onFetchBlk h).blkDeliveryWaiting = s.blkDeliveryWaiting := by
  unfold HotStuffBase.onFetchBlk
  split <;> rfl

private theorem kept_mapVals {f : Uint256 → Stage → Stage} {m : Deliveries}
    (hm : ∀ k, m.lookup k ≠ some .rejected) (hf : ∀ k d, f k d = .rejected → d = .rejected)
    (k : Uint256) : (m.mapVals f).lookup k ≠ some .rejected := by
  rw [lookup_mapVals]
  intro heq
  obtain ⟨d, hd, hrej⟩ := Option.map_eq_some_iff.mp heq
  exact hm k (hf k d hrej ▸ hd)

theorem kept_onFetchBlk (hkept : ∀ k, s.deliveries.lookup k ≠ some .rejected) (k : Uint256) :
    (s.onFetchBlk h).deliveries.lookup k ≠ some .rejected := by
  unfold HotStuffBase.onFetchBlk
  split
  · refine kept_mapVals hkept (fun k d heq => ?_) k
    cases d with
    | fetching =>
        replace heq : (if k = h then Stage.fetched else .fetching) = .rejected := heq
        split at heq <;> cases heq
    | rejected => rfl
    | fetched | waiting _ _ _ | failed => cases heq
  · exact hkept k

/-- Once the fetches of the given blocks are resolved only those of others are waited for. -/
theorem onFetchBlks_spec (hkept : ∀ k, s.deliveries.lookup k ≠ some .rejected)
    (hs : List Uint256) :
    (∀ x, x ∈ (hs.foldl HotStuffBase.onFetchBlk s).blkFetchWaiting →
      x ∈ s.blkFetchWaiting ∧ x ∉ hs) ∧
    (hs.foldl HotStuffBase.onFetchBlk s).blkDeliveryWaiting = s.blkDeliveryWaiting ∧
    ∀ k, (hs.foldl HotStuffBase.onFetchBlk s).deliveries.lookup k ≠ some .rejected := by
  induction hs generalizing s with
  | nil => exact ⟨fun x hx => ⟨hx, List.not_mem_nil⟩, rfl, hkept⟩
  | cons h hs ih =>
      obtain ⟨hfetching, hdelivering, hkept'⟩ := ih (s := s.onFetchBlk h) (kept_onFetchBlk hkept)
      refine ⟨fun x hx => ?_, hdelivering.trans (blkDeliveryWaiting_onFetchBlk s h), hkept'⟩
      obtain ⟨hx, hnot⟩ := hfetching x hx
      rw [blkFetchWaiting_onFetchBlk] at hx
      obtain ⟨hne, hx⟩ := Finset.mem_erase.mp hx
      refine ⟨hx, fun hmem => ?_⟩
      rcases List.mem_cons.mp hmem with heq | hmem
      · exact hne heq
      · exact hnot hmem

theorem Awake.respond (ha : Awake s) (blks : List (BlockData K)) :
    Awake ((blks.map env.getHash).foldl HotStuffBase.onFetchBlk (s.addBlks env blks)) := by
  obtain ⟨hfetching, hdelivering, hkept⟩ :=
    onFetchBlks_spec (s := s.addBlks env blks) ha.kept (blks.map env.getHash)
  refine ⟨fun x hx => ?_, fun x hx => ?_, hkept⟩
  · obtain ⟨hx, hnot⟩ := hfetching x hx
    unfold HotStuffBase.fetched
    rw [replica_onFetchBlks]
    exact (fetched_addBlks_ne hnot).trans (ha.fetching x hx)
  · rw [hdelivering] at hx
    unfold HotStuffBase.delivered HotStuffBase.blk
    rw [replica_onFetchBlks]
    exact (delivered_addBlks env s blks x).trans (ha.delivering x hx)

theorem Awake.advanced {j : Consensus.Machine.Input K} (ha : Awake s)
    (hr : ReplicaOk env s.replica) (hadv : Advanced env s j s')
    (hfetching : ∀ x ∈ s.blkFetchWaiting, ¬ Places env s.replica x j)
    (hdelivering : ∀ x ∈ s.blkDeliveryWaiting, ¬ Places env s.replica x j) : Awake s' := by
  have hsame := fun x => elsewhere_of_advanced (x := x) hr hadv
  obtain ⟨replica, _, rfl⟩ := hadv
  exact ha.mono (Finset.Subset.refl _) (Finset.Subset.refl _) rfl
    (fun x hx => (hsame x (hfetching x hx)).1) (fun x hx => (hsame x (hdelivering x hx)).2)

theorem Awake.ended {s₁ : HotStuffBase K} (ha : Awake s) (hok : TablesOk env s)
    (hr : ReplicaOk env s.replica)
    (hlookup : s.deliveries.lookup h = some (.waiting (some true) true []))
    (hadv : Advanced env s (.deliver h) s₁) (hend : Ended h s s₁ s') : Awake s' := by
  have hwaits : Waits env s h (some true) true [] := hok.consistent h _ hlookup
  have hnew : s.delivered h = false := ha.delivering h (hok.waits hlookup)
  have hsame : ∀ x, x ≠ h → s₁.fetched x = s.fetched x ∧ s₁.delivered x = s.delivered x :=
    fun x hne => elsewhere_of_advanced hr hadv (fun heq => hne heq.symm)
  have hfetching : ∀ x ∈ s.blkFetchWaiting, s₁.fetched x = false := by
    intro x hx
    have hnone := ha.fetching x hx
    rw [(hsame x ?_).1]
    · exact hnone
    · rintro rfl
      rw [hwaits.fetched] at hnone
      cases hnone
  obtain ⟨replica, _, rfl⟩ := hadv
  rcases hend with ⟨hd, _⟩ | ⟨_, _, rfl⟩ | ⟨_, hd, rfl⟩
  · rw [hnew] at hd
    cases hd
  · refine ⟨hfetching, fun x hx => ?_, kept_mapVals (fun k heq => ?_) (fun k d heq => ?_)⟩
    · obtain ⟨hne, hx⟩ := Finset.mem_erase.mp hx
      exact (hsame x hne).2.trans (ha.delivering x hx)
    · by_cases hk : k = h
      · subst hk
        rw [AList.lookup_erase] at heq
        cases heq
      · rw [AList.lookup_erase_ne hk] at heq
        exact ha.kept k heq
    · cases d with
      | rejected => rfl
      | fetching | fetched | waiting _ _ _ | failed => cases heq
  · refine ⟨hfetching, fun x hx => ?_, ha.kept⟩
    by_cases hne : x = h
    · rw [hne]
      exact hd
    · exact (hsame x hne).2.trans (ha.delivering x hx)

/-- Blocks come where somebody waits for them only in a `MsgRespBlock`. -/
def Wakes (env : Env K) (s : HotStuffBase K) : Input K → Prop
  | .msgPropose _ data => env.getHash data ∉ s.blkFetchWaiting
  | .propose cmds parents extra =>
      let h := env.getHash (s.replica.core.newData cmds parents extra)
      parents ≠ [] → h ∉ s.blkFetchWaiting ∧ h ∉ s.blkDeliveryWaiting
  | _ => True

theorem Awake.moved {i : Input K} (ha : Awake s) (hok : TablesOk env s)
    (hr : ReplicaOk env s.replica) (hwakes : Wakes env s i) (hmoved : Moved env s i s') :
    Awake s' := by
  cases i with
  | msgPropose proposer data =>
      obtain ⟨_, rfl⟩ := hmoved
      have ha₁ : Awake (s.addBlks env [data]) := by
        refine ha.mono (Finset.Subset.refl _) (Finset.Subset.refl _) rfl
          (fun x hx => fetched_addBlks_ne ?_) (fun x _ => delivered_addBlks env s [data] x)
        intro hmem
        rw [List.map_cons, List.map_nil, List.mem_singleton] at hmem
        exact hwakes (hmem ▸ hx)
      exact ha₁.await _
  | msgVote vote =>
      obtain rfl := hmoved
      exact ha.await _
  | msgReqBlock blkHashes =>
      obtain rfl := hmoved
      exact ha.asyncFetchBlks blkHashes
  | msgRespBlock blks =>
      obtain ⟨_, rfl⟩ := hmoved
      exact ha.respond blks
  | onFetched h =>
      obtain ⟨_, rfl⟩ := hmoved
      exact ha.beginDelivery h
  | onVerified h =>
      obtain ⟨_, _, _, _, _, rfl⟩ := hmoved
      exact ha.insert nofun
  | onReady h =>
      rcases hmoved with ⟨_, rfl⟩ | ⟨hlookup, s₁, hadv, hend⟩
      · exact ha.insert nofun
      · exact ha.ended hok hr hlookup hadv hend
  | handle n =>
      obtain ⟨callback, _, hhandled⟩ := hmoved
      have ha₁ : Awake { s with resolved := s.resolved.eraseIdx n } :=
        ⟨ha.fetching, ha.delivering, ha.kept⟩
      cases callback with
      | proposal prop => exact ha₁.advanced hr hhandled (fun _ _ => id) (fun _ _ => id)
      | vote vote =>
          rcases hhandled with rfl | ⟨_, hadv⟩
          · exact ha₁
          · exact ha₁.advanced hr hadv (fun _ _ => id) (fun _ _ => id)
  | propose cmds parents extra =>
      refine ha.advanced hr hmoved ?_ ?_
      · rintro x hx ⟨hne, rfl⟩
        exact (hwakes hne).1 hx
      · rintro x hx ⟨hne, rfl⟩
        exact (hwakes hne).2 hx
  | wait h => exact ha.advanced hr hmoved (fun _ _ => id) (fun _ _ => id)
  | resume => exact ha.advanced hr hmoved (fun _ _ => id) (fun _ _ => id)

end awake

/-! What is complete is delivered. -/

def Asked (s : HotStuffBase K) (h : Uint256) : Prop :=
  s.delivered h = true ∨ h ∈ s.blkDeliveryWaiting

/-- The block, the one its certificate names and its ancestors are all stored and verified. -/
inductive Complete (env : Env K) (s : HotStuffBase K) : Uint256 → Prop
  | delivered {h : Uint256} (hd : s.delivered h = true) : Complete env s h
  | verified {h : Uint256} (hfetched : s.fetched h = true)
      (hqc : s.fetched (s.blk h).data.qc.objHash = true)
      (hvalid : verifyBlk env s.replica.core.config (s.blk h).data = .ok true)
      (hpool : ∀ qcFetched parents,
        s.deliveries.lookup h ≠ some (.waiting none qcFetched parents))
      (hparents : ∀ p ∈ (s.blk h).data.parentHashes, Complete env s p) : Complete env s h

section reachable

variable {env : Env K} {keys : List K.PrivKey} {id : ReplicaID} {key : K.PrivKey}
  {voteDisabled : Bool} {s : HotStuffBase K} {h : Uint256}

theorem Awake.start (config : ReplicaConfig K) :
    Awake (HotStuffBase.start env config id key voteDisabled) :=
  ⟨fun _ hh => absurd hh (Finset.notMem_empty _), fun _ hh => absurd hh (Finset.notMem_empty _),
    nofun⟩

theorem awake_of_reachable
    (hs : Reachable ((base env keys id key voteDisabled).restrict (Wakes env)) s) : Awake s := by
  refine hs.invariant ?_ (fun s i s' hs ha hstep => ?_)
  · rintro s rfl
    exact .start _
  · have hbase := hs.of_restrict
    exact ha.moved (tablesOk_of_base hbase) (replicaOk_of_base hbase) hstep.1
      (moved_of_step hstep.2)

theorem quiet_iff : s.quiet = true ↔ s.replica.stack = [] ∧
    (∀ h ∈ s.deliveries, s.deliveries.lookup h ≠ some .fetched ∧ s.ready h = none) ∧
    ∀ callback ∈ s.resolved, callback.isVote = true := by
  unfold HotStuffBase.quiet
  rw [Bool.and_eq_true, Bool.and_eq_true, List.isEmpty_iff, List.all_eq_true, List.all_eq_true,
    and_assoc]
  simp only [Bool.and_eq_true, decide_eq_true_eq, Option.isNone_iff_eq_none]
  rfl

theorem Awake.delivered_of_complete (ha : Awake s) (hok : TablesOk env s) (hq : s.quiet = true)
    (hc : Complete env s h) (hasked : Asked s h) : s.delivered h = true := by
  obtain ⟨_, hidle, _⟩ := quiet_iff.mp hq
  induction hc with
  | delivered hd => exact hd
  | @verified h hfetched hqc hvalid hpool _ ih =>
      rcases hasked with hd | hwaiting
      · exact hd
      have hmem := (hok.begun h).mp hwaiting
      obtain ⟨d, hd⟩ := Option.isSome_iff_exists.mp (AList.lookup_isSome.mpr hmem)
      have hcons := hok.consistent h d hd
      cases d with
      | fetching =>
          have hnone := ha.fetching h hcons
          rw [hfetched] at hnone
          cases hnone
      | fetched => exact absurd hd (hidle h hmem).1
      | failed =>
          have hfails := hvalid.symm.trans hcons.2
          cases hfails
      | rejected => exact absurd hd (ha.kept h)
      | waiting valid qcFetched parents =>
          cases valid with
          | none => exact absurd hd (hpool qcFetched parents)
          | some b =>
              have hqcFetched : qcFetched = true := by
                cases qcFetched with
                | true => rfl
                | false =>
                    have hnone := ha.fetching _ (hcons.fetchesQc rfl)
                    rw [hqc] at hnone
                    cases hnone
              have hparents : parents = [] := by
                refine List.eq_nil_iff_forall_not_mem.mpr (fun p hp => ?_)
                obtain ⟨hparent, hwaits⟩ := hcons.pending p hp
                have hdelivered := ih p hparent (.inr hwaits)
                rw [ha.delivering p hwaits] at hdelivered
                cases hdelivered
              subst hqcFetched hparents
              have hready := ready_eq_some.mpr hd
              rw [(hidle h hmem).2] at hready
              cases hready

/-- While blocks come where somebody waits for them only in a `MsgRespBlock`, no block is both
there and waited for, and between two handlers every block that has been asked for and is complete
is delivered. -/
theorem no_lost_wakeup
    (hs : Reachable ((base env keys id key voteDisabled).restrict (Wakes env)) s) :
    (∀ h ∈ s.blkFetchWaiting, s.fetched h = false) ∧
      (s.quiet = true → ∀ h, Asked s h → Complete env s h → s.delivered h = true) :=
  ⟨(awake_of_reachable hs).fetching, fun hq _ hasked hc =>
    (awake_of_reachable hs).delivered_of_complete (tablesOk_of_base hs.of_restrict) hq hc hasked⟩

end reachable

instance (env : Env K) (s : HotStuffBase K) (i : Input K) : Decidable (Wakes env s i) :=
  match i with
  | .msgPropose _ data => inferInstanceAs (Decidable (env.getHash data ∉ s.blkFetchWaiting))
  | .propose cmds parents extra =>
      inferInstanceAs (Decidable (parents ≠ [] →
        env.getHash (s.replica.core.newData cmds parents extra) ∉ s.blkFetchWaiting ∧
          env.getHash (s.replica.core.newData cmds parents extra) ∉ s.blkDeliveryWaiting))
  | .msgVote _ | .msgReqBlock _ | .msgRespBlock _ | .onFetched _ | .onVerified _ | .onReady _
  | .handle _ | .wait _ | .resume => isTrue trivial

def secondBlock : BlockData clearScheme := ⟨[1], [2], QuorumCert.create peerConfig 0, []⟩

/-- Block 2 is proposed to a replica that then asks for block 1. -/
def wokenReplica : HotStuffBase clearScheme :=
  (execute (guarded (Wakes (clearEnv false)) (HotStuffBase.step (clearEnv false)))
    [.msgPropose 1 secondBlock, .onFetched 2, .msgReqBlock [5], .msgRespBlock [firstBlock],
      .onFetched 1, .onReady 1, .onReady 2, .handle 0]
    peerStart).get (by decide +kernel)

theorem wokenReplica_reachable :
    Reachable ((base (clearEnv false) peerKeys 0 (0 : Nat) false).restrict
      (Wakes (clearEnv false))) wokenReplica :=
  Reachable.trans (.init rfl)
    (steps_of_execute (fun _ _ _ h => guarded_eq_some h) (Option.some_get _).symm)

theorem no_lost_wakeup_peer :
    (wokenReplica.quiet = true ∧ wokenReplica.delivered 2 = true ∧
        5 ∈ wokenReplica.blkFetchWaiting) ∧
      (∀ h ∈ wokenReplica.blkFetchWaiting, wokenReplica.fetched h = false) ∧
      (wokenReplica.quiet = true → ∀ h, Asked wokenReplica h →
        Complete (clearEnv false) wokenReplica h → wokenReplica.delivered h = true) :=
  ⟨by decide +kernel, no_lost_wakeup wokenReplica_reachable⟩

/-- A vote for block 1 arrives before the proposal that carries the block. -/
def sleepingReplica : HotStuffBase clearScheme :=
  (execute (HotStuffBase.step (clearEnv false)) [.msgVote (voteOf 3), .msgPropose 1 firstBlock]
    peerStart).get (by decide +kernel)

/-- The block is there, and still waited for; it is never delivered although nothing is missing. -/
theorem early_vote_sleeps :
    Reachable (base (clearEnv false) peerKeys 0 (0 : Nat) false) sleepingReplica ∧
      sleepingReplica.quiet = true ∧ sleepingReplica.fetched 1 = true ∧
      1 ∈ sleepingReplica.blkFetchWaiting ∧ Asked sleepingReplica 1 ∧
      Complete (clearEnv false) sleepingReplica 1 ∧ sleepingReplica.delivered 1 = false := by
  refine ⟨Reachable.trans (.init rfl)
    (steps_of_execute (fun _ _ _ h => h) (Option.some_get _).symm), by decide +kernel,
    by decide +kernel, by decide +kernel, .inr (by decide +kernel), ?_, by decide +kernel⟩
  have hlookup : sleepingReplica.deliveries.lookup 1 = some .fetching := by decide +kernel
  have hparents : (sleepingReplica.blk 1).data.parentHashes = [0] := by decide +kernel
  refine .verified (by decide +kernel) (by decide +kernel) (by decide +kernel)
    (fun qcFetched parents heq => ?_) (fun p hp => ?_)
  · rw [hlookup] at heq
    cases heq
  · rw [hparents] at hp
    rw [List.mem_singleton.mp hp]
    exact .delivered (by decide +kernel)

/-- The replica proposes block 1 and hears of enough votes for it. -/
def certifiedReplica : HotStuffBase clearScheme :=
  (execute (HotStuffBase.step (clearEnv false))
    [.propose [1] [0] [], .resume, .msgVote (voteOf 1), .handle 0, .msgVote (voteOf 2), .handle 0]
    peerStart).get (by decide +kernel)

/-- Block 2, as the replica would propose it now, arrives with a child, and is proposed while the
pool verifies it. -/
def rejectedReplica : HotStuffBase clearScheme :=
  (execute (HotStuffBase.step (clearEnv false))
    [.msgPropose 1 ⟨[2], [3], QuorumCert.create peerConfig 0, []⟩, .onFetched 3,
      .msgRespBlock [certifiedReplica.replica.core.newData [2] [1] []], .onFetched 2,
      .propose [2] [1] [], .resume, .onVerified 2, .onReady 2]
    certifiedReplica).get (by decide +kernel)

/-- Block 2 is delivered by `on_propose`, and its promise is rejected: the child is lost. -/
theorem rebuilt_parent_sleeps :
    Reachable (base (clearEnv false) peerKeys 0 (0 : Nat) false) rejectedReplica ∧
      rejectedReplica.quiet = true ∧ Asked rejectedReplica 3 ∧
      Complete (clearEnv false) rejectedReplica 3 ∧ rejectedReplica.delivered 3 = false := by
  refine ⟨Reachable.trans (Reachable.trans (.init rfl)
      (steps_of_execute (fun _ _ _ h => h) (Option.some_get _).symm))
    (steps_of_execute (fun _ _ _ h => h) (Option.some_get _).symm), by decide +kernel,
    .inr (by decide +kernel), ?_, by decide +kernel⟩
  have hlookup : rejectedReplica.deliveries.lookup 3 = some .rejected := by decide +kernel
  have hparents : (rejectedReplica.blk 3).data.parentHashes = [2] := by decide +kernel
  refine .verified (by decide +kernel) (by decide +kernel) (by decide +kernel)
    (fun qcFetched parents heq => ?_) (fun p hp => ?_)
  · rw [hlookup] at heq
    cases heq
  · rw [hparents] at hp
    rw [List.mem_singleton.mp hp]
    exact .delivered (by decide +kernel)

end ArchipelagoHotStuff.Base.Wakeups
