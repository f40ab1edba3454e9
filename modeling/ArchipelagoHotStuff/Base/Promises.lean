/- Module: ArchipelagoHotStuff/Base/Promises
   source: hotstuff.cpp (on_fetch_blk, on_deliver_blk, async_fetch_blk, async_deliver_blk)
   digest: The tables of promises agree with the blocks, whatever arrives and in which order, and
     the core takes only steps that its machine can take. -/

import ArchipelagoHotStuff.Base.Delivery

set_option autoImplicit false
set_option relaxedAutoImplicit false

namespace ArchipelagoHotStuff.Base.Promises

open Crypto.Wire Crypto.Certificates Consensus Consensus.State Consensus.Effects Consensus.Tree
open Consensus.Trails Consensus.VoteCount General.Transition Delivery
open Consensus.Machine hiding Input

variable {K : Secp256k1}

/-! What only grows. -/

/-- Stored blocks stay with what they contain, and delivered ones stay delivered. -/
structure CoreLe (c c' : HotStuffCore K) : Prop where
  stored : ∀ h, (c.storage h).isSome → (c'.storage h).isSome
  data : ∀ h, (c.storage h).isSome → (c'.blk h).data = (c.blk h).data
  delivered : ∀ h, (c.blk h).delivered = true → (c'.blk h).delivered = true
  config : c'.config = c.config

section core

variable {env : Env K} {c c' c'' : HotStuffCore K} {e : Effect K} {P : Effect K → Prop}

theorem CoreLe.refl (c : HotStuffCore K) : CoreLe c c :=
  ⟨fun _ => id, fun _ _ => rfl, fun _ => id, rfl⟩

theorem CoreLe.trans (h : CoreLe c c') (h' : CoreLe c' c'') : CoreLe c c'' where
  stored k hs := h'.stored k (h.stored k hs)
  data k hs := (h'.data k (h.stored k hs)).trans (h.data k hs)
  delivered k hd := h'.delivered k (h.delivered k hd)
  config := h'.config.trans h.config

theorem data_apply (he : Allowed env c e) {h : Uint256} (hs : (c.storage h).isSome) :
    ((Effects.apply env c e).blk h).data = (c.blk h).data := by
  have hne : ∀ {k : Uint256}, c.storage k = none → h ≠ k := by
    rintro k hnone rfl
    rw [hnone] at hs
    cases hs
  by_cases hshape : Shapes e
  swap
  · exact congrArg Node.data (node_blk_eq (map_node_apply hshape h))
  cases e with
  | store data => exact congrArg Block.data (blk_store_ne he (hne he))
  | create data => exact congrArg Block.data (blk_createBlk_ne (hne he.1))
  | deliver k => exact c.field_modifyBlk Block.data k h (fun _ => rfl)
  | spoil k parents height => exact c.field_modifyBlk Block.data k h (fun _ => rfl)
  | _ => exact absurd hshape id

theorem coreLe_apply (he : Allowed env c e) : CoreLe c (Effects.apply env c e) :=
  ⟨(grows_apply he).stored, fun _ => data_apply he, fun _ => (grows_apply he).delivered,
    config_apply env c⟩

theorem coreLe_of_trail (h : Trail env P c c') : CoreLe c c' :=
  Trail.invariant (I := CoreLe c) h (.refl c) (fun _ _ _ hle he => hle.trans (coreLe_apply he))

theorem coreLe_addBlk (data : BlockData K) :
    CoreLe c (c.addBlk (env.getHash data) (.fetched data)) :=
  coreLe_of_trail (addBlk_trail (P := fun _ => True) (fun _ => trivial))

theorem isSome_addBlk (h : Uint256) (b : Block K) : ((c.addBlk h b).storage h).isSome := by
  cases hs : (c.storage h).isSome with
  | true =>
      rw [c.addBlk_of_isSome hs]
      exact hs
  | false =>
      rw [c.storage_addBlk_of_none (Option.not_isSome_iff_eq_none.mp (by rw [hs]; nofun)),
        if_pos rfl]
      rfl

theorem coreLe_addBlks (env : Env K) (blks : List (BlockData K)) (c : HotStuffCore K) :
    CoreLe c (blks.foldl (fun c data => c.addBlk (env.getHash data) (.fetched data)) c) := by
  induction blks generalizing c with
  | nil => exact .refl c
  | cons data blks ih => exact (coreLe_addBlk data).trans (ih _)

end core

/-- The blocks grow, and nothing waits less. -/
structure Le (s s' : HotStuffBase K) : Prop where
  core : CoreLe s.replica.core s'.replica.core
  fetching : s.blkFetchWaiting ⊆ s'.blkFetchWaiting
  delivering : s.blkDeliveryWaiting ⊆ s'.blkDeliveryWaiting

/-- What holds of a block whose delivery waits for the given promises. -/
structure Waits (env : Env K) (s : HotStuffBase K) (h : Uint256) (valid : Option Bool)
    (qcFetched : Bool) (parents : List Uint256) : Prop where
  fetched : s.fetched h
  verified : ∀ b, valid = some b → verifyBlk env s.replica.core.config (s.blk h).data = .ok b
  fetchesQc : qcFetched = false → (s.blk h).data.qc.objHash ∈ s.blkFetchWaiting
  hasQc : qcFetched = true → s.fetched (s.blk h).data.qc.objHash
  hasParents : ∀ p ∈ (s.blk h).data.parentHashes, p ∈ parents ∨ s.delivered p
  pending : ∀ p ∈ parents, p ∈ (s.blk h).data.parentHashes ∧ p ∈ s.blkDeliveryWaiting

/-- What a delivery has to show for how far it has come. -/
def Consistent (env : Env K) (s : HotStuffBase K) (h : Uint256) : Stage → Prop
  | .fetching => h ∈ s.blkFetchWaiting
  | .fetched => s.fetched h
  | .waiting valid qcFetched parents => Waits env s h valid qcFetched parents
  | .failed => s.fetched h ∧ verifyBlk env s.replica.core.config (s.blk h).data = .ok false
  | .rejected => True

/-- The deliveries that are waited for are those that have begun, each as far as the tables say. -/
structure TablesOk (env : Env K) (s : HotStuffBase K) : Prop where
  begun : ∀ h, h ∈ s.blkDeliveryWaiting ↔ h ∈ s.deliveries
  consistent : ∀ h d, s.deliveries.lookup h = some d → Consistent env s h d

section tables

variable {env : Env K} {s s' s'' : HotStuffBase K} {h : Uint256} {d : Stage}

theorem lookup_mapVals (f : Uint256 → Stage → Stage) (m : Deliveries) (k : Uint256) :
    (m.mapVals f).lookup k = (m.lookup k).map (f k) :=
  List.dlookup_map₂ k

theorem mem_mapVals {f : Uint256 → Stage → Stage} {m : Deliveries} {k : Uint256} :
    k ∈ m.mapVals f ↔ k ∈ m := by
  rw [← AList.lookup_isSome, ← AList.lookup_isSome, lookup_mapVals, Option.isSome_map]

theorem TablesOk.waits (hok : TablesOk env s) (hlookup : s.deliveries.lookup h = some d) :
    h ∈ s.blkDeliveryWaiting :=
  (hok.begun h).mpr (AList.lookup_isSome.mp (by rw [hlookup]; rfl))

theorem Le.refl (s : HotStuffBase K) : Le s s :=
  ⟨.refl _, Finset.Subset.refl _, Finset.Subset.refl _⟩

theorem Le.trans (hle : Le s s') (hle' : Le s' s'') : Le s s'' :=
  ⟨hle.core.trans hle'.core, hle.fetching.trans hle'.fetching,
    hle.delivering.trans hle'.delivering⟩

theorem Le.of_eq (hreplica : s'.replica = s.replica)
    (hfetching : s'.blkFetchWaiting = s.blkFetchWaiting)
    (hdelivering : s'.blkDeliveryWaiting = s.blkDeliveryWaiting) : Le s s' := by
  refine ⟨?_, ?_, ?_⟩
  · rw [hreplica]
    exact .refl _
  · rw [hfetching]
  · rw [hdelivering]

theorem Consistent.mono (hd : Consistent env s h d) (hle : Le s s') : Consistent env s' h d := by
  have hblk : s.fetched h → (s'.blk h).data = (s.blk h).data := hle.core.data h
  cases d with
  | fetching => exact hle.fetching hd
  | fetched => exact hle.core.stored h hd
  | waiting valid qcFetched parents =>
      have hdata := hblk hd.fetched
      refine ⟨hle.core.stored h hd.fetched, ?_, ?_, ?_, ?_, ?_⟩
      · rw [hdata, hle.core.config]
        exact hd.verified
      · rw [hdata]
        exact fun hf => hle.fetching (hd.fetchesQc hf)
      · rw [hdata]
        exact fun ht => hle.core.stored _ (hd.hasQc ht)
      · rw [hdata]
        exact fun p hp => (hd.hasParents p hp).imp_right (hle.core.delivered p)
      · rw [hdata]
        exact fun p hp => ⟨(hd.pending p hp).1, hle.delivering (hd.pending p hp).2⟩
  | failed =>
      refine ⟨hle.core.stored h hd.1, ?_⟩
      rw [hblk hd.1, hle.core.config]
      exact hd.2
  | rejected => exact trivial

theorem TablesOk.mono (hok : TablesOk env s) (hle : Le s s')
    (hwaiting : s'.blkDeliveryWaiting = s.blkDeliveryWaiting)
    (hdeliveries : s'.deliveries = s.deliveries) : TablesOk env s' := by
  refine ⟨fun h => ?_, fun h d hd => ?_⟩
  · rw [hwaiting, hdeliveries]
    exact hok.begun h
  · rw [hdeliveries] at hd
    exact (hok.consistent h d hd).mono hle

theorem TablesOk.insert (hok : TablesOk env s) (hle : Le s s')
    (hwaiting : s'.blkDeliveryWaiting = insert h s.blkDeliveryWaiting)
    (hdeliveries : s'.deliveries = s.deliveries.insert h d) (hd : Consistent env s' h d) :
    TablesOk env s' := by
  refine ⟨fun k => ?_, fun k d' hk => ?_⟩
  · rw [hwaiting, hdeliveries, Finset.mem_insert, AList.mem_insert, hok.begun k]
  · rw [hdeliveries] at hk
    by_cases hkh : k = h
    · subst hkh
      rw [AList.lookup_insert] at hk
      cases hk
      exact hd
    · rw [AList.lookup_insert_ne hkh] at hk
      exact (hok.consistent k d' hk).mono hle

theorem TablesOk.erase {f : Stage → Stage} (hok : TablesOk env s)
    (hwaiting : s'.blkDeliveryWaiting = s.blkDeliveryWaiting.erase h)
    (hdeliveries : s'.deliveries = Deliveries.mapVals (fun _ => f) (s.deliveries.erase h))
    (hf : ∀ k d, Consistent env s k d → Consistent env s' k (f d)) : TablesOk env s' := by
  refine ⟨fun k => ?_, fun k d' hk => ?_⟩
  · rw [hwaiting, hdeliveries, mem_mapVals, AList.mem_erase, Finset.mem_erase, hok.begun k]
  · rw [hdeliveries, lookup_mapVals] at hk
    obtain ⟨d, hd, rfl⟩ := Option.map_eq_some_iff.mp hk
    by_cases hkh : k = h
    · subst hkh
      rw [AList.lookup_erase] at hd
      cases hd
    · rw [AList.lookup_erase_ne hkh] at hd
      exact hf k d (hok.consistent k d hd)

end tables

/-! The operations on the tables. -/

section operations

variable {env : Env K} {s s' : HotStuffBase K} {h : Uint256}

@[simp] theorem replica_asyncFetchBlk (s : HotStuffBase K) (h : Uint256) :
    (s.asyncFetchBlk h).replica = s.replica := by
  unfold HotStuffBase.asyncFetchBlk
  split <;> rfl

@[simp] theorem blkDeliveryWaiting_asyncFetchBlk (s : HotStuffBase K) (h : Uint256) :
    (s.asyncFetchBlk h).blkDeliveryWaiting = s.blkDeliveryWaiting := by
  unfold HotStuffBase.asyncFetchBlk
  split <;> rfl

@[simp] theorem deliveries_asyncFetchBlk (s : HotStuffBase K) (h : Uint256) :
    (s.asyncFetchBlk h).deliveries = s.deliveries := by
  unfold HotStuffBase.asyncFetchBlk
  split <;> rfl

theorem le_asyncFetchBlk (s : HotStuffBase K) (h : Uint256) : Le s (s.asyncFetchBlk h) := by
  unfold HotStuffBase.asyncFetchBlk
  split
  · exact .refl s
  · exact ⟨.refl _, Finset.subset_insert _ _, Finset.Subset.refl _⟩

theorem mem_asyncFetchBlk (hnone : s.fetched h = false) :
    h ∈ (s.asyncFetchBlk h).blkFetchWaiting := by
  unfold HotStuffBase.asyncFetchBlk
  rw [hnone]
  exact Finset.mem_insert_self _ _

theorem TablesOk.asyncFetchBlk (hok : TablesOk env s) (h : Uint256) :
    TablesOk env (s.asyncFetchBlk h) :=
  hok.mono (le_asyncFetchBlk s h) (blkDeliveryWaiting_asyncFetchBlk s h)
    (deliveries_asyncFetchBlk s h)

theorem TablesOk.asyncFetchBlks (hok : TablesOk env s) (hs : List Uint256) :
    TablesOk env (hs.foldl HotStuffBase.asyncFetchBlk s) :=
  List.foldlRecOn hs HotStuffBase.asyncFetchBlk hok (fun _ hok h _ => hok.asyncFetchBlk h)

@[simp] theorem replica_asyncDeliverBlk (s : HotStuffBase K) (h : Uint256) :
    (s.asyncDeliverBlk h).replica = s.replica := by
  unfold HotStuffBase.asyncDeliverBlk
  split
  · rfl
  · split
    · rfl
    · exact replica_asyncFetchBlk s h

theorem le_asyncDeliverBlk (s : HotStuffBase K) (h : Uint256) : Le s (s.asyncDeliverBlk h) := by
  unfold HotStuffBase.asyncDeliverBlk
  split
  · exact .refl s
  · split
    · exact .refl s
    · have hle := le_asyncFetchBlk s h
      exact ⟨hle.core, hle.fetching, Finset.subset_insert _ _⟩

theorem mem_asyncDeliverBlk (hnew : s.delivered h = false) :
    h ∈ (s.asyncDeliverBlk h).blkDeliveryWaiting := by
  unfold HotStuffBase.asyncDeliverBlk
  rw [hnew]
  split
  · rename_i hfalse
    cases hfalse
  · split
    · assumption
    · exact Finset.mem_insert_self _ _

theorem TablesOk.asyncDeliverBlk (hok : TablesOk env s) (h : Uint256) :
    TablesOk env (s.asyncDeliverBlk h) := by
  have hle := le_asyncDeliverBlk s h
  revert hle
  unfold HotStuffBase.asyncDeliverBlk
  split
  · exact fun _ => hok
  split
  · exact fun _ => hok
  intro hle
  refine hok.insert hle rfl rfl ?_
  cases hf : s.fetched h with
  | true => exact hle.core.stored h hf
  | false => exact mem_asyncFetchBlk hf

theorem replica_asyncDeliverBlks (s : HotStuffBase K) (hs : List Uint256) :
    (hs.foldl HotStuffBase.asyncDeliverBlk s).replica = s.replica :=
  List.foldlRecOn (motive := fun t => t.replica = s.replica) hs HotStuffBase.asyncDeliverBlk rfl
    (fun t ht h _ => (replica_asyncDeliverBlk t h).trans ht)

theorem le_asyncDeliverBlks (s : HotStuffBase K) (hs : List Uint256) :
    Le s (hs.foldl HotStuffBase.asyncDeliverBlk s) :=
  List.foldlRecOn hs HotStuffBase.asyncDeliverBlk (.refl s)
    (fun t ht h _ => ht.trans (le_asyncDeliverBlk t h))

theorem mem_asyncDeliverBlks {hs : List Uint256} (hmem : h ∈ hs) (hnew : s.delivered h = false) :
    h ∈ (hs.foldl HotStuffBase.asyncDeliverBlk s).blkDeliveryWaiting := by
  induction hs generalizing s with
  | nil => cases hmem
  | cons k hs ih =>
      rcases List.mem_cons.mp hmem with rfl | hmem
      · exact (le_asyncDeliverBlks _ hs).delivering (mem_asyncDeliverBlk hnew)
      · refine ih hmem ?_
        unfold HotStuffBase.delivered HotStuffBase.blk
        rw [replica_asyncDeliverBlk]
        exact hnew

theorem TablesOk.asyncDeliverBlks (hok : TablesOk env s) (hs : List Uint256) :
    TablesOk env (hs.foldl HotStuffBase.asyncDeliverBlk s) :=
  List.foldlRecOn hs HotStuffBase.asyncDeliverBlk hok (fun _ hok h _ => hok.asyncDeliverBlk h)

theorem TablesOk.await (hok : TablesOk env s) (callback : Callback K) :
    TablesOk env (s.await callback) := by
  unfold HotStuffBase.await
  split
  · exact hok.mono (.of_eq rfl rfl rfl) rfl rfl
  · exact (hok.asyncDeliverBlk callback.blk).mono (.of_eq rfl rfl rfl) rfl rfl

theorem le_beginDelivery (env : Env K) (s : HotStuffBase K) (h : Uint256) :
    Le s (s.beginDelivery env h) := by
  have hle := (le_asyncFetchBlk s (s.blk h).data.qc.objHash).trans
    (le_asyncDeliverBlks _ (s.blk h).data.parentHashes)
  exact ⟨hle.core, hle.fetching, hle.delivering⟩

theorem replica_beginDelivery (env : Env K) (s : HotStuffBase K) (h : Uint256) :
    (s.beginDelivery env h).replica = s.replica :=
  (replica_asyncDeliverBlks _ _).trans (replica_asyncFetchBlk _ _)

theorem TablesOk.beginDelivery (hok : TablesOk env s)
    (hlookup : s.deliveries.lookup h = some .fetched) : TablesOk env (s.beginDelivery env h) := by
  have hfetched : s.fetched h = true := hok.consistent h .fetched hlookup
  have hblk : ∀ k, (s.beginDelivery env h).blk k = s.blk k := by
    intro k
    unfold HotStuffBase.blk
    rw [replica_beginDelivery]
  have hle : Le s (s.beginDelivery env h) := le_beginDelivery env s h
  have hwaits : h ∈ s.blkDeliveryWaiting := hok.waits hlookup
  refine TablesOk.insert (h := h)
    ((hok.asyncFetchBlk (s.blk h).data.qc.objHash).asyncDeliverBlks (s.blk h).data.parentHashes)
    (.of_eq rfl rfl rfl) (Finset.insert_eq_of_mem (hle.delivering hwaits)).symm rfl ?_
  refine ⟨hle.core.stored h hfetched, fun b hb => ?_, fun hf => ?_, fun ht => ?_, fun p hp => ?_,
    fun p hp => ?_⟩
  · split at hb
    · rename_i hgenesis
      cases hb
      rw [hblk]
      exact if_pos hgenesis
    · cases hb
  · rw [hblk]
    exact (le_asyncDeliverBlks _ _).fetching (mem_asyncFetchBlk hf)
  · rw [hblk]
    exact hle.core.stored _ ht
  · rw [hblk] at hp
    cases hd : s.delivered p with
    | true => exact .inr (hle.core.delivered p hd)
    | false => exact .inl (List.mem_filter.mpr ⟨hp, by rw [hd]; rfl⟩)
  · obtain ⟨hp, hd⟩ := List.mem_filter.mp hp
    rw [hblk]
    refine ⟨hp, mem_asyncDeliverBlks hp ?_⟩
    unfold HotStuffBase.delivered HotStuffBase.blk
    rw [replica_asyncFetchBlk]
    exact (Bool.not_eq_true' _).mp hd

@[simp] theorem replica_onFetchBlk (s : HotStuffBase K) (h : Uint256) :
    (s.onFetchBlk h).replica = s.replica := by
  unfold HotStuffBase.onFetchBlk
  split <;> rfl

theorem TablesOk.onFetchBlk (hok : TablesOk env s) (hfetched : s.fetched h = true) :
    TablesOk env (s.onFetchBlk h) := by
  unfold HotStuffBase.onFetchBlk
  split
  swap
  · exact hok
  refine ⟨fun k => (hok.begun k).trans mem_mapVals.symm, fun k d' hk => ?_⟩
  replace hk : (s.deliveries.mapVals
      (fun k d => d.onFetch h k (s.blk k).data.qc.objHash)).lookup k = some d' := hk
  rw [lookup_mapVals] at hk
  obtain ⟨d, hd, rfl⟩ := Option.map_eq_some_iff.mp hk
  have hold := hok.consistent k d hd
  cases d with
  | fetching =>
      show Consistent env _ k (if k = h then .fetched else .fetching)
      split
      · rename_i heq
        rw [heq]
        exact hfetched
      · rename_i hne
        exact Finset.mem_erase.mpr ⟨hne, hold⟩
  | fetched => exact hold
  | waiting valid qcFetched parents =>
      refine ⟨hold.fetched, hold.verified, fun hf => ?_, fun ht => ?_, hold.hasParents,
        hold.pending⟩
      · rw [Bool.or_eq_false_iff, decide_eq_false_iff_not] at hf
        exact Finset.mem_erase.mpr ⟨hf.2, hold.fetchesQc hf.1⟩
      · rw [Bool.or_eq_true, decide_eq_true_eq] at ht
        rcases ht with ht | heq
        · exact hold.hasQc ht
        · show s.fetched (s.blk k).data.qc.objHash = true
          rw [heq]
          exact hfetched
  | failed => exact hold
  | rejected => exact trivial

theorem TablesOk.onFetchBlks {hs : List Uint256} (hok : TablesOk env s)
    (hfetched : ∀ h ∈ hs, s.fetched h = true) :
    TablesOk env (hs.foldl HotStuffBase.onFetchBlk s) := by
  induction hs generalizing s with
  | nil => exact hok
  | cons h hs ih =>
      refine ih (hok.onFetchBlk (hfetched h List.mem_cons_self)) (fun k hk => ?_)
      unfold HotStuffBase.fetched
      rw [replica_onFetchBlk]
      exact hfetched k (List.mem_cons_of_mem h hk)

theorem TablesOk.resolve (hok : TablesOk env s) (hd : s.delivered h = true) :
    TablesOk env (s.resolve h) := by
  refine hok.erase (h := h) rfl rfl (fun k d hold => ?_)
  cases d with
  | waiting valid qcFetched parents =>
      refine ⟨hold.fetched, hold.verified, hold.fetchesQc, hold.hasQc, fun p hp => ?_,
        fun p hp => ?_⟩
      · by_cases heq : p = h
        · exact .inr (heq ▸ hd)
        · exact (hold.hasParents p hp).imp_left
            (fun hmem => List.mem_filter.mpr ⟨hmem, decide_eq_true heq⟩)
      · obtain ⟨hmem, hne⟩ := List.mem_filter.mp hp
        obtain ⟨hp, hwaits⟩ := hold.pending p hmem
        exact ⟨hp, Finset.mem_erase.mpr ⟨of_decide_eq_true hne, hwaits⟩⟩
  | fetching => exact hold
  | fetched => exact hold
  | failed => exact hold
  | rejected => exact trivial

theorem TablesOk.reject (hok : TablesOk env s) : TablesOk env (s.reject h) := by
  refine hok.erase (h := h) rfl rfl (fun k d hold => ?_)
  cases d with
  | waiting valid qcFetched parents =>
      show Consistent env _ k
        (if h ∈ parents then .rejected else .waiting valid qcFetched parents)
      split
      · exact trivial
      · rename_i hnot
        refine ⟨hold.fetched, hold.verified, hold.fetchesQc, hold.hasQc, hold.hasParents,
          fun p hp => ?_⟩
        obtain ⟨hmem, hwaits⟩ := hold.pending p hp
        exact ⟨hmem, Finset.mem_erase.mpr ⟨fun heq => hnot (heq ▸ hp), hwaits⟩⟩
  | fetching => exact hold
  | fetched => exact hold
  | failed => exact hold
  | rejected => exact trivial

theorem le_addBlks (env : Env K) (s : HotStuffBase K) (blks : List (BlockData K)) :
    Le s (s.addBlks env blks) :=
  ⟨coreLe_addBlks env blks _, Finset.Subset.refl _, Finset.Subset.refl _⟩

theorem fetched_addBlks {blks : List (BlockData K)} {data : BlockData K} (hdata : data ∈ blks) :
    (s.addBlks env blks).fetched (env.getHash data) = true := by
  induction blks generalizing s with
  | nil => cases hdata
  | cons data' blks ih =>
      rcases List.mem_cons.mp hdata with rfl | hdata
      · exact (coreLe_addBlks env blks (s.addBlks env [data]).replica.core).stored _
          (isSome_addBlk _ _)
      · exact ih (s := s.addBlks env [data']) hdata

theorem TablesOk.addBlks (hok : TablesOk env s) (blks : List (BlockData K)) :
    TablesOk env (s.addBlks env blks) :=
  hok.mono (le_addBlks env s blks) rfl rfl

theorem le_advanced {j : Consensus.Machine.Input K} (hr : ReplicaOk env s.replica)
    (hadv : Advanced env s j s') : Le s s' := by
  obtain ⟨replica, hstep, rfl⟩ := hadv
  exact ⟨coreLe_of_trail (hr.step hstep).2, Finset.Subset.refl _, Finset.Subset.refl _⟩

theorem TablesOk.advanced {j : Consensus.Machine.Input K} (hok : TablesOk env s)
    (hr : ReplicaOk env s.replica) (hadv : Advanced env s j s') : TablesOk env s' := by
  have hle := le_advanced hr hadv
  obtain ⟨replica, _, rfl⟩ := hadv
  exact hok.mono hle rfl rfl

end operations

/-! The core of a replica is a machine that is driven by its tables. -/

/-- The inputs that the core may be given in a step, but for blocks that arrive. -/
def Drives (s : HotStuffBase K) (i : Input K) : Consensus.Machine.Input K → Prop
  | .fetch _ => False
  | .deliver h =>
      i = .onReady h ∧ s.deliveries.lookup h = some (.waiting (some true) true [])
  | .propose cmds parents extra => i = .propose cmds parents extra
  | .receiveProposal _ => ∃ n, i = .handle n
  | .receiveVote vote =>
      (∃ n, i = .handle n) ∧ vote.verify s.replica.core.config = .ok true
  | .wait h => i = .wait h
  | .resume => i = .resume

/-- The blocks that arrive with an input. -/
def Brings : Input K → BlockData K → Prop
  | .msgPropose _ data, data' => data' = data
  | .msgRespBlock blks, data' => data' ∈ blks
  | _, _ => False

section core

variable {env : Env K} {keys : List K.PrivKey} {id : ReplicaID} {key : K.PrivKey}
  {voteDisabled : Bool} {s s' : HotStuffBase K} {i : Input K}

private theorem steps_of_fetch {M : System (Replica K) (Consensus.Machine.Input K)}
    (hempty : s.replica.stack = []) (blks : List (BlockData K))
    (hM : ∀ r, ∀ data ∈ blks, ∀ r', r.step env (.fetch data) = some r' →
      M.step r (.fetch data) r') :
    Steps M s.replica (s.addBlks env blks).replica := by
  induction blks generalizing s with
  | nil => exact Relation.ReflTransGen.refl
  | cons data blks ih =>
      have hstep : s.replica.step env (.fetch data) =
          some (s.addBlks env [data]).replica := by
        simp only [Replica.step, HotStuffBase.addBlks, hempty]
        rfl
      exact Relation.ReflTransGen.head ⟨.fetch data, hM _ _ List.mem_cons_self _ hstep⟩
        (ih (s := s.addBlks env [data]) hempty
          (fun r d hd => hM r d (List.mem_cons_of_mem data hd)))

theorem replica_await (s : HotStuffBase K) (callback : Callback K) :
    (s.await callback).replica = s.replica := by
  unfold HotStuffBase.await
  split
  · rfl
  · exact replica_asyncDeliverBlk s callback.blk

theorem replica_asyncFetchBlks (s : HotStuffBase K) (hs : List Uint256) :
    (hs.foldl HotStuffBase.asyncFetchBlk s).replica = s.replica :=
  List.foldlRecOn (motive := fun t => t.replica = s.replica) hs HotStuffBase.asyncFetchBlk rfl
    (fun t ht h _ => (replica_asyncFetchBlk t h).trans ht)

theorem replica_onFetchBlks (s : HotStuffBase K) (hs : List Uint256) :
    (hs.foldl HotStuffBase.onFetchBlk s).replica = s.replica :=
  List.foldlRecOn (motive := fun t => t.replica = s.replica) hs HotStuffBase.onFetchBlk rfl
    (fun t ht h _ => (replica_onFetchBlk t h).trans ht)

theorem replica_ended {h : Uint256} {s₁ : HotStuffBase K} (hend : Ended h s s₁ s') :
    s'.replica = s₁.replica := by
  rcases hend with ⟨_, rfl⟩ | ⟨_, _, rfl⟩ | ⟨_, _, rfl⟩ <;> rfl

theorem steps_of_moved {M : System (Replica K) (Consensus.Machine.Input K)}
    (hfetch : ∀ r data r', Brings i data → r.step env (.fetch data) = some r' →
      M.step r (.fetch data) r')
    (hdrive : ∀ j r', Drives s i j → s.replica.step env j = some r' → M.step s.replica j r')
    (hmoved : Moved env s i s') : Steps M s.replica s'.replica := by
  have advance : ∀ {t t' : HotStuffBase K} {j : Consensus.Machine.Input K},
      Advanced env t j t' → t.replica = s.replica → Drives s i j →
      Steps M s.replica t'.replica := by
    rintro t t' j ⟨replica, hstep, rfl⟩ ht hdrives
    rw [ht] at hstep
    exact Relation.ReflTransGen.single ⟨j, hdrive j replica hdrives hstep⟩
  have stay : s'.replica = s.replica → Steps M s.replica s'.replica := by
    intro heq
    rw [heq]
    exact Relation.ReflTransGen.refl
  cases i with
  | msgPropose proposer data =>
      obtain ⟨hempty, rfl⟩ := hmoved
      rw [replica_await]
      exact steps_of_fetch hempty [data]
        (fun r d hd r' => hfetch r d r' (List.mem_singleton.mp hd))
  | msgVote vote =>
      obtain rfl := hmoved
      exact stay (replica_await s _)
  | msgReqBlock blkHashes =>
      obtain rfl := hmoved
      exact stay (replica_asyncFetchBlks s blkHashes)
  | msgRespBlock blks =>
      obtain ⟨hempty, rfl⟩ := hmoved
      rw [replica_onFetchBlks]
      exact steps_of_fetch hempty blks (fun r d hd r' => hfetch r d r' hd)
  | onFetched h =>
      obtain ⟨_, rfl⟩ := hmoved
      exact stay (replica_beginDelivery env s h)
  | onVerified h =>
      obtain ⟨_, _, _, _, _, rfl⟩ := hmoved
      exact stay rfl
  | onReady h =>
      rcases hmoved with ⟨_, rfl⟩ | ⟨hlookup, s₁, hadv, hend⟩
      · exact stay rfl
      · rw [replica_ended hend]
        exact advance hadv rfl ⟨rfl, hlookup⟩
  | handle n =>
      obtain ⟨callback, _, hhandled⟩ := hmoved
      cases callback with
      | proposal prop => exact advance hhandled rfl ⟨n, rfl⟩
      | vote vote =>
          rcases hhandled with rfl | ⟨hvalid, hadv⟩
          · exact stay rfl
          · exact advance hadv rfl ⟨⟨n, rfl⟩, hvalid⟩
  | propose cmds parents extra => exact advance hmoved rfl rfl
  | wait h => exact advance hmoved rfl rfl
  | resume => exact advance hmoved rfl rfl

theorem TablesOk.moved (hok : TablesOk env s) (hr : ReplicaOk env s.replica)
    (hmoved : Moved env s i s') : TablesOk env s' := by
  cases i with
  | msgPropose proposer data =>
      obtain ⟨_, rfl⟩ := hmoved
      exact (hok.addBlks [data]).await _
  | msgVote vote =>
      obtain rfl := hmoved
      exact hok.await _
  | msgReqBlock blkHashes =>
      obtain rfl := hmoved
      exact hok.asyncFetchBlks blkHashes
  | msgRespBlock blks =>
      obtain ⟨_, rfl⟩ := hmoved
      refine (hok.addBlks blks).onFetchBlks (fun h hh => ?_)
      obtain ⟨data, hdata, rfl⟩ := List.mem_map.mp hh
      exact fetched_addBlks hdata
  | onFetched h =>
      obtain ⟨hlookup, rfl⟩ := hmoved
      exact hok.beginDelivery hlookup
  | onVerified h =>
      obtain ⟨qcFetched, parents, valid, hlookup, hvalid, rfl⟩ := hmoved
      have hwaits : Waits env s h none qcFetched parents := hok.consistent h _ hlookup
      refine hok.insert (.of_eq rfl rfl rfl)
        (Finset.insert_eq_of_mem (hok.waits hlookup)).symm rfl ?_
      refine ⟨hwaits.fetched, fun b hb => ?_, hwaits.fetchesQc, hwaits.hasQc, hwaits.hasParents,
        hwaits.pending⟩
      cases hb
      exact hvalid
  | onReady h =>
      rcases hmoved with ⟨hlookup, rfl⟩ | ⟨hlookup, s₁, hadv, hend⟩
      · have hwaits : Waits env s h (some false) true [] := hok.consistent h _ hlookup
        exact hok.insert (.of_eq rfl rfl rfl)
          (Finset.insert_eq_of_mem (hok.waits hlookup)).symm rfl
          ⟨hwaits.fetched, hwaits.verified false rfl⟩
      · have hok₁ := hok.advanced hr hadv
        rcases hend with ⟨_, rfl⟩ | ⟨_, hd, rfl⟩ | ⟨_, _, rfl⟩
        · exact hok₁.reject
        · exact hok₁.resolve hd
        · exact hok₁
  | handle n =>
      obtain ⟨callback, _, hhandled⟩ := hmoved
      have hok₁ : TablesOk env { s with resolved := s.resolved.eraseIdx n } :=
        hok.mono (.of_eq rfl rfl rfl) rfl rfl
      cases callback with
      | proposal prop => exact hok₁.advanced hr hhandled
      | vote vote =>
          rcases hhandled with rfl | ⟨_, hadv⟩
          · exact hok₁
          · exact hok₁.advanced hr hadv
  | propose cmds parents extra => exact hok.advanced hr hmoved
  | wait h => exact hok.advanced hr hmoved
  | resume => exact hok.advanced hr hmoved

/-- The core of a replica is one that its machine can reach, on inputs that are driven. -/
theorem replica_reachable {okBase : HotStuffBase K → Input K → Prop}
    (ok : Replica K → Consensus.Machine.Input K → Prop)
    (hs : Reachable ((base env keys id key voteDisabled).restrict okBase) s)
    (hfetch : ∀ s i r data, okBase s i → Brings i data → ok r (.fetch data))
    (hdrive : ∀ s i j, Reachable ((base env keys id key voteDisabled).restrict okBase) s →
      okBase s i → Drives s i j → ok s.replica j) :
    Reachable ((machine env (HotStuffCore.startConfig (keys.map K.getPubkey)) id key
      voteDisabled).restrict ok) s.replica := by
  induction hs with
  | init hinit =>
      obtain rfl := hinit
      exact .init rfl
  | step hs hstep ih =>
      exact ih.trans (steps_of_moved (fun r data r' hb h => ⟨hfetch _ _ r data hstep.1 hb, h⟩)
        (fun j r' hj h => ⟨hdrive _ _ j hs hstep.1 hj, h⟩) (moved_of_step hstep.2))

theorem machine_reachable (hs : Reachable (base env keys id key voteDisabled) s) :
    Reachable (machine env (HotStuffCore.startConfig (keys.map K.getPubkey)) id key voteDisabled)
      s.replica :=
  (replica_reachable (fun _ _ => True) (hs.restrict (fun _ _ => trivial))
    (fun _ _ _ _ (_ : True) _ => trivial) (fun _ _ _ _ (_ : True) _ => trivial)).of_restrict

theorem replicaOk_of_base (hs : Reachable (base env keys id key voteDisabled) s) :
    ReplicaOk env s.replica :=
  replicaOk_of_reachable (machine_reachable hs)

theorem config_of_base (hs : Reachable (base env keys id key voteDisabled) s) :
    s.replica.core.config = HotStuffCore.startConfig (keys.map K.getPubkey) :=
  invariant_of_effects
    (I := fun c => c.config = HotStuffCore.startConfig (keys.map K.getPubkey))
    (machine_reachable hs) rfl (fun c _ _ _ hc _ => (config_apply env c).trans hc)

theorem TablesOk.start (env : Env K) (config : ReplicaConfig K) (id : ReplicaID)
    (key : K.PrivKey) (voteDisabled : Bool) :
    TablesOk env (HotStuffBase.start env config id key voteDisabled) :=
  ⟨fun _ => iff_of_false (Finset.notMem_empty _) (AList.notMem_empty _), nofun⟩

theorem tablesOk_of_base (hs : Reachable (base env keys id key voteDisabled) s) :
    TablesOk env s := by
  refine hs.invariant ?_ (fun s i s' hs hok hstep =>
    hok.moved (replicaOk_of_base hs) (moved_of_step hstep))
  rintro s rfl
  exact .start env _ id key voteDisabled

end core

/-! Which steps of the core bring or deliver a block. -/

/-- A step on the input may bring or deliver block `x`. -/
def Places (env : Env K) (r : Replica K) (x : Uint256) : Consensus.Machine.Input K → Prop
  | .fetch data => env.getHash data = x
  | .deliver h => h = x
  | .propose cmds parents extra =>
      parents ≠ [] ∧ env.getHash (r.core.newData cmds parents extra) = x
  | .receiveProposal _ | .receiveVote _ | .wait _ | .resume => False

section places

variable {env : Env K} {x : Uint256}

theorem covers_elsewhere {r : Replica K} {j : Consensus.Machine.Input K}
    (hnil : ∀ cmds parents extra, j = .propose cmds parents extra → parents ≠ [])
    (hx : ¬ Places env r x j) :
    Covers env r (fun e => ¬ StoresAt env x e ∧ ¬ DeliversAt env x e) j := by
  cases j with
  | fetch data => exact ⟨hx, id⟩
  | deliver h =>
      intro e he
      cases e with
      | deliver k =>
          obtain rfl := he
          exact ⟨id, hx⟩
      | store _ | create _ => exact absurd he id
      | _ => exact ⟨id, id⟩
  | propose cmds parents extra =>
      have hne : env.getHash (r.core.newData cmds parents extra) ≠ x :=
        fun heq => hx ⟨hnil cmds parents extra rfl, heq⟩
      refine ⟨fun e he => ?_, id, id⟩
      cases e with
      | create data =>
          obtain rfl := he
          exact ⟨hne, hne⟩
      | deliver k =>
          obtain ⟨rfl, _⟩ := he
          exact ⟨id, hne⟩
      | store _ => exact absurd he id
      | _ => exact ⟨id, id⟩
  | receiveProposal prop =>
      refine ⟨fun e he => ?_, ⟨id, id⟩, ⟨id, id⟩⟩
      cases e with
      | store _ | create _ | deliver _ => exact absurd he id
      | _ => exact ⟨id, id⟩
  | receiveVote vote =>
      intro e he
      cases e with
      | store _ | create _ | deliver _ => exact absurd he id
      | _ => exact ⟨id, id⟩
  | wait h => exact ⟨id, id⟩
  | resume => exact ⟨fun _ => ⟨id, id⟩, fun _ => ⟨id, id⟩, fun _ => ⟨id, id⟩⟩

end places

theorem elsewhere_of_step {env : Env K} {r r' : Replica K} {x : Uint256}
    {j : Consensus.Machine.Input K} (hr : ReplicaOk env r) (hstep : r.step env j = some r')
    (hx : ¬ Places env r x j) :
    (r'.core.storage x).isSome = (r.core.storage x).isSome ∧
      (r'.core.blk x).delivered = (r.core.blk x).delivered := by
  by_cases hnil : ∀ cmds parents extra, j = .propose cmds parents extra → parents ≠ []
  · have htrail := (step_trail hr.frames hr.certs (covers_elsewhere hnil hx)
      ⟨fun _ => ⟨id, id⟩, fun _ => ⟨id, id⟩, fun _ _ => ⟨id, id⟩⟩ hstep).1
    exact ⟨stored_of_trail htrail (fun _ he => he.1), delivered_of_trail htrail (fun _ he => he.2)⟩
  · push Not at hnil
    obtain ⟨cmds, parents, extra, rfl, rfl⟩ := hnil
    obtain rfl := step_propose_nil hstep
    exact ⟨rfl, rfl⟩

theorem elsewhere_of_advanced {env : Env K} {s s' : HotStuffBase K} {x : Uint256}
    {j : Consensus.Machine.Input K} (hr : ReplicaOk env s.replica) (hadv : Advanced env s j s')
    (hx : ¬ Places env s.replica x j) :
    s'.fetched x = s.fetched x ∧ s'.delivered x = s.delivered x := by
  obtain ⟨replica, hstep, rfl⟩ := hadv
  exact elsewhere_of_step hr hstep hx

section arrivals

variable {env : Env K} {s : HotStuffBase K}

theorem delivered_addBlks (env : Env K) (s : HotStuffBase K) (blks : List (BlockData K))
    (x : Uint256) : (s.addBlks env blks).delivered x = s.delivered x := by
  induction blks generalizing s with
  | nil => rfl
  | cons data blks ih =>
      refine (ih (s.addBlks env [data])).trans ?_
      exact delivered_of_trail (P := fun e => ¬ DeliversAt env x e)
        (addBlk_trail (fun _ => id)) (fun _ => id)

theorem fetched_addBlks_ne {blks : List (BlockData K)} {x : Uint256}
    (hx : x ∉ blks.map env.getHash) : (s.addBlks env blks).fetched x = s.fetched x := by
  induction blks generalizing s with
  | nil => rfl
  | cons data blks ih =>
      rw [List.map_cons, List.mem_cons, not_or] at hx
      refine (ih (s := s.addBlks env [data]) hx.2).trans ?_
      exact stored_of_trail (P := fun e => ¬ StoresAt env x e)
        (addBlk_trail (fun _ heq => hx.1 heq.symm)) (fun _ => id)

end arrivals

end ArchipelagoHotStuff.Base.Promises
