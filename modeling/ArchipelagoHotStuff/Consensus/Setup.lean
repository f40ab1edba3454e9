/- Module: ArchipelagoHotStuff/Consensus/Setup
   source: hotstuff.cpp (start), consensus.cpp (on_init)
   digest: The configuration that all replicas of a system start with. -/

import ArchipelagoHotStuff.Consensus.Handlers

set_option autoImplicit false
set_option relaxedAutoImplicit false

namespace ArchipelagoHotStuff.Consensus.Setup

open Crypto.Wire Crypto.Certificates State

variable {K : Secp256k1} {config : ReplicaConfig K} {pubkeys : List K.PubKey}
  {pubkey : K.PubKey} {rid : ReplicaID} {i : Nat}

theorem mem_addReplica {key : K.PubKey} {r : ReplicaID} :
    rid ∈ (config.addReplica r key).replicaMap ↔ rid = r ∨ rid ∈ config.replicaMap := by
  unfold ReplicaConfig.addReplica
  dsimp only
  split
  · rename_i hmem
    constructor
    · exact .inr
    · rintro (rfl | hold)
      · exact hmem
      · exact hold
  · exact AList.mem_insert _

theorem lookup_addReplica_of_some {key : K.PubKey} {r : ReplicaID}
    (h : config.replicaMap.lookup rid = some pubkey) :
    (config.addReplica r key).replicaMap.lookup rid = some pubkey := by
  have hmem : rid ∈ config.replicaMap := AList.lookup_isSome.mp (by rw [h]; rfl)
  unfold ReplicaConfig.addReplica
  dsimp only
  split
  · exact h
  · rename_i hnew
    have hne : rid ≠ r := by
      rintro rfl
      exact hnew hmem
    rw [AList.lookup_insert_ne hne]
    exact h

theorem lookup_addReplicas_of_some (h : config.replicaMap.lookup rid = some pubkey) :
    (HotStuffCore.addReplicas config i pubkeys).replicaMap.lookup rid = some pubkey := by
  induction pubkeys generalizing config i with
  | nil => exact h
  | cons key pubkeys ih => exact ih (lookup_addReplica_of_some h)

theorem lookup_addReplicas (hnew : rid ∉ config.replicaMap) (hle : i ≤ rid.val)
    (hget : pubkeys[rid.val - i]? = some pubkey) :
    (HotStuffCore.addReplicas config i pubkeys).replicaMap.lookup rid = some pubkey := by
  induction pubkeys generalizing config i with
  | nil => cases hget
  | cons key pubkeys ih =>
      have hi : (ReplicaID.ofIndex i).val = i :=
        ReplicaID.val_ofIndex (Nat.lt_of_le_of_lt hle rid.isLt)
      rcases Nat.eq_or_lt_of_le hle with heq | hlt
      · have hid : ReplicaID.ofIndex i = rid := Fin.ext (hi.trans heq)
        rw [heq, Nat.sub_self] at hget
        cases hget
        have hadd : (config.addReplica rid pubkey).replicaMap.lookup rid = some pubkey := by
          unfold ReplicaConfig.addReplica
          dsimp only
          rw [if_neg hnew, AList.lookup_insert]
        rw [HotStuffCore.addReplicas, hid]
        exact lookup_addReplicas_of_some hadd
      · have hne : rid ≠ ReplicaID.ofIndex i := by
          intro heq
          rw [heq, hi] at hlt
          exact lt_irrefl _ hlt
        refine ih ?_ hlt ?_
        · rw [mem_addReplica, not_or]
          exact ⟨hne, hnew⟩
        · have hsub : rid.val - i = rid.val - (i + 1) + 1 := by omega
          rw [hsub] at hget
          exact hget

theorem nreplicas_addReplicas : (HotStuffCore.addReplicas config i pubkeys).nreplicas =
    config.nreplicas + pubkeys.length := by
  induction pubkeys generalizing config i with
  | nil => rfl
  | cons key pubkeys ih =>
      have hone : (config.addReplica (ReplicaID.ofIndex i) key).nreplicas =
          config.nreplicas + 1 := rfl
      rw [HotStuffCore.addReplicas, ih, hone, List.length_cons]
      omega

theorem card_addReplicas_le (config : ReplicaConfig K) (i : Nat) (pubkeys : List K.PubKey) :
    (HotStuffCore.addReplicas config i pubkeys).replicaMap.keys.toFinset.card ≤
      config.replicaMap.keys.toFinset.card + pubkeys.length := by
  induction pubkeys generalizing config i with
  | nil => exact le_rfl
  | cons key pubkeys ih =>
      have hadd : (config.addReplica (ReplicaID.ofIndex i) key).replicaMap.keys.toFinset =
          insert (ReplicaID.ofIndex i) config.replicaMap.keys.toFinset := by
        ext r
        rw [List.mem_toFinset, ← AList.mem_keys, Finset.mem_insert, List.mem_toFinset,
          ← AList.mem_keys]
        exact mem_addReplica
      have hcard := Finset.card_insert_le (ReplicaID.ofIndex i) config.replicaMap.keys.toFinset
      refine (ih _ (i + 1)).trans ?_
      rw [hadd, List.length_cons]
      omega

theorem val_lt_of_mem_addReplicas
    (h : rid ∈ (HotStuffCore.addReplicas config i pubkeys).replicaMap) :
    rid ∈ config.replicaMap ∨ rid.val < i + pubkeys.length := by
  induction pubkeys generalizing config i with
  | nil => exact .inl h
  | cons key pubkeys ih =>
      rw [List.length_cons]
      rcases ih h with hmem | hlt
      · rcases mem_addReplica.mp hmem with rfl | hold
        · have hle : (ReplicaID.ofIndex i).val ≤ i := Nat.mod_le _ _
          exact .inr (by omega)
        · exact .inl hold
      · exact .inr (by omega)

/-! The configuration of `start`. -/

theorem getPubkey_startConfig (hget : pubkeys[rid.val]? = some pubkey) :
    (HotStuffCore.startConfig pubkeys).getPubkey rid = .ok pubkey := by
  have hlookup : (HotStuffCore.startConfig pubkeys).replicaMap.lookup rid = some pubkey :=
    lookup_addReplicas (AList.notMem_empty rid) (Nat.zero_le _) hget
  unfold ReplicaConfig.getPubkey
  rw [hlookup]

theorem nmajority_startConfig : (HotStuffCore.startConfig pubkeys).nmajority =
    pubkeys.length - (pubkeys.length - 1) / 3 := by
  have hn : (HotStuffCore.addReplicas ReplicaConfig.empty 0 pubkeys).nreplicas =
      0 + pubkeys.length := nreplicas_addReplicas
  show (HotStuffCore.addReplicas ReplicaConfig.empty 0 pubkeys).nreplicas -
    (pubkeys.length - 1) / 3 = _
  rw [hn, Nat.zero_add]

theorem nmajority_pos (h : 0 < pubkeys.length) :
    0 < (HotStuffCore.startConfig pubkeys).nmajority := by
  rw [nmajority_startConfig]
  omega

theorem val_lt_of_mem_startConfig
    (h : rid ∈ (HotStuffCore.startConfig pubkeys).replicaMap) : rid.val < pubkeys.length := by
  rcases val_lt_of_mem_addReplicas h with hmem | hlt
  · exact absurd hmem (AList.notMem_empty rid)
  · rwa [Nat.zero_add] at hlt

theorem card_startConfig_le :
    (HotStuffCore.startConfig pubkeys).replicaMap.keys.toFinset.card ≤ pubkeys.length :=
  (card_addReplicas_le ReplicaConfig.empty 0 pubkeys).trans (Nat.zero_add _).le

end ArchipelagoHotStuff.Consensus.Setup
