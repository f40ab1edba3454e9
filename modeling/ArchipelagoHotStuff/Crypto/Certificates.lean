/- Module: ArchipelagoHotStuff/Crypto/Certificates
   source: crypto.h, crypto.cpp, entity.h (ReplicaConfig)
   digest: Partial and quorum certificates over secp256k1 signatures, and what an accepted
     certificate is worth. -/

import ArchipelagoHotStuff.Crypto.Wire
import Mathlib.Data.Finset.Card
import Mathlib.Data.List.AList

set_option autoImplicit false
set_option relaxedAutoImplicit false

namespace ArchipelagoHotStuff.Crypto.Certificates

open Wire

/-- The operations the program uses of the secp256k1 library.  A signature that a key creates is
valid under its public key. -/
structure Secp256k1 where
  Sig : Type
  PubKey : Type
  PrivKey : Type
  parseCompact : List UInt8 → Option Sig
  getPubkey : PrivKey → PubKey
  sign : PrivKey → Uint256 → Sig
  verify : Uint256 → PubKey → Sig → Bool
  verify_sign : ∀ key msg, verify msg (getPubkey key) (sign key msg) = true

/-- A scheme whose signatures spell out the key and the message. -/
def clearScheme : Secp256k1 where
  Sig := Nat × Uint256
  PubKey := Nat
  PrivKey := Nat
  parseCompact bytes := some (fromLE (bytes.take 32), BitVec.ofNat 256 (fromLE (bytes.drop 32)))
  getPubkey := id
  sign key msg := (key, msg)
  verify msg pubkey sig := sig.1 == pubkey && sig.2 == msg
  verify_sign key msg := by simp

instance : DecidableEq clearScheme.Sig := inferInstanceAs (DecidableEq (Nat × Uint256))

variable {K : Secp256k1}

/-- `SigSecp256k1::unserialize`, where a short buffer counts as an ill-formed signature. -/
def unserializeSig (s : DataStream) : Except Exn (K.Sig × DataStream) :=
  match getData 64 s with
  | .error _ => .error .illFormedSignature
  | .ok (bytes, s) =>
      match K.parseCompact bytes with
      | none => .error .illFormedSignature
      | some sig => .ok (sig, s)

/-- `PartCertSecp256k1`: a signature together with the hash it is for. -/
structure PartCert (K : Secp256k1) where
  sig : K.Sig
  objHash : Uint256

def PartCert.create (key : K.PrivKey) (objHash : Uint256) : PartCert K :=
  ⟨K.sign key objHash, objHash⟩

def PartCert.verify (pc : PartCert K) (pubkey : K.PubKey) : Bool :=
  K.verify pc.objHash pubkey pc.sig

/-- `ReplicaConfig`, with the public key of each replica. -/
structure ReplicaConfig (K : Secp256k1) where
  replicaMap : AList (fun _ : ReplicaID => K.PubKey)
  nreplicas : Nat
  nmajority : Nat

namespace ReplicaConfig

def empty : ReplicaConfig K := ⟨∅, 0, 0⟩

/-- `add_replica`; inserting into the map keeps an entry that is there. -/
def addReplica (config : ReplicaConfig K) (rid : ReplicaID) (pubkey : K.PubKey) :
    ReplicaConfig K :=
  { config with
    replicaMap :=
      if rid ∈ config.replicaMap then config.replicaMap else config.replicaMap.insert rid pubkey
    nreplicas := config.nreplicas + 1 }

def getPubkey (config : ReplicaConfig K) (rid : ReplicaID) : Except Exn K.PubKey :=
  match config.replicaMap.lookup rid with
  | none => .error .ridNotFound
  | some pubkey => .ok pubkey

end ReplicaConfig

/-- `QuorumCertSecp256k1`: the certified hash, a bitmap of the signers and their signatures. -/
structure QuorumCert (K : Secp256k1) where
  objHash : Uint256
  rids : Bits
  sigs : AList (fun _ : ReplicaID => K.Sig)

namespace QuorumCert

/-- The constructor from a configuration; the number of replicas is cut to 32 bits. -/
def create (config : ReplicaConfig K) (objHash : Uint256) : QuorumCert K :=
  ⟨objHash, Bits.ofSize (BitVec.ofNat 32 config.nreplicas), ∅⟩

/-- `add_part`; inserting into the map keeps a signature that is there. -/
def addPart (qc : QuorumCert K) (rid : ReplicaID) (pc : PartCert K) :
    Except Exn (QuorumCert K) :=
  if pc.objHash ≠ qc.objHash then .error .certMismatch
  else
    match qc.rids.set rid.val with
    | none => .error .undefinedBehaviour
    | some rids =>
        .ok { qc with
          rids := rids
          sigs := if rid ∈ qc.sigs then qc.sigs else qc.sigs.insert rid pc.sig }

/-- The loop of `unserialize` over the indices of the bitmap. -/
def unserializeSigs (rids : Bits) : List Nat → AList (fun _ : ReplicaID => K.Sig) → DataStream →
    Except Exn (AList (fun _ : ReplicaID => K.Sig) × DataStream)
  | [], sigs, s => .ok (sigs, s)
  | i :: is, sigs, s =>
      match rids.get i with
      | none => .error .undefinedBehaviour
      | some false => unserializeSigs rids is sigs s
      | some true =>
          match unserializeSig s with
          | .error e => .error e
          | .ok (sig, s) => unserializeSigs rids is (sigs.insert (ReplicaID.ofIndex i) sig) s

def unserialize (s : DataStream) : Except Exn (QuorumCert K × DataStream) := do
  let (objHash, s) ← getLE 32 s
  let (rids, s) ← Bits.unserialize s
  let (sigs, s) ← unserializeSigs rids (List.range rids.size) ∅ s
  return (⟨BitVec.ofNat 256 objHash, rids, sigs⟩, s)

/-- The loop of `verify` over the indices of the bitmap.  Indexing the map of signatures by a
signer it does not hold would make up an uninitialised signature. -/
def verifyFrom (qc : QuorumCert K) (config : ReplicaConfig K) : List Nat → Except Exn Bool
  | [] => .ok true
  | i :: is =>
      match qc.rids.get i with
      | none => .error .undefinedBehaviour
      | some false => verifyFrom qc config is
      | some true =>
          match qc.sigs.lookup (ReplicaID.ofIndex i) with
          | none => .error .undefinedBehaviour
          | some sig =>
              match config.getPubkey (ReplicaID.ofIndex i) with
              | .error e => .error e
              | .ok pubkey =>
                  if K.verify qc.objHash pubkey sig then verifyFrom qc config is else .ok false

def verify (qc : QuorumCert K) (config : ReplicaConfig K) : Except Exn Bool :=
  if qc.sigs.entries.length < config.nmajority then .ok false
  else qc.verifyFrom config (List.range qc.rids.size)

/-- The tasks the pool is given for the set bits from some on, by their results. -/
def poolResults (qc : QuorumCert K) (config : ReplicaConfig K) : List Nat → Except Exn (List Bool)
  | [] => .ok []
  | i :: is =>
      match qc.rids.get i with
      | none => .error .undefinedBehaviour
      | some false => poolResults qc config is
      | some true =>
          match config.getPubkey (ReplicaID.ofIndex i) with
          | .error e => .error e
          | .ok pubkey =>
              match qc.sigs.lookup (ReplicaID.ofIndex i) with
              | none => .error .undefinedBehaviour
              | some sig =>
                  (poolResults qc config is).map (fun rs => K.verify qc.objHash pubkey sig :: rs)

/-- The result once all tasks are done; `promise::all` throws if there are none. -/
def joinResults : List Bool → Except Exn Bool
  | [] => .error .mismatchingTypes
  | r :: rs => .ok ((r :: rs).all id)

/-- `verify` with a pool: all tasks are given to it before any result is looked at. -/
def verifyPooled (qc : QuorumCert K) (config : ReplicaConfig K) : Except Exn Bool :=
  if qc.sigs.entries.length < config.nmajority then .ok false
  else qc.poolResults config (List.range qc.rids.size) >>= joinResults

def signers (qc : QuorumCert K) : Finset ReplicaID := qc.sigs.keys.toFinset

/-- Every index of the bitmap can be read, and the signatures are those of the set bits. -/
structure Wf (qc : QuorumCert K) : Prop where
  readable : ∀ i < qc.rids.size, ∃ b, qc.rids.get i = some b
  mem_sigs : ∀ r, r ∈ qc.sigs ↔ ∃ i < qc.rids.size,
    qc.rids.get i = some true ∧ ReplicaID.ofIndex i = r

instance (qc : QuorumCert K) : Decidable qc.Wf :=
  -- only the identifiers that occur are tried, not all of their type
  letI : Decidable (∀ r ∈ qc.sigs.keys, ∃ i < qc.rids.size,
      qc.rids.get i = some true ∧ ReplicaID.ofIndex i = r) := List.decidableBAll _ _
  decidable_of_iff ((∀ i < qc.rids.size, (qc.rids.get i).isSome) ∧
      (∀ i < qc.rids.size, qc.rids.get i = some true → ReplicaID.ofIndex i ∈ qc.sigs) ∧
      ∀ r ∈ qc.sigs.keys, ∃ i < qc.rids.size,
        qc.rids.get i = some true ∧ ReplicaID.ofIndex i = r)
    ⟨fun ⟨hread, hset, hsigs⟩ =>
      ⟨fun i hi => Option.isSome_iff_exists.mp (hread i hi),
        fun r => ⟨fun hr => hsigs r (AList.mem_keys.mp hr),
          fun ⟨i, hi, hbit, hr⟩ => hr ▸ hset i hi hbit⟩⟩,
      fun hwf =>
        ⟨fun i hi => Option.isSome_iff_exists.mpr (hwf.readable i hi),
          fun i hi hbit => (hwf.mem_sigs _).mpr ⟨i, hi, hbit, rfl⟩,
          fun r hr => (hwf.mem_sigs r).mp (AList.mem_keys.mpr hr)⟩⟩

variable {qc qc' : QuorumCert K} {config : ReplicaConfig K} {rid : ReplicaID} {pc : PartCert K}

theorem mem_signers {r : ReplicaID} : r ∈ qc.signers ↔ r ∈ qc.sigs := by
  simp [signers, AList.mem_keys]

theorem card_signers (qc : QuorumCert K) : qc.signers.card = qc.sigs.entries.length := by
  rw [signers, List.toFinset_card_of_nodup qc.sigs.keys_nodup]
  simp [AList.keys, List.keys]

/-! Parsing. -/

private theorem unserializeSigs_spec {rids : Bits} {is : List Nat}
    {sigs sigs' : AList (fun _ : ReplicaID => K.Sig)} {s s' : DataStream}
    (h : unserializeSigs rids is sigs s = .ok (sigs', s')) :
    (∀ i ∈ is, ∃ b, rids.get i = some b) ∧
      ∀ r, r ∈ sigs' ↔ r ∈ sigs ∨ ∃ i ∈ is, rids.get i = some true ∧ ReplicaID.ofIndex i = r := by
  induction is generalizing sigs s with
  | nil =>
      cases h
      simp
  | cons i is ih =>
      simp only [unserializeSigs] at h
      split at h
      · cases h
      · rename_i hbit
        obtain ⟨hread, hmem⟩ := ih h
        refine ⟨?_, fun r => ?_⟩
        · intro j hj
          rcases List.mem_cons.mp hj with rfl | hj
          · exact ⟨false, hbit⟩
          · exact hread j hj
        · rw [hmem r]
          simp [hbit]
      · rename_i hbit
        split at h
        · cases h
        · rename_i sig s₁ _
          obtain ⟨hread, hmem⟩ := ih h
          refine ⟨?_, fun r => ?_⟩
          · intro j hj
            rcases List.mem_cons.mp hj with rfl | hj
            · exact ⟨true, hbit⟩
            · exact hread j hj
          · rw [hmem r, AList.mem_insert]
            simp only [List.mem_cons, exists_eq_or_imp, hbit, true_and]
            constructor
            · rintro ((rfl | hold) | hnew)
              · exact .inr (.inl rfl)
              · exact .inl hold
              · exact .inr (.inr hnew)
            · rintro (hold | rfl | hnew)
              · exact .inl (.inr hold)
              · exact .inl (.inl rfl)
              · exact .inr hnew

theorem wf_of_unserialize {s s' : DataStream} (h : unserialize s = .ok (qc, s')) : qc.Wf := by
  unfold unserialize at h
  simp only [bind, Except.bind, pure, Except.pure] at h
  split at h
  · cases h
  · split at h
    · cases h
    · split at h
      · cases h
      · rename_i hsigs
        cases h
        obtain ⟨hread, hmem⟩ := unserializeSigs_spec hsigs
        refine ⟨fun i hi => hread i (List.mem_range.mpr hi), fun r => ?_⟩
        rw [hmem r]
        simp [AList.notMem_empty]

/-! Verification. -/

private theorem verifyFrom_true {is : List Nat} (h : qc.verifyFrom config is = .ok true) {i : Nat}
    (hi : i ∈ is) (hbit : qc.rids.get i = some true) :
    ∃ sig pubkey, qc.sigs.lookup (ReplicaID.ofIndex i) = some sig ∧
      config.getPubkey (ReplicaID.ofIndex i) = .ok pubkey ∧
      K.verify qc.objHash pubkey sig = true := by
  induction is with
  | nil => cases hi
  | cons j is ih =>
      simp only [verifyFrom] at h
      rcases List.mem_cons.mp hi with rfl | hi
      · simp only [hbit] at h
        split at h
        · cases h
        · rename_i sig hsig
          split at h
          · cases h
          · rename_i pubkey hkey
            split at h
            · rename_i hvalid
              exact ⟨sig, pubkey, hsig, hkey, hvalid⟩
            · cases h
      · split at h
        · cases h
        · exact ih h hi
        · split at h
          · cases h
          · split at h
            · cases h
            · split at h
              · exact ih h hi
              · cases h

private theorem verifyFrom_of_poolResults {is : List Nat} {rs : List Bool}
    (h : qc.poolResults config is = .ok rs) (hall : rs.all id = true) :
    qc.verifyFrom config is = .ok true := by
  induction is generalizing rs with
  | nil => rfl
  | cons i is ih =>
      unfold poolResults at h
      unfold verifyFrom
      split at h
      · cases h
      · exact ih h hall
      · split at h
        · cases h
        · split at h
          · cases h
          · cases hrest : qc.poolResults config is with
            | error e =>
                rw [hrest] at h
                cases h
            | ok rest =>
                rw [hrest] at h
                cases h
                obtain ⟨hvalid, hall⟩ := (Bool.and_eq_true _ _).mp hall
                exact (if_pos hvalid).trans (ih hrest hall)

theorem verify_of_pooled (h : qc.verifyPooled config = .ok true) :
    qc.verify config = .ok true := by
  unfold verifyPooled at h
  unfold verify
  split at h
  · cases h
  · rename_i hsize
    rw [if_neg hsize]
    cases hrs : qc.poolResults config (List.range qc.rids.size) with
    | error e =>
        rw [hrs] at h
        cases h
    | ok rs =>
        rw [hrs] at h
        refine verifyFrom_of_poolResults hrs ?_
        cases rs with
        | nil => rfl
        | cons r rs => exact Except.ok.inj h

theorem valid_of_verify (hwf : qc.Wf) (h : qc.verify config = .ok true) {r : ReplicaID}
    (hr : r ∈ qc.signers) :
    ∃ sig pubkey, qc.sigs.lookup r = some sig ∧ config.getPubkey r = .ok pubkey ∧
      K.verify qc.objHash pubkey sig = true := by
  obtain ⟨i, hi, hbit, rfl⟩ := (hwf.mem_sigs r).mp (mem_signers.mp hr)
  unfold verify at h
  split at h
  · cases h
  · exact verifyFrom_true h (List.mem_range.mpr hi) hbit

theorem nmajority_le_of_verify (h : qc.verify config = .ok true) :
    config.nmajority ≤ qc.signers.card := by
  unfold verify at h
  split at h
  · cases h
  · rename_i hsize
    rw [card_signers]
    omega

/-- A parsed certificate that verifies holds valid signatures of a quorum of configured
replicas. -/
theorem verified_quorum {s s' : DataStream} (hparse : unserialize s = .ok (qc, s'))
    (h : qc.verify config = .ok true) :
    ∃ A : Finset ReplicaID, config.nmajority ≤ A.card ∧
      ∀ r ∈ A, ∃ sig pubkey, qc.sigs.lookup r = some sig ∧ config.getPubkey r = .ok pubkey ∧
        K.verify qc.objHash pubkey sig = true :=
  ⟨qc.signers, nmajority_le_of_verify h,
    fun _ hr => valid_of_verify (wf_of_unserialize hparse) h hr⟩

/-! Filling a certificate. -/

/-- The bitmap has its words, its set bits are signers, and all signatures are valid under the
keys of a configuration. -/
structure Sound (config : ReplicaConfig K) (qc : QuorumCert K) : Prop where
  shape : qc.rids.data.length = Bits.ndata qc.rids.nbits
  signed : ∀ i, qc.rids.get i = some true → ∃ r, r ∈ qc.sigs ∧ r.val = i
  words : ∀ r, r ∈ qc.sigs → 0 < qc.rids.data.length
  valid : ∀ r sig, qc.sigs.lookup r = some sig →
    ∃ pubkey, config.getPubkey r = .ok pubkey ∧ K.verify qc.objHash pubkey sig = true

theorem sound_create (config config' : ReplicaConfig K) (h : Uint256) :
    (create config h).Sound config' where
  shape := List.length_replicate
  signed i hbit := by
    simp only [create, Bits.get_eq, Bits.ofSize, List.getElem?_replicate] at hbit
    split at hbit
    · simp at hbit
    · cases hbit
  words r hr := absurd hr (AList.notMem_empty r)
  valid r sig hsig := by
    simp only [create, AList.lookup_empty] at hsig
    cases hsig

theorem addPart_ok (h : qc.addPart rid pc = .ok qc') :
    pc.objHash = qc.objHash ∧ qc'.objHash = qc.objHash ∧ qc.rids.set rid.val = some qc'.rids ∧
      qc'.sigs = if rid ∈ qc.sigs then qc.sigs else qc.sigs.insert rid pc.sig := by
  unfold addPart at h
  split at h
  · cases h
  · rename_i hne
    split at h
    · cases h
    · rename_i hset
      cases h
      exact ⟨not_not.mp hne, rfl, hset, rfl⟩

theorem signers_addPart (h : qc.addPart rid pc = .ok qc') :
    qc'.signers = insert rid qc.signers := by
  obtain ⟨_, _, _, hsigs⟩ := addPart_ok h
  ext r
  rw [Finset.mem_insert, mem_signers, mem_signers, hsigs]
  split
  · rename_i hmem
    constructor
    · exact .inr
    · rintro (rfl | hr)
      · exact hmem
      · exact hr
  · exact AList.mem_insert _

theorem Sound.addPart (hok : qc.Sound config) (h : qc.addPart rid pc = .ok qc')
    {pubkey : K.PubKey} (hkey : config.getPubkey rid = .ok pubkey)
    (hvalid : pc.verify pubkey = true) : qc'.Sound config := by
  obtain ⟨hpc, hhash, hset, hsigs⟩ := addPart_ok h
  obtain ⟨hnbits, hlength, hword⟩ := Bits.shape_set hset
  have hmem : ∀ r, r ∈ qc'.sigs ↔ r = rid ∨ r ∈ qc.sigs := by
    intro r
    rw [← mem_signers, ← mem_signers, signers_addPart h, Finset.mem_insert]
  refine ⟨?_, fun i hbit => ?_, fun r _ => ?_, fun r sig hsig => ?_⟩
  · rw [hlength, hnbits]
    exact hok.shape
  · rw [Bits.get_set hset] at hbit
    obtain ⟨v, hv, hor⟩ := Option.map_eq_some_iff.mp hbit
    rcases (Bool.or_eq_true _ _).mp hor with rfl | heq
    · obtain ⟨r, hr, hri⟩ := hok.signed i hv
      exact ⟨r, (hmem r).mpr (.inr hr), hri⟩
    · exact ⟨rid, (hmem rid).mpr (.inl rfl), (of_decide_eq_true heq).symm⟩
  · rw [hlength]
    omega
  · rw [hhash]
    rw [hsigs] at hsig
    split at hsig
    · exact hok.valid r sig hsig
    · by_cases hr : r = rid
      · subst hr
        rw [AList.lookup_insert] at hsig
        cases hsig
        refine ⟨pubkey, hkey, ?_⟩
        rw [← hpc]
        exact hvalid
      · rw [AList.lookup_insert_ne hr] at hsig
        exact hok.valid r sig hsig

private theorem Sound.verifyFrom (hok : qc.Sound config) {is : List Nat}
    (hread : ∀ i ∈ is, ∃ b, qc.rids.get i = some b) : qc.verifyFrom config is = .ok true := by
  induction is with
  | nil => rfl
  | cons i is ih =>
      have hrest := ih (fun j hj => hread j (List.mem_cons_of_mem _ hj))
      obtain ⟨b, hb⟩ := hread i List.mem_cons_self
      cases b with
      | false =>
          simp only [QuorumCert.verifyFrom, hb]
          exact hrest
      | true =>
          obtain ⟨r, hr, rfl⟩ := hok.signed i hb
          obtain ⟨sig, hsig⟩ := Option.isSome_iff_exists.mp (AList.lookup_isSome.mpr hr)
          obtain ⟨pubkey, hkey, hvalid⟩ := hok.valid r sig hsig
          rw [← ReplicaID.ofIndex_val r] at hsig hkey
          simp only [QuorumCert.verifyFrom, hb, hsig, hkey, hvalid, if_true]
          exact hrest

theorem Sound.verify (hok : qc.Sound config) (hpos : 0 < config.nmajority)
    (hcard : config.nmajority ≤ qc.signers.card) : qc.verify config = .ok true := by
  unfold QuorumCert.verify
  rw [if_neg (by rw [← card_signers]; omega)]
  refine hok.verifyFrom (fun i hi => ?_)
  obtain ⟨r, hr⟩ := Finset.card_pos.mp (lt_of_lt_of_le hpos hcard)
  have hwords := hok.words r (mem_signers.mp hr)
  have hword : i / 64 < qc.rids.data.length := by
    rw [hok.shape] at hwords ⊢
    exact Bits.ndata_covers hwords (List.mem_range.mp hi)
  refine ⟨qc.rids.data[i / 64].getLsbD (i % 64), ?_⟩
  rw [Bits.get_eq, List.getElem?_eq_getElem hword]
  rfl

/-- Four replicas, the votes of three of which are enough. -/
def fourConfig : ReplicaConfig clearScheme :=
  { (((ReplicaConfig.empty.addReplica 0 (0 : Nat)).addReplica 1 (1 : Nat)).addReplica 2
      (2 : Nat)).addReplica 3 (3 : Nat) with nmajority := 3 }

/-- A signature of hash 5 as it is sent. -/
def sigBytes (key : UInt8) : DataStream :=
  key :: List.replicate 31 0 ++ 5 :: List.replicate 31 0

/-- A certificate of hash 5 by replicas 0, 1 and 3, as it is sent. -/
def threeBytes : DataStream :=
  5 :: List.replicate 31 0 ++ [4, 0, 0, 0] ++ (11 :: List.replicate 7 0) ++
    [0, 1, 3].flatMap sigBytes

def threeCert : QuorumCert clearScheme :=
  ⟨5, ⟨4, [11]⟩, ([0, 1, 3] : List ReplicaID).foldl
    (fun sigs r => AList.insert r (r.val, (5 : Uint256)) sigs) ∅⟩

set_option maxRecDepth 4000 in
theorem threeBytes_parse : QuorumCert.unserialize threeBytes = .ok (threeCert, []) := by rfl

theorem verified_quorum_three : ∃ A : Finset ReplicaID, fourConfig.nmajority ≤ A.card ∧
    ∀ r ∈ A, ∃ sig pubkey, threeCert.sigs.lookup r = some sig ∧
      fourConfig.getPubkey r = .ok pubkey ∧
      clearScheme.verify threeCert.objHash pubkey sig = true :=
  verified_quorum threeBytes_parse rfl

end QuorumCert

end ArchipelagoHotStuff.Crypto.Certificates
