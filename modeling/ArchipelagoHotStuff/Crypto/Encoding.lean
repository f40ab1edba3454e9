/- Module: ArchipelagoHotStuff/Crypto/Encoding
   source: salticidae stream.h (DataStream, Blob, _Bits), crypto.h (serialize, unserialize)
   digest: How integers, bitmaps and certificates are written, what is read back of them, and
     which encodings of a certificate are the ones that writing it gives. -/

import ArchipelagoHotStuff.Crypto.Certificates
import ArchipelagoHotStuff.General.Codec

set_option autoImplicit false
set_option relaxedAutoImplicit false

namespace ArchipelagoHotStuff.Crypto.Encoding

open Wire Certificates General.Codec

/-- `operator<<` on an integer of `len` bytes; the lowest byte comes first. -/
def putLE : Nat → Nat → List UInt8
  | 0, _ => []
  | len + 1, x => UInt8.ofNat x :: putLE len (x / 256)

/-- `operator<<` on a hash. -/
def putHash (h : Uint256) : List UInt8 := putLE 32 h.toNat

def getHash (s : DataStream) : Except Exn (Uint256 × DataStream) := do
  let (x, s) ← getLE 32 s
  return (BitVec.ofNat 256 x, s)

/-- `_Bits::serialize`. -/
def putBits (b : Bits) : List UInt8 :=
  putLE 4 b.nbits.toNat ++ b.data.flatMap (fun w => putLE 8 w.toNat)

variable {s rest : DataStream} {len x : Nat}

/-! Integers. -/

@[simp] theorem length_putLE (len x : Nat) : (putLE len x).length = len := by
  induction len generalizing x with
  | zero => rfl
  | succ len ih => simp [putLE, ih]

theorem fromLE_putLE (h : x < 256 ^ len) : fromLE (putLE len x) = x := by
  induction len generalizing x with
  | zero =>
      have hx : x = 0 := by omega
      simp [putLE, fromLE, hx]
  | succ len ih =>
      have hdiv : x / 256 < 256 ^ len := by
        rw [Nat.pow_succ] at h
        omega
      have hlow : (UInt8.ofNat x).toNat = x % 256 := by simp
      simp only [putLE, fromLE, ih hdiv, hlow]
      omega

theorem putLE_fromLE (bs : List UInt8) : putLE bs.length (fromLE bs) = bs := by
  induction bs with
  | nil => rfl
  | cons b bs ih =>
      have hb : b.toNat < 256 := b.toNat_lt
      have hdiv : (b.toNat + 256 * fromLE bs) / 256 = fromLE bs := by omega
      have hlow : UInt8.ofNat (b.toNat + 256 * fromLE bs) = b := by
        apply UInt8.toNat_inj.mp
        simp only [UInt8.toNat_ofNat']
        omega
      simp only [List.length_cons, fromLE, putLE, hdiv, hlow, ih]

theorem fromLE_lt (bs : List UInt8) : fromLE bs < 256 ^ bs.length := by
  induction bs with
  | nil => simp [fromLE]
  | cons b bs ih =>
      have hb : b.toNat < 256 := b.toNat_lt
      simp only [fromLE, List.length_cons, Nat.pow_succ]
      omega

theorem reads_getData (bs : List UInt8) : Reads (getData bs.length) bs (· = bs) := by
  intro rest
  refine ⟨bs, rfl, ?_⟩
  simp [getData]

theorem getData_eq_ok {bs : List UInt8} (h : getData len s = .ok (bs, rest)) :
    bs.length = len ∧ s = bs ++ rest := by
  unfold getData at h
  split at h
  · cases h
  · cases h
    constructor
    · simp
      omega
    · simp

theorem getLE_eq (len : Nat) : getLE len =
    andThen (getData len) (fun bs s => (.ok (fromLE bs, s) : Except Exn (Nat × DataStream))) :=
  rfl

theorem reads_getLE (h : x < 256 ^ len) : Reads (getLE len) (putLE len x) (· = x) := by
  have hdata := reads_getData (putLE len x)
  rw [length_putLE] at hdata
  rw [getLE_eq]
  refine hdata.map ?_
  rintro bs rfl
  exact fromLE_putLE h

theorem getLE_eq_ok (h : getLE len s = .ok (x, rest)) :
    x < 256 ^ len ∧ s = putLE len x ++ rest := by
  rw [getLE_eq] at h
  obtain ⟨bs, mid, hdata, hend⟩ := andThen_eq_ok h
  cases hend
  obtain ⟨rfl, rfl⟩ := getData_eq_ok hdata
  exact ⟨fromLE_lt bs, by rw [putLE_fromLE]⟩

/-! Hashes. -/

theorem getHash_eq : getHash = andThen (getLE 32)
    (fun x s => (.ok (BitVec.ofNat 256 x, s) : Except Exn (Uint256 × DataStream))) := rfl

theorem reads_getHash (h : Uint256) : Reads getHash (putHash h) (· = h) := by
  rw [getHash_eq]
  refine (reads_getLE h.isLt).map ?_
  rintro x rfl
  simp

theorem canonical_getHash : Canonical getHash putHash := by
  intro s h rest hread
  rw [getHash_eq] at hread
  obtain ⟨x, mid, hget, hend⟩ := andThen_eq_ok hread
  cases hend
  obtain ⟨hlt, rfl⟩ := getLE_eq_ok hget
  have hx : x < 2 ^ 256 := hlt
  rw [putHash, BitVec.toNat_ofNat, Nat.mod_eq_of_lt hx]

/-! Bitmaps. -/

def getWord (s : DataStream) : Except Exn (BitVec 64 × DataStream) := do
  let (x, s) ← getLE 8 s
  return (BitVec.ofNat 64 x, s)

theorem getWord_eq : getWord = andThen (getLE 8)
    (fun x s => (.ok (BitVec.ofNat 64 x, s) : Except Exn (BitVec 64 × DataStream))) := rfl

theorem getWords_eq (n : Nat) : getWords n = repeated getWord n := by
  induction n with
  | zero => rfl
  | succ n ih =>
      funext s
      simp only [getWords, repeated, ih, getWord, bind_assoc, pure_bind]

theorem reads_getWord (w : BitVec 64) : Reads getWord (putLE 8 w.toNat) (· = w) := by
  rw [getWord_eq]
  refine (reads_getLE w.isLt).map ?_
  rintro x rfl
  simp

theorem canonical_getWord : Canonical getWord (fun w => putLE 8 w.toNat) := by
  intro s w rest hread
  rw [getWord_eq] at hread
  obtain ⟨x, mid, hget, hend⟩ := andThen_eq_ok hread
  cases hend
  obtain ⟨hlt, rfl⟩ := getLE_eq_ok hget
  have hx : x < 2 ^ 64 := hlt
  dsimp only
  rw [BitVec.toNat_ofNat, Nat.mod_eq_of_lt hx]

theorem unserializeBits_eq : Bits.unserialize = andThen (getLE 4) (fun n =>
    andThen (getWords (Bits.ndata (BitVec.ofNat 32 n)))
      (fun data s => (.ok (⟨BitVec.ofNat 32 n, data⟩, s) : Except Exn (Bits × DataStream)))) :=
  rfl

theorem reads_bits {b : Bits} (hshape : b.data.length = Bits.ndata b.nbits) :
    Reads Bits.unserialize (putBits b) (· = b) := by
  rw [unserializeBits_eq]
  refine (reads_getLE b.nbits.isLt).andThen ?_
  rintro n rfl
  rw [BitVec.ofNat_toNat, BitVec.setWidth_eq, ← hshape, getWords_eq]
  refine (Reads.repeated_eq (fun w _ => reads_getWord w)).map ?_
  rintro data rfl
  rfl

theorem unserializeBits_eq_ok {b : Bits} (h : Bits.unserialize s = .ok (b, rest)) :
    b.data.length = Bits.ndata b.nbits ∧ s = putBits b ++ rest := by
  rw [unserializeBits_eq] at h
  obtain ⟨n, mid, hget, hrest⟩ := andThen_eq_ok h
  obtain ⟨data, mid', hwords, hend⟩ := andThen_eq_ok hrest
  cases hend
  obtain ⟨hlt, rfl⟩ := getLE_eq_ok hget
  rw [getWords_eq] at hwords
  obtain ⟨hlen, rfl⟩ := canonical_getWord.repeated hwords
  have hn : n < 2 ^ 32 := hlt
  refine ⟨hlen, ?_⟩
  simp only [putBits, BitVec.toNat_ofNat, Nat.mod_eq_of_lt hn, List.append_assoc]

/-! Signatures. -/

/-- The compact form of a signature: 64 bytes which parsing turns back into the signature. -/
structure CompactCodec (K : Secp256k1) where
  serializeCompact : K.Sig → List UInt8
  length_compact : ∀ sig, (serializeCompact sig).length = 64
  parse_serialize : ∀ sig, K.parseCompact (serializeCompact sig) = some sig

/-- No other 64 bytes are parsed as the signature: numbers beyond the group order are refused. -/
structure StrictCodec (K : Secp256k1) extends CompactCodec K where
  serialize_parse : ∀ bytes sig, bytes.length = 64 → K.parseCompact bytes = some sig →
    serializeCompact sig = bytes

theorem length_putHash_putHash (h h' : Uint256) : (putHash h ++ putHash h').length = 64 := by
  simp [putHash]

/-- A scheme whose signatures are the bytes of the key and of the message. -/
def bytesScheme : Secp256k1 where
  Sig := { bytes : List UInt8 // bytes.length = 64 }
  PubKey := Uint256
  PrivKey := Uint256
  parseCompact bytes := if h : bytes.length = 64 then some ⟨bytes, h⟩ else none
  getPubkey := id
  sign key msg := ⟨putHash key ++ putHash msg, length_putHash_putHash key msg⟩
  verify msg pubkey sig := sig.val == putHash pubkey ++ putHash msg
  verify_sign _ _ := beq_self_eq_true _

theorem bytesScheme_parse (sig : bytesScheme.Sig) : bytesScheme.parseCompact sig.val = some sig :=
  dif_pos sig.property

theorem bytesScheme_serialize (bytes : List UInt8) (sig : bytesScheme.Sig)
    (hlen : bytes.length = 64) (h : bytesScheme.parseCompact bytes = some sig) :
    sig.val = bytes := by
  have hparse : bytesScheme.parseCompact bytes = some ⟨bytes, hlen⟩ := dif_pos hlen
  rw [hparse] at h
  cases h
  rfl

def bytesCodec : StrictCodec bytesScheme where
  serializeCompact := Subtype.val
  length_compact := Subtype.property
  parse_serialize := bytesScheme_parse
  serialize_parse := bytesScheme_serialize

variable {K : Secp256k1} (codec : CompactCodec K)

def putPartCert (pc : PartCert K) : List UInt8 :=
  putHash pc.objHash ++ codec.serializeCompact pc.sig

def getPartCert (s : DataStream) : Except Exn (PartCert K × DataStream) := do
  let (objHash, s) ← getHash s
  let (sig, s) ← unserializeSig s
  return (⟨sig, objHash⟩, s)

/-- The loop of `QuorumCertSecp256k1::serialize` over the indices of the bitmap; `at` throws where
the map has no signature. -/
def putSigs (rids : Bits) (sigs : AList (fun _ : ReplicaID => K.Sig)) :
    List Nat → Option (List UInt8)
  | [] => some []
  | i :: is =>
      match rids.get i with
      | none => none
      | some false => putSigs rids sigs is
      | some true =>
          match sigs.lookup (ReplicaID.ofIndex i) with
          | none => none
          | some sig => (putSigs rids sigs is).map (codec.serializeCompact sig ++ ·)

def putQuorumCert (qc : QuorumCert K) : Option (List UInt8) :=
  (putSigs codec qc.rids qc.sigs (List.range qc.rids.size)).map
    (fun sigs => putHash qc.objHash ++ putBits qc.rids ++ sigs)

theorem reads_sig (sig : K.Sig) :
    Reads (unserializeSig (K := K)) (codec.serializeCompact sig) (· = sig) := by
  intro rest
  have hlen := codec.length_compact sig
  refine ⟨sig, rfl, ?_⟩
  simp [unserializeSig, getData, hlen, codec.parse_serialize]

theorem unserializeSig_eq_ok {sig : K.Sig} (h : unserializeSig s = .ok (sig, rest)) :
    64 ≤ s.length ∧ K.parseCompact (s.take 64) = some sig ∧ rest = s.drop 64 := by
  unfold unserializeSig getData at h
  by_cases hlen : s.length < 64
  · simp only [hlen, if_true] at h
    cases h
  · simp only [hlen, if_false] at h
    cases hparse : K.parseCompact (s.take 64) with
    | none =>
        simp only [hparse] at h
        cases h
    | some sig' =>
        simp only [hparse] at h
        cases h
        exact ⟨by omega, rfl, rfl⟩

theorem canonical_sig (codec : StrictCodec K) :
    Canonical (unserializeSig (K := K)) codec.serializeCompact := by
  intro s sig rest hread
  obtain ⟨hlen, hparse, rfl⟩ := unserializeSig_eq_ok hread
  rw [codec.serialize_parse _ _ (by simp; omega) hparse]
  exact (List.take_append_drop 64 s).symm

theorem getPartCert_eq : getPartCert (K := K) = andThen getHash (fun objHash =>
    andThen unserializeSig
      (fun sig s => (.ok (⟨sig, objHash⟩, s) : Except Exn (PartCert K × DataStream)))) := rfl

theorem reads_partCert (pc : PartCert K) : Reads getPartCert (putPartCert codec pc) (· = pc) := by
  rw [getPartCert_eq]
  refine (reads_getHash pc.objHash).andThen ?_
  rintro h rfl
  refine (reads_sig codec pc.sig).map ?_
  rintro sig rfl
  rfl

/-! The signatures of a certificate. -/

/-- Certificates with the same hash, bitmap and signatures. -/
structure SameCert (qc qc' : QuorumCert K) : Prop where
  objHash : qc'.objHash = qc.objHash
  rids : qc'.rids = qc.rids
  sigs : ∀ r, qc'.sigs.lookup r = qc.sigs.lookup r

section sigs

variable {codec} {rids : Bits} {sigs acc' : AList (fun _ : ReplicaID => K.Sig)}
  {is : List Nat} {w : List UInt8} {qc : QuorumCert K}

theorem exists_putSigs (hread : ∀ i ∈ is, ∃ b, rids.get i = some b)
    (hmem : ∀ i ∈ is, rids.get i = some true → ReplicaID.ofIndex i ∈ sigs) :
    ∃ w, putSigs codec rids sigs is = some w := by
  induction is with
  | nil => exact ⟨[], rfl⟩
  | cons i is ih =>
      obtain ⟨w, hw⟩ := ih (fun j hj => hread j (List.mem_cons_of_mem i hj))
        (fun j hj => hmem j (List.mem_cons_of_mem i hj))
      obtain ⟨b, hb⟩ := hread i List.mem_cons_self
      cases b with
      | false =>
          refine ⟨w, ?_⟩
          simp only [putSigs, hb, hw]
      | true =>
          have hsig := AList.lookup_isSome.mpr (hmem i List.mem_cons_self hb)
          obtain ⟨sig, hsig⟩ := Option.isSome_iff_exists.mp hsig
          refine ⟨codec.serializeCompact sig ++ w, ?_⟩
          simp only [putSigs, hb, hsig, hw, Option.map_some]

/-- Reading the signatures that were written fills their slots and leaves the others alone. -/
theorem unserializeSigs_putSigs (acc : AList (fun _ : ReplicaID => K.Sig))
    (h : putSigs codec rids sigs is = some w) :
    Reads (QuorumCert.unserializeSigs rids is acc) w (fun acc' => ∀ r, acc'.lookup r =
      if ∃ i ∈ is, rids.get i = some true ∧ ReplicaID.ofIndex i = r then sigs.lookup r
      else acc.lookup r) := by
  induction is generalizing acc w with
  | nil =>
      cases h
      refine .pure (fun r => ?_)
      simp
  | cons i is ih =>
      unfold putSigs at h
      split at h
      · cases h
      · rename_i hbit
        intro rest
        obtain ⟨acc', hacc, hread⟩ := ih acc h rest
        refine ⟨acc', fun r => ?_, ?_⟩
        · rw [hacc r]
          simp [hbit]
        · simp only [QuorumCert.unserializeSigs, hbit, hread]
      · rename_i hbit
        split at h
        · cases h
        · rename_i sig hsig
          obtain ⟨w', hw', rfl⟩ := Option.map_eq_some_iff.mp h
          intro rest
          obtain ⟨acc', hacc, hread⟩ := ih (acc.insert (ReplicaID.ofIndex i) sig) hw' rest
          obtain ⟨_, rfl, hfirst⟩ := reads_sig codec sig (w' ++ rest)
          refine ⟨acc', fun r => ?_, ?_⟩
          · rw [hacc r]
            by_cases hr : r = ReplicaID.ofIndex i
            · subst hr
              simp [hbit, hsig]
            · have hr' : ReplicaID.ofIndex i ≠ r := fun heq => hr heq.symm
              simp [hbit, hr', AList.lookup_insert_ne hr]
          · simp only [QuorumCert.unserializeSigs, hbit, List.append_assoc, hfirst, hread]

theorem unserialize_eq : QuorumCert.unserialize (K := K) = andThen (getLE 32) (fun h =>
    andThen Bits.unserialize (fun rids =>
      andThen (QuorumCert.unserializeSigs rids (List.range rids.size) ∅) (fun sigs s =>
        (.ok (⟨BitVec.ofNat 256 h, rids, sigs⟩, s) :
          Except Exn (QuorumCert K × DataStream))))) := rfl

theorem exists_putQuorumCert (hwf : qc.Wf) : ∃ w, putQuorumCert codec qc = some w := by
  have hsigs : ∃ w, putSigs codec qc.rids qc.sigs (List.range qc.rids.size) = some w :=
    exists_putSigs (fun i hi => hwf.readable i (List.mem_range.mp hi))
      (fun i hi hbit => (hwf.mem_sigs _).mpr ⟨i, List.mem_range.mp hi, hbit, rfl⟩)
  obtain ⟨w, hw⟩ := hsigs
  exact ⟨_, by rw [putQuorumCert, hw, Option.map_some]⟩

theorem reads_quorumCert (hwf : qc.Wf) (hshape : qc.rids.data.length = Bits.ndata qc.rids.nbits)
    (h : putQuorumCert codec qc = some w) : Reads QuorumCert.unserialize w (SameCert qc) := by
  obtain ⟨sigs, hsigs, rfl⟩ := Option.map_eq_some_iff.mp h
  rw [unserialize_eq, List.append_assoc]
  refine (reads_getLE qc.objHash.isLt).andThen ?_
  rintro x rfl
  refine (reads_bits hshape).andThen ?_
  rintro rids rfl
  refine (unserializeSigs_putSigs ∅ hsigs).map ?_
  intro sigs' hsame
  refine ⟨by simp, rfl, fun r => ?_⟩
  rw [hsame r]
  split
  · rfl
  · rename_i hnot
    -- no bit is set for the replica, so that the map has no signature of it
    have hnone : r ∉ qc.sigs := by
      intro hr
      obtain ⟨i, hi, hbit, hri⟩ := (hwf.mem_sigs r).mp hr
      exact hnot ⟨i, List.mem_range.mpr hi, hbit, hri⟩
    rw [AList.lookup_eq_none.mpr hnone]
    rfl

/-! Which encodings of a certificate are read and written back unchanged. -/

/-- The slot and the bytes of each signature that follows a bitmap. -/
def signatureSlots (rids : Bits) : List Nat → DataStream → List (ReplicaID × List UInt8)
  | [], _ => []
  | i :: is, s =>
      if rids.get i = some true then
        (ReplicaID.ofIndex i, s.take 64) :: signatureSlots rids is (s.drop 64)
      else signatureSlots rids is s

/-- Signatures for one slot have the same bytes. -/
def SlotsAgree (rids : Bits) (s : DataStream) : Prop :=
  ∀ x ∈ signatureSlots rids (List.range rids.size) s,
    ∀ y ∈ signatureSlots rids (List.range rids.size) s, x.1 = y.1 → x.2 = y.2

/-- In the encoding of a certificate, bits that share a slot come with the same signature. -/
def Unambiguous (s : DataStream) : Prop :=
  ∀ h s₁ rids s₂, getHash s = .ok (h, s₁) → Bits.unserialize s₁ = .ok (rids, s₂) →
    SlotsAgree rids s₂

/-- The map that signatures read one after another leave behind. -/
def fill (l : List (ReplicaID × K.Sig)) (acc : AList (fun _ : ReplicaID => K.Sig)) :
    AList (fun _ : ReplicaID => K.Sig) :=
  l.foldl (fun m x => m.insert x.1 x.2) acc

theorem unserializeSigs_eq_ok (codec : StrictCodec K)
    (acc : AList (fun _ : ReplicaID => K.Sig))
    (h : QuorumCert.unserializeSigs rids is acc s = .ok (acc', rest)) :
    ∃ l : List (ReplicaID × K.Sig), acc' = fill l acc ∧
      s = l.flatMap (fun x => codec.serializeCompact x.2) ++ rest ∧
      signatureSlots rids is s = l.map (fun x => (x.1, codec.serializeCompact x.2)) ∧
      ∀ sigs, (∀ x ∈ l, x.1 ∈ sigs) → putSigs codec.toCompactCodec rids sigs is =
        some (l.flatMap (fun x => codec.serializeCompact ((sigs.lookup x.1).getD x.2))) := by
  induction is generalizing acc s with
  | nil =>
      cases h
      exact ⟨[], rfl, rfl, rfl, fun _ _ => rfl⟩
  | cons i is ih =>
      simp only [QuorumCert.unserializeSigs] at h
      split at h
      · cases h
      · rename_i hbit
        obtain ⟨l, hfill, hs, hslots, hput⟩ := ih acc h
        refine ⟨l, hfill, hs, ?_, fun sigs hmem => ?_⟩
        · simp [signatureSlots, hbit, hslots]
        · simp only [putSigs, hbit, hput sigs hmem]
      · rename_i hbit
        split at h
        · cases h
        · rename_i sig s₁ hsig
          obtain ⟨l, rfl, hs, hslots, hput⟩ := ih _ h
          have hfirst := canonical_sig codec s sig s₁ hsig
          have hlen := codec.length_compact sig
          refine ⟨(ReplicaID.ofIndex i, sig) :: l, rfl, ?_, ?_, fun sigs hmem => ?_⟩
          · rw [hfirst, hs]
            simp
          · rw [hfirst]
            simp [signatureSlots, hbit, hslots, hlen]
          · have hsome := AList.lookup_isSome.mpr (hmem _ List.mem_cons_self)
            obtain ⟨sig', hsig'⟩ := Option.isSome_iff_exists.mp hsome
            simp only [] at hsig'
            simp [putSigs, hbit, hsig', hput sigs (fun x hx => hmem x (List.mem_cons_of_mem _ hx))]

/-- A slot holds the last signature read for it, and is left alone if there is none. -/
theorem lookup_fill (l : List (ReplicaID × K.Sig)) (acc : AList (fun _ : ReplicaID => K.Sig))
    (r : ReplicaID) : (∃ y ∈ l, y.1 = r ∧ (fill l acc).lookup r = some y.2) ∨
      ((∀ y ∈ l, y.1 ≠ r) ∧ (fill l acc).lookup r = acc.lookup r) := by
  induction l generalizing acc with
  | nil => exact .inr ⟨nofun, rfl⟩
  | cons x l ih =>
      rcases ih (acc.insert x.1 x.2) with ⟨y, hy, hslot, hlookup⟩ | ⟨hnone, hlookup⟩
      · exact .inl ⟨y, List.mem_cons_of_mem x hy, hslot, hlookup⟩
      · by_cases hr : r = x.1
        · subst hr
          refine .inl ⟨x, List.mem_cons_self, rfl, ?_⟩
          exact hlookup.trans (AList.lookup_insert _)
        · refine .inr ⟨?_, hlookup.trans (AList.lookup_insert_ne hr)⟩
          intro y hy
          rcases List.mem_cons.mp hy with rfl | hy
          · exact fun heq => hr heq.symm
          · exact hnone y hy

theorem flatMap_inj {δ : Type*} {l : List δ} {f g : δ → List UInt8}
    (hlen : ∀ x ∈ l, (f x).length = (g x).length) (h : l.flatMap f = l.flatMap g) :
    ∀ x ∈ l, f x = g x := by
  induction l with
  | nil => exact nofun
  | cons x l ih =>
      rw [List.flatMap_cons, List.flatMap_cons] at h
      obtain ⟨hx, hrest⟩ := List.append_inj h (hlen x List.mem_cons_self)
      intro y hy
      rcases List.mem_cons.mp hy with rfl | hy
      · exact hx
      · exact ih (fun z hz => hlen z (List.mem_cons_of_mem x hz)) hrest y hy

/-- The signatures are written as they were read exactly if no slot was given two. -/
theorem putSigs_fill_iff (codec : CompactCodec K) {l : List (ReplicaID × K.Sig)}
    (hput : ∀ sigs, (∀ x ∈ l, x.1 ∈ sigs) → putSigs codec rids sigs is =
      some (l.flatMap (fun x => codec.serializeCompact ((sigs.lookup x.1).getD x.2)))) :
    putSigs codec rids (fill l ∅) is =
        some (l.flatMap (fun x => codec.serializeCompact x.2)) ↔
      ∀ x ∈ l, ∀ y ∈ l, x.1 = y.1 → x.2 = y.2 := by
  have hlast : ∀ x ∈ l, ∃ y ∈ l, y.1 = x.1 ∧ (fill l ∅).lookup x.1 = some y.2 := by
    intro x hx
    rcases lookup_fill l ∅ x.1 with hfound | ⟨hnone, _⟩
    · exact hfound
    · exact absurd rfl (hnone x hx)
  have hmem : ∀ x ∈ l, x.1 ∈ fill l ∅ := by
    intro x hx
    obtain ⟨y, _, _, hlookup⟩ := hlast x hx
    exact AList.lookup_isSome.mp (by rw [hlookup]; rfl)
  rw [hput _ hmem, Option.some.injEq]
  constructor
  · intro hsame
    have hkept : ∀ x ∈ l, (fill l ∅).lookup x.1 = some x.2 := by
      intro x hx
      have hbytes := flatMap_inj (fun _ _ => by rw [codec.length_compact, codec.length_compact])
        hsame x hx
      obtain ⟨y, _, _, hlookup⟩ := hlast x hx
      rw [hlookup, Option.getD_some] at hbytes
      have hparse := codec.parse_serialize y.2
      rw [hbytes, codec.parse_serialize] at hparse
      rw [hlookup, hparse]
    intro x hx y hy hslot
    have hxy := hkept x hx
    rw [hslot, hkept y hy] at hxy
    exact (Option.some.inj hxy).symm
  · intro hagree
    refine List.flatMap_congr (fun x hx => ?_)
    obtain ⟨y, hy, hslot, hlookup⟩ := hlast x hx
    rw [hlookup, Option.getD_some, hagree y hy x hx hslot]

/-- A certificate that was read is written as the bytes that were read exactly if these are
unambiguous. -/
theorem canonical_quorumCert_iff (codec : StrictCodec K)
    (h : QuorumCert.unserialize s = .ok (qc, rest)) :
    (∃ w, putQuorumCert codec.toCompactCodec qc = some w ∧ s = w ++ rest) ↔ Unambiguous s := by
  rw [unserialize_eq] at h
  obtain ⟨x, s₁, hhash, h⟩ := andThen_eq_ok h
  obtain ⟨rids, s₂, hbits, h⟩ := andThen_eq_ok h
  obtain ⟨sigs, s₃, hsigs, hend⟩ := andThen_eq_ok h
  cases hend
  have hgetHash : getHash s = .ok (BitVec.ofNat 256 x, s₁) := by
    rw [getHash_eq]
    simp only [andThen, hhash]
    rfl
  have hs := canonical_getHash _ _ _ hgetHash
  obtain ⟨_, hs₁⟩ := unserializeBits_eq_ok hbits
  obtain ⟨l, rfl, hs₂, hslots, hput⟩ := unserializeSigs_eq_ok codec ∅ hsigs
  have hagree : SlotsAgree rids s₂ ↔ ∀ x ∈ l, ∀ y ∈ l, x.1 = y.1 → x.2 = y.2 := by
    unfold SlotsAgree
    rw [hslots]
    constructor
    · intro hall x hx y hy hslot
      have hbytes := hall _ (List.mem_map_of_mem hx) _ (List.mem_map_of_mem hy) hslot
      have hparse := codec.parse_serialize x.2
      rw [show codec.serializeCompact x.2 = codec.serializeCompact y.2 from hbytes,
        codec.parse_serialize] at hparse
      exact (Option.some.inj hparse).symm
    · intro hall x hx y hy hslot
      obtain ⟨x', hx', rfl⟩ := List.mem_map.mp hx
      obtain ⟨y', hy', rfl⟩ := List.mem_map.mp hy
      exact congrArg codec.serializeCompact (hall x' hx' y' hy' hslot)
  have hunambiguous : Unambiguous s ↔ SlotsAgree rids s₂ := by
    constructor
    · exact fun hall => hall _ _ _ _ hgetHash hbits
    · intro hone k t rids' t' hk ht
      rw [hgetHash] at hk
      cases hk
      rw [hbits] at ht
      cases ht
      exact hone
  rw [hunambiguous, hagree, ← putSigs_fill_iff codec.toCompactCodec hput]
  constructor
  · rintro ⟨w, hw, hsw⟩
    obtain ⟨w', hw', rfl⟩ := Option.map_eq_some_iff.mp hw
    rw [hs, hs₁, hs₂] at hsw
    simp only [List.append_assoc, List.append_cancel_left_eq, List.append_cancel_right_eq] at hsw
    rw [hsw]
    exact hw'
  · intro hw
    refine ⟨_, by rw [putQuorumCert, hw, Option.map_some], ?_⟩
    rw [hs, hs₁, hs₂]
    simp

theorem SameCert.put_eq {qc' : QuorumCert K} (h : SameCert qc qc') :
    putQuorumCert codec qc' = putQuorumCert codec qc := by
  have hsigs : ∀ is, putSigs codec qc.rids qc'.sigs is = putSigs codec qc.rids qc.sigs is := by
    intro is
    induction is with
    | nil => rfl
    | cons i is ih => simp only [putSigs, h.sigs, ih]
  rw [putQuorumCert, putQuorumCert, h.objHash, h.rids, hsigs]

theorem shape_of_unserialize (h : QuorumCert.unserialize s = .ok (qc, rest)) :
    qc.rids.data.length = Bits.ndata qc.rids.nbits := by
  rw [unserialize_eq] at h
  obtain ⟨x, s₁, _, h⟩ := andThen_eq_ok h
  obtain ⟨rids, s₂, hbits, h⟩ := andThen_eq_ok h
  obtain ⟨sigs, s₃, _, hend⟩ := andThen_eq_ok h
  cases hend
  exact (unserializeBits_eq_ok hbits).1

end sigs

/-! Certificates that are created for a configuration. -/

/-- Created for a configuration and filled by calls of `add_part` for configured replicas. -/
inductive Filled (config : ReplicaConfig K) (h : Uint256) : QuorumCert K → Prop
  | create : Filled config h (QuorumCert.create config h)
  | addPart {qc qc' : QuorumCert K} {rid : ReplicaID} {pc : PartCert K} : Filled config h qc →
      rid ∈ config.replicaMap → qc.addPart rid pc = .ok qc' → Filled config h qc'

section filled

variable {config : ReplicaConfig K} {h : Uint256} {qc : QuorumCert K}

theorem ndata_ofNat {n : Nat} (hn : n ≤ 2 ^ 16) :
    Bits.ndata (BitVec.ofNat 32 n) = (n + 63) / 64 := by
  have hdiv : Bits.ndata (BitVec.ofNat 32 n) = (BitVec.ofNat 32 n + 64#32 - 1#32).toNat / 64 := by
    unfold Bits.ndata
    rw [BitVec.toNat_udiv]
    rfl
  have hsum : (BitVec.ofNat 32 n + 64#32 - 1#32).toNat = n + 63 := by
    simp only [BitVec.toNat_sub, BitVec.toNat_add, BitVec.toNat_ofNat]
    omega
  rw [hdiv, hsum]

theorem size_create (hsize : config.nreplicas ≤ 2 ^ 16) :
    (QuorumCert.create config h).rids.size = config.nreplicas := by
  show (BitVec.ofNat 32 config.nreplicas).toNat = config.nreplicas
  rw [BitVec.toNat_ofNat]
  omega

/-- The bitmap and the map of signatures stay in step, and every declared bit has its word. -/
theorem Filled.wf (hsize : config.nreplicas ≤ 2 ^ 16)
    (hids : ∀ r ∈ config.replicaMap, r.val < config.nreplicas) (hqc : Filled config h qc) :
    qc.Wf ∧ qc.rids.data.length = Bits.ndata qc.rids.nbits ∧
      qc.rids.size = config.nreplicas := by
  induction hqc with
  | create =>
      have hclear : ∀ i < config.nreplicas, (QuorumCert.create config h).rids.get i =
          some false := by
        intro i hi
        have hword : i / 64 < Bits.ndata (BitVec.ofNat 32 config.nreplicas) := by
          rw [ndata_ofNat hsize]
          omega
        simp [QuorumCert.create, Bits.get_eq, Bits.ofSize, hword]
      refine ⟨⟨fun i hi => ⟨false, ?_⟩, fun r => ⟨fun hr => ?_, fun hex => ?_⟩⟩,
        List.length_replicate, size_create hsize⟩
      · rw [size_create hsize] at hi
        exact hclear i hi
      · exact absurd hr (AList.notMem_empty r)
      · obtain ⟨i, hi, hbit, _⟩ := hex
        rw [size_create hsize] at hi
        rw [hclear i hi] at hbit
        cases hbit
  | @addPart qc qc' rid pc _ hrid hadd ih =>
      obtain ⟨hwf, hshape, hqcsize⟩ := ih
      unfold QuorumCert.addPart at hadd
      split at hadd
      · cases hadd
      · split at hadd
        · cases hadd
        · rename_i rids hset
          cases hadd
          obtain ⟨hnbits, hlen, _⟩ := Bits.shape_set hset
          have hsame : rids.size = qc.rids.size := congrArg BitVec.toNat hnbits
          have hget := Bits.get_set hset
          refine ⟨⟨fun i hi => ?_, fun r => ?_⟩, ?_, hsame.trans hqcsize⟩
          · obtain ⟨b, hb⟩ := hwf.readable i (by rw [← hsame]; exact hi)
            exact ⟨_, by rw [hget i, hb, Option.map_some]⟩
          · have hmem : (r ∈ if rid ∈ qc.sigs then qc.sigs else qc.sigs.insert rid pc.sig) ↔
                r = rid ∨ r ∈ qc.sigs := by
              split
              · rename_i hold
                constructor
                · exact .inr
                · rintro (rfl | hr)
                  · exact hold
                  · exact hr
              · exact AList.mem_insert _
            rw [hmem, hwf.mem_sigs r]
            constructor
            · rintro (rfl | ⟨i, hi, hbit, hri⟩)
              · have hi : r.val < qc.rids.size := by
                  rw [hqcsize]
                  exact hids r hrid
                obtain ⟨b, hb⟩ := hwf.readable r.val hi
                refine ⟨r.val, by rw [hsame]; exact hi, ?_, ReplicaID.ofIndex_val r⟩
                rw [hget, hb]
                simp
              · refine ⟨i, by rw [hsame]; exact hi, ?_, hri⟩
                rw [hget, hbit]
                simp
            · rintro ⟨i, hi, hbit, hri⟩
              rw [hsame] at hi
              obtain ⟨b, hb⟩ := hwf.readable i hi
              rw [hget, hb, Option.map_some, Option.some.injEq, Bool.or_eq_true,
                decide_eq_true_eq] at hbit
              rcases hbit with rfl | rfl
              · exact .inr ⟨i, hi, hb, hri⟩
              · left
                rw [← hri, ReplicaID.ofIndex_val]
          · rw [hlen, hshape, hnbits]

end filled

end ArchipelagoHotStuff.Crypto.Encoding
