/- Module: ArchipelagoHotStuff/Crypto/Bitmaps
   source: crypto.h (QuorumCertSecp256k1::unserialize), salticidae stream.h (_Bits)
   digest: Which byte strings the parser of certificates can take without leaving the bitmap that
     they declare. -/

import ArchipelagoHotStuff.Crypto.Encoding

set_option autoImplicit false
set_option relaxedAutoImplicit false

namespace ArchipelagoHotStuff.Crypto.Bitmaps

open Wire Certificates Encoding General.Codec

variable {K : Secp256k1}

/-- Every index of the bitmap lies in an allocated word, and the keys of the signatures are the set
bits. -/
structure Inside (qc : QuorumCert K) : Prop where
  allocated : ∀ i < qc.rids.size, i / 64 < qc.rids.data.length
  keys : ∀ i, (∃ r ∈ qc.sigs, r.val = i) ↔ i < qc.rids.size ∧ qc.rids.get i = some true

/-- The bytes are refused with an exception, or give such a certificate. -/
def StaysInside (K : Secp256k1) (s : DataStream) : Prop :=
  (∃ e, e ≠ Exn.undefinedBehaviour ∧ QuorumCert.unserialize (K := K) s = .error e) ∨
    ∃ qc rest, QuorumCert.unserialize (K := K) s = .ok (qc, rest) ∧ Inside qc

/-- A signature that follows the bitmap is cut off or ill formed. -/
def IllSigned (K : Secp256k1) (rids : Bits) (s : DataStream) : Prop :=
  ∃ x ∈ signatureSlots rids (List.range rids.size) s,
    x.2.length < 64 ∨ K.parseCompact x.2 = none

/-- If the bitmap can be read, its length does not wrap when it is rounded up to words, and if the
signatures can be read as well, no bit is set that is no 16-bit identifier. -/
def Bounded (K : Secp256k1) (s : DataStream) : Prop :=
  ∀ h s₁ rids s₂, getHash s = .ok (h, s₁) → Bits.unserialize s₁ = .ok (rids, s₂) →
    rids.size + 63 < 2 ^ 32 ∧
      (IllSigned K rids s₂ ∨ ∀ i < rids.size, rids.get i = some true → i < 2 ^ 16)

section words

variable {rids : Bits} {s : DataStream}

theorem ndata_eq (nbits : BitVec 32) : Bits.ndata nbits = (nbits.toNat + 63) % 2 ^ 32 / 64 := by
  have hdiv : Bits.ndata nbits = (nbits + 64#32 - 1#32).toNat / 64 := by
    unfold Bits.ndata
    rw [BitVec.toNat_udiv]
    rfl
  have hbound : nbits.toNat < 2 ^ 32 := nbits.isLt
  rw [hdiv, BitVec.toNat_sub, BitVec.toNat_add, BitVec.toNat_ofNat, BitVec.toNat_ofNat]
  omega

/-- All indices lie in allocated words exactly if the rounding does not wrap. -/
theorem allocated_iff (hshape : rids.data.length = Bits.ndata rids.nbits) :
    (∀ i < rids.size, i / 64 < rids.data.length) ↔ rids.size + 63 < 2 ^ 32 := by
  have hbound : rids.size < 2 ^ 32 := rids.nbits.isLt
  have hlength : rids.data.length = (rids.size + 63) % 2 ^ 32 / 64 := hshape.trans (ndata_eq _)
  rw [hlength]
  constructor
  · intro hall
    by_contra hwrap
    have hlast := hall (rids.size - 1) (by omega)
    omega
  · intro hsum i hi
    rw [Nat.mod_eq_of_lt hsum]
    omega

theorem exists_get_iff {i : Nat} : (∃ b, rids.get i = some b) ↔ i / 64 < rids.data.length := by
  rw [Bits.get_eq, ← Option.isSome_iff_exists, Option.isSome_map]
  simp

theorem unserializeBits_error {e : Exn} (h : Bits.unserialize s = .error e) :
    e = .insufficientBuffer := by
  have hdata : ∀ {len : Nat} {s : DataStream} {e : Exn}, getLE len s = .error e →
      e = .insufficientBuffer := by
    intro len s e h
    unfold getLE getData at h
    split at h <;> cases h
    rfl
  have hwords : ∀ (n : Nat) {s : DataStream} {e : Exn}, getWords n s = .error e →
      e = .insufficientBuffer := by
    intro n
    induction n with
    | zero =>
        intro s e h
        cases h
    | succ n ih =>
        intro s e h
        simp only [getWords, bind, Except.bind] at h
        split at h
        · cases h
          exact hdata ‹_›
        · split at h
          · cases h
            exact ih ‹_›
          · cases h
  unfold Bits.unserialize at h
  simp only [bind, Except.bind] at h
  split at h
  · cases h
    exact hdata ‹_›
  · split at h
    · cases h
      exact hwords _ ‹_›
    · cases h

theorem getHash_error {e : Exn} (h : getHash s = .error e) : e = .insufficientBuffer := by
  unfold getHash getLE getData at h
  split at h <;> cases h
  rfl

end words

section signatures

variable {rids : Bits} {is : List Nat} {s : DataStream}

/-- The loop over the indices leaves the bitmap at the first index beyond its words. -/
theorem unserializeSigs_outside (acc : AList (fun _ : ReplicaID => K.Sig)) {i : Nat}
    (h : rids.get i = none) :
    QuorumCert.unserializeSigs rids (i :: is) acc s = .error .undefinedBehaviour := by
  simp only [QuorumCert.unserializeSigs, h]

theorem unserializeSigs_cases (hread : ∀ i ∈ is, ∃ b, rids.get i = some b)
    (acc : AList (fun _ : ReplicaID => K.Sig)) :
    (QuorumCert.unserializeSigs rids is acc s = .error .illFormedSignature ∧
      ∃ x ∈ signatureSlots rids is s, x.2.length < 64 ∨ K.parseCompact x.2 = none) ∨
    (∃ acc' rest, QuorumCert.unserializeSigs rids is acc s = .ok (acc', rest)) ∧
      ¬ ∃ x ∈ signatureSlots rids is s, x.2.length < 64 ∨ K.parseCompact x.2 = none := by
  induction is generalizing acc s with
  | nil => exact .inr ⟨⟨acc, s, rfl⟩, fun ⟨_, hx, _⟩ => List.not_mem_nil hx⟩
  | cons i is ih =>
      have hrest := fun j hj => hread j (List.mem_cons_of_mem i hj)
      obtain ⟨b, hb⟩ := hread i List.mem_cons_self
      cases b with
      | false =>
          simp only [QuorumCert.unserializeSigs, signatureSlots, hb, Option.some.injEq,
            Bool.false_eq_true, if_false]
          exact ih hrest acc
      | true =>
          simp only [QuorumCert.unserializeSigs, signatureSlots, hb, if_true, List.mem_cons,
            exists_eq_or_imp]
          by_cases hshort : s.length < 64
          · have hsig : unserializeSig (K := K) s = .error .illFormedSignature := by
              simp only [unserializeSig, getData, hshort, if_true]
            have htake : (s.take 64).length < 64 := by
              rw [List.length_take]
              omega
            rw [hsig]
            exact .inl ⟨rfl, .inl (.inl htake)⟩
          · have htake : ¬ (s.take 64).length < 64 := by
              rw [List.length_take]
              omega
            cases hparse : K.parseCompact (s.take 64) with
            | none =>
                have hsig : unserializeSig (K := K) s = .error .illFormedSignature := by
                  simp only [unserializeSig, getData, hshort, if_false, hparse]
                rw [hsig]
                exact .inl ⟨rfl, .inl (.inr rfl)⟩
            | some sig =>
                have hsig : unserializeSig (K := K) s = .ok (sig, s.drop 64) := by
                  simp only [unserializeSig, getData, hshort, if_false, hparse]
                rw [hsig]
                simp only [htake, reduceCtorEq, or_self, false_or]
                exact ih hrest _

end signatures

theorem Wf.inside_iff {qc : QuorumCert K} (hwf : qc.Wf) :
    Inside qc ↔ ∀ i < qc.rids.size, qc.rids.get i = some true → i < 2 ^ 16 := by
  constructor
  · intro hin i hi hbit
    obtain ⟨r, _, rfl⟩ := (hin.keys i).mpr ⟨hi, hbit⟩
    exact r.isLt
  · intro hids
    refine ⟨fun i hi => exists_get_iff.mp (hwf.readable i hi), fun i => ⟨?_, ?_⟩⟩
    · rintro ⟨r, hr, rfl⟩
      obtain ⟨j, hj, hbit, rfl⟩ := (hwf.mem_sigs r).mp hr
      rw [ReplicaID.val_ofIndex (hids j hj hbit)]
      exact ⟨hj, hbit⟩
    · rintro ⟨hi, hbit⟩
      exact ⟨.ofIndex i, (hwf.mem_sigs _).mpr ⟨i, hi, hbit, rfl⟩,
        ReplicaID.val_ofIndex (hids i hi hbit)⟩

theorem unserialize_hash : QuorumCert.unserialize (K := K) = andThen getHash (fun h =>
    andThen Bits.unserialize (fun rids =>
      andThen (QuorumCert.unserializeSigs rids (List.range rids.size) ∅) (fun sigs s =>
        (.ok (⟨h, rids, sigs⟩, s) : Except Exn (QuorumCert K × DataStream))))) := by
  rw [unserialize_eq, getHash_eq]
  funext s
  unfold andThen
  cases getLE 32 s with
  | error e => rfl
  | ok r => rfl

section parse

variable {s s₁ s₂ rest : DataStream} {h : Uint256} {rids : Bits}

theorem unserialize_of_bits (hhash : getHash s = .ok (h, s₁))
    (hbits : Bits.unserialize s₁ = .ok (rids, s₂)) : QuorumCert.unserialize (K := K) s =
      (QuorumCert.unserializeSigs rids (List.range rids.size) ∅ s₂).map
        (fun r => (⟨h, rids, r.1⟩, r.2)) := by
  rw [unserialize_hash, andThen_ok hhash, andThen_ok hbits]
  unfold andThen
  cases QuorumCert.unserializeSigs (K := K) rids (List.range rids.size) ∅ s₂ with
  | error e => rfl
  | ok r => rfl

/-- A length that wraps leaves no words, so that the first index is already outside. -/
theorem unserialize_wraps (hhash : getHash s = .ok (h, s₁))
    (hbits : Bits.unserialize s₁ = .ok (rids, s₂)) (hsum : ¬ rids.size + 63 < 2 ^ 32) :
    QuorumCert.unserialize (K := K) s = .error .undefinedBehaviour := by
  have hlength : rids.data.length = (rids.size + 63) % 2 ^ 32 / 64 :=
    (unserializeBits_eq_ok hbits).1.trans (ndata_eq _)
  have hbound : rids.size < 2 ^ 32 := rids.nbits.isLt
  have hempty : rids.get 0 = none := by
    by_contra hsome
    have hword := exists_get_iff.mp (Option.ne_none_iff_exists'.mp hsome)
    omega
  have hrange : List.range rids.size = 0 :: (List.range (rids.size - 1)).map Nat.succ := by
    rw [← List.range_succ_eq_map]
    congr 1
    omega
  rw [unserialize_of_bits hhash hbits, hrange, unserializeSigs_outside _ hempty]
  rfl

theorem staysInside_of_words (hhash : getHash s = .ok (h, s₁))
    (hbits : Bits.unserialize s₁ = .ok (rids, s₂)) (hsum : rids.size + 63 < 2 ^ 32) :
    StaysInside K s ↔ IllSigned K rids s₂ ∨
      ∀ i < rids.size, rids.get i = some true → i < 2 ^ 16 := by
  have hwords := (allocated_iff (unserializeBits_eq_ok hbits).1).mpr hsum
  have hread := unserialize_of_bits (K := K) hhash hbits
  unfold StaysInside
  have hreadable : ∀ i ∈ List.range rids.size, ∃ b, rids.get i = some b :=
    fun i hi => exists_get_iff.mpr (hwords i (List.mem_range.mp hi))
  rcases unserializeSigs_cases (K := K) (s := s₂) hreadable ∅ with
    ⟨herror, hill⟩ | ⟨⟨sigs, rest, hok⟩, hwell⟩
  · rw [herror] at hread
    exact iff_of_true (.inl ⟨.illFormedSignature, by decide, hread⟩) (.inl hill)
  · rw [hok] at hread
    rw [hread, ← Wf.inside_iff (QuorumCert.wf_of_unserialize hread)]
    constructor
    · rintro (⟨e, _, he⟩ | ⟨qc, rest', hqc, hin⟩)
      · cases he
      · cases hqc
        exact .inr hin
    · rintro (hill | hin)
      · exact absurd hill hwell
      · exact .inr ⟨_, rest, rfl, hin⟩

end parse

/-- Parsing stays inside the bitmap exactly if the declared length does not wrap and no bit beyond
the identifiers is taken. -/
theorem staysInside_iff (K : Secp256k1) (s : DataStream) : StaysInside K s ↔ Bounded K s := by
  cases hhash : getHash s with
  | error e =>
      have hfails : QuorumCert.unserialize (K := K) s = .error e := by
        rw [unserialize_hash]
        simp only [andThen, hhash]
        rfl
      refine iff_of_true (.inl ⟨e, ?_, hfails⟩) (fun _ _ _ _ hh => ?_)
      · rw [getHash_error hhash]
        decide
      · rw [hhash] at hh
        cases hh
  | ok r =>
      obtain ⟨h, s₁⟩ := r
      cases hbits : Bits.unserialize s₁ with
      | error e =>
          have hfails : QuorumCert.unserialize (K := K) s = .error e := by
            rw [unserialize_hash, andThen_ok hhash]
            simp only [andThen, hbits]
            rfl
          refine iff_of_true (.inl ⟨e, ?_, hfails⟩) (fun _ _ _ _ hh hb => ?_)
          · rw [unserializeBits_error hbits]
            decide
          · rw [hhash] at hh
            cases hh
            rw [hbits] at hb
            cases hb
      | ok r =>
          obtain ⟨rids, s₂⟩ := r
          have hbounded : Bounded K s ↔ rids.size + 63 < 2 ^ 32 ∧ (IllSigned K rids s₂ ∨
              ∀ i < rids.size, rids.get i = some true → i < 2 ^ 16) := by
            constructor
            · exact fun hall => hall h s₁ rids s₂ hhash hbits
            · intro hone h' s₁' rids' s₂' hh hb
              rw [hhash] at hh
              cases hh
              rw [hbits] at hb
              cases hb
              exact hone
          rw [hbounded]
          by_cases hsum : rids.size + 63 < 2 ^ 32
          · rw [and_iff_right hsum]
            exact staysInside_of_words hhash hbits hsum
          · refine iff_of_false ?_ (fun hone => hsum hone.1)
            have hfails := unserialize_wraps (K := K) hhash hbits hsum
            rintro (⟨e, hne, he⟩ | ⟨_, _, hok, _⟩)
            · rw [hfails] at he
              cases he
              exact hne rfl
            · rw [hfails] at hok
              cases hok

/-- The certificate of the zero hash that declares 2^32 - 1 bits, and ends there. -/
def wrappedBytes : DataStream := List.replicate 32 0 ++ List.replicate 4 255

/-- No words are read, and the first bit is looked for beyond them. -/
theorem wrapped_length_leaves_bitmap :
    QuorumCert.unserialize (K := clearScheme) wrappedBytes = .error .undefinedBehaviour ∧
      ¬ StaysInside clearScheme wrappedBytes := by
  have hfails : QuorumCert.unserialize (K := clearScheme) wrappedBytes =
      .error .undefinedBehaviour := by
    have hhash : getHash wrappedBytes = .ok (0, List.replicate 4 255) := by decide +kernel
    have hbits : Bits.unserialize (List.replicate 4 255) = .ok (⟨BitVec.allOnes 32, []⟩, []) := rfl
    exact unserialize_wraps hhash hbits (by decide)
  refine ⟨hfails, ?_⟩
  rintro (⟨e, hne, he⟩ | ⟨_, _, hok, _⟩)
  · rw [hfails] at he
    cases he
    exact hne rfl
  · rw [hfails] at hok
    cases hok

end ArchipelagoHotStuff.Crypto.Bitmaps
