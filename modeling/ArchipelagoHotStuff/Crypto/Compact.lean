/- Module: ArchipelagoHotStuff/Crypto/Compact
   source: crypto.h (SigSecp256k1), secp256k1.c (ecdsa_signature_serialize_compact,
     ecdsa_signature_parse_compact)
   digest: The compact form of the signatures that the library keeps in memory, and which of them
     it parses again. -/

import ArchipelagoHotStuff.Crypto.Encoding

set_option autoImplicit false
set_option relaxedAutoImplicit false

namespace ArchipelagoHotStuff.Crypto.Compact

open Wire Certificates Encoding General.Codec

/-- The order of the group of the curve. -/
def groupOrder : Nat := 0xFFFFFFFFFFFFFFFFFFFFFFFFFFFFFFFEBAAEDCE6AF48A03BBFD25E8CD0364141

/-- `secp256k1_ecdsa_signature`: the numbers `r` and `s`, each in 32 bytes with the lowest first.
Memory that has not been assigned holds any bytes. -/
structure EcdsaSignature where
  data : List UInt8
  length_data : data.length = 64

namespace EcdsaSignature

variable (sig : EcdsaSignature)

def r : Nat := fromLE (sig.data.take 32)

def s : Nat := fromLE (sig.data.drop 32)

/-- Both numbers are scalars of the curve. -/
def InRange : Prop := sig.r < groupOrder ∧ sig.s < groupOrder

instance : Decidable sig.InRange := inferInstanceAs (Decidable (_ ∧ _))

instance : DecidableEq EcdsaSignature := fun x y =>
  decidable_of_iff (x.data = y.data)
    ⟨fun h => by cases x; cases y; cases h; rfl, fun h => h ▸ rfl⟩

end EcdsaSignature

def swap (bytes : List UInt8) : List UInt8 :=
  (bytes.take 32).reverse ++ (bytes.drop 32).reverse

theorem length_swap (bytes : List UInt8) : (swap bytes).length = bytes.length := by
  simp only [swap, List.length_append, List.length_reverse, List.length_take, List.length_drop]
  omega

theorem swap_swap {bytes : List UInt8} (h : bytes.length = 64) : swap (swap bytes) = bytes := by
  have hfirst : (bytes.take 32).reverse.length = 32 := by simp [h]
  have htake : (swap bytes).take 32 = (bytes.take 32).reverse := List.take_left' hfirst
  have hdrop : (swap bytes).drop 32 = (bytes.drop 32).reverse := List.drop_left' hfirst
  rw [swap, htake, hdrop, List.reverse_reverse, List.reverse_reverse, List.take_append_drop]

/-- `secp256k1_ecdsa_signature_serialize_compact`, with the highest byte of each number first. -/
def serializeCompact (sig : EcdsaSignature) : List UInt8 := swap sig.data

/-- `secp256k1_ecdsa_signature_parse_compact`; nothing is parsed of a number beyond the order. -/
def parseCompact (input : List UInt8) : Option { sig : EcdsaSignature // sig.InRange } :=
  if h : (swap input).length = 64 then
    let sig : EcdsaSignature := ⟨swap input, h⟩
    if hrange : sig.InRange then some ⟨sig, hrange⟩ else none
  else none

theorem length_serializeCompact (sig : EcdsaSignature) : (serializeCompact sig).length = 64 := by
  rw [serializeCompact, length_swap, sig.length_data]

theorem parse_serialize (sig : EcdsaSignature) : parseCompact (serializeCompact sig) =
    if h : sig.InRange then some ⟨sig, h⟩ else none := by
  have hswap : swap (serializeCompact sig) = sig.data := swap_swap sig.length_data
  unfold parseCompact
  simp only [hswap, sig.length_data, dif_pos]

theorem serialize_parse {input : List UInt8} {sig : { sig : EcdsaSignature // sig.InRange }}
    (hlen : input.length = 64) (h : parseCompact input = some sig) :
    serializeCompact sig.val = input := by
  unfold parseCompact at h
  split at h
  · dsimp only at h
    split at h
    · cases h
      exact swap_swap hlen
    · cases h
  · cases h

/-- Keys and what the library does with them; a signature that a key creates is in range. -/
structure Signing where
  PubKey : Type
  PrivKey : Type
  getPubkey : PrivKey → PubKey
  sign : PrivKey → Uint256 → { sig : EcdsaSignature // sig.InRange }
  verify : Uint256 → PubKey → { sig : EcdsaSignature // sig.InRange } → Bool
  verify_sign : ∀ key msg, verify msg (getPubkey key) (sign key msg) = true

/-- The scheme with the signatures of the library. -/
def Signing.scheme (S : Signing) : Secp256k1 where
  Sig := { sig : EcdsaSignature // sig.InRange }
  PubKey := S.PubKey
  PrivKey := S.PrivKey
  parseCompact := parseCompact
  getPubkey := S.getPubkey
  sign := S.sign
  verify := S.verify
  verify_sign := S.verify_sign

theorem parse_serialize_inRange (sig : { sig : EcdsaSignature // sig.InRange }) :
    parseCompact (serializeCompact sig.val) = some sig :=
  (parse_serialize sig.val).trans (dif_pos sig.property)

/-- The compact form of the library is one that the rest may rely on. -/
def Signing.codec (S : Signing) : StrictCodec S.scheme where
  serializeCompact sig := serializeCompact (Subtype.val sig)
  length_compact sig := length_serializeCompact (Subtype.val sig)
  parse_serialize sig := parse_serialize_inRange sig
  serialize_parse _ _ hlen h := serialize_parse hlen h

/-- Reading a signature that was written: it comes back, or it is refused for its range. -/
theorem unserializeSig_serialize (S : Signing) (sig : EcdsaSignature) (rest : DataStream) :
    unserializeSig (K := S.scheme) (serializeCompact sig ++ rest) =
      if h : sig.InRange then .ok (⟨sig, h⟩, rest) else .error .illFormedSignature := by
  have hlen := length_serializeCompact sig
  have htake : (serializeCompact sig ++ rest).take 64 = serializeCompact sig := List.take_left' hlen
  have hdrop : (serializeCompact sig ++ rest).drop 64 = rest := List.drop_left' hlen
  have hlong : ¬ (serializeCompact sig ++ rest).length < 64 := by
    rw [List.length_append, hlen]
    omega
  have hparse : S.scheme.parseCompact (serializeCompact sig) =
      if h : sig.InRange then some ⟨sig, h⟩ else none := parse_serialize sig
  unfold unserializeSig getData
  rw [if_neg hlong]
  simp only [htake, hdrop, hparse]
  by_cases h : sig.InRange
  · simp only [dif_pos h]
  · simp only [dif_neg h]

end ArchipelagoHotStuff.Crypto.Compact
