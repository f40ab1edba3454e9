/- Module: ArchipelagoHotStuff/Crypto/Wire
   source: salticidae stream.h (DataStream, Blob, _Bits)
   digest: Byte streams read from the front, and the bitmap of a certificate's signers. -/

import Mathlib.Data.List.Basic
import Mathlib.Algebra.Order.Ring.Nat

set_option autoImplicit false
set_option relaxedAutoImplicit false

namespace ArchipelagoHotStuff.Crypto.Wire

/-- What the modelled code can throw.  `undefinedBehaviour` stands for an access outside an
array: the program has no defined behaviour from there on. -/
inductive Exn
  | blockNotDelivered
  | qcNotFetched
  | emptyParents
  | safetyBreached
  | notHigherThanVheight
  | certMismatch
  | ridNotFound
  | insufficientBuffer
  | illFormedSignature
  | mismatchingTypes
  | unreachableLine
  | undefinedBehaviour
  deriving DecidableEq, Repr

/-- `uint256_t`, a block or command hash. -/
abbrev Uint256 := BitVec 256

/-- `ReplicaID`, an unsigned 16-bit integer. -/
abbrev ReplicaID := Fin (2 ^ 16)

instance instNeZeroReplicaID : NeZero (2 ^ 16) := ⟨by decide⟩

instance instNeZeroCounter : NeZero (2 ^ 32) := ⟨by decide⟩

instance instNeZeroTimestamp : NeZero (2 ^ 64) := ⟨by decide⟩

instance instLawfulBEqUint256 : LawfulBEq Uint256 := inferInstance

/-- Conversion of a loop index to a replica id, which keeps the low 16 bits. -/
def ReplicaID.ofIndex (i : Nat) : ReplicaID := Fin.ofNat (2 ^ 16) i

theorem ReplicaID.ofIndex_val (r : ReplicaID) : ReplicaID.ofIndex r.val = r :=
  Fin.ext (Nat.mod_eq_of_lt r.isLt)

theorem ReplicaID.val_ofIndex {i : Nat} (h : i < 2 ^ 16) : (ReplicaID.ofIndex i).val = i :=
  Nat.mod_eq_of_lt h

/-- A time in microseconds, an unsigned 64-bit integer. -/
abbrev Timestamp := Fin (2 ^ 64)

/-- The bytes of a stream that have not been read. -/
abbrev DataStream := List UInt8

def fromLE : List UInt8 → Nat
  | [] => 0
  | b :: bs => b.toNat + 256 * fromLE bs

/-- `get_data_inplace`: the next `len` bytes. -/
def getData (len : Nat) (s : DataStream) : Except Exn (List UInt8 × DataStream) :=
  if s.length < len then .error .insufficientBuffer else .ok (s.take len, s.drop len)

/-- `operator>>` on integers of `len` bytes. -/
def getLE (len : Nat) (s : DataStream) : Except Exn (Nat × DataStream) := do
  let (bytes, s) ← getData len s
  return (fromLE bytes, s)

def getWords : Nat → DataStream → Except Exn (List (BitVec 64) × DataStream)
  | 0, s => .ok ([], s)
  | n + 1, s => do
    let (x, s) ← getLE 8 s
    let (xs, s) ← getWords n s
    return (BitVec.ofNat 64 x :: xs, s)

/-- `_Bits<uint64_t>`: a declared number of bits over an array of words. -/
structure Bits where
  nbits : BitVec 32
  data : List (BitVec 64)

namespace Bits

/-- `ndata`, computed in 32-bit arithmetic. -/
def ndata (nbits : BitVec 32) : Nat := ((nbits + 64#32 - 1#32) / 64#32).toNat

/-- `_Bits(nbits)` followed by `clear()`. -/
def ofSize (nbits : BitVec 32) : Bits := ⟨nbits, List.replicate (ndata nbits) 0#64⟩

def size (b : Bits) : Nat := b.nbits.toNat

/-- `get`; there is no value to read beyond the words of the array. -/
def get (b : Bits) (idx : Nat) : Option Bool :=
  b.data[idx / 64]?.map (fun w : BitVec 64 => ((w >>> (idx % 64)) &&& 1#64) == 1#64)

def setWord (pos : Nat) (w : BitVec 64) : BitVec 64 :=
  w ^^^ ((((w >>> pos) &&& 1#64) ^^^ 1#64) <<< pos)

/-- `set`; there is no word to write beyond the array. -/
def set (b : Bits) (idx : Nat) : Option Bits :=
  if idx / 64 < b.data.length then
    some { b with data := b.data.modify (idx / 64) (setWord (idx % 64)) }
  else none

def unserialize (s : DataStream) : Except Exn (Bits × DataStream) := do
  let (nbits, s) ← getLE 4 s
  let (data, s) ← getWords (ndata (BitVec.ofNat 32 nbits)) s
  return (⟨BitVec.ofNat 32 nbits, data⟩, s)

private theorem shift_and_one (w : BitVec 64) (pos : Nat) :
    (w >>> pos) &&& 1#64 = if w.getLsbD pos then 1#64 else 0#64 := by
  ext i hi
  simp only [BitVec.getElem_and, BitVec.getElem_ushiftRight, BitVec.getElem_one]
  by_cases h0 : i = 0
  · subst h0
    cases hb : w.getLsbD pos <;> simp
  · cases hb : w.getLsbD pos <;> simp [h0]

private theorem get_word (w : BitVec 64) (pos : Nat) :
    (((w >>> pos) &&& 1#64) == 1#64) = w.getLsbD pos := by
  rw [shift_and_one]
  cases w.getLsbD pos <;> rfl

private theorem getLsbD_setWord (w : BitVec 64) {pos j : Nat} (hpos : pos < 64) (hj : j < 64) :
    (setWord pos w).getLsbD j = (w.getLsbD j || decide (j = pos)) := by
  unfold setWord
  rw [shift_and_one, BitVec.getLsbD_xor, BitVec.getLsbD_shiftLeft]
  by_cases hjp : j = pos
  · subst hjp
    cases hb : w.getLsbD j <;> simp [hj]
  · cases hb : w.getLsbD pos
    · simp only [Bool.false_eq_true, if_false, BitVec.zero_xor, hj, decide_true, Bool.true_and,
        hjp, decide_false, Bool.or_false]
      by_cases hlt : j < pos
      · simp [hlt]
      · have hne : j - pos ≠ 0 := by omega
        simp [hlt, BitVec.getLsbD_one, hne]
    · simp [hjp]

theorem get_eq (b : Bits) (idx : Nat) :
    b.get idx = b.data[idx / 64]?.map (fun w : BitVec 64 => w.getLsbD (idx % 64)) := by
  simp only [get, get_word]

theorem get_set {b b' : Bits} {idx : Nat} (h : b.set idx = some b') (j : Nat) :
    b'.get j = (b.get j).map (fun v => v || decide (j = idx)) := by
  unfold set at h
  split at h
  · cases h
    simp only [get_eq, List.getElem?_modify]
    cases b.data[j / 64]? with
    | none => rfl
    | some w =>
        simp only [Option.map_eq_map, Option.map_some, Option.some.injEq]
        by_cases hw : idx / 64 = j / 64
        · rw [if_pos hw, getLsbD_setWord w (Nat.mod_lt _ (by decide)) (Nat.mod_lt _ (by decide))]
          congr 1
          exact decide_eq_decide.mpr ⟨fun h => by omega, fun h => by rw [h]⟩
        · have hne : j ≠ idx := fun heq => hw (by rw [heq])
          simp [hw, hne]
  · cases h

theorem shape_set {b b' : Bits} {idx : Nat} (h : b.set idx = some b') :
    b'.nbits = b.nbits ∧ b'.data.length = b.data.length ∧ idx / 64 < b.data.length := by
  unfold set at h
  split at h
  · rename_i hlt
    cases h
    exact ⟨rfl, List.length_modify _ _ _, hlt⟩
  · cases h

/-- Unless the 32-bit sum wraps, which leaves no words at all, every declared bit lies in an
allocated word. -/
theorem ndata_covers {nbits : BitVec 32} (h : 0 < ndata nbits) {idx : Nat}
    (hidx : idx < nbits.toNat) : idx / 64 < ndata nbits := by
  have hndata : ndata nbits = (nbits + 64#32 - 1#32).toNat / 64 := by
    unfold ndata
    rw [BitVec.toNat_udiv]
    rfl
  have hsum : (nbits + 64#32 - 1#32).toNat = (nbits.toNat + 63) % 2 ^ 32 := by
    simp only [BitVec.toNat_sub, BitVec.toNat_add, BitVec.toNat_ofNat]
    omega
  have hbound : nbits.toNat < 2 ^ 32 := nbits.isLt
  rw [hndata, hsum] at h ⊢
  by_cases hwrap : nbits.toNat + 63 < 2 ^ 32
  · rw [Nat.mod_eq_of_lt hwrap]
    omega
  · omega

end Bits

end ArchipelagoHotStuff.Crypto.Wire
