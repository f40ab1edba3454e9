/- Module: ArchipelagoHotStuff/Archipelago/Messages
   source: client.h (MsgOrdering1ReqCmd to CommandDummy), hotstuff.h (MsgConsensusReqCmd,
     MsgConsensusRespCmd), archipelago_app.cpp (parse_cmd, client_ordering2_request_cmd_handler)
   digest: The messages of the ordering phase and of its leader, and which of them arrive as they
     were sent. -/

import ArchipelagoHotStuff.Crypto.Compact

set_option autoImplicit false
set_option relaxedAutoImplicit false

namespace ArchipelagoHotStuff.Archipelago.Messages

open Crypto.Wire Crypto.Certificates Crypto.Encoding Crypto.Compact General.Codec

/-- A hash function on serialised objects. -/
abbrev Sha := List UInt8 → Uint256

/-- `CommandDummy::serialize`. -/
def putCommand (cid n : Fin (2 ^ 32)) : List UInt8 := putLE 4 cid.val ++ putLE 4 n.val

/-- `CommandDummy` with its hash, which is that of the serialised form. -/
structure CommandDummy (sha : Sha) where
  cid : Fin (2 ^ 32)
  n : Fin (2 ^ 32)
  hash : Uint256
  hash_eq : hash = sha (putCommand cid n)

def CommandDummy.create (sha : Sha) (cid n : Fin (2 ^ 32)) : CommandDummy sha :=
  ⟨cid, n, sha (putCommand cid n), rfl⟩

theorem CommandDummy.create_eq {sha : Sha} (cmd : CommandDummy sha) :
    create sha cmd.cid cmd.n = cmd := by
  obtain ⟨cid, n, hash, rfl⟩ := cmd
  rfl

/-- The messages, by what their constructors write.  `σ` is what a signature is to the one who
holds the message. -/
inductive Msg (sha : Sha) (σ : Type)
  | ordering1Req (cmd : CommandDummy sha)
  | ordering1Resp (cmdHash timestamp : Uint256) (timestampUs : Timestamp) (sig : σ)
  | ordering2Req (cmdHash : Uint256) (timestamp : Timestamp)
  | ordering2Resp (cmdHash timestamp : Uint256) (sig : σ)
  | consensusReq (commitSetHash : Uint256) (stableTimestamp : Timestamp)
      (stableIdx : Fin (2 ^ 32)) (placeHolder1 placeHolder2 placeHolder3 placeHolder4 : Uint256)
      (sig : σ)
  | consensusResp (commitSetHash placeHolder1 placeHolder2 placeHolder3 placeHolder4 : Uint256)
      (sig : σ)
  | consensusRespClient (cmdHash : Uint256) (sig : σ)

/-- The type of a message, which its opcode tells. -/
inductive Kind
  | ordering1Req
  | ordering1Resp
  | ordering2Req
  | ordering2Resp
  | consensusReq
  | consensusResp
  | consensusRespClient

namespace Msg

variable {sha : Sha} {σ τ : Type}

def kind : Msg sha σ → Kind
  | .ordering1Req _ => .ordering1Req
  | .ordering1Resp _ _ _ _ => .ordering1Resp
  | .ordering2Req _ _ => .ordering2Req
  | .ordering2Resp _ _ _ => .ordering2Resp
  | .consensusReq _ _ _ _ _ _ _ _ => .consensusReq
  | .consensusResp _ _ _ _ _ _ => .consensusResp
  | .consensusRespClient _ _ => .consensusRespClient

/-- The signature that is sent along, if any. -/
def sig? : Msg sha σ → Option σ
  | .ordering1Req _ | .ordering2Req _ _ => none
  | .ordering1Resp _ _ _ sig | .ordering2Resp _ _ sig | .consensusReq _ _ _ _ _ _ _ sig
  | .consensusResp _ _ _ _ _ sig | .consensusRespClient _ sig => some sig

/-- The same fields with another notion of signature. -/
def map (f : σ → τ) : Msg sha σ → Msg sha τ
  | .ordering1Req cmd => .ordering1Req cmd
  | .ordering1Resp h t us sig => .ordering1Resp h t us (f sig)
  | .ordering2Req h t => .ordering2Req h t
  | .ordering2Resp h t sig => .ordering2Resp h t (f sig)
  | .consensusReq h t i p₁ p₂ p₃ p₄ sig => .consensusReq h t i p₁ p₂ p₃ p₄ (f sig)
  | .consensusResp h p₁ p₂ p₃ p₄ sig => .consensusResp h p₁ p₂ p₃ p₄ (f sig)
  | .consensusRespClient h sig => .consensusRespClient h (f sig)

/-- The constructors, which write the message at once. -/
def serialized : Msg sha EcdsaSignature → List UInt8
  | .ordering1Req cmd => putCommand cmd.cid cmd.n
  | .ordering1Resp cmdHash timestamp timestampUs sig =>
      putHash cmdHash ++ (putHash timestamp ++ (serializeCompact sig ++ putLE 8 timestampUs.val))
  | .ordering2Req cmdHash timestamp => putHash cmdHash ++ putLE 8 timestamp.val
  | .ordering2Resp cmdHash timestamp sig =>
      putHash cmdHash ++ (putHash timestamp ++ serializeCompact sig)
  | .consensusReq commitSetHash stableTimestamp stableIdx placeHolder1 placeHolder2 placeHolder3
        placeHolder4 sig =>
      putHash commitSetHash ++ (putLE 8 stableTimestamp.val ++ (putLE 4 stableIdx.val ++
        (putHash placeHolder1 ++ (putHash placeHolder2 ++ (putHash placeHolder3 ++
          (putHash placeHolder4 ++ serializeCompact sig))))))
  | .consensusResp commitSetHash placeHolder1 placeHolder2 placeHolder3 placeHolder4 sig =>
      putHash commitSetHash ++ (putHash placeHolder1 ++ (putHash placeHolder2 ++
        (putHash placeHolder3 ++ (putHash placeHolder4 ++ serializeCompact sig))))
  | .consensusRespClient cmdHash sig => putHash cmdHash ++ serializeCompact sig

end Msg

/-! What the receivers extract. -/

/-- `operator>>` on a `uint32_t`. -/
def getU32 (s : DataStream) : Except Exn (Fin (2 ^ 32) × DataStream) := do
  let (x, s) ← getLE 4 s
  return (Fin.ofNat (2 ^ 32) x, s)

/-- `operator>>` on a `uint64_t`. -/
def getU64 (s : DataStream) : Except Exn (Timestamp × DataStream) := do
  let (x, s) ← getLE 8 s
  return (Fin.ofNat (2 ^ 64) x, s)

/-- `parse_cmd`: `CommandDummy::unserialize` into a new object. -/
def parseCmd (sha : Sha) (s : DataStream) : Except Exn (CommandDummy sha × DataStream) := do
  let (cid, s) ← getU32 s
  let (n, s) ← getU32 s
  return (.create sha cid n, s)

section receive

variable (sha : Sha) (S : Signing)

/-- What a receiver of a message gets out of the bytes. -/
abbrev Received := Except Exn (Msg sha S.scheme.Sig × DataStream)

/-- `client_ordering1_request_cmd_handler`. -/
def getOrdering1Req (s : DataStream) : Received sha S := do
  let (cmd, s) ← parseCmd sha s
  return (.ordering1Req cmd, s)

/-- `MsgOrdering1RespCmd`. -/
def getOrdering1Resp (s : DataStream) : Received sha S := do
  let (cmdHash, s) ← getHash s
  let (timestamp, s) ← getHash s
  let (sig, s) ← unserializeSig s
  let (timestampUs, s) ← getU64 s
  return (.ordering1Resp cmdHash timestamp timestampUs sig, s)

/-- `client_ordering2_request_cmd_handler`. -/
def getOrdering2Req (s : DataStream) : Received sha S := do
  let (cmdHash, s) ← getHash s
  let (timestamp, s) ← getU64 s
  return (.ordering2Req cmdHash timestamp, s)

/-- `MsgOrdering2RespCmd`. -/
def getOrdering2Resp (s : DataStream) : Received sha S := do
  let (cmdHash, s) ← getHash s
  let (timestamp, s) ← getHash s
  let (sig, s) ← unserializeSig s
  return (.ordering2Resp cmdHash timestamp sig, s)

/-- `MsgConsensusReqCmd::postponed_parse`. -/
def getConsensusReq (s : DataStream) : Received sha S := do
  let (commitSetHash, s) ← getHash s
  let (stableTimestamp, s) ← getU64 s
  let (stableIdx, s) ← getU32 s
  let (placeHolder1, s) ← getHash s
  let (placeHolder2, s) ← getHash s
  let (placeHolder3, s) ← getHash s
  let (placeHolder4, s) ← getHash s
  let (sig, s) ← unserializeSig s
  return (.consensusReq commitSetHash stableTimestamp stableIdx placeHolder1 placeHolder2
    placeHolder3 placeHolder4 sig, s)

/-- `MsgConsensusRespCmd::postponed_parse`. -/
def getConsensusResp (s : DataStream) : Received sha S := do
  let (commitSetHash, s) ← getHash s
  let (placeHolder1, s) ← getHash s
  let (placeHolder2, s) ← getHash s
  let (placeHolder3, s) ← getHash s
  let (placeHolder4, s) ← getHash s
  let (sig, s) ← unserializeSig s
  return (.consensusResp commitSetHash placeHolder1 placeHolder2 placeHolder3 placeHolder4 sig, s)

/-- `MsgConsensusRespClientCmd`. -/
def getConsensusRespClient (s : DataStream) : Received sha S := do
  let (cmdHash, s) ← getHash s
  let (sig, s) ← unserializeSig s
  return (.consensusRespClient cmdHash sig, s)

/-- The receiver of each type of message. -/
def receive : Kind → DataStream → Received sha S
  | .ordering1Req => getOrdering1Req sha S
  | .ordering1Resp => getOrdering1Resp sha S
  | .ordering2Req => getOrdering2Req sha S
  | .ordering2Resp => getOrdering2Resp sha S
  | .consensusReq => getConsensusReq sha S
  | .consensusResp => getConsensusResp sha S
  | .consensusRespClient => getConsensusRespClient sha S

end receive

/-! Reading up to a signature and beyond it. -/

section read

variable {S : Signing} {sha : Sha} {α γ : Type} {get : Reader Exn UInt8 α}
  {next : α → Reader Exn UInt8 γ} {w w' : List UInt8} {sig : EcdsaSignature} {P : α → Prop}
  {Q : γ → Prop}

/-- The bytes are read if the signature among them is in range, and refused if it is not. -/
structure ReadsSigned (get : Reader Exn UInt8 α) (written : List UInt8) (sig : EcdsaSignature)
    (P : α → Prop) : Prop where
  reads : sig.InRange → Reads get written P
  refuses : ¬ sig.InRange → Refuses get written .illFormedSignature

theorem readsSigned_sig (S : Signing) (sig : EcdsaSignature) :
    ReadsSigned (unserializeSig (K := S.scheme)) (serializeCompact sig) sig
      (fun sig' => Subtype.val sig' = sig) where
  reads h rest := ⟨⟨sig, h⟩, rfl, by rw [unserializeSig_serialize, dif_pos h]⟩
  refuses h rest := by rw [unserializeSig_serialize, dif_neg h]

theorem ReadsSigned.after (h : Reads get w P)
    (hnext : ∀ a, P a → ReadsSigned (next a) w' sig Q) :
    ReadsSigned (andThen get next) (w ++ w') sig Q where
  reads hrange := h.andThen (fun a ha => (hnext a ha).reads hrange)
  refuses hrange := h.andThen_refuses (fun a ha => (hnext a ha).refuses hrange)

theorem ReadsSigned.before (h : ReadsSigned get w sig P)
    (hnext : ∀ a, P a → Reads (next a) w' Q) :
    ReadsSigned (andThen get next) (w ++ w') sig Q where
  reads hrange := (h.reads hrange).andThen hnext
  refuses hrange := (h.refuses hrange).andThen

theorem ReadsSigned.map {f : α → γ} (h : ReadsSigned get w sig P) (hf : ∀ a, P a → Q (f a)) :
    ReadsSigned (andThen get (fun a s => .ok (f a, s))) w sig Q where
  reads hrange := (h.reads hrange).map hf
  refuses hrange := by
    have hrefuses : Refuses (andThen get (fun a s => .ok (f a, s))) (w ++ [])
      Exn.illFormedSignature := (h.refuses hrange).andThen
    rwa [List.append_nil] at hrefuses

theorem getU32_eq : getU32 = andThen (getLE 4) (fun x s =>
    (.ok (Fin.ofNat (2 ^ 32) x, s) : Except Exn (Fin (2 ^ 32) × DataStream))) := rfl

theorem getU64_eq : getU64 = andThen (getLE 8) (fun x s =>
    (.ok (Fin.ofNat (2 ^ 64) x, s) : Except Exn (Timestamp × DataStream))) := rfl

theorem reads_u32 (x : Fin (2 ^ 32)) : Reads getU32 (putLE 4 x.val) (· = x) := by
  rw [getU32_eq]
  have hlt : x.val < 256 ^ 4 := x.isLt
  refine (reads_getLE hlt).map ?_
  rintro _ rfl
  exact Fin.ext (Nat.mod_eq_of_lt x.isLt)

theorem reads_u64 (x : Timestamp) : Reads getU64 (putLE 8 x.val) (· = x) := by
  rw [getU64_eq]
  have hlt : x.val < 256 ^ 8 := x.isLt
  refine (reads_getLE hlt).map ?_
  rintro _ rfl
  exact Fin.ext (Nat.mod_eq_of_lt x.isLt)

theorem parseCmd_eq : parseCmd sha = andThen getU32 (fun cid => andThen getU32
    (fun n s => (.ok (.create sha cid n, s) : Except Exn (CommandDummy sha × DataStream)))) := rfl

theorem reads_command (cmd : CommandDummy sha) :
    Reads (parseCmd sha) (putCommand cmd.cid cmd.n) (· = cmd) := by
  rw [parseCmd_eq]
  refine (reads_u32 cmd.cid).andThen ?_
  rintro _ rfl
  refine (reads_u32 cmd.n).map ?_
  rintro _ rfl
  exact cmd.create_eq

/-! The messages. -/

theorem getOrdering1Req_eq : getOrdering1Req sha S = andThen (parseCmd sha)
    (fun cmd s => (.ok (.ordering1Req cmd, s) : Received sha S)) := rfl

theorem getOrdering1Resp_eq : getOrdering1Resp sha S = andThen getHash (fun h =>
    andThen getHash (fun t => andThen unserializeSig (fun sig => andThen getU64
      (fun us s => (.ok (.ordering1Resp h t us sig, s) : Received sha S))))) := rfl

theorem getOrdering2Req_eq : getOrdering2Req sha S = andThen getHash (fun h => andThen getU64
    (fun us s => (.ok (.ordering2Req h us, s) : Received sha S))) := rfl

theorem getOrdering2Resp_eq : getOrdering2Resp sha S = andThen getHash (fun h =>
    andThen getHash (fun t => andThen unserializeSig
      (fun sig s => (.ok (.ordering2Resp h t sig, s) : Received sha S)))) := rfl

theorem getConsensusReq_eq : getConsensusReq sha S = andThen getHash (fun h =>
    andThen getU64 (fun us => andThen getU32 (fun i => andThen getHash (fun p₁ =>
      andThen getHash (fun p₂ => andThen getHash (fun p₃ => andThen getHash (fun p₄ =>
        andThen unserializeSig (fun sig s =>
          (.ok (.consensusReq h us i p₁ p₂ p₃ p₄ sig, s) : Received sha S))))))))) := rfl

theorem getConsensusResp_eq : getConsensusResp sha S = andThen getHash (fun h =>
    andThen getHash (fun p₁ => andThen getHash (fun p₂ => andThen getHash (fun p₃ =>
      andThen getHash (fun p₄ => andThen unserializeSig (fun sig s =>
        (.ok (.consensusResp h p₁ p₂ p₃ p₄ sig, s) : Received sha S))))))) := rfl

theorem getConsensusRespClient_eq : getConsensusRespClient sha S = andThen getHash (fun h =>
    andThen unserializeSig
      (fun sig s => (.ok (.consensusRespClient h sig, s) : Received sha S))) := rfl

theorem reads_unsigned (S : Signing) {msg : Msg sha EcdsaSignature} (h : msg.sig? = none) :
    Reads (receive sha S msg.kind) msg.serialized (fun msg' => msg'.map Subtype.val = msg) := by
  cases msg with
  | ordering1Req cmd =>
      show Reads (getOrdering1Req sha S) (putCommand cmd.cid cmd.n) _
      rw [getOrdering1Req_eq]
      refine (reads_command cmd).map ?_
      rintro _ rfl
      rfl
  | ordering2Req cmdHash timestamp =>
      show Reads (getOrdering2Req sha S) (putHash cmdHash ++ putLE 8 timestamp.val) _
      rw [getOrdering2Req_eq]
      refine (reads_getHash cmdHash).andThen ?_
      rintro _ rfl
      refine (reads_u64 timestamp).map ?_
      rintro _ rfl
      rfl
  | _ => cases h

/-- A message with a signature is read back if that is in range, and refused if it is not. -/
theorem reads_signed (S : Signing) {msg : Msg sha EcdsaSignature} (h : msg.sig? = some sig) :
    ReadsSigned (receive sha S msg.kind) msg.serialized sig
      (fun msg' => msg'.map Subtype.val = msg) := by
  have hsig : ∀ f : EcdsaSignature → Msg sha EcdsaSignature, ∀ sig' : S.scheme.Sig,
      Subtype.val sig' = sig → f (Subtype.val sig') = f sig := fun f sig' heq => congrArg f heq
  cases msg with
  | ordering1Resp cmdHash timestamp timestampUs sig' =>
      cases h
      show ReadsSigned (getOrdering1Resp sha S) (putHash cmdHash ++ (putHash timestamp ++
        (serializeCompact sig ++ putLE 8 timestampUs.val))) _ _
      rw [getOrdering1Resp_eq]
      refine .after (reads_getHash cmdHash) ?_
      rintro _ rfl
      refine .after (reads_getHash timestamp) ?_
      rintro _ rfl
      refine (readsSigned_sig S sig).before (fun sig' heq => ?_)
      refine (reads_u64 timestampUs).map ?_
      rintro _ rfl
      exact hsig (.ordering1Resp _ _ _) sig' heq
  | ordering2Resp cmdHash timestamp sig' =>
      cases h
      show ReadsSigned (getOrdering2Resp sha S)
        (putHash cmdHash ++ (putHash timestamp ++ serializeCompact sig)) _ _
      rw [getOrdering2Resp_eq]
      refine .after (reads_getHash cmdHash) ?_
      rintro _ rfl
      refine .after (reads_getHash timestamp) ?_
      rintro _ rfl
      exact (readsSigned_sig S sig).map (hsig (.ordering2Resp _ _))
  | consensusReq commitSetHash stableTimestamp stableIdx p₁ p₂ p₃ p₄ sig' =>
      cases h
      show ReadsSigned (getConsensusReq sha S) (putHash commitSetHash ++
        (putLE 8 stableTimestamp.val ++ (putLE 4 stableIdx.val ++ (putHash p₁ ++ (putHash p₂ ++
          (putHash p₃ ++ (putHash p₄ ++ serializeCompact sig))))))) _ _
      rw [getConsensusReq_eq]
      refine .after (reads_getHash commitSetHash) ?_
      rintro _ rfl
      refine .after (reads_u64 stableTimestamp) ?_
      rintro _ rfl
      refine .after (reads_u32 stableIdx) ?_
      rintro _ rfl
      refine .after (reads_getHash p₁) ?_
      rintro _ rfl
      refine .after (reads_getHash p₂) ?_
      rintro _ rfl
      refine .after (reads_getHash p₃) ?_
      rintro _ rfl
      refine .after (reads_getHash p₄) ?_
      rintro _ rfl
      exact (readsSigned_sig S sig).map (hsig (.consensusReq _ _ _ _ _ _ _))
  | consensusResp commitSetHash p₁ p₂ p₃ p₄ sig' =>
      cases h
      show ReadsSigned (getConsensusResp sha S) (putHash commitSetHash ++ (putHash p₁ ++
        (putHash p₂ ++ (putHash p₃ ++ (putHash p₄ ++ serializeCompact sig))))) _ _
      rw [getConsensusResp_eq]
      refine .after (reads_getHash commitSetHash) ?_
      rintro _ rfl
      refine .after (reads_getHash p₁) ?_
      rintro _ rfl
      refine .after (reads_getHash p₂) ?_
      rintro _ rfl
      refine .after (reads_getHash p₃) ?_
      rintro _ rfl
      refine .after (reads_getHash p₄) ?_
      rintro _ rfl
      exact (readsSigned_sig S sig).map (hsig (.consensusResp _ _ _ _ _))
  | consensusRespClient cmdHash sig' =>
      cases h
      show ReadsSigned (getConsensusRespClient sha S) (putHash cmdHash ++ serializeCompact sig) _ _
      rw [getConsensusRespClient_eq]
      refine .after (reads_getHash cmdHash) ?_
      rintro _ rfl
      exact (readsSigned_sig S sig).map (hsig (.consensusRespClient _))
  | ordering1Req cmd => cases h
  | ordering2Req cmdHash timestamp => cases h

end read

/-- The signature that is sent along, if any, is one of the curve. -/
def SigInRange {sha : Sha} (msg : Msg sha EcdsaSignature) : Prop :=
  ∀ sig, msg.sig? = some sig → sig.InRange

/-- The receiver of a message gets the fields that were sent, without an exception. -/
def Arrives (S : Signing) {sha : Sha} (msg : Msg sha EcdsaSignature) : Prop :=
  ∃ msg', receive sha S msg.kind msg.serialized = .ok (msg', []) ∧ msg'.map Subtype.val = msg

/-- A message arrives exactly if the signature in it, assigned or not, is in range. -/
theorem arrives_iff (S : Signing) {sha : Sha} (msg : Msg sha EcdsaSignature) :
    Arrives S msg ↔ SigInRange msg := by
  unfold Arrives SigInRange
  cases hsig : msg.sig? with
  | none =>
      obtain ⟨msg', hmsg, hread⟩ := reads_unsigned S hsig []
      rw [List.append_nil] at hread
      exact iff_of_true ⟨msg', hread, hmsg⟩ (fun _ h => by cases h)
  | some sig =>
      have hread := reads_signed S hsig
      constructor
      · rintro ⟨msg', hmsg, _⟩ _ ⟨⟩
        by_contra hrange
        have hrefused := hread.refuses hrange []
        rw [List.append_nil, hmsg] at hrefused
        cases hrefused
      · intro hrange
        obtain ⟨msg', hmsg, hok⟩ := hread.reads (hrange sig rfl) []
        rw [List.append_nil] at hok
        exact ⟨msg', hok, hmsg⟩

/-! A signature object that has never been assigned. -/

/-- The signature of two zeros. -/
def zeroSig : EcdsaSignature := ⟨List.replicate 32 0 ++ List.replicate 32 0, rfl⟩

/-- All bits of the object are set. -/
def onesSig : EcdsaSignature := ⟨List.replicate 64 255, List.length_replicate⟩

theorem zeroSig_inRange : zeroSig.InRange := by decide

theorem onesSig_not_inRange : ¬ onesSig.InRange := by decide

/-- Every key signs with two zeros. -/
def zeroSigning : Signing where
  PubKey := Unit
  PrivKey := Unit
  getPubkey := id
  sign _ _ := ⟨zeroSig, zeroSig_inRange⟩
  verify _ _ sig := decide (sig.val = zeroSig)
  verify_sign _ _ := decide_eq_true rfl

/-- The reply to a client, with such an object. -/
def unassignedReply : Msg (fun _ => 0) EcdsaSignature := .consensusRespClient 7 onesSig

/-- The client throws the reply away with an exception. -/
theorem unassigned_signature_refused : ¬ Arrives zeroSigning unassignedReply := by
  rintro ⟨msg', hmsg, _⟩
  have hsig : unassignedReply.sig? = some onesSig := rfl
  have hread := reads_signed zeroSigning hsig
  have hrefused := hread.refuses onesSig_not_inRange []
  rw [List.append_nil, hmsg] at hrefused
  cases hrefused

end ArchipelagoHotStuff.Archipelago.Messages
