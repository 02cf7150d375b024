/-
# What a signature is for

Proposals, votes and handshakes are signed over the digest of an RLP list that begins with the domain
of the message. The list has another number of entries for each kind of message, and its entries
spell the signed fields, so where digests do not collide they are equal for equal signed fields only;
a chain ID that is missing is signed as zero. A signature that recovers its signer for one digest only
is therefore accepted by `VerifyProposal`, `VerifyVote` and `verifyHandshake`, as a signature of that
signer, only for the message it was made for.
-/
import Dew.SignedMessages

open Bytes Rlp

namespace Dew.Signed

open P2P

/-! ## Handshakes -/

/-- `ProtocolVersion` -/
def protocolVersion : BitVec 32 := 1

/-- `Handshake` -/
structure Handshake where
  version : BitVec 32
  chainID : Option ℤ
  height : U64
  headHash : Hash
  listenPort : BitVec 16
  nodeID : Address
  nonce : Bytes
  signature : Bytes
deriving DecidableEq, Repr

inductive HandshakeError where
  | negativeBig
  | version (got : BitVec 32)
  | chainID
  | signatureOrNonce
  | ecrecover (reason : String)
  | pubkey
  | nodeID
deriving DecidableEq, Repr

def HandshakeError.text : HandshakeError → String
  | negativeBig => "rlp: cannot encode negative big.Int"
  | version got =>
    "p2p: protocol version mismatch: got " ++ toString got.toNat ++ " want " ++
      toString protocolVersion.toNat
  | chainID => "p2p: chain id mismatch"
  | signatureOrNonce => "p2p: invalid handshake signature/nonce"
  | ecrecover reason => "p2p: handshake ecrecover: " ++ reason
  | pubkey => "p2p: bad recovered pubkey"
  | nodeID => "p2p: handshake node id does not match signature"

namespace Handshake

/-- RLP refuses a negative chain ID. -/
def Encodable (hs : Handshake) : Prop :=
  0 ≤ hs.chainID.getD 0

instance (hs : Handshake) : Decidable hs.Encodable :=
  inferInstanceAs (Decidable (_ ≤ _))

/-- The entries of `handshakeSignPayload`; a chain ID that is nil is written as zero. -/
def signParts (hs : Handshake) : List Bytes :=
  [ascii "Dew/Handshake/1", minBytes hs.version.toNat, minBytes (hs.chainID.getD 0).toNat,
    minBytes hs.height.toNat, hs.headHash.bytes, minBytes hs.listenPort.toNat, hs.nodeID.bytes,
    hs.nonce]

/-- `Handshake.SignBytes` -/
def signBytes (hs : Handshake) : Except HandshakeError Bytes :=
  if hs.Encodable then .ok (keccak256Hash (encodeList (hs.signParts.map encodeString))).bytes
  else .error .negativeBig

end Handshake

/-- `Host.verifyHandshake`; `chainID` is the chain of the host. -/
def verifyHandshake (ecrecover : Ecrecover) (chainID : ℤ) (hs : Handshake) :
    Except HandshakeError Unit :=
  if hs.version ≠ protocolVersion then .error (.version hs.version)
  else if hs.chainID ≠ some chainID then .error .chainID
  else if hs.signature.length ≠ 65 ∨ hs.nonce.length = 0 then .error .signatureOrNonce
  else
    match hs.signBytes with
    | .error err => .error err
    | .ok digest =>
      match ecrecover digest hs.signature with
      | .error reason => .error (.ecrecover reason)
      | .ok pub =>
        if pub.length ≠ 65 then .error .pubkey
        else if (keccak256Hash pub.tail).setWidth 160 ≠ hs.nodeID then .error .nodeID
        else .ok ()

/-! ## Signed messages -/

/-- What is signed: a proposal, a vote of any type, a handshake. -/
inductive Message where
  | proposal (height round : U64) (blockHash : Hash)
  | vote (type : UInt8) (height round : U64) (blockHash : Hash)
  | handshake (hs : Handshake)
deriving DecidableEq, Repr

namespace Message

/-- The strings in the list that is hashed. -/
def parts : Message → List Bytes
  | proposal height round blockHash =>
    [ascii "Dew/Proposal/1", minBytes height.toNat, minBytes round.toNat, blockHash.bytes]
  | vote type height round blockHash =>
    [ascii "Dew/Vote/1", minBytes type.toNat, minBytes height.toNat, minBytes round.toNat,
      blockHash.bytes]
  | handshake hs => hs.signParts

/-- The string that is hashed. -/
def encoding (m : Message) : Bytes :=
  encodeList (m.parts.map encodeString)

/-- The digest that is signed. -/
def signBytes : Message → Except HandshakeError Bytes
  | proposal height round blockHash => .ok (proposalSignBytes height round blockHash)
  | vote type height round blockHash => .ok (voteSignBytes type height round blockHash)
  | handshake hs => hs.signBytes

/-- The list is short enough for an RLP header. -/
def Sized (m : Message) : Prop :=
  (m.parts.map encodeString).flatten.length < 256 ^ 8

instance (m : Message) : Decidable m.Sized :=
  inferInstanceAs (Decidable (_ < _))

/-- The signed fields of a message; no chain ID stands for the chain ID zero. -/
def content : Message → Message
  | handshake hs => handshake { hs with chainID := some (hs.chainID.getD 0), signature := [] }
  | m => m

theorem signBytes_handshake (hs : Handshake) : (handshake hs).signBytes = hs.signBytes :=
  rfl

theorem signBytes_eq_ok {m : Message} {d : Bytes} (h : m.signBytes = .ok d) :
    d = (keccak256Hash m.encoding).bytes ∧ ∀ hs, m = handshake hs → hs.Encodable := by
  cases m with
  | proposal height round blockHash =>
      refine ⟨?_, fun hs heq => by cases heq⟩
      rw [← Except.ok.inj h, proposalSignBytes, encoding, parts]
      simp only [List.map_cons, List.map_nil, encodeUint]
  | vote type height round blockHash =>
      refine ⟨?_, fun hs heq => by cases heq⟩
      rw [← Except.ok.inj h, voteSignBytes, encoding, parts]
      simp only [List.map_cons, List.map_nil, encodeUint]
  | handshake hs =>
      rw [signBytes_handshake, Handshake.signBytes] at h
      split at h
      · rename_i henc
        refine ⟨(Except.ok.inj h).symm, ?_⟩
        rintro hs' ⟨⟩
        exact henc
      · cases h

/-- The number of strings tells the kinds apart. -/
def arity : Message → ℕ
  | proposal _ _ _ => 4
  | vote _ _ _ _ => 5
  | handshake _ => 8

theorem length_parts (m : Message) : m.parts.length = m.arity := by
  cases m <;> rfl

theorem minBytes_inj {m n : ℕ} (h : minBytes m = minBytes n) : m = n := by
  rw [← ofBytes_minBytes m, h, ofBytes_minBytes]

theorem minBytes_toNat_inj {w : ℕ} {x y : BitVec w} (h : minBytes x.toNat = minBytes y.toNat) :
    x = y :=
  BitVec.eq_of_toNat_eq (minBytes_inj h)

/-- Lists of different kinds have different lengths; within a kind the strings spell the fields. -/
theorem content_eq_of_parts_eq {m m' : Message} (hm : ∀ hs, m = handshake hs → hs.Encodable)
    (hm' : ∀ hs, m' = handshake hs → hs.Encodable) (h : m.parts = m'.parts) :
    m.content = m'.content := by
  have harity : m.arity = m'.arity := by
    rw [← length_parts, ← length_parts, h]
  cases m with
  | proposal height round blockHash =>
      cases m' with
      | proposal height' round' blockHash' =>
          simp only [parts, List.cons.injEq, and_true, true_and] at h
          obtain ⟨hheight, hround, hhash⟩ := h
          rw [minBytes_toNat_inj hheight, minBytes_toNat_inj hround, Hash.bytes_injective hhash]
      | vote type height' round' blockHash' => cases harity
      | handshake hs => cases harity
  | vote type height round blockHash =>
      cases m' with
      | proposal height' round' blockHash' => cases harity
      | vote type' height' round' blockHash' =>
          simp only [parts, List.cons.injEq, and_true, true_and] at h
          obtain ⟨htype, hheight, hround, hhash⟩ := h
          rw [UInt8.toNat_inj.mp (minBytes_inj htype), minBytes_toNat_inj hheight,
            minBytes_toNat_inj hround, Hash.bytes_injective hhash]
      | handshake hs => cases harity
  | handshake hs =>
      cases m' with
      | proposal height' round' blockHash' => cases harity
      | vote type height' round' blockHash' => cases harity
      | handshake hs' =>
          simp only [parts, Handshake.signParts, List.cons.injEq, and_true, true_and] at h
          obtain ⟨hversion, hchain, hheight, hhead, hport, hnode, hnonce⟩ := h
          have hid : hs.chainID.getD 0 = hs'.chainID.getD 0 := by
            have hnonneg := hm hs rfl
            have hnonneg' := hm' hs' rfl
            have hnat := minBytes_inj hchain
            unfold Handshake.Encodable at hnonneg hnonneg'
            omega
          simp only [content, hid, hnonce, minBytes_toNat_inj hversion, minBytes_toNat_inj hheight,
            Hash.bytes_injective hhead, minBytes_toNat_inj hport, Address.bytes_injective hnode]

/-- Messages whose encodings do not collide have one digest only for the same signed fields. -/
theorem content_eq_of_signBytes_eq {m m' : Message} (hm : m.Sized) (hm' : m'.Sized)
    (hkeccak : keccak256Hash m.encoding = keccak256Hash m'.encoding → m.encoding = m'.encoding)
    {d : Bytes} (h : m.signBytes = .ok d) (h' : m'.signBytes = .ok d) :
    m.content = m'.content := by
  obtain ⟨hd, henc⟩ := signBytes_eq_ok h
  obtain ⟨hd', henc'⟩ := signBytes_eq_ok h'
  have hdigest := Hash.bytes_injective (hd.symm.trans hd')
  exact content_eq_of_parts_eq henc henc' (encodeList_map_inj hm hm' (hkeccak hdigest))

end Message

/-! ## Signatures -/

section Signatures

variable (ecrecover : Ecrecover)

/-- The signature was made by `signer` for the message: it recovers to the signer. -/
def Signs (signer : Address) (signature : Bytes) (m : Message) : Prop :=
  ∃ d pub, m.signBytes = .ok d ∧ ecrecover d signature = .ok pub ∧
    pubkeyBytesToAddress pub = signer

/-- The signature recovers to one address for two messages only if their digests are equal. -/
def Binds (signature : Bytes) (m m' : Message) : Prop :=
  ∀ signer, Signs ecrecover signer signature m → Signs ecrecover signer signature m' →
    m.signBytes = m'.signBytes

/-- The check of the message accepts the signature as one of `signer`; a host checks handshakes
against its own chain. -/
def Accepts (chainID : ℤ) (signer : Address) (signature : Bytes) : Message → Prop
  | .proposal height round blockHash => ∃ block,
    verifyProposal ecrecover ⟨height, round, blockHash, block, signer, signature⟩ = .ok ()
  | .vote type height round blockHash =>
    verifyVote ecrecover ⟨type, height, round, blockHash, signer, signature⟩ = .ok ()
  | .handshake hs => hs.nodeID = signer ∧ hs.signature = signature ∧
    verifyHandshake ecrecover chainID hs = .ok ()

variable {ecrecover}

theorem verifyHandshake_recovers {chainID : ℤ} {hs : Handshake}
    (h : verifyHandshake ecrecover chainID hs = .ok ()) :
    ∃ d pub, hs.signBytes = .ok d ∧ ecrecover d hs.signature = .ok pub ∧
      pubkeyBytesToAddress pub = hs.nodeID := by
  unfold verifyHandshake at h
  split at h
  · cases h
  split at h
  · cases h
  split at h
  · cases h
  cases hdigest : hs.signBytes with
  | error err =>
      rw [hdigest] at h
      cases h
  | ok d =>
      rw [hdigest] at h
      dsimp only at h
      cases hpub : ecrecover d hs.signature with
      | error reason =>
          rw [hpub] at h
          cases h
      | ok pub =>
          rw [hpub] at h
          dsimp only at h
          split at h
          · cases h
          rename_i hlen
          split at h
          · cases h
          rename_i haddr
          refine ⟨d, pub, rfl, hpub, ?_⟩
          rw [pubkeyBytesToAddress, if_pos (not_not.mp hlen)]
          exact not_not.mp haddr

/-- What is accepted was signed. -/
theorem Accepts.signs {chainID : ℤ} {signer : Address} {signature : Bytes} {m : Message}
    (h : Accepts ecrecover chainID signer signature m) : Signs ecrecover signer signature m := by
  cases m with
  | proposal height round blockHash =>
      obtain ⟨block, h⟩ := h
      obtain ⟨-, pub, hpub, haddr⟩ := verifySigner_eq_ok_iff.mp h
      exact ⟨_, pub, rfl, hpub, haddr⟩
  | vote type height round blockHash =>
      obtain ⟨-, h⟩ := verifyVote_eq_ok_iff.mp h
      obtain ⟨-, pub, hpub, haddr⟩ := verifySigner_eq_ok_iff.mp h
      exact ⟨_, pub, rfl, hpub, haddr⟩
  | handshake hs =>
      obtain ⟨rfl, rfl, h⟩ := h
      exact verifyHandshake_recovers h

end Signatures

/-- A prevote for the first height. -/
def firstPrevote : Message := .vote votePrevote 1 0 5

/-- A precommit for the same block. -/
def firstPrecommit : Message := .vote votePrecommit 1 0 5

end Dew.Signed
