/-
# Gossip of consensus messages

The frames that carry proposals and votes, and how a host handles them: it decodes the message, drops
it if its fingerprint has been seen, marks the fingerprint, hands the message to the consensus
engine, and sends the frame on unless the engine returns an error. Signatures are checked by the
engine only, after the fingerprint has been marked.

The exact condition under which a message is not lost is `delivered_iff`.
-/
import Dew.Consensus
import Dew.GoMap
import Dew.RlpStrict
import Dew.Staking

open Bytes

namespace Dew.P2P

/-- `PeerID` -/
abbrev PeerID := Address

/-! ## Messages on the wire -/

/-- `WireProposal` -/
structure WireProposal where
  height : U64
  round : U64
  blockHash : Hash
  proposer : Address
  signature : Bytes
  blockRaw : Bytes
deriving DecidableEq, Repr

/-- `WireVote`; type 1 is a prevote and type 2 a precommit. -/
structure WireVote where
  type : UInt8
  height : U64
  round : U64
  blockHash : Hash
  validator : Address
  signature : Bytes
deriving DecidableEq, Repr

inductive WireError where
  | rlp
  | proposerLength
  | validatorLength
  | voteType (type : UInt8)
deriving DecidableEq, Repr

def WireError.text : WireError → String
  | rlp => "rlp: "
  | proposerLength => "p2p: proposal proposer must be 20 bytes"
  | validatorLength => "p2p: vote validator must be 20 bytes"
  | voteType type => "p2p: invalid wire vote type " ++ toString type.toNat

/-- `WireProposal.Encode` -/
def WireProposal.encode (m : WireProposal) : Bytes :=
  Rlp.encodeList [Rlp.encodeUint m.height.toNat, Rlp.encodeUint m.round.toNat,
    Rlp.encodeString m.blockHash.bytes, Rlp.encodeString m.proposer.bytes,
    Rlp.encodeString m.signature, Rlp.encodeString m.blockRaw]

/-- The fields of a proposal as the RLP reader delivers them. -/
def readProposal (b : Bytes) : Option (ℕ × ℕ × Bytes × Bytes × Bytes × Bytes) := do
  let b ← Rlp.decodeList b
  let (height, b) ← Rlp.decodeUint 8 b
  let (round, b) ← Rlp.decodeUint 8 b
  let (blockHash, b) ← Rlp.decodeString b
  let (proposer, b) ← Rlp.decodeString b
  let (signature, b) ← Rlp.decodeString b
  let (blockRaw, b) ← Rlp.decodeString b
  if b = [] then some (height, round, blockHash, proposer, signature, blockRaw) else none

/-- `DecodeWireProposal` -/
def decodeWireProposal (b : Bytes) : Except WireError WireProposal :=
  match readProposal b with
  | none => .error .rlp
  | some (height, round, blockHash, proposer, signature, blockRaw) =>
    if proposer.length ≠ 20 then .error .proposerLength
    else
      .ok ⟨BitVec.ofNat 64 height, BitVec.ofNat 64 round, bytesToHash blockHash,
        addressOfBytes proposer, signature, blockRaw⟩

/-- `WireVote.Encode` -/
def WireVote.encode (m : WireVote) : Bytes :=
  Rlp.encodeList [Rlp.encodeUint m.type.toNat, Rlp.encodeUint m.height.toNat,
    Rlp.encodeUint m.round.toNat, Rlp.encodeString m.blockHash.bytes,
    Rlp.encodeString m.validator.bytes, Rlp.encodeString m.signature]

/-- The fields of a vote as the RLP reader delivers them. -/
def readVote (b : Bytes) : Option (ℕ × ℕ × ℕ × Bytes × Bytes × Bytes) := do
  let b ← Rlp.decodeList b
  let (type, b) ← Rlp.decodeUint 8 b
  let (height, b) ← Rlp.decodeUint 8 b
  let (round, b) ← Rlp.decodeUint 8 b
  let (blockHash, b) ← Rlp.decodeString b
  let (validator, b) ← Rlp.decodeString b
  let (signature, b) ← Rlp.decodeString b
  if b = [] then some (type, height, round, blockHash, validator, signature) else none

/-- `DecodeWireVote`; the type is cut down to one byte. -/
def decodeWireVote (b : Bytes) : Except WireError WireVote :=
  match readVote b with
  | none => .error .rlp
  | some (type, height, round, blockHash, validator, signature) =>
    if validator.length ≠ 20 then .error .validatorLength
    else
      .ok ⟨UInt8.ofNat type, BitVec.ofNat 64 height, BitVec.ofNat 64 round, bytesToHash blockHash,
        addressOfBytes validator, signature⟩

section RoundTrip

/-- A list shorter than `2 ^ 64` bytes is opened, and so are its items. -/
theorem decodeList_of_length {items : List Bytes} (h : (Rlp.encodeList items).length < 2 ^ 64) :
    Rlp.decodeList (Rlp.encodeList items) = some items.flatten ∧
      ∀ s ∈ items, s.length < 256 ^ 8 := by
  constructor
  · exact Rlp.decodeList_encodeList (lt_of_le_of_lt (Rlp.length_le_withHeader 0xc0 _) h)
  · intro s hs
    exact lt_of_le_of_lt (Rlp.length_le_encodeList hs) h

theorem readProposal_encode (m : WireProposal) (hlen : m.encode.length < 2 ^ 64) :
    readProposal m.encode = some (m.height.toNat, m.round.toNat, m.blockHash.bytes,
      m.proposer.bytes, m.signature, m.blockRaw) := by
  have hu := Rlp.reads_decodeUint (w := 8) (by decide)
  have hs := Rlp.reads_decodeString
  obtain ⟨hlist, hitem⟩ := decodeList_of_length hlen
  simp only [List.mem_cons, List.not_mem_nil, or_false, forall_eq_or_imp, forall_eq] at hitem
  obtain ⟨h₁, h₂, h₃, h₄, h₅, h₆⟩ := hitem
  simp only [readProposal, WireProposal.encode, hlist, Option.bind_eq_bind, Option.bind_some,
    List.flatten_cons, List.flatten_nil]
  simp only [← Option.bind_eq_bind, hu.bind_enc m.height.isLt h₁, hu.bind_enc m.round.isLt h₂,
    hs.bind_enc trivial h₃, hs.bind_enc trivial h₄, hs.bind_enc trivial h₅,
    hs.bind_enc trivial h₆, if_true]

/-- Proposals read back as they were written. -/
theorem decodeWireProposal_encode (m : WireProposal) (hlen : m.encode.length < 2 ^ 64) :
    decodeWireProposal m.encode = .ok m := by
  simp [decodeWireProposal, readProposal_encode m hlen, addressOfBytes_bytes]

theorem readVote_encode (m : WireVote) (hlen : m.encode.length < 2 ^ 64) :
    readVote m.encode = some (m.type.toNat, m.height.toNat, m.round.toNat, m.blockHash.bytes,
      m.validator.bytes, m.signature) := by
  have hu := Rlp.reads_decodeUint (w := 8) (by decide)
  have hs := Rlp.reads_decodeString
  have htype : m.type.toNat < 256 ^ 8 := lt_trans m.type.toBitVec.isLt (by decide)
  obtain ⟨hlist, hitem⟩ := decodeList_of_length hlen
  simp only [List.mem_cons, List.not_mem_nil, or_false, forall_eq_or_imp, forall_eq] at hitem
  obtain ⟨h₁, h₂, h₃, h₄, h₅, h₆⟩ := hitem
  simp only [readVote, WireVote.encode, hlist, Option.bind_eq_bind, Option.bind_some,
    List.flatten_cons, List.flatten_nil]
  simp only [← Option.bind_eq_bind, hu.bind_enc htype h₁, hu.bind_enc m.height.isLt h₂,
    hu.bind_enc m.round.isLt h₃, hs.bind_enc trivial h₄, hs.bind_enc trivial h₅,
    hs.bind_enc trivial h₆, if_true]

/-- Votes read back as they were written. -/
theorem decodeWireVote_encode (m : WireVote) (hlen : m.encode.length < 2 ^ 64) :
    decodeWireVote m.encode = .ok m := by
  simp [decodeWireVote, readVote_encode m hlen, addressOfBytes_bytes]

/-- The signature alone decides how long a vote is. -/
theorem WireVote.length_encode_lt {m : WireVote} (hs : m.signature.length < 2 ^ 32) :
    m.encode.length < 2 ^ 64 := by
  have h1 := length_encodeUint_le (n := m.type.toNat) (w := 1) (by omega) m.type.toBitVec.isLt
  have h2 := length_encodeUint_le (w := 8) (by omega) m.height.isLt
  have h3 := length_encodeUint_le (w := 8) (by omega) m.round.isLt
  have h4 := Rlp.length_encodeString_le (s := m.blockHash.bytes) (by simp)
  have h5 := Rlp.length_encodeString_le (s := m.validator.bytes) (by simp)
  have h6 := Rlp.length_encodeString_le_add_nine (s := m.signature) (by omega)
  simp only [Hash.length_bytes, Address.length_bytes] at h4 h5
  have hflat : [Rlp.encodeUint m.type.toNat, Rlp.encodeUint m.height.toNat,
      Rlp.encodeUint m.round.toNat, Rlp.encodeString m.blockHash.bytes,
      Rlp.encodeString m.validator.bytes, Rlp.encodeString m.signature].flatten.length
        < 2 ^ 32 + 94 := by
    simp only [List.flatten_cons, List.flatten_nil, List.append_nil, List.length_append]
    omega
  have hle := Rlp.length_withHeader_le_add_nine 0xc0 (hflat.trans (by decide))
  exact lt_of_le_of_lt hle (by omega)

end RoundTrip

/-! ## Signatures -/

/-- Why a signature is refused. -/
inductive VerifyError where
  | wire (err : WireError)
  | signatureLength
  | ecrecover (reason : String)
  | signer (got want : Address)
deriving DecidableEq, Repr

/-- `pubkeyBytesToAddress` -/
def pubkeyBytesToAddress (pub : Bytes) : Address :=
  if pub.length = 65 then (keccak256Hash pub.tail).setWidth 160
  else if 20 ≤ pub.length then addressOfBytes (pub.drop (pub.length - 20))
  else 0

/-- `ProposalSignBytes` -/
def proposalSignBytes (height round : U64) (blockHash : Hash) : Bytes :=
  (keccak256Hash (Rlp.encodeList [Rlp.encodeString (ascii "Dew/Proposal/1"),
    Rlp.encodeUint height.toNat, Rlp.encodeUint round.toNat,
    Rlp.encodeString blockHash.bytes])).bytes

/-- The number of a `VoteType`. -/
def voteTypeCode : Consensus.VoteType → UInt8
  | .prevote => 1
  | .precommit => 2

/-- `VoteSignBytes` -/
def voteSignBytes (type : Consensus.VoteType) (height round : U64) (blockHash : Hash) : Bytes :=
  (keccak256Hash (Rlp.encodeList [Rlp.encodeString (ascii "Dew/Vote/1"),
    Rlp.encodeUint (voteTypeCode type).toNat, Rlp.encodeUint height.toNat,
    Rlp.encodeUint round.toNat, Rlp.encodeString blockHash.bytes])).bytes

/-- `crypto.Ecrecover` of a digest and a signature. -/
abbrev Ecrecover := Bytes → Bytes → Except String Bytes

/-- The check of a signature against its signer, common to `VerifyProposal` and `VerifyVote`. -/
def verifySigner (ecrecover : Ecrecover) (digest signature : Bytes) (signer : Address) :
    Except VerifyError Unit :=
  if signature.length ≠ 65 then .error .signatureLength
  else
    match ecrecover digest signature with
    | .error reason => .error (.ecrecover reason)
    | .ok pub =>
      let addr := pubkeyBytesToAddress pub
      if addr ≠ signer then .error (.signer addr signer) else .ok ()

/-- `WireToVote` -/
def wireToVote (m : WireVote) : Except WireError Consensus.Vote :=
  match m.type with
  | 1 => .ok ⟨.prevote, m.height, m.round, m.blockHash, m.validator⟩
  | 2 => .ok ⟨.precommit, m.height, m.round, m.blockHash, m.validator⟩
  | type => .error (.voteType type)

/-- `VerifyProposal` -/
def verifyProposal (ecrecover : Ecrecover) (m : WireProposal) : Except VerifyError Unit :=
  verifySigner ecrecover (proposalSignBytes m.height m.round m.blockHash) m.signature m.proposer

/-- `VerifyVote` of the vote that `WireToVote` makes. -/
def verifyVote (ecrecover : Ecrecover) (m : WireVote) : Except VerifyError Unit :=
  match wireToVote m with
  | .error err => .error (.wire err)
  | .ok v =>
    verifySigner ecrecover (voteSignBytes v.type v.height v.round v.blockHash) m.signature
      v.validator

theorem verifySigner_of_recovered {ecrecover : Ecrecover} {digest signature pub : Bytes}
    (hlen : signature.length = 65) (h : ecrecover digest signature = .ok pub) :
    verifySigner ecrecover digest signature (pubkeyBytesToAddress pub) = .ok () := by
  simp [verifySigner, hlen, h]

theorem verifyVote_of_wireToVote (ecrecover : Ecrecover) {m : WireVote} {v : Consensus.Vote}
    (h : wireToVote m = .ok v) :
    verifyVote ecrecover m =
      verifySigner ecrecover (voteSignBytes v.type v.height v.round v.blockHash) m.signature
        v.validator := by
  rw [verifyVote, h]

/-! ## The seen set -/

/-- What the fingerprint of a proposal is made from. -/
def proposalSeenKey (m : WireProposal) : Bytes :=
  u64BE m.height ++ u64BE m.round ++ m.blockHash.bytes

/-- `proposalSeenHash` -/
def proposalSeenHash (m : WireProposal) : Hash :=
  keccak256Hash (proposalSeenKey m)

/-- What the fingerprint of a vote is made from. -/
def voteSeenKey (m : WireVote) : Bytes :=
  m.type :: (u64BE m.height ++ u64BE m.round ++ m.validator.bytes)

/-- `voteSeenHash` -/
def voteSeenHash (m : WireVote) : Hash :=
  keccak256Hash (voteSeenKey m)

/-- A consensus message. -/
inductive Message where
  | proposal (m : WireProposal)
  | vote (m : WireVote)
deriving DecidableEq, Repr

namespace Message

def seenHash : Message → Hash
  | proposal m => proposalSeenHash m
  | vote m => voteSeenHash m

/-- The message carries the signature of its signer. -/
def Signed (ecrecover : Ecrecover) : Message → Prop
  | proposal m => verifyProposal ecrecover m = .ok ()
  | vote m => verifyVote ecrecover m = .ok ()

/-- The same message up to the signature: type, height, round, block hash and signer, and the block
body of a proposal. -/
def Identical : Message → Message → Prop
  | proposal m, proposal m' =>
    m.height = m'.height ∧ m.round = m'.round ∧ m.blockHash = m'.blockHash ∧
      m.proposer = m'.proposer ∧ m.blockRaw = m'.blockRaw
  | vote m, vote m' =>
    m.type = m'.type ∧ m.height = m'.height ∧ m.round = m'.round ∧ m.blockHash = m'.blockHash ∧
      m.validator = m'.validator
  | _, _ => False

end Message

/-- A frame of the consensus channel. -/
inductive Frame where
  | proposal (payload : Bytes)
  | prevote (payload : Bytes)
  | precommit (payload : Bytes)
deriving DecidableEq, Repr

/-- A frame from a peer, and whether the handler, if it is called with the message, returns an
error. -/
structure Received where
  peer : PeerID
  frame : Frame
  rejected : Bool
deriving DecidableEq, Repr

/-- The gossip state of a host: the seen set, the calls of `OnProposal` and `OnVote`, and the frames
sent on, each with the peer it came from. -/
structure Host where
  seenInv : GoMap Hash Unit
  calls : List Message
  broadcasts : List (Frame × PeerID)

namespace Host

/-- A new host has seen nothing. -/
def new : Host :=
  ⟨∅, [], []⟩

def alreadySeen (h : Host) (hash : Hash) : Bool :=
  (h.seenInv.get? hash).isSome

def markSeen (h : Host) (hash : Hash) : Host :=
  { h with seenInv := h.seenInv.set hash () }

/-- `handleProposal` and `handleVote` after decoding: the handler is called with a message that has
not been seen, and `Broadcast` sends the frame on. -/
def deliver (h : Host) (m : Message) (r : Received) : Host :=
  if h.alreadySeen m.seenHash then h
  else
    let h := h.markSeen m.seenHash
    let h := { h with calls := h.calls ++ [m] }
    if r.rejected then h else { h with broadcasts := h.broadcasts ++ [(r.frame, r.peer)] }

end Host

/-- The message of a frame, or the error that the handler returns. -/
def Frame.decode : Frame → Except WireError Message
  | .proposal payload => (decodeWireProposal payload).map .proposal
  | .prevote payload => (decodeWireVote payload).map .vote
  | .precommit payload => (decodeWireVote payload).map .vote

/-- The message that a frame carries, if it carries one. -/
def Frame.message? (f : Frame) : Option Message :=
  f.decode.toOption

/-- `handleProposal` and `handleVote`. -/
def Host.handle (h : Host) (r : Received) : Option WireError × Host :=
  match r.frame.decode with
  | .error err => (some err, h)
  | .ok m => (none, h.deliver m r)

/-- The host after a sequence of frames. -/
def Host.run (rs : List Received) : Host :=
  rs.foldl (fun h r => (h.handle r).2) Host.new

/-! ## What the host has seen and what it has delivered -/

/-- The messages of a sequence of frames. -/
def messages (rs : List Received) : List Message :=
  rs.filterMap fun r => r.frame.message?

/-- The first message with a fingerprint. -/
def firstWith (rs : List Received) (x : Hash) : Option Message :=
  (messages rs).find? fun m => m.seenHash = x

theorem firstWith_snoc_of_none (rs : List Received) {r : Received} (x : Hash)
    (hr : r.frame.message? = none) : firstWith (rs ++ [r]) x = firstWith rs x := by
  simp [firstWith, messages, hr]

theorem firstWith_snoc_of_some (rs : List Received) {r : Received} {m : Message} (x : Hash)
    (hr : r.frame.message? = some m) :
    firstWith (rs ++ [r]) x = (firstWith rs x).or (if m.seenHash = x then some m else none) := by
  have snoc : messages (rs ++ [r]) = messages rs ++ [m] := by simp [messages, hr]
  rw [firstWith, snoc, List.find?_append, firstWith]
  by_cases hx : m.seenHash = x
  · rw [if_pos hx, List.find?_cons_of_pos (by simpa using hx)]
  · rw [if_neg hx, List.find?_cons_of_neg (by simpa using hx), List.find?_nil]

theorem seenHash_of_firstWith {rs : List Received} {x : Hash} {m : Message}
    (h : firstWith rs x = some m) : m.seenHash = x := by
  simpa using List.find?_some h

theorem Host.run_snoc (rs : List Received) (r : Received) :
    Host.run (rs ++ [r]) = ((Host.run rs).handle r).2 := by
  simp [Host.run]

theorem Host.handle_of_none (h : Host) {r : Received} (hr : r.frame.message? = none) :
    (h.handle r).2 = h := by
  unfold Frame.message? at hr
  unfold Host.handle
  cases hd : r.frame.decode with
  | error err => rfl
  | ok m => simp [hd, Except.toOption] at hr

theorem Host.handle_of_some (h : Host) {r : Received} {m : Message}
    (hr : r.frame.message? = some m) : h.handle r = (none, h.deliver m r) := by
  unfold Frame.message? at hr
  unfold Host.handle
  cases hd : r.frame.decode with
  | error err => simp [hd, Except.toOption] at hr
  | ok m' =>
    obtain rfl : m' = m := by simpa [hd, Except.toOption] using hr
    rfl

theorem Host.deliver_of_seen {h : Host} {m : Message} (r : Received)
    (hm : h.alreadySeen m.seenHash = true) : h.deliver m r = h :=
  if_pos hm

theorem Host.alreadySeen_deliver {h : Host} {m : Message} (r : Received)
    (hm : h.alreadySeen m.seenHash = false) (x : Hash) :
    (h.deliver m r).alreadySeen x = (decide (x = m.seenHash) || h.alreadySeen x) := by
  have hseen : (h.deliver m r).seenInv = h.seenInv.set m.seenHash () := by
    rw [deliver, hm]
    cases r.rejected <;> rfl
  rw [alreadySeen, hseen, GoMap.get?_set]
  by_cases hx : x = m.seenHash <;> simp [hx, alreadySeen]

theorem Host.deliver_calls {h : Host} {m : Message} (r : Received)
    (hm : h.alreadySeen m.seenHash = false) : (h.deliver m r).calls = h.calls ++ [m] := by
  rw [deliver, hm]
  cases r.rejected <;> rfl

/-- What the seen set and the calls say about the messages so far: the host has seen exactly the
fingerprints of the messages, and of the messages with one fingerprint it has delivered the first. -/
structure Host.Tracks (h : Host) (rs : List Received) : Prop where
  seen : ∀ x, h.alreadySeen x = (firstWith rs x).isSome
  called : ∀ m, m ∈ h.calls ↔ firstWith rs m.seenHash = some m

theorem Host.Tracks.handle {h : Host} {rs : List Received} (ht : h.Tracks rs) (r : Received) :
    (h.handle r).2.Tracks (rs ++ [r]) := by
  cases hr : r.frame.message? with
  | none =>
    rw [h.handle_of_none hr]
    constructor <;> intro x <;> rw [firstWith_snoc_of_none rs _ hr]
    · exact ht.seen x
    · exact ht.called x
  | some m =>
    rw [h.handle_of_some hr]
    have snoc (x : Hash) := firstWith_snoc_of_some rs x hr
    cases hm : h.alreadySeen m.seenHash with
    | true =>
      -- an earlier message has the fingerprint: nothing changes
      obtain ⟨m₀, h₀⟩ := Option.isSome_iff_exists.mp ((ht.seen _).symm.trans hm)
      have same (x : Hash) : firstWith (rs ++ [r]) x = firstWith rs x := by
        rw [snoc]
        by_cases hx : m.seenHash = x
        · rw [← hx, h₀, Option.some_or]
        · rw [if_neg hx, Option.or_none]
      rw [Host.deliver_of_seen r hm]
      exact ⟨fun x => by rw [same, ht.seen], fun m' => by rw [same, ht.called]⟩
    | false =>
      have h₀ : firstWith rs m.seenHash = none := by
        simpa [ht.seen] using hm
      constructor
      · intro x
        rw [Host.alreadySeen_deliver r hm, snoc, ht.seen]
        by_cases hx : m.seenHash = x
        · simp [hx]
        · simp [hx, Ne.symm hx]
      · intro m'
        rw [Host.deliver_calls r hm, snoc, List.mem_append, List.mem_singleton, ht.called]
        by_cases hx : m.seenHash = m'.seenHash
        · rw [← hx, h₀, if_pos rfl, Option.none_or]
          simp [eq_comm]
        · have ne : m' ≠ m := fun e => hx (e ▸ rfl)
          simp [hx, ne]

theorem Host.tracks_run (rs : List Received) : (Host.run rs).Tracks rs := by
  induction rs using List.reverseRecOn with
  | nil => exact ⟨fun x => by simp [Host.run, Host.new, Host.alreadySeen, firstWith, messages],
      fun m => by simp [Host.run, Host.new, firstWith, messages]⟩
  | append_singleton rs r ih =>
    rw [Host.run_snoc]
    exact ih.handle r

theorem Message.Identical.seenHash_eq {m m' : Message} (h : m.Identical m') :
    m.seenHash = m'.seenHash := by
  cases m with
  | proposal m =>
    cases m' with
    | proposal m' =>
      obtain ⟨hh, hr, hb, -, -⟩ := h
      simp only [seenHash, proposalSeenHash, proposalSeenKey, hh, hr, hb]
    | vote m' => exact h.elim
  | vote m =>
    cases m' with
    | proposal m' => exact h.elim
    | vote m' =>
      obtain ⟨ht, hh, hr, -, hv⟩ := h
      simp only [seenHash, voteSeenHash, voteSeenKey, ht, hh, hr, hv]

/-- After any frames, a frame with a message is handled without an error, and its message is handed
to the engine now, or one identical to it has been handed over before, exactly if no message that
differs from it came first with its fingerprint. -/
theorem delivered_iff (rs : List Received) (r : Received) (m : Message)
    (hm : r.frame.message? = some m) :
    ((Host.run rs).handle r).1 = none ∧
      (((Host.run (rs ++ [r])).calls = (Host.run rs).calls ++ [m] ∨
          ∃ m' ∈ (Host.run rs).calls, m'.Identical m) ↔
        ∀ m₀, firstWith rs m.seenHash = some m₀ → m₀.Identical m) := by
  have ht := Host.tracks_run rs
  rw [Host.run_snoc, Host.handle_of_some _ hm]
  refine ⟨rfl, ?_⟩
  cases h₀ : firstWith rs m.seenHash with
  | none =>
    have hn : (Host.run rs).alreadySeen m.seenHash = false := by simp [ht.seen, h₀]
    simp [Host.deliver_calls r hn]
  | some m₀ =>
    have hs : (Host.run rs).alreadySeen m.seenHash = true := by simp [ht.seen, h₀]
    rw [Host.deliver_of_seen r hs]
    constructor
    · rintro (h | ⟨m', hc, hi⟩) m₁ h₁
      · simp at h
      · -- what was delivered under this fingerprint is the first message that had it
        have h' := (ht.called m').mp hc
        rw [hi.seenHash_eq, h₀, h₁] at h'
        cases h'
        exact hi
    · intro h
      refine .inr ⟨m₀, (ht.called m₀).mpr ?_, h m₀ rfl⟩
      rw [seenHash_of_firstWith h₀, h₀]

/-! ## A forged vote hides a signed one -/

/-- The key of the one validator whose signatures are recovered. -/
def samplePub : Bytes :=
  4 :: List.replicate 64 7

/-- The precommit for block 5 at height 1, with the validator's signature. -/
def signedVote : WireVote :=
  ⟨2, 1, 0, 5, pubkeyBytesToAddress samplePub, List.replicate 65 1⟩

/-- A vote for block 6 in the same validator's name, with no signature. -/
def forgedVote : WireVote :=
  { signedVote with blockHash := 6, signature := [] }

theorem wireToVote_signedVote :
    wireToVote signedVote = .ok ⟨.precommit, 1, 0, 5, pubkeyBytesToAddress samplePub⟩ :=
  rfl

theorem wireToVote_forgedVote :
    wireToVote forgedVote = .ok ⟨.precommit, 1, 0, 6, pubkeyBytesToAddress samplePub⟩ :=
  rfl

/-- The validator has signed the vote for block 5, and nothing else. -/
def sampleEcrecover : Ecrecover := fun digest signature =>
  if digest = voteSignBytes .precommit 1 0 5 ∧ signature = signedVote.signature then .ok samplePub
  else .error "invalid signature"

theorem sampleEcrecover_signed :
    sampleEcrecover (voteSignBytes .precommit 1 0 5) signedVote.signature = .ok samplePub := by
  rw [sampleEcrecover, if_pos ⟨rfl, rfl⟩]

/-- The frame of a vote as an honest host builds it. -/
def voteReceived (m : WireVote) (rejected : Bool) : Received :=
  ⟨9, .precommit m.encode, rejected⟩

theorem message_voteReceived (m : WireVote) (rejected : Bool) (h : m.encode.length < 2 ^ 64) :
    (voteReceived m rejected).frame.message? = some (.vote m) := by
  simp [voteReceived, Frame.message?, Frame.decode, decodeWireVote_encode m h, Except.map,
    Except.toOption]

/-- On its own the signed vote is handed over. -/
theorem signedVote_delivered :
    (voteReceived signedVote false).frame.message? = some (.vote signedVote) ∧
      ((Host.run [voteReceived signedVote false]).calls = [.vote signedVote] ∨
        ∃ m' ∈ Host.new.calls, m'.Identical (.vote signedVote)) := by
  have frame := message_voteReceived signedVote false (WireVote.length_encode_lt (by decide))
  refine ⟨frame, (delivered_iff [] _ _ frame).2.mpr ?_⟩
  intro m₀ h₀
  simp [firstWith, messages] at h₀

/-- The engine gets the forged vote and rejects it; the signed vote, which comes after it, is
dropped without being handed over. -/
theorem signedVote_lost :
    (Message.vote signedVote).Signed sampleEcrecover ∧
      ¬ (Message.vote forgedVote).Signed sampleEcrecover ∧
      (voteReceived signedVote false).frame.message? = some (.vote signedVote) ∧
      (Host.run [voteReceived forgedVote true]).calls = [.vote forgedVote] ∧
      (Host.run [voteReceived forgedVote true, voteReceived signedVote false]).calls =
        [.vote forgedVote] ∧
      ¬ (Message.vote forgedVote).Identical (.vote signedVote) := by
  have forged := message_voteReceived forgedVote true (WireVote.length_encode_lt (by decide))
  have signed := message_voteReceived signedVote false (WireVote.length_encode_lt (by decide))
  have unseen : Host.new.alreadySeen (Message.vote forgedVote).seenHash = false := by
    simp [Host.alreadySeen, Host.new]
  have first : Host.run [voteReceived forgedVote true] =
      Host.new.deliver (.vote forgedVote) (voteReceived forgedVote true) := by
    rw [← List.nil_append [voteReceived _ _], Host.run_snoc, Host.handle_of_some _ forged]
    rfl
  have calls : (Host.run [voteReceived forgedVote true]).calls = [.vote forgedVote] := by
    rw [first, Host.deliver_calls _ unseen]
    rfl
  -- the two votes differ in the block hash, which is not part of the fingerprint
  have same : (Message.vote signedVote).seenHash = (Message.vote forgedVote).seenHash := rfl
  have seen : (Host.run [voteReceived forgedVote true]).alreadySeen
      (Message.vote signedVote).seenHash = true := by
    rw [first, Host.alreadySeen_deliver _ unseen, same]
    simp
  refine ⟨?_, ?_, signed, calls, ?_, ?_⟩
  · have verified := verifySigner_of_recovered (by decide) sampleEcrecover_signed
    exact (verifyVote_of_wireToVote sampleEcrecover wireToVote_signedVote).trans verified
  · intro h
    have length := (verifyVote_of_wireToVote sampleEcrecover wireToVote_forgedVote).symm.trans h
    simp [verifySigner, forgedVote] at length
  · rw [← List.singleton_append, Host.run_snoc, Host.handle_of_some _ signed,
      Host.deliver_of_seen _ seen, calls]
  · rintro ⟨-, -, -, h, -⟩
    revert h
    decide

end Dew.P2P
