/-
# Signed proposals and votes

`Proposal` and `Vote` with their signatures, as the engine hands them to the network and gets them
from it: the digests that are signed, the checks of the signatures, and the conversions to and from
the wire. The type of a vote is a byte; `VerifyVote` and the conversions know two values of it.

A vote comes back from the wire as it was. A proposal comes back with a block that was built anew,
but has the hash of the block that was sent (`survives_wire`).
-/
import Dew.BlockWire
import Dew.Gossip

open Bytes

namespace Dew.Signed

open P2P

/-- `Proposal` -/
structure Proposal where
  height : U64
  round : U64
  blockHash : Hash
  block : Option Types.Block
  proposer : Address
  signature : Bytes
deriving DecidableEq, Repr

/-- `Vote` -/
structure Vote where
  type : UInt8
  height : U64
  round : U64
  blockHash : Hash
  validator : Address
  signature : Bytes
deriving DecidableEq, Repr

/-- `VotePrevote` -/
def votePrevote : UInt8 := 1

/-- `VotePrecommit` -/
def votePrecommit : UInt8 := 2

/-- The type is one of the two vote types. -/
def Vote.Typed (v : Vote) : Prop :=
  v.type = votePrevote ∨ v.type = votePrecommit

instance (v : Vote) : Decidable v.Typed :=
  inferInstanceAs (Decidable (_ ∨ _))

/-! ## Signatures -/

/-- `VoteSignBytes` -/
def voteSignBytes (type : UInt8) (height round : U64) (blockHash : Hash) : Bytes :=
  (keccak256Hash (Rlp.encodeList [Rlp.encodeString (ascii "Dew/Vote/1"),
    Rlp.encodeUint type.toNat, Rlp.encodeUint height.toNat, Rlp.encodeUint round.toNat,
    Rlp.encodeString blockHash.bytes])).bytes

theorem length_voteSignBytes (type : UInt8) (height round : U64) (blockHash : Hash) :
    (voteSignBytes type height round blockHash).length = 32 :=
  Hash.length_bytes _

/-- The digest that is signed for a vote. -/
def Vote.digest (v : Vote) : Bytes :=
  voteSignBytes v.type v.height v.round v.blockHash

/-- `VerifyProposal` -/
def verifyProposal (ecrecover : Ecrecover) (p : Proposal) : Except VerifyError Unit :=
  verifySigner ecrecover (proposalSignBytes p.height p.round p.blockHash) p.signature p.proposer

inductive VoteError where
  | type (type : UInt8)
  | signature (err : VerifyError)
deriving DecidableEq, Repr

/-- `VerifyVote` -/
def verifyVote (ecrecover : Ecrecover) (v : Vote) : Except VoteError Unit :=
  if v.type ≠ votePrevote ∧ v.type ≠ votePrecommit then .error (.type v.type)
  else (verifySigner ecrecover v.digest v.signature v.validator).mapError .signature

theorem verifySigner_eq_ok_iff {ecrecover : Ecrecover} {digest signature : Bytes}
    {signer : Address} :
    verifySigner ecrecover digest signature signer = .ok () ↔
      signature.length = 65 ∧
        ∃ pub, ecrecover digest signature = .ok pub ∧ pubkeyBytesToAddress pub = signer := by
  unfold verifySigner
  by_cases hlen : signature.length = 65
  · cases ecrecover digest signature with
    | error reason => simp [hlen]
    | ok pub =>
        by_cases haddr : pubkeyBytesToAddress pub = signer
        · simp [hlen, haddr]
        · simp [hlen, haddr]
  · simp [hlen]

theorem verifyVote_eq_ok_iff {ecrecover : Ecrecover} {v : Vote} :
    verifyVote ecrecover v = .ok () ↔
      v.Typed ∧ verifySigner ecrecover v.digest v.signature v.validator = .ok () := by
  unfold verifyVote
  by_cases htype : v.Typed
  · have hcond : ¬(v.type ≠ votePrevote ∧ v.type ≠ votePrecommit) := by
      rcases htype with htype | htype <;> simp [htype]
    rw [if_neg hcond]
    cases verifySigner ecrecover v.digest v.signature v.validator <;> simp [htype, Except.mapError]
  · rw [if_pos (not_or.mp htype)]
    simp [htype]

/-! ## Messages -/

/-- The message of a proposal whose block has the given bytes. -/
def Proposal.wire (p : Proposal) (raw : Bytes) : WireProposal :=
  ⟨p.height, p.round, p.blockHash, p.proposer, p.signature, raw⟩

/-- `ProposalToWire` -/
def proposalToWire (p : Proposal) : Except Types.TxError WireProposal := do
  let raw ←
    match p.block with
    | none => .ok []
    | some b => b.marshalBinary
  .ok (p.wire raw)

/-- `WireToProposal` -/
def wireToProposal (m : WireProposal) : Except Types.BlockError Proposal := do
  let block ←
    if 0 < m.blockRaw.length then (Types.unmarshalBlockBinary m.blockRaw).map some else .ok none
  .ok ⟨m.height, m.round, m.blockHash, block, m.proposer, m.signature⟩

/-- `VoteToWire`; the error is the type that it refuses. -/
def voteToWire (v : Vote) : Except UInt8 WireVote :=
  if v.type = votePrevote then
    .ok ⟨1, v.height, v.round, v.blockHash, v.validator, v.signature⟩
  else if v.type = votePrecommit then
    .ok ⟨2, v.height, v.round, v.blockHash, v.validator, v.signature⟩
  else .error v.type

/-- `WireToVote` -/
def wireToVote (m : WireVote) : Except UInt8 Vote :=
  match m.type with
  | 1 => .ok ⟨votePrevote, m.height, m.round, m.blockHash, m.validator, m.signature⟩
  | 2 => .ok ⟨votePrecommit, m.height, m.round, m.blockHash, m.validator, m.signature⟩
  | type => .error type

/-- The block, if there is one, has the hash that is proposed. -/
def Proposal.Matches (p : Proposal) : Prop :=
  ∀ b, p.block = some b → b.hash = p.blockHash

/-! ## Round trips -/

theorem wireToVote_voteToWire {v : Vote} (h : v.Typed) :
    ∃ m, voteToWire v = .ok m ∧ wireToVote m = .ok v := by
  obtain ⟨type, height, round, blockHash, validator, signature⟩ := v
  rcases h with rfl | rfl
  · exact ⟨_, rfl, rfl⟩
  · exact ⟨_, rfl, rfl⟩

/-- What a received proposal has to have in common with the one that was sent. -/
structure Proposal.Same (p p' : Proposal) : Prop where
  height : p'.height = p.height
  round : p'.round = p.round
  blockHash : p'.blockHash = p.blockHash
  proposer : p'.proposer = p.proposer
  signature : p'.signature = p.signature
  block : p'.block.map Types.Block.hash = p.block.map Types.Block.hash

theorem Proposal.Same.verifyProposal_eq {p p' : Proposal} (h : p.Same p') (ecrecover : Ecrecover) :
    verifyProposal ecrecover p' = verifyProposal ecrecover p := by
  rw [verifyProposal, verifyProposal, h.height, h.round, h.blockHash, h.signature, h.proposer]

theorem Proposal.matches_iff_map (p : Proposal) :
    p.Matches ↔ ∀ x, p.block.map Types.Block.hash = some x → x = p.blockHash := by
  unfold Matches
  cases p.block with
  | none => simp
  | some b => simp

theorem Proposal.Same.matches_iff {p p' : Proposal} (h : p.Same p') : p'.Matches ↔ p.Matches := by
  rw [matches_iff_map, matches_iff_map, h.block, h.blockHash]

theorem proposalToWire_of_block {p : Proposal} {b : Types.Block} {raw : Bytes}
    (hb : p.block = some b) (hraw : b.marshalBinary = .ok raw) :
    proposalToWire p = .ok (p.wire raw) := by
  simp only [proposalToWire, hb, hraw, bind, Except.bind]

/-- A block that reads back under its hash makes a proposal that reads back. -/
theorem wireToProposal_of_block {p : Proposal} {b b' : Types.Block} {raw : Bytes}
    (hb : p.block = some b) (hne : 0 < raw.length) (hread : Types.unmarshalBlockBinary raw = .ok b')
    (hhash : b'.hash = b.hash) :
    ∃ p', wireToProposal (p.wire raw) = .ok p' ∧ p.Same p' := by
  refine ⟨⟨p.height, p.round, p.blockHash, some b', p.proposer, p.signature⟩, ?_,
    ⟨rfl, rfl, rfl, rfl, rfl, ?_⟩⟩
  · simp only [wireToProposal, Proposal.wire, hne, if_true, hread, Except.map, bind, Except.bind]
  · rw [hb, Option.map_some, Option.map_some, hhash]

theorem length_blockRaw_le (m : WireProposal) : m.blockRaw.length ≤ m.encode.length := by
  refine (Rlp.length_le_encodeString m.blockRaw).trans (Rlp.length_le_encodeList ?_)
  simp

/-- A block made by `NewBlock` is read back with its hash and the hashes of its transactions, and so
is a proposal that carries it, which passes the checks that it passed before; votes are read back as
they were. All encodings are shorter than `2 ^ 64` bytes, as every slice is. -/
theorem survives_wire (ecrecover : Ecrecover) (header : Header) {txs : List Types.Transaction}
    (htxs : ∀ tx ∈ txs, tx.Valid) :
    (∃ b, Types.Block.new header txs = .ok b ∧ b.transactions = txs ∧
      (∃ raw, b.marshalBinary = .ok raw ∧ (raw.length < 2 ^ 64 →
        ∃ b' hashes, Types.unmarshalBlockBinary raw = .ok b' ∧ b'.hash = b.hash ∧
          txs.mapM Types.Transaction.hash = .ok hashes ∧
          b'.transactions.mapM Types.Transaction.hash = .ok hashes)) ∧
      ∀ p : Proposal, p.block = some b → ∃ m, proposalToWire p = .ok m ∧
        (m.encode.length < 2 ^ 64 → ∃ m' p', decodeWireProposal m.encode = .ok m' ∧
          wireToProposal m' = .ok p' ∧ p.Same p' ∧
          (verifyProposal ecrecover p = .ok () → verifyProposal ecrecover p' = .ok ()) ∧
          (p.Matches → p'.Matches))) ∧
    (∀ v : Vote, v.Typed → ∃ m, voteToWire v = .ok m ∧ (m.encode.length < 2 ^ 64 →
      ∃ m', decodeWireVote m.encode = .ok m' ∧ wireToVote m' = .ok v)) ∧
    ∀ v : Vote, verifyVote ecrecover v = .ok () → v.Typed := by
  refine ⟨?_, ?_, fun v hv => (verifyVote_eq_ok_iff.mp hv).1⟩
  · obtain ⟨b, hnew⟩ := Types.Block.exists_new header htxs
    have hbody : b.transactions = txs := by
      obtain ⟨root, -, rfl⟩ := Types.Block.new_eq_ok_iff.mp hnew
      rfl
    obtain ⟨raw, hraw, hne⟩ := b.exists_marshalBinary (hbody ▸ htxs)
    refine ⟨b, hnew, hbody, ⟨raw, hraw, ?_⟩, ?_⟩
    · intro hlen
      obtain ⟨b', hread, hheader, hhash⟩ :=
        Types.Block.unmarshalBlockBinary_marshalBinary hnew hraw hlen
      obtain ⟨raws, hraws⟩ := Types.exists_marshalBinary htxs
      have hhashes := Types.mapM_hash_of_marshalBinary hraws
      rw [hbody] at hhash
      exact ⟨b', _, hread, Types.Block.hash_of_stored hheader, hhashes,
        (Types.mapM_hash_congr hhash).trans hhashes⟩
    · intro p hb
      refine ⟨_, proposalToWire_of_block hb hraw, ?_⟩
      intro hlen
      obtain ⟨b', hread, hheader, -⟩ := Types.Block.unmarshalBlockBinary_marshalBinary hnew hraw
        (lt_of_le_of_lt (length_blockRaw_le (p.wire raw)) hlen)
      obtain ⟨p', hp', hsame⟩ :=
        wireToProposal_of_block hb hne hread (Types.Block.hash_of_stored hheader)
      refine ⟨_, p', decodeWireProposal_encode _ hlen, hp', hsame, ?_, hsame.matches_iff.mpr⟩
      intro hverify
      rw [hsame.verifyProposal_eq, hverify]
  · intro v hv
    obtain ⟨m, hm, hback⟩ := wireToVote_voteToWire hv
    exact ⟨m, hm, fun hlen => ⟨m, decodeWireVote_encode m hlen, hback⟩⟩

/-- A header without base fee or roots. -/
def sampleHeader : Header :=
  ⟨1, 2, 0, 0, 7, 1700000000, 30000000, 21000, none, [], 0xbeef⟩

/-- The proposals of a block with a single transfer. -/
theorem transfer_survives :
    ∃ b, Types.Block.new sampleHeader [(Types.targeted []).transaction] = .ok b ∧
      ∀ p : Proposal, p.block = some b → ∃ m, proposalToWire p = .ok m ∧
        (m.encode.length < 2 ^ 64 → ∃ m' p', decodeWireProposal m.encode = .ok m' ∧
          wireToProposal m' = .ok p' ∧ p.Same p') := by
  have hvalid : ∀ tx ∈ [(Types.targeted []).transaction], tx.Valid := by decide
  obtain ⟨⟨b, hnew, -, -, hproposal⟩, -⟩ := survives_wire sampleEcrecover sampleHeader hvalid
  refine ⟨b, hnew, ?_⟩
  intro p hb
  obtain ⟨m, hm, hback⟩ := hproposal p hb
  refine ⟨m, hm, ?_⟩
  intro hlen
  obtain ⟨m', p', hdecode, hp', hsame, -⟩ := hback hlen
  exact ⟨m', p', hdecode, hp', hsame⟩

end Dew.Signed
