/-
# Double-sign evidence

Two votes make evidence: 114 bytes each, the type, the height, the round, the block hash and the
signature. The address of the validator is not among them; the reader recovers it from the signature.
Evidence is accepted if both votes verify, agree on type, height, round and validator, and differ in
their block hash.

Signatures are those of an ideal scheme: recovery gives the one key that signed a digest. Evidence
made from two votes of one key is then accepted just if their type is one of the two vote types, and
accepted evidence shows two signatures by a key of the offender (`evidence_exact`).
-/
import Dew.Equivocation
import Dew.SignedMessages

open Bytes

namespace Dew.Signed

open P2P

/-! ## Texts -/

/-- `VoteType.String` -/
def voteTypeText (type : UInt8) : String :=
  if type = votePrevote then "prevote"
  else if type = votePrecommit then "precommit"
  else "voteType(" ++ toString type.toNat ++ ")"

def VoteError.text : VoteError → String
  | type t => "consensus: invalid vote type " ++ toString t.toNat
  | signature (.wire err) => err.text
  | signature .signatureLength => "consensus: vote signature must be 65 bytes"
  | signature (.ecrecover reason) => "consensus: vote ecrecover: " ++ reason
  | signature (.signer got want) =>
    "consensus: vote validator mismatch: sig=" ++ got.hex ++ " field=" ++ want.hex

/-! ## One vote -/

/-- `VoteWireSize` -/
def voteWireSize : ℕ := 1 + 8 + 8 + 32 + 65

inductive VoteWireError where
  | signatureLength
  | length (got : ℕ)
  | ecrecover (reason : String)
deriving DecidableEq, Repr

def VoteWireError.text : VoteWireError → String
  | signatureLength => "consensus: vote signature must be 65 bytes"
  | length got =>
    "consensus: vote wire length " ++ toString got ++ " want " ++ toString voteWireSize
  | ecrecover reason => "consensus: vote wire ecrecover: " ++ reason

/-- The fields of a vote in their order. -/
def Vote.bytes (v : Vote) : Bytes :=
  v.type :: (u64BE v.height ++ (u64BE v.round ++ (v.blockHash.bytes ++ v.signature)))

/-- `EncodeVoteWire` -/
def encodeVoteWire (v : Vote) : Except VoteWireError Bytes :=
  if v.signature.length ≠ 65 then .error .signatureLength else .ok v.bytes

/-- The vote whose fields stand in the bytes, with the zero address for its validator. -/
def readFields (b : Bytes) : Vote where
  type := b.headD 0
  height := BitVec.ofNat 64 (ofBytes (b.tail.take 8))
  round := BitVec.ofNat 64 (ofBytes ((b.tail.drop 8).take 8))
  blockHash := bytesToHash (((b.tail.drop 8).drop 8).take 32)
  validator := 0
  signature := ((b.tail.drop 8).drop 8).drop 32

/-- `DecodeVoteWire`: the validator is recovered from the signature. -/
def decodeVoteWire (ecrecover : Ecrecover) (b : Bytes) : Except VoteWireError Vote :=
  if b.length ≠ voteWireSize then .error (.length b.length)
  else
    let v := readFields b
    match ecrecover v.digest v.signature with
    | .error reason => .error (.ecrecover reason)
    | .ok pub => .ok { v with validator := pubkeyBytesToAddress pub }

theorem Vote.length_bytes {v : Vote} (h : v.signature.length = 65) :
    v.bytes.length = voteWireSize := by
  simp [bytes, u64BE, h, voteWireSize]

theorem readFields_bytes (v : Vote) : readFields v.bytes = { v with validator := 0 } := by
  have hu : ∀ x : U64, (u64BE x).length = 8 := fun x => length_beBytes 8 x.toNat
  have hback : ∀ x : U64, BitVec.ofNat 64 (ofBytes (u64BE x)) = x := by
    intro x
    rw [u64BE, ofBytes_beBytes_of_lt x.isLt, BitVec.ofNat_toNat, BitVec.setWidth_eq]
  have hhash : v.blockHash.bytes.length = 32 := Hash.length_bytes _
  simp only [readFields, Vote.bytes, List.headD_cons, List.tail_cons,
    List.take_left' (hu _), List.drop_left' (hu _), List.take_left' hhash, List.drop_left' hhash,
    hback, bytesToHash_bytes]

/-- Bytes of the right length are those of the vote in them. -/
theorem bytes_readFields {b : Bytes} (h : b.length = voteWireSize) :
    (readFields b).bytes = b ∧ (readFields b).signature.length = 65 := by
  obtain ⟨t, rest, rfl⟩ : ∃ t rest, b = t :: rest := by
    cases b with
    | nil => cases h
    | cons t rest => exact ⟨t, rest, rfl⟩
  have hlen : rest.length = 113 := Nat.succ.inj h
  have hu : ∀ s : Bytes, s.length = 8 → u64BE (BitVec.ofNat 64 (ofBytes s)) = s := by
    intro s hs
    have hlt : ofBytes s < 2 ^ 64 := by
      have := ofBytes_lt s
      rw [hs] at this
      exact lt_of_lt_of_eq this (by norm_num)
    rw [u64BE, BitVec.toNat_ofNat, Nat.mod_eq_of_lt hlt, beBytes_ofBytes hs]
  have hhash : (bytesToHash (((rest.drop 8).drop 8).take 32)).bytes =
      ((rest.drop 8).drop 8).take 32 :=
    Types.bytes_bytesToHash.mpr (by simp [hlen])
  constructor
  · simp only [readFields, Vote.bytes, List.headD_cons, List.tail_cons, hhash]
    rw [hu (rest.take 8) (by simp [hlen]), hu ((rest.drop 8).take 8) (by simp [hlen]),
      List.take_append_drop, List.take_append_drop, List.take_append_drop]
  · simp [readFields, hlen]

theorem decodeVoteWire_eq_ok_iff {ecrecover : Ecrecover} {b : Bytes} {v : Vote} :
    decodeVoteWire ecrecover b = .ok v ↔
      (v.signature.length = 65 ∧
        ∃ pub, ecrecover v.digest v.signature = .ok pub ∧ v.validator = pubkeyBytesToAddress pub) ∧
      b = v.bytes := by
  unfold decodeVoteWire
  constructor
  · intro h
    by_cases hlen : b.length = voteWireSize
    · obtain ⟨hbytes, hsig⟩ := bytes_readFields hlen
      rw [if_neg (not_not.mpr hlen)] at h
      cases hrecover : ecrecover (readFields b).digest (readFields b).signature with
      | error reason => simp [hrecover] at h
      | ok pub =>
          simp only [hrecover, Except.ok.injEq] at h
          obtain rfl := h
          exact ⟨⟨hsig, pub, hrecover, rfl⟩, hbytes.symm⟩
    · rw [if_pos hlen] at h
      cases h
  · rintro ⟨⟨hsig, pub, hrecover, hval⟩, rfl⟩
    have hrecover' : ecrecover (Vote.digest { v with validator := 0 }) v.signature = .ok pub :=
      hrecover
    rw [if_neg (not_not.mpr (Vote.length_bytes hsig))]
    simp only [readFields_bytes, hrecover', ← hval]

/-! ## Evidence -/

/-- `DoubleSignEvidence` -/
structure DoubleSignEvidence where
  voteA : Vote
  voteB : Vote
deriving DecidableEq, Repr

inductive EvidenceWireError where
  | length (got : ℕ)
  | voteA (err : VoteWireError)
  | voteB (err : VoteWireError)
deriving DecidableEq, Repr

def EvidenceWireError.text : EvidenceWireError → String
  | length got =>
    "consensus: evidence wire length " ++ toString got ++ " want " ++ toString (2 * voteWireSize)
  | voteA err => "vote A: " ++ err.text
  | voteB err => "vote B: " ++ err.text

/-- `EncodeDoubleSignEvidenceWire` -/
def encodeDoubleSignEvidenceWire (a b : Vote) : Except VoteWireError Bytes := do
  let wa ← encodeVoteWire a
  let wb ← encodeVoteWire b
  .ok (wa ++ wb)

/-- `DecodeDoubleSignEvidenceWire` -/
def decodeDoubleSignEvidenceWire (ecrecover : Ecrecover) (b : Bytes) :
    Except EvidenceWireError DoubleSignEvidence :=
  if b.length ≠ 2 * voteWireSize then .error (.length b.length)
  else do
    let voteA ← (decodeVoteWire ecrecover (b.take voteWireSize)).mapError .voteA
    let voteB ← (decodeVoteWire ecrecover (b.drop voteWireSize)).mapError .voteB
    .ok ⟨voteA, voteB⟩

inductive EvidenceError where
  | voteA (err : VoteError)
  | voteB (err : VoteError)
  | typeMismatch (a b : UInt8)
  | type
  | slotMismatch (a b : Vote)
  | validatorMismatch (a b : Address)
  | identical
  | bothNil
deriving DecidableEq, Repr

def EvidenceError.text : EvidenceError → String
  | voteA err => "consensus: evidence vote A: " ++ err.text
  | voteB err => "consensus: evidence vote B: " ++ err.text
  | typeMismatch a b =>
    "consensus: evidence vote type mismatch " ++ voteTypeText a ++ " vs " ++ voteTypeText b
  | type => "consensus: evidence invalid vote type"
  | slotMismatch a b =>
    "consensus: evidence height/round mismatch (" ++ toString a.height.toNat ++ "," ++
      toString a.round.toNat ++ ") vs (" ++ toString b.height.toNat ++ "," ++
      toString b.round.toNat ++ ")"
  | validatorMismatch a b => "consensus: evidence validator mismatch " ++ a.hex ++ " vs " ++ b.hex
  | identical => "consensus: evidence block hashes identical (not double-sign)"
  | bothNil => "consensus: evidence both hashes nil"

/-- `VerifyDoubleSign` -/
def verifyDoubleSign (ecrecover : Ecrecover) (a b : Vote) : Except EvidenceError Unit := do
  (verifyVote ecrecover a).mapError .voteA
  (verifyVote ecrecover b).mapError .voteB
  if a.type ≠ b.type then .error (.typeMismatch a.type b.type)
  else if a.type ≠ votePrevote ∧ a.type ≠ votePrecommit then .error .type
  else if a.height ≠ b.height ∨ a.round ≠ b.round then .error (.slotMismatch a b)
  else if a.validator ≠ b.validator then .error (.validatorMismatch a.validator b.validator)
  else if a.blockHash = b.blockHash then .error .identical
  else if a.blockHash = 0 ∧ b.blockHash = 0 then .error .bothNil
  else .ok ()

/-- Two votes of one validator in one slot, for different blocks. -/
structure Vote.Conflicts (a b : Vote) : Prop where
  type : a.type = b.type
  height : a.height = b.height
  round : a.round = b.round
  blockHash : a.blockHash ≠ b.blockHash

theorem verifyDoubleSign_eq_ok_iff {ecrecover : Ecrecover} {a b : Vote} :
    verifyDoubleSign ecrecover a b = .ok () ↔
      verifyVote ecrecover a = .ok () ∧ verifyVote ecrecover b = .ok () ∧ a.Conflicts b ∧
        a.validator = b.validator := by
  unfold verifyDoubleSign
  cases ha : verifyVote ecrecover a with
  | error err => simp [Except.mapError, bind, Except.bind]
  | ok =>
      cases hb : verifyVote ecrecover b with
      | error err => simp [Except.mapError, bind, Except.bind]
      | ok =>
          have htyped : ¬(a.type ≠ votePrevote ∧ a.type ≠ votePrecommit) := by
            rcases (verifyVote_eq_ok_iff.mp ha).1 with h | h <;> simp [h]
          simp only [Except.mapError, bind, Except.bind, htyped, if_false, true_and]
          constructor
          · intro h
            split_ifs at h with htype hslot hval hhash hnil
            push Not at htype hslot hval
            exact ⟨⟨htype, hslot.1, hslot.2, hhash⟩, hval⟩
          · rintro ⟨⟨htype, hheight, hround, hhash⟩, hval⟩
            have hnil : ¬(a.blockHash = 0 ∧ b.blockHash = 0) :=
              fun h => hhash (h.1.trans h.2.symm)
            simp only [htype, hheight, hround, hval, hhash, hnil, ne_eq, not_true_eq_false, or_self,
              if_false]

namespace DoubleSignEvidence

/-- `DoubleSignEvidence.Verify` -/
def verify (ecrecover : Ecrecover) (e : DoubleSignEvidence) : Except EvidenceError Unit :=
  verifyDoubleSign ecrecover e.voteA e.voteB

/-- `DoubleSignEvidence.Offender` -/
def offender (e : DoubleSignEvidence) : Address :=
  e.voteA.validator

end DoubleSignEvidence

theorem encodeDoubleSignEvidenceWire_eq {a b : Vote} (ha : a.signature.length = 65)
    (hb : b.signature.length = 65) :
    encodeDoubleSignEvidenceWire a b = .ok (a.bytes ++ b.bytes) := by
  simp [encodeDoubleSignEvidenceWire, encodeVoteWire, ha, hb, bind, Except.bind]

theorem decodeDoubleSignEvidenceWire_eq_ok_iff {ecrecover : Ecrecover} {wire : Bytes}
    {e : DoubleSignEvidence} :
    decodeDoubleSignEvidenceWire ecrecover wire = .ok e ↔
      ∃ wa wb, decodeVoteWire ecrecover wa = .ok e.voteA ∧
        decodeVoteWire ecrecover wb = .ok e.voteB ∧ wire = wa ++ wb := by
  unfold decodeDoubleSignEvidenceWire
  constructor
  · intro h
    split_ifs at h
    cases ha : decodeVoteWire ecrecover (wire.take voteWireSize) with
    | error err => simp [ha, Except.mapError, bind, Except.bind] at h
    | ok voteA =>
        cases hb : decodeVoteWire ecrecover (wire.drop voteWireSize) with
        | error err => simp [ha, hb, Except.mapError, bind, Except.bind] at h
        | ok voteB =>
            obtain rfl : (⟨voteA, voteB⟩ : DoubleSignEvidence) = e := by
              simpa [ha, hb, Except.mapError, bind, Except.bind] using h
            exact ⟨_, _, ha, hb, (List.take_append_drop _ _).symm⟩
  · rintro ⟨wa, wb, ha, hb, rfl⟩
    have hlenA : wa.length = voteWireSize := by
      obtain ⟨⟨hsig, -⟩, rfl⟩ := decodeVoteWire_eq_ok_iff.mp ha
      exact Vote.length_bytes hsig
    have hlenB : wb.length = voteWireSize := by
      obtain ⟨⟨hsig, -⟩, rfl⟩ := decodeVoteWire_eq_ok_iff.mp hb
      exact Vote.length_bytes hsig
    have hlen : ¬(wa ++ wb).length ≠ 2 * voteWireSize := by
      rw [List.length_append, hlenA, hlenB, not_not, two_mul]
    simp only [hlen, if_false, List.take_left' hlenA, List.drop_left' hlenA, ha, hb,
      Except.mapError, bind, Except.bind]

/-- The votes that were decoded are encoded to the same bytes. -/
theorem encode_of_decode {ecrecover : Ecrecover} {wire : Bytes} {e : DoubleSignEvidence}
    (h : decodeDoubleSignEvidenceWire ecrecover wire = .ok e) :
    encodeDoubleSignEvidenceWire e.voteA e.voteB = .ok wire := by
  obtain ⟨wa, wb, ha, hb, rfl⟩ := decodeDoubleSignEvidenceWire_eq_ok_iff.mp h
  obtain ⟨⟨hsigA, -⟩, rfl⟩ := decodeVoteWire_eq_ok_iff.mp ha
  obtain ⟨⟨hsigB, -⟩, rfl⟩ := decodeVoteWire_eq_ok_iff.mp hb
  exact encodeDoubleSignEvidenceWire_eq hsigA hsigB

/-- What the staking contract makes of evidence: the offender, or the text of the error. -/
def jailEvidence (ecrecover : Ecrecover) (wire : Bytes) : Except String Address :=
  match decodeDoubleSignEvidenceWire ecrecover wire with
  | .error err => .error ("decode: " ++ err.text)
  | .ok e =>
    match e.verify ecrecover with
    | .error err => .error ("verify: " ++ err.text)
    | .ok () => .ok e.offender

/-! ## Ideal signatures -/

/-- Signatures over 32-byte digests. Recovery gives the public key of the one key that made the
signature, and fails if none did. -/
structure Scheme where
  Key : Type
  pub : Key → Bytes
  sign : Key → Bytes → Bytes
  Made : Key → Bytes → Bytes → Prop
  ecrecover : Ecrecover
  length_pub : ∀ k, (pub k).length = 65
  length_sign : ∀ k d, d.length = 32 → (sign k d).length = 65
  made_sign : ∀ k d, d.length = 32 → Made k d (sign k d)
  recovers : ∀ d s p, ecrecover d s = .ok p ↔ ∃ k, Made k d s ∧ pub k = p

namespace Scheme

variable (S : Scheme)

/-- `PubkeyToAddress` -/
def address (k : S.Key) : Address :=
  (keccak256Hash (S.pub k).tail).setWidth 160

/-- `SignVote` -/
def signVote (k : S.Key) (v : Vote) : Vote :=
  { v with signature := S.sign k v.digest, validator := S.address k }

theorem pubkeyBytesToAddress_pub (k : S.Key) : pubkeyBytesToAddress (S.pub k) = S.address k := by
  rw [pubkeyBytesToAddress, if_pos (S.length_pub k), address]

theorem length_signature_signVote (k : S.Key) (v : Vote) :
    (S.signVote k v).signature.length = 65 :=
  S.length_sign k v.digest (length_voteSignBytes _ _ _ _)

theorem ecrecover_signVote (k : S.Key) (v : Vote) :
    S.ecrecover v.digest (S.signVote k v).signature = .ok (S.pub k) :=
  (S.recovers _ _ _).mpr ⟨k, S.made_sign k v.digest (length_voteSignBytes _ _ _ _), rfl⟩

/-- A signed vote is read back as it was. -/
theorem decodeVoteWire_signVote (k : S.Key) (v : Vote) :
    decodeVoteWire S.ecrecover (S.signVote k v).bytes = .ok (S.signVote k v) :=
  decodeVoteWire_eq_ok_iff.mpr
    ⟨⟨S.length_signature_signVote k v, S.pub k, S.ecrecover_signVote k v,
      (S.pubkeyBytesToAddress_pub k).symm⟩, rfl⟩

theorem verifyVote_signVote (k : S.Key) (v : Vote) :
    verifyVote S.ecrecover (S.signVote k v) = .ok () ↔ v.Typed := by
  rw [verifyVote_eq_ok_iff, verifySigner_eq_ok_iff]
  refine and_iff_left ⟨S.length_signature_signVote k v, S.pub k, S.ecrecover_signVote k v, ?_⟩
  exact S.pubkeyBytesToAddress_pub k

/-- A vote that verifies was signed with a key of its validator. -/
theorem made_of_verifyVote {v : Vote} (h : verifyVote S.ecrecover v = .ok ()) :
    ∃ k, S.address k = v.validator ∧ S.Made k v.digest v.signature := by
  obtain ⟨-, hsigner⟩ := verifyVote_eq_ok_iff.mp h
  obtain ⟨-, pub, hrecover, haddr⟩ := verifySigner_eq_ok_iff.mp hsigner
  obtain ⟨k, hmade, rfl⟩ := (S.recovers _ _ _).mp hrecover
  exact ⟨k, (S.pubkeyBytesToAddress_pub k).symm.trans haddr, hmade⟩

end Scheme

/-- Evidence from two votes of one key in one slot is read back, names the key's address, and is
accepted just if the type is a vote type. Evidence that can be read is encoded to the same bytes, and
if it is accepted, its votes conflict and carry signatures by keys of the offender: by one key, if
no two keys have one address. -/
theorem evidence_exact (S : Scheme) :
    (∀ (k : S.Key) (a b : Vote), a.Conflicts b →
      ∃ wire e, encodeDoubleSignEvidenceWire (S.signVote k a) (S.signVote k b) = .ok wire ∧
        decodeDoubleSignEvidenceWire S.ecrecover wire = .ok e ∧ e.offender = S.address k ∧
        (e.verify S.ecrecover = .ok () ↔ a.Typed)) ∧
    ∀ wire e, decodeDoubleSignEvidenceWire S.ecrecover wire = .ok e →
      encodeDoubleSignEvidenceWire e.voteA e.voteB = .ok wire ∧
      (e.verify S.ecrecover = .ok () → e.voteA.Conflicts e.voteB ∧
        ∃ k k', S.address k = e.offender ∧ S.address k' = e.offender ∧
          S.Made k e.voteA.digest e.voteA.signature ∧
          S.Made k' e.voteB.digest e.voteB.signature ∧
          (Function.Injective S.address → k = k')) := by
  constructor
  · intro k a b hconflict
    refine ⟨_, ⟨S.signVote k a, S.signVote k b⟩, encodeDoubleSignEvidenceWire_eq
      (S.length_signature_signVote k a) (S.length_signature_signVote k b), ?_, rfl, ?_⟩
    · exact decodeDoubleSignEvidenceWire_eq_ok_iff.mpr
        ⟨_, _, S.decodeVoteWire_signVote k a, S.decodeVoteWire_signVote k b, rfl⟩
    · have htyped : b.Typed ↔ a.Typed := by rw [Vote.Typed, Vote.Typed, hconflict.type]
      have hsigned : (S.signVote k a).Conflicts (S.signVote k b) :=
        ⟨hconflict.type, hconflict.height, hconflict.round, hconflict.blockHash⟩
      rw [DoubleSignEvidence.verify, verifyDoubleSign_eq_ok_iff, S.verifyVote_signVote,
        S.verifyVote_signVote, htyped]
      constructor
      · rintro ⟨h, -⟩
        exact h
      · intro h
        exact ⟨h, h, hsigned, rfl⟩
  · intro wire e hdecode
    refine ⟨encode_of_decode hdecode, ?_⟩
    intro hverify
    obtain ⟨ha, hb, hconflict, hval⟩ := verifyDoubleSign_eq_ok_iff.mp hverify
    obtain ⟨k, hk, hmade⟩ := S.made_of_verifyVote ha
    obtain ⟨k', hk', hmade'⟩ := S.made_of_verifyVote hb
    rw [← hval] at hk'
    exact ⟨hconflict, k, k', hk, hk', hmade, hmade', fun hinj => hinj (hk.trans hk'.symm)⟩

/-- One key, whose signature repeats the digest. -/
def sampleScheme : Scheme where
  Key := Unit
  pub _ := samplePub
  sign _ d := d ++ (d ++ [0])
  Made _ d s := s = d ++ (d ++ [0])
  ecrecover d s := if s = d ++ (d ++ [0]) then .ok samplePub else .error "invalid signature"
  length_pub _ := rfl
  length_sign _ d h := by simp [h]
  made_sign _ _ _ := rfl
  recovers d s p := by
    by_cases h : s = d ++ (d ++ [0])
    · simp [h]
    · simp [h]

/-- Prevotes for the blocks 5 and 6 are accepted as evidence. -/
theorem prevotes_accepted :
    ∃ wire e, encodeDoubleSignEvidenceWire (sampleScheme.signVote () ⟨votePrevote, 1, 0, 5, 0, []⟩)
        (sampleScheme.signVote () ⟨votePrevote, 1, 0, 6, 0, []⟩) = .ok wire ∧
      decodeDoubleSignEvidenceWire sampleScheme.ecrecover wire = .ok e ∧
      e.verify sampleScheme.ecrecover = .ok () := by
  obtain ⟨wire, e, hencode, hdecode, -, hverify⟩ := (evidence_exact sampleScheme).1 ()
    ⟨votePrevote, 1, 0, 5, 0, []⟩ ⟨votePrevote, 1, 0, 6, 0, []⟩ ⟨rfl, rfl, rfl, by decide⟩
  exact ⟨wire, e, hencode, hdecode, hverify.mpr (.inl rfl)⟩

/-- `SignVote` signs votes of type 7 as well; two of them make evidence that is refused. -/
theorem unknown_type_refused :
    ∃ wire e, encodeDoubleSignEvidenceWire (sampleScheme.signVote () ⟨7, 1, 0, 5, 0, []⟩)
        (sampleScheme.signVote () ⟨7, 1, 0, 6, 0, []⟩) = .ok wire ∧
      decodeDoubleSignEvidenceWire sampleScheme.ecrecover wire = .ok e ∧
      e.verify sampleScheme.ecrecover = .error (.voteA (.type 7)) := by
  refine ⟨_, ⟨sampleScheme.signVote () ⟨7, 1, 0, 5, 0, []⟩,
    sampleScheme.signVote () ⟨7, 1, 0, 6, 0, []⟩⟩, encodeDoubleSignEvidenceWire_eq
      (sampleScheme.length_signature_signVote () _) (sampleScheme.length_signature_signVote () _),
    ?_, ?_⟩
  · exact decodeDoubleSignEvidenceWire_eq_ok_iff.mpr
      ⟨_, _, sampleScheme.decodeVoteWire_signVote () _, sampleScheme.decodeVoteWire_signVote () _,
        rfl⟩
  · have htype : verifyVote sampleScheme.ecrecover
        (sampleScheme.signVote () ⟨7, 1, 0, 5, 0, []⟩) = .error (.type 7) :=
      if_pos ⟨(by decide : (7 : UInt8) ≠ votePrevote), (by decide : (7 : UInt8) ≠ votePrecommit)⟩
    simp only [DoubleSignEvidence.verify, verifyDoubleSign, htype, Except.mapError, bind,
      Except.bind]

end Dew.Signed
