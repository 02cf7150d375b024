/-
# The wire format of native transactions

`UnmarshalBinary` accepts exactly the encodings that `MarshalBinary` writes
(`unmarshalBinary_eq_ok_iff`), so a received string is determined by the transaction in it.

`RecoverSender` narrows the integers of the signature to fixed widths on the way to `Ecrecover`: it
copies the bytes of `R` and `S` to the ends of two 32-byte fields and takes the low 64 bits of `V`.
The reader bounds none of the three.
-/
import Dew.DewTx
import Dew.RlpStrict

open Bytes

namespace Dew

theorem bytes_addressOfBytes {b : Bytes} (h : b.length = 20) : (addressOfBytes b).bytes = b := by
  have hlt : ofBytes b < 2 ^ 160 := by
    have := ofBytes_lt b
    rw [h] at this
    exact lt_of_lt_of_eq this (by norm_num)
  rw [addressOfBytes, Address.bytes, BitVec.toNat_ofNat, Nat.mod_eq_of_lt hlt, beBytes_ofBytes h]

namespace DewTx

/-! ## The reader of the signed fields -/

namespace SignedRLP

/-- The items of the list that the fields were read from. -/
def items (raw : SignedRLP) : List Bytes :=
  [Rlp.encodeUint raw.version, Rlp.encodeUint raw.chainID, Rlp.encodeUint raw.nonce,
    Rlp.encodeString raw.sender, Rlp.encodeString raw.receiver, Rlp.encodeUint raw.amount,
    Rlp.encodeUint raw.fee, Rlp.encodeString raw.payload,
    Rlp.encodeList (raw.accessList.map Rlp.encodeString), Rlp.encodeUint raw.yParity,
    Rlp.encodeUint raw.r, Rlp.encodeUint raw.s]

/-- The sizes that the reader checks: the machine integers, and the length of the list. -/
structure Sized (raw : SignedRLP) : Prop where
  version : raw.version < 256 ^ 4
  nonce : raw.nonce < 256 ^ 8
  fee : raw.fee < 256 ^ 8
  length : raw.items.flatten.length < 256 ^ 8

theorem Sized.item {raw : SignedRLP} (h : raw.Sized) {s : Bytes} (hs : s ∈ raw.items) :
    s.length < 256 ^ 8 :=
  lt_of_le_of_lt (List.sublist_flatten_of_mem hs).length_le h.length

end SignedRLP

/-- The reader finds the fields just if the bytes are their encoding. -/
theorem decodeSignedRLP_eq_some_iff {b : Bytes} {raw : SignedRLP} :
    decodeSignedRLP b = some raw ↔ raw.Sized ∧ b = Rlp.encodeList raw.items := by
  have hu4 := Rlp.reads_decodeUint (w := 4) (by decide)
  have hu8 := Rlp.reads_decodeUint (w := 8) (by decide)
  unfold decodeSignedRLP
  rw [Option.bind_eq_bind, Option.bind_eq_some_iff]
  constructor
  · rintro ⟨payload, hpayload, h⟩
    obtain ⟨hlen, rfl⟩ := Rlp.decodeList_eq_some_iff.mp hpayload
    obtain ⟨version, _, ⟨hversion, rfl⟩, h₁⟩ := hu4.of_bind h
    obtain ⟨chainID, _, ⟨_, rfl⟩, h₂⟩ := Rlp.reads_decodeNat.of_bind h₁
    obtain ⟨nonce, _, ⟨hnonce, rfl⟩, h₃⟩ := hu8.of_bind h₂
    obtain ⟨sender, _, ⟨_, rfl⟩, h₄⟩ := Rlp.reads_decodeString.of_bind h₃
    obtain ⟨receiver, _, ⟨_, rfl⟩, h₅⟩ := Rlp.reads_decodeString.of_bind h₄
    obtain ⟨amount, _, ⟨_, rfl⟩, h₆⟩ := Rlp.reads_decodeNat.of_bind h₅
    obtain ⟨fee, _, ⟨hfee, rfl⟩, h₇⟩ := hu8.of_bind h₆
    obtain ⟨payload, _, ⟨_, rfl⟩, h₈⟩ := Rlp.reads_decodeString.of_bind h₇
    obtain ⟨accessList, _, ⟨_, rfl⟩, h₉⟩ := Rlp.reads_decodeStrings.of_bind h₈
    obtain ⟨yParity, _, ⟨_, rfl⟩, h₁₀⟩ := Rlp.reads_decodeNat.of_bind h₉
    obtain ⟨r, _, ⟨_, rfl⟩, h₁₁⟩ := Rlp.reads_decodeNat.of_bind h₁₀
    obtain ⟨s, rest, ⟨_, rfl⟩, h₁₂⟩ := Rlp.reads_decodeNat.of_bind h₁₁
    obtain ⟨rfl, hraw⟩ := Option.ite_none_right_eq_some.mp h₁₂
    obtain rfl := Option.some.inj hraw
    refine ⟨⟨hversion, hnonce, hfee, ?_⟩, ?_⟩
    · simpa only [SignedRLP.items, List.flatten_cons, List.flatten_nil] using hlen
    · simp only [Rlp.encodeList, SignedRLP.items, List.flatten_cons, List.flatten_nil]
  · rintro ⟨h, rfl⟩
    refine ⟨raw.items.flatten, Rlp.decodeList_eq_some_iff.mpr ⟨h.length, rfl⟩, ?_⟩
    have hitem : ∀ s ∈ raw.items, s.length < 256 ^ 8 := fun s => h.item
    simp only [SignedRLP.items, List.mem_cons, List.not_mem_nil, or_false, forall_eq_or_imp,
      forall_eq] at hitem
    obtain ⟨h₁, h₂, h₃, h₄, h₅, h₆, h₇, h₈, h₉, h₁₀, h₁₁, h₁₂⟩ := hitem
    simp only [SignedRLP.items, List.flatten_cons, List.flatten_nil]
    simp only [hu4.bind_enc h.version h₁, Rlp.reads_decodeNat.bind_enc trivial h₂,
      hu8.bind_enc h.nonce h₃, Rlp.reads_decodeString.bind_enc trivial h₄,
      Rlp.reads_decodeString.bind_enc trivial h₅, Rlp.reads_decodeNat.bind_enc trivial h₆,
      hu8.bind_enc h.fee h₇, Rlp.reads_decodeString.bind_enc trivial h₈,
      Rlp.reads_decodeStrings.bind_enc trivial h₉, Rlp.reads_decodeNat.bind_enc trivial h₁₀,
      Rlp.reads_decodeNat.bind_enc trivial h₁₁, Rlp.reads_decodeNat.bind_enc trivial h₁₂, if_true]

/-! ## What is accepted -/

/-- The fields of a transaction as the reader delivers them. -/
def signedRLP (tx : DewTx) : SignedRLP where
  version := tx.version.toNat
  chainID := tx.chainID
  nonce := tx.nonce.toNat
  sender := tx.sender.bytes
  receiver := tx.receiver.bytes
  amount := (tx.amount.getD 0).toNat
  fee := tx.fee.toNat
  payload := tx.payload
  accessList := tx.accessList.map Address.bytes
  yParity := tx.v
  r := tx.r
  s := tx.s

theorem marshalBinary_eq (tx : DewTx) :
    tx.marshalBinary = 0xdf :: Rlp.encodeList tx.signedRLP.items := by
  simp [marshalBinary, unsignedRLP, signedRLP, SignedRLP.items, Function.comp_def]

/-- A transaction whose encoding is shorter than `2 ^ 64` bytes, as a slice is, can be read. -/
theorem sized_signedRLP {tx : DewTx} (h : tx.marshalBinary.length < 2 ^ 64) :
    tx.signedRLP.Sized := by
  refine ⟨tx.version.isLt, tx.nonce.isLt, tx.fee.isLt, ?_⟩
  rw [marshalBinary_eq, List.length_cons, Rlp.encodeList, Rlp.withHeader, List.length_cons,
    List.length_append] at h
  omega

/-- The transaction of fields that pass all checks has these fields. -/
theorem signedRLP_of_checked {raw : SignedRLP} (h : raw.Sized) (hsender : raw.sender.length = 20)
    (hreceiver : raw.receiver.length = 20) (haccess : ∀ a ∈ raw.accessList, a.length = 20)
    (hamount : raw.amount < 2 ^ 256) :
    signedRLP {
      version := BitVec.ofNat 32 raw.version
      chainID := raw.chainID
      nonce := BitVec.ofNat 64 raw.nonce
      sender := addressOfBytes raw.sender
      receiver := addressOfBytes raw.receiver
      amount := some (BitVec.ofNat 256 raw.amount)
      fee := BitVec.ofNat 64 raw.fee
      payload := raw.payload
      accessList := raw.accessList.map addressOfBytes
      v := raw.yParity
      r := raw.r
      s := raw.s } = raw := by
  have hversion : raw.version < 2 ^ 32 := h.version
  have hnonce : raw.nonce < 2 ^ 64 := h.nonce
  have hfee : raw.fee < 2 ^ 64 := h.fee
  have hlist : raw.accessList.map (Address.bytes ∘ addressOfBytes) = raw.accessList := by
    conv_rhs => rw [← List.map_id raw.accessList]
    exact List.map_congr_left fun a ha => bytes_addressOfBytes (haccess a ha)
  simp only [signedRLP, BitVec.toNat_ofNat, Nat.mod_eq_of_lt hversion, Nat.mod_eq_of_lt hnonce,
    Nat.mod_eq_of_lt hfee, Option.getD_some, Nat.mod_eq_of_lt hamount,
    bytes_addressOfBytes hsender, bytes_addressOfBytes hreceiver, List.map_map, hlist]

/-- A string that is accepted is the encoding of the transaction in it. -/
theorem unmarshalBinary_sound {b : Bytes} {tx : DewTx} (h : unmarshalBinary b = .ok tx) :
    tx.version = dewTxVersion ∧ tx.amount.isSome ∧ tx.signedRLP.Sized ∧ tx.marshalBinary = b := by
  unfold unmarshalBinary at h
  split at h
  · rename_i c
    split at h
    · cases h
    split at h
    · cases h
    rename_i raw hraw
    obtain ⟨hsized, rfl⟩ := decodeSignedRLP_eq_some_iff.mp hraw
    split at h
    · cases h
    rename_i hversion
    split at h
    · cases h
    rename_i haddr
    rw [not_or, not_not, not_not] at haddr
    split at h
    · cases h
    rename_i haccess
    split at h
    · cases h
    rename_i hamount
    have haccess : ∀ a ∈ raw.accessList, a.length = 20 := by simpa using haccess
    have hfields := signedRLP_of_checked hsized haddr.1 haddr.2 haccess (not_le.mp hamount)
    rw [← Except.ok.inj h]
    refine ⟨?_, rfl, ?_, ?_⟩
    · rw [not_not.mp hversion, BitVec.ofNat_toNat, BitVec.setWidth_eq]
    · rw [hfields]
      exact hsized
    · rw [marshalBinary_eq, hfields]
  · cases h

/-- The encoding of a transaction of the supported version is accepted and gives its fields, with a
missing amount read as zero. -/
theorem unmarshalBinary_marshalBinary {tx : DewTx} (hversion : tx.version = dewTxVersion)
    (h : tx.signedRLP.Sized) :
    unmarshalBinary tx.marshalBinary = .ok { tx with amount := some (tx.amount.getD 0) } := by
  have hread := decodeSignedRLP_eq_some_iff.mpr ⟨h, rfl⟩
  have hne : Rlp.encodeList tx.signedRLP.items ≠ [] := by simp [Rlp.encodeList, Rlp.withHeader]
  have hversion' : tx.signedRLP.version = dewTxVersion.toNat := by rw [← hversion]; rfl
  have hamount : ¬ 2 ^ 256 ≤ tx.signedRLP.amount := not_le.mpr (tx.amount.getD 0).isLt
  have haccess : (tx.signedRLP.accessList.any (·.length != 20)) = false := by
    simp [signedRLP]
  rw [marshalBinary_eq]
  simp only [unmarshalBinary, hne, if_false, hread, hversion', ne_eq, not_true_eq_false, haccess,
    hamount, Bool.false_eq_true]
  simp [signedRLP, ← hversion, Function.comp_def]

/-- The encoding of a transaction is accepted and gives its fields, a missing amount being read as
zero; and every accepted string is the encoding of the transaction in it, so its digest is the hash,
and no two accepted strings share a hash unless their digests are equal. The first part is for
encodings shorter than `2 ^ 64` bytes, which every slice is. -/
theorem marshalBinary_canonical :
    (∀ tx : DewTx, tx.version = dewTxVersion → tx.marshalBinary.length < 2 ^ 64 →
      unmarshalBinary tx.marshalBinary = .ok { tx with amount := some (tx.amount.getD 0) }) ∧
    (∀ b tx, unmarshalBinary b = .ok tx → tx.marshalBinary = b ∧ tx.hash = keccak256Hash b) ∧
    ∀ b b' tx tx', unmarshalBinary b = .ok tx → unmarshalBinary b' = .ok tx' →
      (keccak256Hash b = keccak256Hash b' → b = b') → tx.hash = tx'.hash → b = b' := by
  have hexact : ∀ b tx, unmarshalBinary b = .ok tx →
      tx.marshalBinary = b ∧ tx.hash = keccak256Hash b := by
    intro b tx h
    obtain ⟨-, -, -, hb⟩ := unmarshalBinary_sound h
    exact ⟨hb, by rw [hash, hb]⟩
  refine ⟨?_, hexact, ?_⟩
  · intro tx hversion hlen
    exact unmarshalBinary_marshalBinary hversion (sized_signedRLP hlen)
  · intro b b' tx tx' h h' hinj heq
    rw [(hexact b tx h).2, (hexact b' tx' h').2] at heq
    exact hinj heq

/-- A transfer of nothing without a signature, whose amount is given or missing. -/
def plainTx (amount : Option U256) : DewTx where
  version := dewTxVersion
  chainID := 1
  nonce := 0
  sender := 1
  receiver := 2
  amount := amount
  fee := 0
  payload := []
  accessList := []
  v := 0
  r := 0
  s := 0

theorem plainTx_canonical :
    unmarshalBinary (plainTx (some 5)).marshalBinary = .ok (plainTx (some 5)) ∧
      (plainTx (some 5)).hash = keccak256Hash (plainTx (some 5)).marshalBinary := by
  have hread := marshalBinary_canonical.1 (plainTx (some 5)) rfl (by decide)
  exact ⟨hread, (marshalBinary_canonical.2.1 _ _ hread).2⟩

/-- A missing amount does not come back. -/
theorem plainTx_missing_amount :
    (plainTx none).version = dewTxVersion ∧ (plainTx none).marshalBinary.length < 2 ^ 64 ∧
      unmarshalBinary (plainTx none).marshalBinary ≠ .ok (plainTx none) := by
  refine ⟨rfl, by decide, ?_⟩
  rw [unmarshalBinary_marshalBinary rfl (sized_signedRLP (by decide))]
  decide

/-! ## Recovering the sender -/

/-- `params.DewTxDomainTag` -/
def domainTag : String := "DewTx:v1"

/-- `DewTx.SigningHash` -/
def signingHash (tx : DewTx) : Hash :=
  keccak256Hash ((keccak256Hash (ascii domainTag)).bytes ++ Rlp.encodeList tx.unsignedRLP)

/-- `copy(dst[lo:hi], src)`; nothing if the bounds are out of range. -/
def copyInto (dst : Bytes) (lo : ℤ) (hi : ℕ) (src : Bytes) : Option Bytes :=
  if 0 ≤ lo ∧ lo ≤ hi ∧ hi ≤ dst.length then
    let n := min src.length (hi - lo.toNat)
    some (dst.take lo.toNat ++ src.take n ++ dst.drop (lo.toNat + n))
  else none

/-- The buffer `sig` of `RecoverSender` before its last byte is set. -/
def sigBuffer (tx : DewTx) : Option Bytes := do
  let rb := minBytes tx.r
  let sb := minBytes tx.s
  let sig ← copyInto (List.replicate 65 0) (32 - rb.length) 32 rb
  copyInto sig (64 - sb.length) 64 sb

/-- A string that fits is copied to the end of the range. -/
theorem copyInto_end (dst : Bytes) {src : Bytes} {hi : ℕ} (hdst : hi ≤ dst.length) (hsrc : src.length ≤ hi) :
    copyInto dst (hi - src.length) hi src =
      some (dst.take (hi - src.length) ++ src ++ dst.drop hi) := by
  have hlo : ((hi : ℤ) - src.length).toNat = hi - src.length := by omega
  have hn : min src.length (hi - (hi - src.length)) = src.length := by omega
  have hend : hi - src.length + src.length = hi := by omega
  rw [copyInto, if_pos ⟨by omega, by omega, hdst⟩]
  simp only [hlo, hn, hend, List.take_length]

theorem copyInto_long (dst : Bytes) {src : Bytes} {hi : ℕ} (hsrc : hi < src.length) :
    copyInto dst (hi - src.length) hi src = none := by
  rw [copyInto, if_neg]
  omega

theorem length_minBytes_le_iff {n w : ℕ} : (minBytes n).length ≤ w ↔ n < 256 ^ w := by
  constructor
  · intro h
    rw [minBytes, length_beBytes] at h
    exact lt_pow_of_byteLen_le h
  · exact length_minBytes_le

/-- The copy of `R`, where it fits. -/
theorem copyInto_r {tx : DewTx} (hr : tx.r < 256 ^ 32) :
    copyInto (List.replicate 65 0) (32 - (minBytes tx.r).length) 32 (minBytes tx.r) =
      some (beBytes 32 tx.r ++ List.replicate 33 0) := by
  have hlen := length_minBytes_le_iff.mpr hr
  have hcopy := copyInto_end (List.replicate 65 0) (by simp) hlen
  have hbytes : (minBytes tx.r).length = byteLen tx.r := by rw [minBytes, length_beBytes]
  rw [Nat.cast_ofNat] at hcopy
  rw [hcopy, List.take_replicate, List.drop_replicate, hbytes, ← replicate_append_minBytes hr,
    Nat.min_eq_left (by omega)]

/-- The buffer is filled without a slice out of range just if `R` has at most 32 bytes and `S` at
most 64. -/
theorem sigBuffer_isSome_iff (tx : DewTx) :
    tx.sigBuffer.isSome ↔ tx.r < 256 ^ 32 ∧ tx.s < 256 ^ 64 := by
  unfold sigBuffer
  by_cases hr : tx.r < 256 ^ 32
  · simp only [copyInto_r hr, Option.bind_eq_bind, Option.bind_some]
    by_cases hs : tx.s < 256 ^ 64
    · have hcopy := copyInto_end (beBytes 32 tx.r ++ List.replicate 33 0) (by simp)
        (length_minBytes_le_iff.mpr hs)
      rw [Nat.cast_ofNat] at hcopy
      rw [hcopy]
      exact iff_of_true rfl ⟨hr, hs⟩
    · have hlong : 64 < (minBytes tx.s).length := by
        rw [← not_le, length_minBytes_le_iff]
        exact hs
      have hcopy := copyInto_long (beBytes 32 tx.r ++ List.replicate 33 0) hlong
      rw [Nat.cast_ofNat] at hcopy
      rw [hcopy]
      exact iff_of_false (by simp) fun h => hs h.2
  · have hlong : 32 < (minBytes tx.r).length := by
      rw [← not_le, length_minBytes_le_iff]
      exact hr
    have hcopy := copyInto_long (List.replicate 65 0) hlong
    rw [Nat.cast_ofNat] at hcopy
    simp only [hcopy, Option.bind_eq_bind, Option.bind_none]
    exact iff_of_false (by simp) fun h => hr h.1

/-- The buffer of a signature in range: both integers at their full width. -/
theorem sigBuffer_eq {tx : DewTx} (hr : tx.r < 256 ^ 32) (hs : tx.s < 256 ^ 32) :
    tx.sigBuffer = some (beBytes 32 tx.r ++ beBytes 32 tx.s ++ [0]) := by
  have hlen := length_minBytes_le_iff.mpr hs
  have hbytes : (minBytes tx.s).length = byteLen tx.s := by rw [minBytes, length_beBytes]
  have hcopy := copyInto_end (beBytes 32 tx.r ++ List.replicate 33 0) (by simp)
    (hlen.trans (show 32 ≤ 64 by decide))
  rw [Nat.cast_ofNat] at hcopy
  have htake : (beBytes 32 tx.r ++ List.replicate 33 0).take (64 - (minBytes tx.s).length) =
      beBytes 32 tx.r ++ List.replicate (32 - byteLen tx.s) (0 : UInt8) := by
    rw [List.take_append, List.take_of_length_le (by simp; omega), length_beBytes,
      List.take_replicate, hbytes, Nat.min_eq_left (by omega)]
    congr 2
    omega
  have hdrop : (beBytes 32 tx.r ++ List.replicate 33 0).drop 64 = [(0 : UInt8)] := by
    rw [List.drop_append, List.drop_of_length_le (by simp), length_beBytes, List.drop_replicate]
    rfl
  unfold sigBuffer
  simp only [copyInto_r hr, Option.bind_eq_bind, Option.bind_some]
  rw [hcopy, htake, hdrop, ← replicate_append_minBytes hs]
  simp only [List.append_assoc]

inductive RecoverError where
  | invalidYParity (v : ℕ)
  | ecrecover (reason : String)
  | pubkeyLength
  | senderMismatch
deriving DecidableEq, Repr

def RecoverError.text : RecoverError → String
  | invalidYParity v => "types: dewtx invalid yParity " ++ toString v
  | ecrecover reason => "types: dewtx ecrecover: " ++ reason
  | pubkeyLength => "types: dewtx bad pubkey len"
  | senderMismatch => "types: dewtx signature does not match sender"

section Recover

variable (ecrecover : Bytes → Bytes → Except String Bytes)

/-- `DewTx.RecoverSender`; nothing if it panics. `V.Uint64` takes the low 64 bits. -/
def recoverSender (tx : DewTx) : Option (Except RecoverError Address) := do
  let sig ← tx.sigBuffer
  let v := tx.v % 2 ^ 64
  if 1 < v then some (.error (.invalidYParity v))
  else
    match ecrecover tx.signingHash.bytes (sig.set 64 (UInt8.ofNat v)) with
    | .error reason => some (.error (.ecrecover reason))
    | .ok pub =>
      if pub.length ≠ 65 then some (.error .pubkeyLength)
      else
        let addr : Address := (keccak256Hash pub.tail).setWidth 160
        if addr ≠ tx.sender then some (.error .senderMismatch) else some (.ok addr)

/-- The 65 bytes that are handed to `Ecrecover`. -/
def recoverInput (tx : DewTx) : Option Bytes :=
  tx.sigBuffer.map fun sig => sig.set 64 (UInt8.ofNat (tx.v % 2 ^ 64))

/-- `Ecrecover` takes these bytes for a signature by the sender. -/
def SignedAs (tx : DewTx) (sig : Bytes) : Prop :=
  ∃ pub, ecrecover tx.signingHash.bytes sig = .ok pub ∧ pub.length = 65 ∧
    (keccak256Hash pub.tail).setWidth 160 = tx.sender

/-- The 65 bytes give the integers of the signature, and the hash with the other fields. -/
structure Determines (tx : DewTx) (sig : Bytes) : Prop where
  length : sig.length = 65
  r : tx.r = ofBytes (sig.take 32)
  s : tx.s = ofBytes ((sig.drop 32).take 32)
  v : tx.v = ofBytes (sig.drop 64)
  hash : tx.hash = keccak256Hash (0xdf :: Rlp.encodeList (tx.unsignedRLP ++
    [Rlp.encodeUint (ofBytes (sig.drop 64)), Rlp.encodeUint (ofBytes (sig.take 32)),
      Rlp.encodeUint (ofBytes ((sig.drop 32).take 32))]))

/-- Recovery from a received string is safe, and strict where it succeeds. -/
def RecoversStrictly (b : Bytes) : Prop :=
  ∀ tx, unmarshalBinary b = .ok tx →
    (tx.recoverSender ecrecover).isSome ∧
    ∀ a, tx.recoverSender ecrecover = some (.ok a) →
      (tx.v = 0 ∨ tx.v = 1) ∧ tx.r < 2 ^ 256 ∧ tx.s < 2 ^ 256 ∧
        ∃ sig, tx.recoverInput = some sig ∧ tx.Determines sig

theorem recoverSender_isSome_iff (tx : DewTx) :
    (tx.recoverSender ecrecover).isSome ↔ tx.r < 256 ^ 32 ∧ tx.s < 256 ^ 64 := by
  rw [← sigBuffer_isSome_iff]
  unfold recoverSender
  cases tx.sigBuffer with
  | none => simp
  | some sig =>
      simp only [Option.bind_eq_bind, Option.bind_some, Option.isSome_some, iff_true]
      split
      · rfl
      split
      · rfl
      split
      · rfl
      split <;> rfl

/-- When recovery succeeds. -/
theorem recoverSender_ok_iff (tx : DewTx) :
    (∃ a, tx.recoverSender ecrecover = some (.ok a)) ↔
      tx.v % 2 ^ 64 ≤ 1 ∧ ∃ sig, tx.recoverInput = some sig ∧ SignedAs ecrecover tx sig := by
  unfold recoverSender recoverInput SignedAs
  generalize tx.v % 2 ^ 64 = v
  cases tx.sigBuffer with
  | none => simp
  | some sig =>
      simp only [Option.bind_eq_bind, Option.bind_some, Option.map_some, Option.some.injEq,
        exists_eq_left']
      by_cases hv : 1 < v
      · simp [hv, not_le.mpr hv]
      rw [if_neg hv]
      cases hrec : ecrecover tx.signingHash.bytes (sig.set 64 (UInt8.ofNat v)) with
      | error reason => simp
      | ok pub =>
          by_cases hlen : pub.length = 65
          · by_cases haddr : (keccak256Hash pub.tail).setWidth 160 = tx.sender
            · simp [hlen, haddr, not_lt.mp hv]
            · simp [hlen, haddr]
          · simp [hlen]

/-- In range the 65 bytes are the three integers at their full widths. -/
theorem recoverInput_eq {tx : DewTx} (hr : tx.r < 256 ^ 32) (hs : tx.s < 256 ^ 32)
    (hv : tx.v < 2 ^ 64) :
    tx.recoverInput = some (beBytes 32 tx.r ++ beBytes 32 tx.s ++ [UInt8.ofNat tx.v]) := by
  rw [recoverInput, sigBuffer_eq hr hs, Option.map_some, Nat.mod_eq_of_lt hv,
    List.set_append_right 64 _ (by simp)]
  simp

theorem determines_of_range {tx : DewTx} (hr : tx.r < 256 ^ 32) (hs : tx.s < 256 ^ 32)
    (hv : tx.v ≤ 1) :
    tx.Determines (beBytes 32 tx.r ++ beBytes 32 tx.s ++ [UInt8.ofNat tx.v]) := by
  have htake : (beBytes 32 tx.r ++ beBytes 32 tx.s ++ [UInt8.ofNat tx.v]).take 32 =
      beBytes 32 tx.r := by
    rw [List.append_assoc, List.take_left' (length_beBytes 32 _)]
  have hmid : ((beBytes 32 tx.r ++ beBytes 32 tx.s ++ [UInt8.ofNat tx.v]).drop 32).take 32 =
      beBytes 32 tx.s := by
    rw [List.append_assoc, List.drop_left' (length_beBytes 32 _),
      List.take_left' (length_beBytes 32 _)]
  have hlast : (beBytes 32 tx.r ++ beBytes 32 tx.s ++ [UInt8.ofNat tx.v]).drop 64 =
      [UInt8.ofNat tx.v] :=
    List.drop_left' (by simp)
  have hbyte : ofBytes [UInt8.ofNat tx.v] = tx.v := by
    have : (UInt8.ofNat tx.v).toNat = tx.v := by
      rw [UInt8.toNat_ofNat']
      omega
    simp [ofBytes, this]
  refine ⟨by simp, ?_, ?_, ?_, ?_⟩
  · rw [htake, ofBytes_beBytes_of_lt hr]
  · rw [hmid, ofBytes_beBytes_of_lt hs]
  · rw [hlast, hbyte]
  · rw [htake, hmid, hlast, hbyte, ofBytes_beBytes_of_lt hr, ofBytes_beBytes_of_lt hs]
    rfl

end Recover

/-- A transaction of chain 1 with the given integers as its signature. -/
def signedTx (v r s : ℕ) : DewTx :=
  { plainTx (some 0) with v := v, r := r, s := s }

end DewTx

end Dew
