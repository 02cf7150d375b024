/-
# The wire format of EVM transactions

`Transaction` with its fields: the legacy encoding is the RLP list of the signed fields, the
dynamic-fee encoding puts `0x02` in front of one. The reader checks that the bytes are strict RLP of
the right shape but not how long the strings for addresses and storage keys are: a recipient of any
other length than 20 bytes is read as none, an address of the access list as zero, and storage keys
are aligned to 32 bytes.
-/
import Dew.Block
import Dew.DewTxWire

open Bytes

namespace Dew.Types

/-- `LegacyTxType` -/
def legacyTxType : UInt8 := 0

/-- `DynamicFeeTxType` -/
def dynamicFeeTxType : UInt8 := 2

/-- `AccessTuple` -/
structure AccessTuple where
  address : Address
  storageKeys : List Hash
deriving DecidableEq, Repr

/-- `Transaction`, without its cached hash and sender; integers may be nil and may be negative. -/
structure Transaction where
  type : UInt8
  chainID : Option ℤ
  nonce : U64
  gasTipCap : Option ℤ
  gasFeeCap : Option ℤ
  gas : U64
  target : Option Address
  value : Option ℤ
  data : Bytes
  accessList : List AccessTuple
  v : Option ℤ
  r : Option ℤ
  s : Option ℤ
deriving DecidableEq, Repr

inductive TxError where
  | empty
  | rlp
  | unsupportedType (type : UInt8)
deriving DecidableEq, Repr

def TxError.text : TxError → String
  | empty => "types: empty tx binary"
  | rlp => "rlp: "
  | unsupportedType type => "types: unsupported tx type " ++ toString type.toNat

/-- `copyBig`: nil is zero. -/
def copyBig (v : Option ℤ) : ℤ :=
  v.getD 0

/-- `addrBytes` -/
def addrBytes : Option Address → Bytes
  | none => []
  | some a => a.bytes

/-- `bytesToAddr` -/
def bytesToAddr (b : Bytes) : Option Address :=
  if b.length = 20 then some (addressOfBytes b) else none

/-! ## The encoded fields -/

/-- `legacyRLP` -/
structure LegacyRLP where
  nonce : U64
  gasPrice : ℤ
  gas : U64
  target : Bytes
  value : ℤ
  data : Bytes
  v : ℤ
  r : ℤ
  s : ℤ
deriving DecidableEq, Repr

/-- `accessTupleRLP` -/
structure AccessTupleRLP where
  address : Bytes
  storageKeys : List Bytes
deriving DecidableEq, Repr

/-- `dynamicFeeRLP` -/
structure DynamicFeeRLP where
  chainID : ℤ
  nonce : U64
  gasTipCap : ℤ
  gasFeeCap : ℤ
  gas : U64
  target : Bytes
  value : ℤ
  data : Bytes
  accessList : List AccessTupleRLP
  yParity : ℤ
  r : ℤ
  s : ℤ
deriving DecidableEq, Repr

attribute [ext] LegacyRLP DynamicFeeRLP

/-- An integer as RLP writes it, if it is not negative. -/
def encodeBig (n : ℤ) : Bytes :=
  Rlp.encodeUint n.toNat

namespace LegacyRLP

def items (raw : LegacyRLP) : List Bytes :=
  [Rlp.encodeUint raw.nonce.toNat, encodeBig raw.gasPrice, Rlp.encodeUint raw.gas.toNat,
    Rlp.encodeString raw.target, encodeBig raw.value, Rlp.encodeString raw.data, encodeBig raw.v,
    encodeBig raw.r, encodeBig raw.s]

/-- RLP refuses negative integers. -/
def Nonneg (raw : LegacyRLP) : Prop :=
  0 ≤ raw.gasPrice ∧ 0 ≤ raw.value ∧ 0 ≤ raw.v ∧ 0 ≤ raw.r ∧ 0 ≤ raw.s

instance (raw : LegacyRLP) : Decidable raw.Nonneg :=
  inferInstanceAs (Decidable (_ ∧ _))

end LegacyRLP

def AccessTupleRLP.encode (t : AccessTupleRLP) : Bytes :=
  Rlp.encodeList [Rlp.encodeString t.address, Rlp.encodeList (t.storageKeys.map Rlp.encodeString)]

namespace DynamicFeeRLP

def items (raw : DynamicFeeRLP) : List Bytes :=
  [encodeBig raw.chainID, Rlp.encodeUint raw.nonce.toNat, encodeBig raw.gasTipCap,
    encodeBig raw.gasFeeCap, Rlp.encodeUint raw.gas.toNat, Rlp.encodeString raw.target,
    encodeBig raw.value, Rlp.encodeString raw.data,
    Rlp.encodeList (raw.accessList.map AccessTupleRLP.encode), encodeBig raw.yParity,
    encodeBig raw.r, encodeBig raw.s]

/-- RLP refuses negative integers. -/
def Nonneg (raw : DynamicFeeRLP) : Prop :=
  0 ≤ raw.chainID ∧ 0 ≤ raw.gasTipCap ∧ 0 ≤ raw.gasFeeCap ∧ 0 ≤ raw.value ∧ 0 ≤ raw.yParity ∧
    0 ≤ raw.r ∧ 0 ≤ raw.s

instance (raw : DynamicFeeRLP) : Decidable raw.Nonneg :=
  inferInstanceAs (Decidable (_ ∧ _))

end DynamicFeeRLP

/-- What a transaction of a supported type is on the wire. -/
inductive Payload where
  | legacy (raw : LegacyRLP)
  | dynamicFee (raw : DynamicFeeRLP)
deriving DecidableEq, Repr

namespace Payload

def items : Payload → List Bytes
  | legacy raw => raw.items
  | dynamicFee raw => raw.items

def Nonneg : Payload → Prop
  | legacy raw => raw.Nonneg
  | dynamicFee raw => raw.Nonneg

instance : (p : Payload) → Decidable p.Nonneg
  | legacy raw => inferInstanceAs (Decidable raw.Nonneg)
  | dynamicFee raw => inferInstanceAs (Decidable raw.Nonneg)

/-- The bytes of a payload, if no integer is negative. -/
def bytes : Payload → Bytes
  | legacy raw => Rlp.encodeList raw.items
  | dynamicFee raw => dynamicFeeTxType :: Rlp.encodeList raw.items

end Payload

/-! ## Writing -/

namespace Transaction

/-- `Transaction.legacyRLP` -/
def legacyRLP (tx : Transaction) : LegacyRLP where
  nonce := tx.nonce
  gasPrice := copyBig tx.gasFeeCap
  gas := tx.gas
  target := addrBytes tx.target
  value := copyBig tx.value
  data := tx.data
  v := copyBig tx.v
  r := copyBig tx.r
  s := copyBig tx.s

/-- `Transaction.dynamicFeeRLP` -/
def dynamicFeeRLP (tx : Transaction) : DynamicFeeRLP where
  chainID := copyBig tx.chainID
  nonce := tx.nonce
  gasTipCap := copyBig tx.gasTipCap
  gasFeeCap := copyBig tx.gasFeeCap
  gas := tx.gas
  target := addrBytes tx.target
  value := copyBig tx.value
  data := tx.data
  accessList := tx.accessList.map fun t => ⟨t.address.bytes, t.storageKeys.map Hash.bytes⟩
  yParity := copyBig tx.v
  r := copyBig tx.r
  s := copyBig tx.s

/-- The encoded fields of a transaction, by its type. -/
def payload (tx : Transaction) : Except TxError Payload :=
  if tx.type = legacyTxType then .ok (.legacy tx.legacyRLP)
  else if tx.type = dynamicFeeTxType then .ok (.dynamicFee tx.dynamicFeeRLP)
  else .error (.unsupportedType tx.type)

/-- `Transaction.MarshalBinary` -/
def marshalBinary (tx : Transaction) : Except TxError Bytes := do
  let p ← tx.payload
  if p.Nonneg then .ok p.bytes else .error .rlp

/-- `Transaction.Hash`, of a transaction whose hash is not cached; an error is a panic. -/
def hash (tx : Transaction) : Except TxError Hash :=
  tx.marshalBinary.map keccak256Hash

end Transaction

/-! ## Reading -/

def decodeU64 : Bytes → Option (U64 × Bytes) :=
  Rlp.decodeAs (BitVec.ofNat 64) (Rlp.decodeUint 8)

def decodeBig : Bytes → Option (ℤ × Bytes) :=
  Rlp.decodeAs Int.ofNat Rlp.decodeNat

def readLegacyFields : Bytes → Option (LegacyRLP × Bytes) :=
  Rlp.decodeAs
    (fun (nonce, gasPrice, gas, target, value, data, v, r, s) =>
      ⟨nonce, gasPrice, gas, target, value, data, v, r, s⟩)
    (Rlp.decodePair decodeU64 (Rlp.decodePair decodeBig (Rlp.decodePair decodeU64
      (Rlp.decodePair Rlp.decodeString (Rlp.decodePair decodeBig (Rlp.decodePair Rlp.decodeString
        (Rlp.decodePair decodeBig (Rlp.decodePair decodeBig decodeBig))))))))

def readAccessTuple : Bytes → Option (AccessTupleRLP × Bytes) :=
  Rlp.decodeRecord
    (Rlp.decodeAs (fun (address, storageKeys) => ⟨address, storageKeys⟩)
      (Rlp.decodePair Rlp.decodeString Rlp.decodeStrings))

def readDynamicFeeFields : Bytes → Option (DynamicFeeRLP × Bytes) :=
  Rlp.decodeAs
    (fun (chainID, nonce, gasTipCap, gasFeeCap, gas, target, value, data, accessList, yParity, r,
        s) =>
      ⟨chainID, nonce, gasTipCap, gasFeeCap, gas, target, value, data, accessList, yParity, r, s⟩)
    (Rlp.decodePair decodeBig (Rlp.decodePair decodeU64 (Rlp.decodePair decodeBig
      (Rlp.decodePair decodeBig (Rlp.decodePair decodeU64 (Rlp.decodePair Rlp.decodeString
        (Rlp.decodePair decodeBig (Rlp.decodePair Rlp.decodeString
          (Rlp.decodePair (Rlp.decodeListOf readAccessTuple) (Rlp.decodePair decodeBig
            (Rlp.decodePair decodeBig decodeBig)))))))))))

/-- The encoded fields that a string holds. -/
def readPayload : Bytes → Except TxError Payload
  | [] => .error .empty
  | t :: b =>
    if t = dynamicFeeTxType then
      match Rlp.decodeBytes (Rlp.decodeRecord readDynamicFeeFields) b with
      | some raw => .ok (.dynamicFee raw)
      | none => .error .rlp
    else
      match Rlp.decodeBytes (Rlp.decodeRecord readLegacyFields) (t :: b) with
      | some raw => .ok (.legacy raw)
      | none => .error .rlp

/-- An entry of `decodeAccessList`. -/
def AccessTupleRLP.tuple (t : AccessTupleRLP) : AccessTuple where
  address := (bytesToAddr t.address).getD 0
  storageKeys := t.storageKeys.map bytesToHash

/-- The transaction that `UnmarshalBinary` makes of the fields. -/
def Payload.transaction : Payload → Transaction
  | legacy raw =>
    { type := legacyTxType
      chainID := none
      nonce := raw.nonce
      gasTipCap := some raw.gasPrice
      gasFeeCap := some raw.gasPrice
      gas := raw.gas
      target := bytesToAddr raw.target
      value := some raw.value
      data := raw.data
      accessList := []
      v := some raw.v
      r := some raw.r
      s := some raw.s }
  | dynamicFee raw =>
    { type := dynamicFeeTxType
      chainID := some raw.chainID
      nonce := raw.nonce
      gasTipCap := some raw.gasTipCap
      gasFeeCap := some raw.gasFeeCap
      gas := raw.gas
      target := bytesToAddr raw.target
      value := some raw.value
      data := raw.data
      accessList := raw.accessList.map AccessTupleRLP.tuple
      v := some raw.yParity
      r := some raw.r
      s := some raw.s }

/-- `Transaction.UnmarshalBinary` -/
def unmarshalBinary (data : Bytes) : Except TxError Transaction :=
  (readPayload data).map Payload.transaction

/-! ## What is read -/

theorem reads_decodeU64 :
    Rlp.Reads decodeU64 (fun n => Rlp.encodeUint n.toNat) fun _ => True := by
  have h := (Rlp.reads_decodeUint (w := 8) (by decide)).as (f := BitVec.ofNat 64)
    (g := BitVec.toNat) (by
      intro n hn
      rw [BitVec.toNat_ofNat]
      exact Nat.mod_eq_of_lt hn)
  refine h.congr (fun _ => rfl) fun n => iff_of_true ⟨n.isLt, ?_⟩ trivial
  rw [BitVec.ofNat_toNat, BitVec.setWidth_eq]

theorem reads_decodeBig : Rlp.Reads decodeBig encodeBig fun n => 0 ≤ n := by
  have h := Rlp.reads_decodeNat.as (f := Int.ofNat) (g := Int.toNat) (fun _ _ => rfl)
  refine h.congr (fun _ => rfl) fun n => ?_
  simp only [true_and, Int.ofNat_eq_natCast]
  omega

theorem reads_legacyFields :
    Rlp.Reads readLegacyFields (fun raw => raw.items.flatten) LegacyRLP.Nonneg := by
  have hfields := reads_decodeU64.pair (reads_decodeBig.pair (reads_decodeU64.pair
    (Rlp.reads_decodeString.pair (reads_decodeBig.pair (Rlp.reads_decodeString.pair
      (reads_decodeBig.pair (reads_decodeBig.pair reads_decodeBig)))))))
  refine (hfields.as (g := fun raw : LegacyRLP => (raw.nonce, raw.gasPrice, raw.gas, raw.target,
    raw.value, raw.data, raw.v, raw.r, raw.s)) (fun _ _ => rfl)).congr ?_ ?_
  · intro raw
    simp [LegacyRLP.items]
  · intro raw
    simp [LegacyRLP.Nonneg]

theorem reads_accessTuple : Rlp.Reads readAccessTuple AccessTupleRLP.encode fun _ => True := by
  have hfields := Rlp.reads_decodeString.pair Rlp.reads_decodeStrings
  refine ((hfields.as (g := fun t : AccessTupleRLP => (t.address, t.storageKeys))
    (fun _ _ => rfl)).record).congr ?_ ?_
  · intro t
    simp [AccessTupleRLP.encode, Rlp.encodeList]
  · simp

theorem reads_dynamicFeeFields :
    Rlp.Reads readDynamicFeeFields (fun raw => raw.items.flatten) DynamicFeeRLP.Nonneg := by
  have haccess := reads_accessTuple.listOf fun t => by
    simp [AccessTupleRLP.encode, Rlp.encodeList, Rlp.withHeader]
  have hfields := reads_decodeBig.pair (reads_decodeU64.pair (reads_decodeBig.pair
    (reads_decodeBig.pair (reads_decodeU64.pair (Rlp.reads_decodeString.pair
      (reads_decodeBig.pair (Rlp.reads_decodeString.pair (haccess.pair (reads_decodeBig.pair
        (reads_decodeBig.pair reads_decodeBig))))))))))
  refine (hfields.as (g := fun raw : DynamicFeeRLP => (raw.chainID, raw.nonce, raw.gasTipCap,
    raw.gasFeeCap, raw.gas, raw.target, raw.value, raw.data, raw.accessList, raw.yParity, raw.r,
    raw.s)) (fun _ _ => rfl)).congr ?_ ?_
  · intro raw
    simp [DynamicFeeRLP.items]
  · intro raw
    simp [DynamicFeeRLP.Nonneg]

/-- The fields of a string: it is their encoding, with a list short enough for a header. -/
theorem readPayload_eq_ok_iff {b : Bytes} {p : Payload} :
    readPayload b = .ok p ↔ (p.Nonneg ∧ p.items.flatten.length < 256 ^ 8) ∧ b = p.bytes := by
  constructor
  · intro h
    unfold readPayload at h
    split at h
    · cases h
    split at h
    · rename_i t b ht
      split at h
      · rename_i raw hraw
        obtain rfl := Except.ok.inj h
        obtain ⟨hgood, rfl⟩ := reads_dynamicFeeFields.decodeBytes_record.mp hraw
        rw [ht]
        exact ⟨hgood, rfl⟩
      · cases h
    · split at h
      · rename_i raw hraw
        obtain rfl := Except.ok.inj h
        exact reads_legacyFields.decodeBytes_record.mp hraw
      · cases h
  · rintro ⟨hgood, rfl⟩
    cases p with
    | legacy raw =>
        have hread := reads_legacyFields.decodeBytes_record.mpr ⟨hgood, rfl⟩
        -- the header byte of a list is not the tag
        have htag : UInt8.ofNat (0xc0 + Rlp.lengthCode raw.items.flatten.length) ≠
            dynamicFeeTxType := by
          intro heq
          have hcode := Rlp.lengthCode_lt hgood.2
          have hnat := Rlp.toNat_headerByte (o := 0xc0) (c := Rlp.lengthCode raw.items.flatten.length)
            (by simp only [Payload.items] at hcode; omega)
          rw [heq, show dynamicFeeTxType.toNat = 2 from rfl] at hnat
          omega
        rw [Rlp.withHeader] at hread
        rw [Payload.bytes, Rlp.encodeList, Rlp.withHeader]
        simp only [readPayload, htag, if_false, hread]
    | dynamicFee raw =>
        have hread := reads_dynamicFeeFields.decodeBytes_record.mpr ⟨hgood, rfl⟩
        simp only [Payload.bytes, Rlp.encodeList, readPayload, if_true, hread]

theorem unmarshalBinary_eq_ok_iff {b : Bytes} {tx : Transaction} :
    unmarshalBinary b = .ok tx ↔ ∃ p, readPayload b = .ok p ∧ p.transaction = tx := by
  unfold unmarshalBinary
  cases readPayload b <;> simp [Except.map]

/-! ## Lengths -/

/-- An access-list entry whose address has 20 bytes and whose keys have 32. -/
def AccessTupleRLP.FullLength (t : AccessTupleRLP) : Prop :=
  t.address.length = 20 ∧ ∀ k ∈ t.storageKeys, k.length = 32

/-- The strings for addresses and storage keys have the length of what they stand for; the target
may be missing. -/
def Payload.FullLength : Payload → Prop
  | legacy raw => raw.target.length = 0 ∨ raw.target.length = 20
  | dynamicFee raw =>
    (raw.target.length = 0 ∨ raw.target.length = 20) ∧ ∀ t ∈ raw.accessList, t.FullLength

theorem addrBytes_bytesToAddr {b : Bytes} :
    addrBytes (bytesToAddr b) = b ↔ b.length = 0 ∨ b.length = 20 := by
  unfold bytesToAddr
  split
  · rename_i h
    exact iff_of_true (bytes_addressOfBytes h) (Or.inr h)
  · rename_i h
    simp only [addrBytes, h, or_false, List.length_eq_zero_iff]
    exact eq_comm

theorem bytes_getD_bytesToAddr {b : Bytes} :
    ((bytesToAddr b).getD 0).bytes = b ↔ b.length = 20 := by
  constructor
  · intro h
    rw [← h, Address.length_bytes]
  · intro h
    rw [bytesToAddr, if_pos h, Option.getD_some, bytes_addressOfBytes h]

theorem bytes_bytesToHash {b : Bytes} : (bytesToHash b).bytes = b ↔ b.length = 32 := by
  constructor
  · intro h
    rw [← h, Hash.length_bytes]
  · intro h
    have hlt : ofBytes b < 2 ^ 256 := by
      have := ofBytes_lt b
      rw [h] at this
      exact lt_of_lt_of_eq this (by norm_num)
    rw [bytesToHash, Hash.bytes, BitVec.toNat_ofNat, Nat.mod_eq_of_lt hlt, beBytes_ofBytes h]

theorem map_eq_self_iff {α : Type} {f : α → α} {l : List α} : l.map f = l ↔ ∀ a ∈ l, f a = a := by
  induction l with
  | nil => simp
  | cons a l ih => simp [ih]

/-- The entry that is written for what was read. -/
def AccessTupleRLP.rewritten (t : AccessTupleRLP) : AccessTupleRLP :=
  ⟨t.tuple.address.bytes, t.tuple.storageKeys.map Hash.bytes⟩

theorem AccessTupleRLP.rewritten_eq_iff {t : AccessTupleRLP} : t.rewritten = t ↔ t.FullLength := by
  obtain ⟨address, keys⟩ := t
  simp only [rewritten, tuple, FullLength, AccessTupleRLP.mk.injEq, bytes_getD_bytesToAddr,
    List.map_map, map_eq_self_iff, Function.comp_apply, bytes_bytesToHash]

/-- The fields that are written for what was read. -/
def Payload.rewritten : Payload → Payload
  | legacy raw => legacy { raw with target := addrBytes (bytesToAddr raw.target) }
  | dynamicFee raw =>
    dynamicFee { raw with
      target := addrBytes (bytesToAddr raw.target)
      accessList := raw.accessList.map AccessTupleRLP.rewritten }

theorem Payload.payload_transaction (p : Payload) : p.transaction.payload = .ok p.rewritten := by
  cases p with
  | legacy raw => rfl
  | dynamicFee raw =>
      simp [transaction, Transaction.payload, Transaction.dynamicFeeRLP, rewritten,
        dynamicFeeTxType, legacyTxType, copyBig, AccessTupleRLP.rewritten, Function.comp_def]

theorem Payload.rewritten_eq_iff {p : Payload} : p.rewritten = p ↔ p.FullLength := by
  cases p with
  | legacy raw =>
      obtain ⟨nonce, gasPrice, gas, target, value, data, v, r, s⟩ := raw
      simp only [rewritten, FullLength, Payload.legacy.injEq, LegacyRLP.mk.injEq, true_and,
        and_true, addrBytes_bytesToAddr]
  | dynamicFee raw =>
      simp only [rewritten, FullLength, Payload.dynamicFee.injEq, DynamicFeeRLP.ext_iff, true_and,
        and_true, addrBytes_bytesToAddr, map_eq_self_iff, AccessTupleRLP.rewritten_eq_iff]

theorem Payload.nonneg_rewritten {p : Payload} : p.rewritten.Nonneg ↔ p.Nonneg := by
  cases p <;> rfl

theorem Payload.marshalBinary_transaction {p : Payload} (h : p.Nonneg) :
    p.transaction.marshalBinary = .ok p.rewritten.bytes := by
  rw [Transaction.marshalBinary, p.payload_transaction]
  exact if_pos (nonneg_rewritten.mpr h)

theorem Payload.flatten_of_bytes_eq {p : Payload} (h : p.rewritten.bytes = p.bytes) :
    p.rewritten.items.flatten = p.items.flatten := by
  cases p with
  | legacy raw => exact Rlp.withHeader_injective 0xc0 h
  | dynamicFee raw => exact Rlp.withHeader_injective 0xc0 (List.cons_eq_cons.mp h).2

/-- What was read is written back as it came just if its strings have their full lengths. -/
theorem Payload.bytes_rewritten_iff {b : Bytes} {p : Payload} (h : readPayload b = .ok p) :
    p.rewritten.bytes = b ↔ p.FullLength := by
  obtain ⟨⟨hnonneg, hlen⟩, rfl⟩ := readPayload_eq_ok_iff.mp h
  rw [← rewritten_eq_iff]
  constructor
  · intro hbytes
    have hread : readPayload p.rewritten.bytes = .ok p.rewritten := by
      refine readPayload_eq_ok_iff.mpr ⟨⟨nonneg_rewritten.mpr hnonneg, ?_⟩, rfl⟩
      rw [flatten_of_bytes_eq hbytes]
      exact hlen
    rw [hbytes, h] at hread
    exact (Except.ok.inj hread).symm
  · intro hself
    rw [hself]

/-- A string is written back as it came. -/
def WritesBack (b : Bytes) : Prop :=
  ∀ tx, unmarshalBinary b = .ok tx → tx.marshalBinary = .ok b ∧ tx.hash = .ok (keccak256Hash b)

/-- The strings in an accepted encoding have their full lengths. -/
def FullLength (b : Bytes) : Prop :=
  ∀ p, readPayload b = .ok p → p.FullLength

theorem writesBack_iff (b : Bytes) : WritesBack b ↔ FullLength b := by
  have hwrite : ∀ p, readPayload b = .ok p →
      p.transaction.marshalBinary = .ok p.rewritten.bytes := by
    intro p hp
    exact Payload.marshalBinary_transaction (readPayload_eq_ok_iff.mp hp).1.1
  constructor
  · intro h p hp
    obtain ⟨hmarshal, -⟩ := h p.transaction (unmarshalBinary_eq_ok_iff.mpr ⟨p, hp, rfl⟩)
    rw [hwrite p hp] at hmarshal
    exact (Payload.bytes_rewritten_iff hp).mp (Except.ok.inj hmarshal)
  · intro h tx htx
    obtain ⟨p, hp, rfl⟩ := unmarshalBinary_eq_ok_iff.mp htx
    have hmarshal : p.transaction.marshalBinary = .ok b := by
      rw [hwrite p hp, (Payload.bytes_rewritten_iff hp).mpr (h p hp)]
    refine ⟨hmarshal, ?_⟩
    rw [Transaction.hash, hmarshal]
    rfl

/-- The fields of a transaction have their full lengths. -/
theorem Transaction.fullLength_payload {tx : Transaction} {p : Payload} (h : tx.payload = .ok p) :
    p.FullLength := by
  have htarget : (addrBytes tx.target).length = 0 ∨ (addrBytes tx.target).length = 20 := by
    cases tx.target with
    | none => exact Or.inl rfl
    | some a => exact Or.inr (Address.length_bytes a)
  unfold payload at h
  split at h
  · obtain rfl := Except.ok.inj h
    exact htarget
  · split at h
    · obtain rfl := Except.ok.inj h
      refine ⟨htarget, ?_⟩
      intro t ht
      obtain ⟨entry, -, rfl⟩ := List.mem_map.mp ht
      refine ⟨Address.length_bytes _, ?_⟩
      intro k hk
      obtain ⟨key, -, rfl⟩ := List.mem_map.mp hk
      exact Hash.length_bytes key
    · cases h

theorem Transaction.marshalBinary_eq_ok_iff {tx : Transaction} {b : Bytes} :
    tx.marshalBinary = .ok b ↔ ∃ p, tx.payload = .ok p ∧ p.Nonneg ∧ p.bytes = b := by
  unfold marshalBinary
  cases tx.payload with
  | error e => simp [bind, Except.bind]
  | ok p =>
      by_cases hp : p.Nonneg
      · simp [bind, Except.bind, hp]
      · simp [bind, Except.bind, hp]

/-- An encoding shorter than `2 ^ 64` bytes, as every slice is, reads back with the same encoded
fields. -/
theorem Transaction.unmarshalBinary_marshalBinary {tx : Transaction} {b : Bytes}
    (h : tx.marshalBinary = .ok b) (hlen : b.length < 2 ^ 64) :
    ∃ p, tx.payload = .ok p ∧ unmarshalBinary b = .ok p.transaction ∧
      p.transaction.payload = tx.payload := by
  obtain ⟨p, hp, hnonneg, rfl⟩ := marshalBinary_eq_ok_iff.mp h
  have hshort : p.items.flatten.length < 256 ^ 8 := by
    refine lt_of_le_of_lt ?_ hlen
    cases p with
    | legacy raw => exact Rlp.length_le_withHeader 0xc0 _
    | dynamicFee raw =>
        refine (Rlp.length_le_withHeader 0xc0 raw.items.flatten).trans ?_
        rw [Payload.bytes, List.length_cons]
        exact Nat.le_succ _
  have hread := readPayload_eq_ok_iff.mpr ⟨⟨hnonneg, hshort⟩, rfl⟩
  refine ⟨p, hp, unmarshalBinary_eq_ok_iff.mpr ⟨p, hread, rfl⟩, ?_⟩
  rw [p.payload_transaction, hp, Payload.rewritten_eq_iff.mpr (fullLength_payload hp)]

/-- An accepted string is written back as it came, with its digest as the hash, just if the strings
for addresses and storage keys in it have their full lengths; such strings are told apart by what
they are read as. And every encoding reads back with the same encoded fields. -/
theorem wire_canonical_iff (b : Bytes) (tx : Transaction) :
    (WritesBack b ↔ FullLength b) ∧
    (∀ b', FullLength b → FullLength b' → unmarshalBinary b = .ok tx →
      unmarshalBinary b' = .ok tx → b = b') ∧
    (tx.marshalBinary = .ok b → b.length < 2 ^ 64 →
      ∃ tx', unmarshalBinary b = .ok tx' ∧ tx'.payload = tx.payload) := by
  refine ⟨writesBack_iff b, ?_, ?_⟩
  · intro b' hb hb' h h'
    obtain ⟨hmarshal, -⟩ := (writesBack_iff b).mpr hb tx h
    obtain ⟨hmarshal', -⟩ := (writesBack_iff b').mpr hb' tx h'
    exact Except.ok.inj (hmarshal.symm.trans hmarshal')
  · intro h hlen
    obtain ⟨p, -, hread, hsame⟩ := Transaction.unmarshalBinary_marshalBinary h hlen
    exact ⟨p.transaction, hread, hsame⟩

/-- A dynamic-fee payload with the given bytes for its target. -/
def targeted (target : Bytes) : Payload :=
  .dynamicFee ⟨1, 0, 0, 0, 21000, target, 7, [], [], 0, 1, 1⟩

/-- A transfer without a target, written and read back. -/
theorem targeted_canonical :
    ∃ tx, unmarshalBinary (targeted []).bytes = .ok tx ∧
      tx.payload = (targeted []).transaction.payload := by
  refine (wire_canonical_iff (targeted []).bytes (targeted []).transaction).2.2 ?_ (by decide)
  exact Payload.marshalBinary_transaction (by decide)

/-- A target of one byte is read as none, and the transaction is written without it: two strings are
read as one transaction. -/
theorem short_target_dropped :
    ∃ tx, unmarshalBinary (targeted [5]).bytes = .ok tx ∧
      unmarshalBinary (targeted []).bytes = .ok tx ∧
      tx.marshalBinary = .ok (targeted []).bytes ∧
      (targeted [5]).bytes ≠ (targeted []).bytes ∧ ¬ WritesBack (targeted [5]).bytes := by
  have hread : readPayload (targeted [5]).bytes = .ok (targeted [5]) :=
    readPayload_eq_ok_iff.mpr ⟨⟨by decide, by decide⟩, rfl⟩
  have hread' : readPayload (targeted []).bytes = .ok (targeted []) :=
    readPayload_eq_ok_iff.mpr ⟨⟨by decide, by decide⟩, rfl⟩
  refine ⟨(targeted []).transaction, unmarshalBinary_eq_ok_iff.mpr ⟨_, hread, rfl⟩,
    unmarshalBinary_eq_ok_iff.mpr ⟨_, hread', rfl⟩, Payload.marshalBinary_transaction (by decide),
    by decide, ?_⟩
  intro h
  have hfull := (writesBack_iff _).mp h _ hread
  exact absurd hfull (by simp [targeted, Payload.FullLength])

end Dew.Types
