/-
# Accounts and the flat database

The fixed-width types of the chain, the account object with its RLP form (`encodeAccount`,
`decodeAccount`), and the flat key layout of the durable store: `a` + address for accounts,
`s` + address + slot for storage, `c` + code hash for bytecode. The keys of different records
are different (`accountKey_injective` and its companions), so a write to one record never shows
in another.
-/
import Dew.GoMap
import Dew.KeccakEval
import Dew.Rlp

open Bytes

namespace Dew

/-! ## Fixed-width types -/

abbrev Address := BitVec 160

/-- A 32-byte digest or storage word. -/
abbrev Hash := BitVec 256

/-- A 256-bit unsigned integer whose arithmetic wraps around. -/
abbrev U256 := BitVec 256

abbrev U64 := BitVec 64

instance : LawfulBEq Address := inferInstance

/-- The bytes of an ASCII string. -/
def ascii (s : String) : Bytes :=
  s.toList.map fun c => UInt8.ofNat c.toNat

def Address.bytes (a : Address) : Bytes :=
  beBytes 20 a.toNat

def Hash.bytes (h : Hash) : Bytes :=
  beBytes 32 h.toNat

/-- `BytesToHash`: shorter strings are right-aligned, longer ones lose their leading bytes. -/
def bytesToHash (b : Bytes) : Hash :=
  BitVec.ofNat 256 (ofBytes b)

def keccak256Hash (b : Bytes) : Hash :=
  Keccak.keccak256 b

/-- `EmptyCodeHash`, the code hash of accounts without code. -/
def emptyCodeHash : Hash :=
  0xc5d2460186f7233c927e7db2dcc703c0e500b653ca82273b7bfad8045d85a470#256

theorem emptyCodeHash_eq : emptyCodeHash = keccak256Hash [] :=
  Keccak.keccak256_nil.symm

theorem Address.toNat_lt_pow (a : Address) : a.toNat < 256 ^ 20 :=
  a.isLt

theorem Hash.toNat_lt_pow (h : Hash) : h.toNat < 256 ^ 32 :=
  h.isLt

@[simp] theorem Hash.length_bytes (h : Hash) : h.bytes.length = 32 :=
  length_beBytes 32 _

@[simp] theorem Address.length_bytes (a : Address) : a.bytes.length = 20 :=
  length_beBytes 20 _

theorem Address.bytes_injective : Function.Injective Address.bytes := by
  intro a b h
  exact BitVec.eq_of_toNat_eq (beBytes_injective a.toNat_lt_pow b.toNat_lt_pow h)

theorem Hash.bytes_injective : Function.Injective Hash.bytes := by
  intro g h heq
  exact BitVec.eq_of_toNat_eq
    (beBytes_injective (Hash.toNat_lt_pow g) (Hash.toNat_lt_pow h) heq)

@[simp] theorem bytesToHash_bytes (h : Hash) : bytesToHash h.bytes = h := by
  rw [bytesToHash, Hash.bytes, ofBytes_beBytes_of_lt (Hash.toNat_lt_pow h)]
  simp

/-! ## Accounts -/

structure Account where
  nonce : U64
  balance : U256
  codeHash : Hash
deriving DecidableEq, Repr

/-- `NewAccount`: no balance, no nonce, no code. -/
def newAccount : Account where
  nonce := 0
  balance := 0
  codeHash := emptyCodeHash

/-- Emptiness in the sense of EIP-161. -/
def Account.isEmpty (acc : Account) : Bool :=
  acc.nonce == 0 && acc.balance == 0 && acc.codeHash == emptyCodeHash

def encodeAccount (acc : Account) : Bytes :=
  Rlp.encodeList
    [Rlp.encodeUint acc.nonce.toNat, Rlp.encodeUint acc.balance.toNat,
      Rlp.encodeString acc.codeHash.bytes]

/-- The strict reader of an account row. A balance above 256 bits is truncated, a code hash of
another length is aligned by `bytesToHash`. -/
def decodeAccount (blob : Bytes) : Option Account := do
  let payload ← Rlp.decodeList blob
  let (nonce, payload) ← Rlp.decodeUint 8 payload
  let (balance, payload) ← Rlp.decodeNat payload
  let (codeHash, payload) ← Rlp.decodeString payload
  if payload = [] then
    some ⟨BitVec.ofNat 64 nonce, BitVec.ofNat 256 balance, bytesToHash codeHash⟩
  else none

theorem length_encodeUint_le {n w : ℕ} (hw : w < 56) (h : n < 256 ^ w) :
    (Rlp.encodeUint n).length ≤ w + 1 := by
  have hle := length_minBytes_le h
  have := Rlp.length_encodeString_le (s := minBytes n) (by omega)
  unfold Rlp.encodeUint
  omega

/-- Account rows read back as the account they were written from. -/
@[simp] theorem decodeAccount_encodeAccount (acc : Account) :
    decodeAccount (encodeAccount acc) = some acc := by
  have hnonce : acc.nonce.toNat < 256 ^ 8 := acc.nonce.isLt
  have hbalance : acc.balance.toNat < 256 ^ 32 := acc.balance.isLt
  have hflat : [Rlp.encodeUint acc.nonce.toNat, Rlp.encodeUint acc.balance.toNat,
      Rlp.encodeString acc.codeHash.bytes].flatten.length < 256 ^ 8 := by
    have h1 := length_encodeUint_le (by omega) hnonce
    have h2 := length_encodeUint_le (by omega) hbalance
    have h3 := Rlp.length_encodeString_le (s := acc.codeHash.bytes) (by simp)
    simp only [Hash.length_bytes] at h3
    simp only [List.flatten_cons, List.flatten_nil, List.append_nil, List.length_append]
    omega
  have hwide : acc.balance.toNat < 256 ^ (256 ^ 8 - 1) :=
    lt_of_lt_of_le hbalance (Nat.pow_le_pow_right (by omega) (by decide))
  have hread1 := Rlp.decodeUint_encodeUint (w := 8) (by decide) hnonce
    (Rlp.encodeUint acc.balance.toNat ++ Rlp.encodeString acc.codeHash.bytes)
  have hread2 := Rlp.decodeNat_encodeUint hwide (Rlp.encodeString acc.codeHash.bytes)
  have hread3 := Rlp.decodeString_encodeString (s := acc.codeHash.bytes) (by simp) []
  rw [List.append_nil] at hread3
  simp only [decodeAccount, encodeAccount, Rlp.decodeList_encodeList hflat,
    List.flatten_cons, List.flatten_nil, List.append_nil, Option.bind_eq_bind,
    Option.bind_some, hread1, hread2, hread3, if_true, bytesToHash_bytes,
    BitVec.ofNat_toNat, BitVec.setWidth_eq]

/-! ## Keys -/

/-- `storageID`: a slot of an account. -/
structure StorageID where
  addr : Address
  slot : Hash
deriving DecidableEq, Repr

def accountKey (addr : Address) : Bytes :=
  0x61 :: addr.bytes

def storageKey (id : StorageID) : Bytes :=
  0x73 :: (id.addr.bytes ++ id.slot.bytes)

def codeKey (codeHash : Hash) : Bytes :=
  0x63 :: codeHash.bytes

theorem accountKey_injective : Function.Injective accountKey := by
  intro a b h
  exact Address.bytes_injective (List.cons.inj h).2

theorem storageKey_injective : Function.Injective storageKey := by
  rintro ⟨a, k⟩ ⟨b, l⟩ h
  obtain ⟨haddr, hslot⟩ := List.append_inj (List.cons.inj h).2 (by simp)
  obtain rfl : a = b := Address.bytes_injective haddr
  obtain rfl : k = l := Hash.bytes_injective hslot
  rfl

theorem codeKey_injective : Function.Injective codeKey := by
  intro g h heq
  exact Hash.bytes_injective (List.cons.inj heq).2

theorem accountKey_ne_storageKey (a : Address) (id : StorageID) :
    accountKey a ≠ storageKey id := by
  intro h
  exact absurd (List.cons.inj h).1 (by decide)

theorem accountKey_ne_codeKey (a : Address) (h : Hash) : accountKey a ≠ codeKey h := by
  intro heq
  exact absurd (List.cons.inj heq).1 (by decide)

theorem storageKey_ne_codeKey (id : StorageID) (h : Hash) : storageKey id ≠ codeKey h := by
  intro heq
  exact absurd (List.cons.inj heq).1 (by decide)

/-! ## The store -/

/-- The durable key-value store. -/
abbrev Database := GoMap Bytes Bytes

/-- The account a row decodes to; a missing or malformed row gives none. -/
def Database.account? (db : Database) (addr : Address) : Option Account :=
  (db.get? (accountKey addr)).bind decodeAccount

/-- The stored value of a slot, if it has a row. -/
def Database.slot? (db : Database) (id : StorageID) : Option Hash :=
  (db.get? (storageKey id)).map bytesToHash

/-- The stored value of a slot, zero without a row. -/
def Database.slot (db : Database) (id : StorageID) : Hash :=
  (db.slot? id).getD 0

def Database.code? (db : Database) (codeHash : Hash) : Option Bytes :=
  db.get? (codeKey codeHash)

end Dew
