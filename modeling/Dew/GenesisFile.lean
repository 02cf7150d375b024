/-
# The genesis file

`Genesis.Commit`: the accounts of the file are written into a fresh state, which is committed, and
the header is built over its root. Addresses, slots and values are texts in the file, read by
`HexToAddress` and `HexToHash`, which accept several spellings of one value; numbers are read by
`big.Int.SetString` with base zero.

The allocation and the storage of its accounts are Go maps, and a loop over a Go map visits the
entries in an order of its own in every run. An `Order` is such a choice for all the loops of one run.
-/
import Dew.Block
import Dew.CommitRoot

open Bytes

namespace Dew

/-! ## Texts

A Go string that comes out of a JSON file is a list of characters. -/

namespace GoText

/-- `unicode.IsSpace` -/
def isSpace (c : Char) : Bool :=
  c.toNat ∈ [0x09, 0x0a, 0x0b, 0x0c, 0x0d, 0x20, 0x85, 0xa0, 0x1680, 0x2028, 0x2029, 0x202f,
    0x205f, 0x3000] || (0x2000 ≤ c.toNat && c.toNat ≤ 0x200a)

/-- `strings.TrimSpace` -/
def trimSpace (s : List Char) : List Char :=
  ((s.dropWhile isSpace).reverse.dropWhile isSpace).reverse

/-- `strings.TrimPrefix` -/
def trimPrefix (s start : List Char) : List Char :=
  if start.isPrefixOf s then s.drop start.length else s

/-- `len`: the length in bytes. -/
def len (s : List Char) : ℕ :=
  (s.map Char.utf8Size).sum

/-- What stands between `lo` and `hi`, counted from `lo`. -/
def charBetween (lo hi c : Char) : Option ℕ :=
  if lo ≤ c ∧ c ≤ hi then some (c.toNat - lo.toNat) else none

/-- The value of a digit; letters go on after nine, in both cases. -/
def digitVal (c : Char) : Option ℕ :=
  (charBetween '0' '9' c).or
    (((charBetween 'a' 'z' c).or (charBetween 'A' 'Z' c)).map (· + 10))

/-- `hex.InvalidByteError`, by the character that has the byte, and `hex.ErrLength`. -/
inductive HexError where
  | invalidByte (c : Char)
  | length
deriving DecidableEq, Repr

/-- The value of a hex digit. -/
def hexVal (c : Char) : Except HexError ℕ :=
  match digitVal c with
  | some d => if d < 16 then .ok d else .error (.invalidByte c)
  | none => .error (.invalidByte c)

/-- `hex.DecodeString` -/
def decodeHex : List Char → Except HexError Bytes
  | [] => .ok []
  | [c] => do
    let _ ← hexVal c
    .error .length
  | p :: q :: rest => do
    let a ← hexVal p
    let b ← hexVal q
    let bytes ← decodeHex rest
    .ok (UInt8.ofNat (16 * a + b) :: bytes)

/-- The state of the loop of `nat.scan`: the number so far, how many digits it has, the last
character (`0` for any digit, `.` for none), and whether a separator was out of place. -/
structure Scan where
  value : ℕ
  count : ℕ
  prev : Char
  invalSep : Bool
deriving DecidableEq, Repr

/-- One character of `nat.scan`; none when it does not belong to the number. -/
def Scan.next (base : ℕ) (st : Scan) (c : Char) : Option Scan :=
  if c = '_' then some { st with prev := '_', invalSep := st.invalSep || st.prev != '0' }
  else
    match digitVal c with
    | some d =>
      if d < base then
        some { st with value := st.value * base + d, count := st.count + 1, prev := '0' }
      else none
    | none => none

/-- `nat.scan` of a whole text: a character left over makes `SetString` fail. -/
def scanRest (base : ℕ) (st : Scan) (octal : Bool) (s : List Char) : Option ℕ := do
  let st ← s.foldlM (Scan.next base) st
  if st.invalSep ∨ st.prev = '_' then none
  else if st.count = 0 ∧ ¬octal then none
  else some st.value

/-- `nat.scan` with base zero: the base is that of the start `0b`, `0o`, `0x` or `0`. -/
def scanNat : List Char → Option ℕ
  | ['0'] => scanRest 10 ⟨0, 1, '0', false⟩ false []
  | '0' :: c :: rest =>
    let st : Scan := ⟨0, 0, '0', false⟩
    if c = 'b' ∨ c = 'B' then scanRest 2 st false rest
    else if c = 'o' ∨ c = 'O' then scanRest 8 st false rest
    else if c = 'x' ∨ c = 'X' then scanRest 16 st false rest
    else scanRest 8 st true (c :: rest)
  | s => scanRest 10 ⟨0, 0, '.', false⟩ false s

/-- `big.Int.SetString` with base zero. -/
def setString : List Char → Option ℤ
  | [] => none
  | '-' :: s => (scanNat s).map fun n => -(n : ℤ)
  | '+' :: s => (scanNat s).map fun n => (n : ℤ)
  | s => (scanNat s).map fun n => (n : ℤ)

/-- A text without spaces around it and without `0x`. -/
def unprefixed (s : String) : List Char :=
  trimPrefix (trimPrefix (trimSpace s.toList) ['0', 'x']) ['0', 'X']

inductive WordError where
  | badLength (len : ℕ)
  | badHex (e : HexError)
deriving DecidableEq, Repr

/-- The shape of `HexToAddress` and `HexToHash`: a fixed number of hex digits. -/
def readWord (digits : ℕ) (s : String) : Except WordError Bytes :=
  let s := unprefixed s
  if len s ≠ digits then .error (.badLength (len s))
  else (decodeHex s).mapError .badHex

end GoText

open GoText

/-- `HexToAddress` -/
def hexToAddress (s : String) : Except WordError Address :=
  (readWord 40 s).map addressOfBytes

/-- `HexToHash` -/
def hexToHash (s : String) : Except WordError Hash :=
  (readWord 64 s).map bytesToHash

/-- `parseHexBytes`: an odd number of digits gets a zero in front. -/
def parseHexBytes (s : String) : Except HexError Bytes :=
  if trimSpace s.toList = [] then .ok []
  else
    let s := unprefixed s
    decodeHex (if len s % 2 = 1 then '0' :: s else s)

/-- `parseUintHex`; the error is the trimmed text. -/
def parseUintHex (s : String) : Except (List Char) ℤ :=
  match setString (trimSpace s.toList) with
  | some v => .ok v
  | none => .error (trimSpace s.toList)

/-! ## Setters without a journal -/

namespace StateDB

/-- `SetBalance` -/
def setBalance (s : StateDB) (addr : Address) (bal : U256) : StateDB :=
  (s.noteWrite (accountKey addr)).reviseAccount addr fun acc => { acc with balance := bal }

/-- `SetNonce` -/
def setNonce (s : StateDB) (addr : Address) (nonce : U64) : StateDB :=
  (s.noteWrite (accountKey addr)).reviseAccount addr fun acc => { acc with nonce := nonce }

/-- `SetCode` -/
def setCode (s : StateDB) (addr : Address) (code : Bytes) : StateDB :=
  let (acc, s) := (s.noteWrite (accountKey addr)).getOrNewAccount addr
  s.installCode addr acc code

end StateDB

/-! ## The file -/

/-- `GenesisAccount`: one entry of the allocation. -/
structure GenesisAccount where
  balance : String
  code : String
  storage : GoMap String String
  nonce : U64

/-- The fields of `Genesis` that `Commit` reads. -/
structure GenesisFile where
  timestamp : U64
  extraData : String
  gasLimit : String
  baseFeePerGas : String
  alloc : GoMap String GenesisAccount

/-- How `Commit` fails; `overflow` is the panic of `uint256.MustFromBig`. -/
inductive CommitError where
  | address (addrStr : String) (e : WordError)
  | invalidBalance (addrStr balance : String)
  | negativeBalance (addrStr : String)
  | overflow
  | code (addrStr : String) (e : HexError)
  | storageKey (addrStr : String) (e : WordError)
  | storageVal (addrStr : String) (e : WordError)
  | gasLimit (text : List Char)
  | baseFeePerGas (text : List Char)
  | extraData (e : HexError)
deriving DecidableEq, Repr

namespace GenesisFile

/-- The orders in which a run goes through the allocation and through the storage of each of its
accounts. -/
structure Order (g : GenesisFile) where
  alloc : List (String × GenesisAccount)
  storage : String → List (String × String)
  alloc_perm : alloc.Perm g.alloc.pairs
  storage_perm : ∀ e ∈ g.alloc.pairs, (storage e.1).Perm e.2.storage.pairs

/-- The balance of an entry, which has to fit into 256 bits. -/
def readBalance (addrStr balance : String) : Except CommitError U256 :=
  match setString (trimSpace balance.toList) with
  | none => .error (.invalidBalance addrStr balance)
  | some bal =>
    if bal < 0 then .error (.negativeBalance addrStr)
    else if 2 ^ 256 ≤ bal then .error .overflow
    else .ok (BitVec.ofInt 256 bal)

/-- One storage entry of an account. -/
def applySlot (addrStr : String) (addr : Address) (s : StateDB) (e : String × String) :
    Except CommitError StateDB := do
  let slot ← (hexToHash e.1).mapError (.storageKey addrStr)
  let val ← (hexToHash e.2).mapError (.storageVal addrStr)
  .ok (s.setState ⟨addr, slot⟩ val)

/-- One entry of the allocation, with its storage in the given order. -/
def applyAccount (slots : List (String × String)) (s : StateDB) (e : String × GenesisAccount) :
    Except CommitError StateDB := do
  let addr ← (hexToAddress e.1).mapError (.address e.1)
  let bal ← readBalance e.1 e.2.balance
  let s := s.setBalance addr bal
  let s := if e.2.nonce ≠ 0 then s.setNonce addr e.2.nonce else s
  let s ←
    if e.2.code = "" then .ok s
    else do
      let code ← (parseHexBytes e.2.code).mapError (.code e.1)
      .ok (s.setCode addr code)
  slots.foldlM (applySlot e.1 addr) s

/-- `ApplyAlloc` -/
def applyAlloc (g : GenesisFile) (o : g.Order) (s : StateDB) : Except CommitError StateDB :=
  o.alloc.foldlM (fun s e => applyAccount (o.storage e.1) s e) s

/-- The header that `Genesis.Header` builds, by the fields that are not the same in every genesis
header. The base fee of the file may be negative. -/
structure GenesisHeader where
  stateRoot : Hash
  timestamp : U64
  gasLimit : U64
  baseFee : ℤ
  extraData : Bytes
deriving DecidableEq, Repr

/-- The header as a header of a block, if its base fee has an encoding. -/
def GenesisHeader.header? (h : GenesisHeader) : Option Header :=
  if h.baseFee < 0 then none
  else
    some
      { parentHash := 0
        stateRoot := h.stateRoot
        txRoot := emptyTxRoot
        receiptRoot := emptyTxRoot
        number := 0
        timestamp := h.timestamp
        gasLimit := h.gasLimit
        gasUsed := 0
        baseFee := some h.baseFee.toNat
        extraData := h.extraData
        proposer := 0 }

/-- `Block.Hash` of the genesis block, which panics without an encoding. -/
def GenesisHeader.hash (h : GenesisHeader) : Option Hash :=
  h.header?.map Header.hash

/-- A number of the file, or its default when the text is empty. -/
def numberOr (default : ℤ) (text : String) (err : List Char → CommitError) :
    Except CommitError ℤ :=
  if text = "" then .ok default else (parseUintHex text).mapError err

/-- `Genesis.Header` -/
def header (g : GenesisFile) (stateRoot : Hash) : Except CommitError GenesisHeader := do
  let gasLimit ← numberOr 120000000 g.gasLimit .gasLimit
  let baseFee ← numberOr 1000000000 g.baseFeePerGas .baseFeePerGas
  let extra ← (parseHexBytes g.extraData).mapError .extraData
  .ok ⟨stateRoot, g.timestamp, BitVec.ofNat 64 gasLimit.natAbs, baseFee, extra⟩

/-- `Genesis.Commit`; the block is its header. -/
def commit (g : GenesisFile) (o : g.Order) (database : Database) :
    Except CommitError (GenesisHeader × StateDB) := do
  let s ← g.applyAlloc o (StateDB.new database)
  let header ← g.header s.commit.1
  .ok (header, s.commit.2)

end GenesisFile

end Dew
