/-
# Blocks

Headers, their canonical encoding and hash, transactions by their binary encoding, the root over a
list of transactions, and blocks.
-/
import Dew.Rlp
import Dew.DewTx

open Bytes Rlp

namespace Dew

/-- `Hash.Hex` -/
def Hash.hex (h : Hash) : String :=
  "0x" ++ String.ofList ((hexDigits h.bytes).map hexDigit)

/-- `Header` -/
structure Header where
  parentHash : Hash
  stateRoot : Hash
  txRoot : Hash
  receiptRoot : Hash
  number : U64
  timestamp : U64
  gasLimit : U64
  gasUsed : U64
  baseFee : Option ℕ
  extraData : Bytes
  proposer : Address
deriving DecidableEq, Repr

namespace Header

/-- The items of the canonical list of a header; a missing base fee is encoded as zero. -/
def items (h : Header) : List Bytes :=
  [encodeString h.parentHash.bytes, encodeString h.stateRoot.bytes, encodeString h.txRoot.bytes,
    encodeString h.receiptRoot.bytes, encodeUint h.number.toNat, encodeUint h.timestamp.toNat,
    encodeUint h.gasLimit.toNat, encodeUint h.gasUsed.toNat, encodeUint (h.baseFee.getD 0),
    encodeString h.extraData, encodeString h.proposer.bytes]

/-- `Header.EncodeRLP` -/
def encodeRLP (h : Header) : Bytes :=
  encodeList h.items

/-- `Header.Hash`: the block hash. -/
def hash (h : Header) : Hash :=
  keccak256Hash h.encodeRLP

end Header

/-- `Transaction`, by its `MarshalBinary`: the node reads a transaction in no other way. -/
structure Transaction where
  marshalBinary : Bytes
deriving DecidableEq, Repr

/-- `Transaction.Hash` -/
def Transaction.hash (tx : Transaction) : Hash :=
  keccak256Hash tx.marshalBinary

/-- `EmptyTxRoot`, also `EmptyReceiptRoot`. -/
def emptyTxRoot : Hash :=
  keccak256Hash (encodeList [])

/-- The encoding whose digest is the root over a list of transactions. -/
def encodeTxHashes (txs : List Transaction) : Bytes :=
  encodeList (txs.map fun tx => encodeString tx.hash.bytes)

/-- `TxRoot` -/
def txRoot (txs : List Transaction) : Hash :=
  if txs = [] then emptyTxRoot else keccak256Hash (encodeTxHashes txs)

theorem txRoot_eq (txs : List Transaction) : txRoot txs = keccak256Hash (encodeTxHashes txs) := by
  cases txs with
  | nil => rfl
  | cons tx txs => rw [txRoot, if_neg (List.cons_ne_nil tx txs)]

/-- `Block` -/
structure Block where
  header : Header
  transactions : List Transaction
deriving DecidableEq, Repr

namespace Block

/-- `NewBlock`: missing roots are filled in. -/
def new (header : Header) (txs : List Transaction) : Block where
  header :=
    { header with
      txRoot := if header.txRoot = 0 then Dew.txRoot txs else header.txRoot
      receiptRoot := if header.receiptRoot = 0 then emptyTxRoot else header.receiptRoot }
  transactions := txs

/-- `Block.Hash` -/
def hash (b : Block) : Hash :=
  b.header.hash

/-- `Block.Number` -/
def number (b : Block) : U64 :=
  b.header.number

end Block

end Dew
