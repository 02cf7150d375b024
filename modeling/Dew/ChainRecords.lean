/-
# Records of the chain

The rows that the node keeps next to a block: the receipt and the lookup of every transaction, and an
entry for every log in an index that is ordered by block, transaction and log. Each record has a
storage form that RLP writes; reading the row gives the record back (`chain_records_roundtrip`). The
keys of the log index have fixed width, so their order is that of the numbers in them.

A body is the list of the encoded transactions. A transaction that was itself read from bytes, as
those of a block are, comes back from its encoding.
-/
import Dew.BlockWire
import Dew.ByteOrder
import Dew.Chaindata
import Dew.DewTxWire
import Dew.Sealing

open Bytes Rlp

namespace Dew

/-! ## Keys -/

def receiptKey (txHash : Hash) : Bytes :=
  0x52 :: txHash.bytes

def txLookupKey (txHash : Hash) : Bytes :=
  0x54 :: txHash.bytes

/-- `logIndexBlockPrefix` -/
def logIndexBlockPrefix (blockNum : U64) : Bytes :=
  0x4c :: beBytes 8 blockNum.toNat

/-- `logIndexKey`; the indexes are cut to 32 bits. -/
def logIndexKey (blockNum : U64) (txIndex logIndex : ℕ) : Bytes :=
  logIndexBlockPrefix blockNum ++ (beBytes 4 txIndex ++ beBytes 4 logIndex)

/-- `parseLogIndexKey` -/
def parseLogIndexKey (key : Bytes) : Option (U64 × ℕ × ℕ) :=
  if key.length ≠ 17 ∨ key.head? ≠ some 0x4c then none
  else
    some (BitVec.ofNat 64 (ofBytes ((key.drop 1).take 8)), ofBytes ((key.drop 9).take 4),
      ofBytes ((key.drop 13).take 4))

/-- `meta/logIndexVersion` -/
def metaLogIndexVersionKey : Bytes :=
  ascii "meta/logIndexVersion"

@[simp] theorem length_logIndexBlockPrefix (blockNum : U64) :
    (logIndexBlockPrefix blockNum).length = 9 := by
  simp [logIndexBlockPrefix]

theorem parseLogIndexKey_logIndexKey {blockNum : U64} {txIndex logIndex : ℕ}
    (ht : txIndex < 2 ^ 32) (hl : logIndex < 2 ^ 32) :
    parseLogIndexKey (logIndexKey blockNum txIndex logIndex) =
      some (blockNum, txIndex, logIndex) := by
  have hn : ofBytes (beBytes 8 blockNum.toNat) = blockNum.toNat :=
    ofBytes_beBytes_of_lt blockNum.isLt
  have ht' : ofBytes (beBytes 4 txIndex) = txIndex := ofBytes_beBytes_of_lt ht
  have hl' : ofBytes (beBytes 4 logIndex) = logIndex := ofBytes_beBytes_of_lt hl
  have hdrop : (beBytes 8 blockNum.toNat).drop 12 = [] := List.drop_of_length_le (by simp)
  have htake : (beBytes 4 logIndex).take 4 = beBytes 4 logIndex := List.take_of_length_le (by simp)
  simp [parseLogIndexKey, logIndexKey, logIndexBlockPrefix, List.drop_append, hdrop, htake, hn, ht',
    hl']

theorem logIndexKey_lt_iff {blockNum blockNum' : U64} {txIndex logIndex txIndex' logIndex' : ℕ}
    (ht : txIndex < 2 ^ 32) (hl : logIndex < 2 ^ 32) (ht' : txIndex' < 2 ^ 32)
    (hl' : logIndex' < 2 ^ 32) :
    logIndexKey blockNum txIndex logIndex < logIndexKey blockNum' txIndex' logIndex' ↔
      blockNum < blockNum' ∨
        blockNum = blockNum' ∧ (txIndex < txIndex' ∨ txIndex = txIndex' ∧ logIndex < logIndex') := by
  have hhead : logIndexBlockPrefix blockNum < logIndexBlockPrefix blockNum' ↔
      blockNum < blockNum' := by
    rw [logIndexBlockPrefix, logIndexBlockPrefix, List.cons_lt_cons_iff,
      beBytes_lt_beBytes_iff blockNum.isLt blockNum'.isLt, BitVec.lt_def]
    simp
  have hsame : logIndexBlockPrefix blockNum = logIndexBlockPrefix blockNum' ↔
      blockNum = blockNum' := by
    constructor
    · intro h
      exact BitVec.eq_of_toNat_eq
        (beBytes_injective blockNum.isLt blockNum'.isLt (List.cons.inj h).2)
    · rintro rfl
      rfl
  have htx : beBytes 4 txIndex = beBytes 4 txIndex' ↔ txIndex = txIndex' :=
    ⟨fun h => beBytes_injective ht ht' h, fun h => congrArg _ h⟩
  rw [logIndexKey, logIndexKey, append_lt_append_iff (by simp), append_lt_append_iff (by simp),
    beBytes_lt_beBytes_iff ht ht', beBytes_lt_beBytes_iff hl hl', hhead, hsame, htx]

/-! ## Logs -/

/-- `copy` into the bytes of an address: from the left, as far as the string goes. -/
def copyAddress (b : Bytes) : Address :=
  addressOfBytes ((b ++ List.replicate 20 0).take 20)

@[simp] theorem copyAddress_bytes (a : Address) : copyAddress a.bytes = a := by
  rw [copyAddress, List.take_left' (Address.length_bytes a), addressOfBytes_bytes]

@[simp] theorem map_bytesToHash_bytes (topics : List Hash) :
    (topics.map Hash.bytes).map bytesToHash = topics := by
  simp [List.map_map, Function.comp_def]

/-- `logStorage` -/
@[ext] structure LogStorage where
  address : Bytes
  topics : List Bytes
  data : Bytes

namespace LogStorage

def encode (s : LogStorage) : Bytes :=
  encodeList [encodeString s.address, encodeList (s.topics.map encodeString), encodeString s.data]

/-- The log that `decodeReceipt` makes of the storage form. -/
def log (s : LogStorage) : Log :=
  ⟨copyAddress s.address, s.topics.map bytesToHash, s.data⟩

end LogStorage

/-- The storage form of a log. -/
def Log.storage (lg : Log) : LogStorage :=
  ⟨lg.address.bytes, lg.topics.map Hash.bytes, lg.data⟩

@[simp] theorem Log.log_storage (lg : Log) : lg.storage.log = lg := by
  simp only [storage, LogStorage.log, copyAddress_bytes, map_bytesToHash_bytes]

def readLogStorage : Bytes → Option (LogStorage × Bytes) :=
  decodeRecord (decodeAs (fun (address, topics, data) => ⟨address, topics, data⟩)
    (decodePair decodeString (decodePair decodeStrings decodeString)))

theorem reads_logStorage : Reads readLogStorage LogStorage.encode fun _ => True := by
  have hfields := reads_decodeString.pair (reads_decodeStrings.pair reads_decodeString)
  refine ((hfields.as (g := fun s : LogStorage => (s.address, s.topics, s.data))
    (fun _ _ => rfl)).record).congr ?_ ?_
  · intro s
    simp [LogStorage.encode, encodeList]
  · simp

/-! ## Receipts -/

/-- `receiptStorage` -/
structure ReceiptStorage where
  type : ℕ
  status : ℕ
  cumulativeGasUsed : U64
  gasUsed : U64
  effectiveGasPrice : ℕ
  logs : List LogStorage
  contractAddress : Bytes
  txHash : Bytes
  blockHash : Bytes
  blockNumber : U64
  transactionIndex : ℕ

namespace ReceiptStorage

def items (s : ReceiptStorage) : List Bytes :=
  [encodeUint s.type, encodeUint s.status, encodeUint s.cumulativeGasUsed.toNat,
    encodeUint s.gasUsed.toNat, encodeUint s.effectiveGasPrice,
    encodeList (s.logs.map LogStorage.encode), encodeString s.contractAddress,
    encodeString s.txHash, encodeString s.blockHash, encodeUint s.blockNumber.toNat,
    encodeUint s.transactionIndex]

/-- The integers are in the ranges of their types: a byte and two words. -/
def InRange (s : ReceiptStorage) : Prop :=
  s.type < 256 ^ 1 ∧ s.status < 256 ^ 8 ∧ s.transactionIndex < 256 ^ 8

/-- The receipt that `decodeReceipt` makes of the storage form. -/
def receipt (s : ReceiptStorage) : Receipt where
  txType := s.type
  status := s.status
  cumulativeGasUsed := s.cumulativeGasUsed
  gasUsed := s.gasUsed
  effectiveGasPrice := s.effectiveGasPrice
  logs := s.logs.map LogStorage.log
  contractAddress :=
    if s.contractAddress.length = 20 then some (copyAddress s.contractAddress) else none
  txHash := bytesToHash s.txHash
  blockHash := bytesToHash s.blockHash
  blockNumber := s.blockNumber
  transactionIndex := s.transactionIndex

end ReceiptStorage

def readReceiptFields : Bytes → Option (ReceiptStorage × Bytes) :=
  decodeAs
    (fun (type, status, cumulativeGasUsed, gasUsed, effectiveGasPrice, logs, contractAddress, txHash,
        blockHash, blockNumber, transactionIndex) =>
      ⟨type, status, cumulativeGasUsed, gasUsed, effectiveGasPrice, logs, contractAddress, txHash,
        blockHash, blockNumber, transactionIndex⟩)
    (decodePair (decodeUint 1) (decodePair (decodeUint 8) (decodePair Types.decodeU64
      (decodePair Types.decodeU64 (decodePair decodeNat (decodePair (decodeListOf readLogStorage)
        (decodePair decodeString (decodePair decodeString (decodePair decodeString
          (decodePair Types.decodeU64 (decodeUint 8)))))))))))

theorem reads_receiptFields :
    Reads readReceiptFields (fun s => s.items.flatten) ReceiptStorage.InRange := by
  have hbyte : Reads (decodeUint 1) encodeUint fun n => n < 256 ^ 1 := reads_decodeUint (by decide)
  have hword : Reads (decodeUint 8) encodeUint fun n => n < 256 ^ 8 := reads_decodeUint (by decide)
  have hlogs := reads_logStorage.listOf fun s => by
    simp [LogStorage.encode, encodeList, withHeader]
  have hfields := hbyte.pair (hword.pair (Types.reads_decodeU64.pair (Types.reads_decodeU64.pair
    (reads_decodeNat.pair (hlogs.pair (reads_decodeString.pair (reads_decodeString.pair
      (reads_decodeString.pair (Types.reads_decodeU64.pair hword)))))))))
  refine (hfields.as (g := fun s : ReceiptStorage => (s.type, s.status, s.cumulativeGasUsed,
    s.gasUsed, s.effectiveGasPrice, s.logs, s.contractAddress, s.txHash, s.blockHash, s.blockNumber,
    s.transactionIndex)) (fun _ _ => rfl)).congr ?_ ?_
  · intro s
    simp [ReceiptStorage.items]
  · intro s
    simp [ReceiptStorage.InRange]

namespace Receipt

/-- The storage form of a receipt; no contract address is the empty string. -/
def storage (r : Receipt) : ReceiptStorage where
  type := r.txType
  status := r.status
  cumulativeGasUsed := r.cumulativeGasUsed
  gasUsed := r.gasUsed
  effectiveGasPrice := r.effectiveGasPrice
  logs := r.logs.map Log.storage
  contractAddress := (r.contractAddress.map Address.bytes).getD []
  txHash := r.txHash.bytes
  blockHash := r.blockHash.bytes
  blockNumber := r.blockNumber
  transactionIndex := r.transactionIndex

@[simp] theorem receipt_storage (r : Receipt) : r.storage.receipt = r := by
  have hlogs : (r.logs.map Log.storage).map LogStorage.log = r.logs := by
    simp [List.map_map, Function.comp_def]
  obtain ⟨_, _, _, _, _, _, contract, _, _, _, _⟩ := r
  cases contract with
  | none => simp [storage, ReceiptStorage.receipt, -List.map_map, hlogs]
  | some a => simp [storage, ReceiptStorage.receipt, -List.map_map, hlogs]

/-- The integers are in the ranges of their types. -/
def InRange (r : Receipt) : Prop :=
  r.txType < 2 ^ 8 ∧ r.status < 2 ^ 64 ∧ r.transactionIndex < 2 ^ 64

end Receipt

/-- `encodeReceipt` -/
def encodeReceipt (r : Receipt) : Bytes :=
  encodeList r.storage.items

/-- `decodeReceipt` -/
def decodeReceipt (blob : Bytes) : Option Receipt :=
  (decodeBytes (decodeRecord readReceiptFields) blob).map ReceiptStorage.receipt

theorem decodeReceipt_encodeReceipt {r : Receipt} (hr : r.InRange)
    (hlen : (encodeReceipt r).length < 2 ^ 64) : decodeReceipt (encodeReceipt r) = some r := by
  have hrange : r.storage.InRange := hr
  rw [decodeReceipt, encodeReceipt, reads_receiptFields.decodeBytes_encodeList hrange hlen,
    Option.map_some, Receipt.receipt_storage]

/-! ## The log index -/

/-- `logIndexStorage` -/
structure LogIndexStorage where
  address : Bytes
  topics : List Bytes
  data : Bytes
  txHash : Bytes
  blockHash : Bytes

def LogIndexStorage.items (s : LogIndexStorage) : List Bytes :=
  [encodeString s.address, encodeList (s.topics.map encodeString), encodeString s.data,
    encodeString s.txHash, encodeString s.blockHash]

def readLogIndexFields : Bytes → Option (LogIndexStorage × Bytes) :=
  decodeAs (fun (address, topics, data, txHash, blockHash) =>
      ⟨address, topics, data, txHash, blockHash⟩)
    (decodePair decodeString (decodePair decodeStrings (decodePair decodeString
      (decodePair decodeString decodeString))))

theorem reads_logIndexFields :
    Reads readLogIndexFields (fun s => s.items.flatten) fun _ => True := by
  have hfields := reads_decodeString.pair (reads_decodeStrings.pair (reads_decodeString.pair
    (reads_decodeString.pair reads_decodeString)))
  refine (hfields.as (g := fun s : LogIndexStorage => (s.address, s.topics, s.data, s.txHash,
    s.blockHash)) (fun _ _ => rfl)).congr ?_ ?_
  · intro s
    simp [LogIndexStorage.items]
  · simp

/-- `encodeLogIndex` -/
def encodeLogIndex (lg : Log) (txHash blockHash : Hash) : Bytes :=
  encodeList (LogIndexStorage.items ⟨lg.address.bytes, lg.topics.map Hash.bytes, lg.data,
    txHash.bytes, blockHash.bytes⟩)

/-- `decodeLogIndex` -/
def decodeLogIndex (blob : Bytes) : Option (Log × Hash × Hash) := do
  let s ← decodeBytes (decodeRecord readLogIndexFields) blob
  some (⟨copyAddress s.address, s.topics.map bytesToHash, s.data⟩, bytesToHash s.txHash,
    bytesToHash s.blockHash)

theorem decodeLogIndex_encodeLogIndex {lg : Log} {txHash blockHash : Hash}
    (hlen : (encodeLogIndex lg txHash blockHash).length < 2 ^ 64) :
    decodeLogIndex (encodeLogIndex lg txHash blockHash) = some (lg, txHash, blockHash) := by
  rw [decodeLogIndex, encodeLogIndex, reads_logIndexFields.decodeBytes_encodeList trivial hlen]
  simp only [Option.bind_eq_bind, Option.bind_some, copyAddress_bytes, map_bytesToHash_bytes,
    bytesToHash_bytes]

/-! ## Lookups -/

/-- `TxLookup`: the place of a transaction, which is one of the EVM or a `DewTx`. -/
structure Lookup where
  blockHash : Hash
  blockNumber : U64
  index : ℕ
  tx : Option EthTx
  dewTx : Option DewTx
  sender : Address
  txHash : Hash
deriving DecidableEq, Repr

inductive LookupError where
  | missingPayload
  | marshal (reason : String)
  | rlp
  | dewTx (err : DewTxError)
  | unmarshal (reason : String)
  | unknownKind (kind : ℕ)
deriving DecidableEq, Repr

def LookupError.text : LookupError → String
  | missingPayload => "node: tx lookup missing payload"
  | marshal reason => reason
  | rlp => "rlp"
  | dewTx err => err.text
  | unmarshal reason => reason
  | unknownKind kind => "node: unknown tx kind " ++ toString kind

/-- `txKindEVM` -/
def txKindEVM : ℕ := 0

/-- `txKindDew` -/
def txKindDew : ℕ := 1

/-- `txLookupStorage` -/
structure TxLookupStorage where
  blockHash : Bytes
  blockNumber : U64
  index : ℕ
  sender : Bytes
  kind : ℕ
  raw : Bytes

namespace TxLookupStorage

def items (s : TxLookupStorage) : List Bytes :=
  [encodeString s.blockHash, encodeUint s.blockNumber.toNat, encodeUint s.index,
    encodeString s.sender, encodeUint s.kind, encodeString s.raw]

def InRange (s : TxLookupStorage) : Prop :=
  s.index < 256 ^ 8 ∧ s.kind < 256 ^ 1

end TxLookupStorage

def readTxLookupFields : Bytes → Option (TxLookupStorage × Bytes) :=
  decodeAs (fun (blockHash, blockNumber, index, sender, kind, raw) =>
      ⟨blockHash, blockNumber, index, sender, kind, raw⟩)
    (decodePair decodeString (decodePair Types.decodeU64 (decodePair (decodeUint 8)
      (decodePair decodeString (decodePair (decodeUint 1) decodeString)))))

theorem reads_txLookupFields :
    Reads readTxLookupFields (fun s => s.items.flatten) TxLookupStorage.InRange := by
  have hbyte : Reads (decodeUint 1) encodeUint fun n => n < 256 ^ 1 := reads_decodeUint (by decide)
  have hword : Reads (decodeUint 8) encodeUint fun n => n < 256 ^ 8 := reads_decodeUint (by decide)
  have hfields := reads_decodeString.pair (Types.reads_decodeU64.pair (hword.pair
    (reads_decodeString.pair (hbyte.pair reads_decodeString))))
  refine (hfields.as (g := fun s : TxLookupStorage => (s.blockHash, s.blockNumber, s.index, s.sender,
    s.kind, s.raw)) (fun _ _ => rfl)).congr ?_ ?_
  · intro s
    simp [TxLookupStorage.items]
  · intro s
    simp [TxLookupStorage.InRange]

namespace Lookup

variable (lib : Library)

/-- The kind byte and the payload of a lookup; a `DewTx` is taken first. -/
def payload (look : Lookup) : Except LookupError (ℕ × Bytes) :=
  match look.dewTx, look.tx with
  | some tx, _ => .ok (txKindDew, tx.marshalBinary)
  | none, some tx => ((lib.marshal tx).mapError LookupError.marshal).map (txKindEVM, ·)
  | none, none => .error .missingPayload

/-- `encodeTxLookup` -/
def encode (look : Lookup) : Except LookupError Bytes := do
  let (kind, raw) ← look.payload lib
  return encodeList (TxLookupStorage.items ⟨look.blockHash.bytes, look.blockNumber, look.index,
    look.sender.bytes, kind, raw⟩)

end Lookup

/-- `decodeTxLookup` -/
def decodeTxLookup (lib : Library) (blob : Bytes) (txHash : Hash) : Except LookupError Lookup :=
  match decodeBytes (decodeRecord readTxLookupFields) blob with
  | none => .error .rlp
  | some s =>
    let look : Lookup := ⟨bytesToHash s.blockHash, s.blockNumber, s.index, none, none,
      copyAddress s.sender, txHash⟩
    if s.kind = txKindDew then
      match DewTx.unmarshalBinary s.raw with
      | .error err => .error (.dewTx err)
      | .ok tx => .ok { look with dewTx := some tx }
    else if s.kind = txKindEVM then
      match lib.unmarshal s.raw with
      | .error reason => .error (.unmarshal reason)
      | .ok tx => .ok { look with tx := some tx }
    else .error (.unknownKind s.kind)

namespace Lookup

/-- A lookup as the node writes it: of one transaction, which was read from bytes. -/
def Written (lib : Library) (look : Lookup) : Prop :=
  look.index < 2 ^ 64 ∧
    ((∃ raw tx, DewTx.unmarshalBinary raw = .ok tx ∧ look.dewTx = some tx ∧ look.tx = none) ∨
      ∃ raw tx, lib.unmarshal raw = .ok tx ∧ look.tx = some tx ∧ look.dewTx = none)

theorem decodeTxLookup_encode {lib : Library} {look : Lookup} (h : look.Written lib) :
    ∃ b, look.encode lib = .ok b ∧
      (b.length < 2 ^ 64 → decodeTxLookup lib b look.txHash = .ok look) := by
  obtain ⟨blockHash, blockNumber, index, tx, dewTx, sender, txHash⟩ := look
  obtain ⟨hindex, ⟨raw, dew, hread, hdew, htx⟩ | ⟨raw, evm, hread, htx, hdew⟩⟩ := h
  · obtain ⟨-, -, -, hmarshal⟩ := DewTx.unmarshalBinary_sound hread
    dsimp only at hdew htx
    subst hdew htx
    refine ⟨_, rfl, fun hlen => ?_⟩
    have hkind : txKindDew < 256 ^ 1 := by decide
    rw [decodeTxLookup, reads_txLookupFields.decodeBytes_encodeList ⟨hindex, hkind⟩ hlen]
    simp [txKindDew, hmarshal, hread]
  · have hmarshal := lib.marshal_unmarshal raw evm hread
    dsimp only at hdew htx
    subst hdew htx
    refine ⟨_, by simp only [encode, payload, hmarshal]; rfl, fun hlen => ?_⟩
    have hkind : txKindEVM < 256 ^ 1 := by decide
    rw [decodeTxLookup, reads_txLookupFields.decodeBytes_encodeList ⟨hindex, hkind⟩ hlen]
    simp [txKindEVM, txKindDew, hread]

end Lookup

/-! ## Bodies -/

namespace Types

/-- `encodeBody` of transactions with their fields. -/
def encodeBody (txs : List Transaction) : Except TxError Bytes := do
  let raws ← txs.mapM Transaction.marshalBinary
  return encodeList (raws.map encodeString)

/-- `decodeBody` into transactions with their fields. -/
def decodeBody (blob : Bytes) : Except TxError (List Transaction) :=
  match decodeStringList blob with
  | none => .error .rlp
  | some raws => raws.mapM unmarshalBinary

theorem bytesToAddr_addrBytes (a : Option Address) : bytesToAddr (addrBytes a) = a := by
  cases a <;> simp [addrBytes, bytesToAddr]

theorem AccessTupleRLP.tuple_rewritten (t : AccessTupleRLP) : t.rewritten.tuple = t.tuple := by
  simp [rewritten, tuple, bytesToAddr]

theorem Payload.transaction_rewritten (p : Payload) : p.rewritten.transaction = p.transaction := by
  cases p with
  | legacy raw => simp [rewritten, transaction, bytesToAddr_addrBytes]
  | dynamicFee raw =>
      simp [rewritten, transaction, bytesToAddr_addrBytes, AccessTupleRLP.tuple_rewritten]

/-- A transaction that was read from bytes is read again from its encoding. -/
theorem unmarshalBinary_of_read {b : Bytes} {tx : Transaction} (h : unmarshalBinary b = .ok tx) :
    ∃ raw, tx.marshalBinary = .ok raw ∧ (raw.length < 2 ^ 64 → unmarshalBinary raw = .ok tx) := by
  obtain ⟨p, hp, rfl⟩ := unmarshalBinary_eq_ok_iff.mp h
  have hwrite := Payload.marshalBinary_transaction (readPayload_eq_ok_iff.mp hp).1.1
  refine ⟨_, hwrite, fun hlen => ?_⟩
  obtain ⟨q, hq, hread, -⟩ := Transaction.unmarshalBinary_marshalBinary hwrite hlen
  rw [p.payload_transaction] at hq
  rw [hread, ← Except.ok.inj hq, Payload.transaction_rewritten]

theorem decodeBody_encodeBody {txs : List Transaction}
    (h : ∀ tx ∈ txs, ∃ b, unmarshalBinary b = .ok tx) :
    ∃ b, encodeBody txs = .ok b ∧ (b.length < 2 ^ 64 → decodeBody b = .ok txs) := by
  have hraws : ∃ raws, txs.mapM Transaction.marshalBinary = .ok raws ∧
      ((∀ raw ∈ raws, raw.length < 2 ^ 64) → raws.mapM unmarshalBinary = .ok txs) := by
    induction txs with
    | nil => exact ⟨[], rfl, fun _ => rfl⟩
    | cons tx txs ih =>
        obtain ⟨hhead, htail⟩ := List.forall_mem_cons.mp h
        obtain ⟨b, hb⟩ := hhead
        obtain ⟨raw, hraw, hread⟩ := unmarshalBinary_of_read hb
        obtain ⟨raws, hraws, hreads⟩ := ih htail
        refine ⟨raw :: raws, ?_, fun hlen => ?_⟩
        · exact Loops.mapM_eq_ok_iff.mpr (.cons hraw (Loops.mapM_eq_ok_iff.mp hraws))
        · obtain ⟨hhead, htail⟩ := List.forall_mem_cons.mp hlen
          exact Loops.mapM_eq_ok_iff.mpr
            (.cons (hread hhead) (Loops.mapM_eq_ok_iff.mp (hreads htail)))
  obtain ⟨raws, hraws, hreads⟩ := hraws
  refine ⟨encodeList (raws.map encodeString), by rw [encodeBody, hraws]; rfl, fun hlen => ?_⟩
  have hflat : (raws.map encodeString).flatten.length < 256 ^ 8 :=
    lt_of_le_of_lt (length_le_withHeader 0xc0 _) hlen
  rw [decodeBody, decodeStringList_encodeList hflat]
  exact hreads (length_lt_of_flatten_lt hflat)

end Types

/-! ## All records -/

/-- The records of the chain read back from their rows, for rows shorter than `2 ^ 64` bytes as all
slices are, and log-index keys are ordered by block, transaction and log. Transactions are those that
were read from bytes, headers those with a base fee, as headers that are built or read have one. -/
theorem chain_records_roundtrip (lib : Library) :
    (∀ r : Receipt, r.InRange → (encodeReceipt r).length < 2 ^ 64 →
      decodeReceipt (encodeReceipt r) = some r) ∧
    (∀ look : Lookup, look.Written lib → ∃ b, look.encode lib = .ok b ∧
      (b.length < 2 ^ 64 → decodeTxLookup lib b look.txHash = .ok look)) ∧
    (∀ height hash, decodeTip (encodeTip height hash) = some (height, hash)) ∧
    (∀ h : Header, h.baseFee.isSome → h.encodeRLP.length < 2 ^ 64 →
      decodeHeader h.encodeRLP = some h) ∧
    (∀ txs : List Types.Transaction, (∀ tx ∈ txs, ∃ b, Types.unmarshalBinary b = .ok tx) →
      ∃ b, Types.encodeBody txs = .ok b ∧ (b.length < 2 ^ 64 → Types.decodeBody b = .ok txs)) ∧
    (∀ lg txHash blockHash, (encodeLogIndex lg txHash blockHash).length < 2 ^ 64 →
      decodeLogIndex (encodeLogIndex lg txHash blockHash) = some (lg, txHash, blockHash)) ∧
    (∀ (blockNum : U64) (txIndex logIndex : ℕ), txIndex < 2 ^ 32 → logIndex < 2 ^ 32 →
      parseLogIndexKey (logIndexKey blockNum txIndex logIndex) =
        some (blockNum, txIndex, logIndex)) ∧
    ∀ (blockNum blockNum' : U64) (txIndex logIndex txIndex' logIndex' : ℕ), txIndex < 2 ^ 32 →
      logIndex < 2 ^ 32 → txIndex' < 2 ^ 32 → logIndex' < 2 ^ 32 →
      (logIndexKey blockNum txIndex logIndex < logIndexKey blockNum' txIndex' logIndex' ↔
        blockNum < blockNum' ∨ blockNum = blockNum' ∧
          (txIndex < txIndex' ∨ txIndex = txIndex' ∧ logIndex < logIndex')) := by
  refine ⟨fun r => decodeReceipt_encodeReceipt, fun look => Lookup.decodeTxLookup_encode,
    decodeTip_encodeTip, ?_, fun txs => Types.decodeBody_encodeBody,
    fun lg txHash blockHash => decodeLogIndex_encodeLogIndex,
    fun blockNum txIndex logIndex => parseLogIndexKey_logIndexKey, ?_⟩
  · intro h hfee hlen
    have hshort : h.items.flatten.length < 256 ^ 8 :=
      lt_of_le_of_lt (length_le_withHeader 0xc0 _) hlen
    obtain ⟨fee, hfee⟩ := Option.isSome_iff_exists.mp hfee
    rw [decodeHeader_encodeRLP hshort, Header.stored, hfee, Option.getD_some, ← hfee]
  · intro blockNum blockNum' txIndex logIndex txIndex' logIndex' ht hl ht' hl'
    exact logIndexKey_lt_iff ht hl ht' hl'

end Dew
