/-
# Chain data

The rows that keep the chain in the database, next to those of the state: header and body of every
block under its hash, the canonical hash of every height, and the tip. A node that is opened on the
database reads the tip only; older blocks are read when they are asked for, and enter the height map
that import looks at.
-/
import Dew.BodyBinding
import Dew.Persistence

open Bytes Rlp

namespace Dew

/-! ## Keys -/

def headerKey (hash : Hash) : Bytes :=
  0x48 :: hash.bytes

def bodyKey (hash : Hash) : Bytes :=
  0x42 :: hash.bytes

def canonicalKey (num : U64) : Bytes :=
  0x4e :: beBytes 8 num.toNat

/-- `meta/tip` -/
def metaTipKey : Bytes :=
  [0x6d, 0x65, 0x74, 0x61, 0x2f, 0x74, 0x69, 0x70]

theorem headerKey_injective : Function.Injective headerKey := by
  intro g h heq
  exact Hash.bytes_injective (List.cons.inj heq).2

theorem bodyKey_injective : Function.Injective bodyKey := by
  intro g h heq
  exact Hash.bytes_injective (List.cons.inj heq).2

theorem canonicalKey_injective : Function.Injective canonicalKey := by
  intro m n heq
  exact BitVec.eq_of_toNat_eq (beBytes_injective m.isLt n.isLt (List.cons.inj heq).2)

/-! ## Codecs -/

/-- `decodeHeader`: the strict reader of a header row. A base fee is always read. -/
def decodeHeader (blob : Bytes) : Option Header := do
  match ← decodeStringList blob with
  | [parentHash, stateRoot, txRoot, receiptRoot, number, timestamp, gasLimit, gasUsed, baseFee,
      extraData, proposer] =>
    let number ← uintOf 8 number
    let timestamp ← uintOf 8 timestamp
    let gasLimit ← uintOf 8 gasLimit
    let gasUsed ← uintOf 8 gasUsed
    let baseFee ← natOf baseFee
    if proposer.length = 0 ∨ proposer.length = 20 then
      some ⟨bytesToHash parentHash, bytesToHash stateRoot, bytesToHash txRoot,
        bytesToHash receiptRoot, BitVec.ofNat 64 number, BitVec.ofNat 64 timestamp,
        BitVec.ofNat 64 gasLimit, BitVec.ofNat 64 gasUsed, some baseFee, extraData,
        addressOfBytes proposer⟩
    else none
  | _ => none

/-- `encodeBody` -/
def encodeBody (txs : List Transaction) : Bytes :=
  encodeList ((txs.map Transaction.marshalBinary).map encodeString)

/-- `decodeBody`; a transaction is the encoding it is read from. -/
def decodeBody (blob : Bytes) : Option (List Transaction) :=
  (decodeStringList blob).map fun raws => raws.map Transaction.mk

/-- `encodeTip` -/
def encodeTip (height : U64) (hash : Hash) : Bytes :=
  encodeList ([minBytes height.toNat, hash.bytes].map encodeString)

/-- `decodeTip` -/
def decodeTip (blob : Bytes) : Option (U64 × Hash) := do
  match ← decodeStringList blob with
  | [height, hash] =>
    let height ← uintOf 8 height
    some (BitVec.ofNat 64 height, bytesToHash hash)
  | _ => none

/-- The header that a row gives back: a missing base fee comes back as zero. -/
def Header.stored (h : Header) : Header :=
  { h with baseFee := some (h.baseFee.getD 0) }

theorem decodeHeader_encodeRLP {h : Header} (hsize : h.items.flatten.length < 256 ^ 8) :
    decodeHeader h.encodeRLP = some h.stored := by
  have hread : decodeStringList h.encodeRLP = some h.parts := by
    rw [Header.encodeRLP, Header.items_eq]
    exact decodeStringList_encodeList (by rwa [← Header.items_eq])
  have huint : ∀ x : U64, uintOf 8 (minBytes x.toNat) = some x.toNat :=
    fun x => uintOf_minBytes (w := 8) x.isLt
  simp only [decodeHeader, hread, Header.parts, Option.bind_eq_bind, Option.bind_some, huint,
    natOf_minBytes, Address.length_bytes, or_true, if_true, bytesToHash_bytes, BitVec.ofNat_toNat,
    BitVec.setWidth_eq, addressOfBytes_bytes]
  rfl

theorem decodeBody_encodeBody {txs : List Transaction}
    (hsize : ((txs.map Transaction.marshalBinary).map encodeString).flatten.length < 256 ^ 8) :
    decodeBody (encodeBody txs) = some txs := by
  have hmk : txs.map (Transaction.mk ∘ Transaction.marshalBinary) = txs := by
    conv_rhs => rw [← List.map_id txs]
    rfl
  rw [decodeBody, encodeBody, decodeStringList_encodeList hsize, Option.map_some, List.map_map, hmk]

theorem decodeTip_encodeTip (height : U64) (hash : Hash) :
    decodeTip (encodeTip height hash) = some (height, hash) := by
  have hheight : height.toNat < 256 ^ 8 := height.isLt
  have hsize : ([minBytes height.toNat, hash.bytes].map encodeString).flatten.length < 256 ^ 8 := by
    have hle := length_encodeUint_le (by omega) hheight
    have hle' := length_encodeString_le (s := hash.bytes) (by simp)
    rw [encodeUint] at hle
    simp only [Hash.length_bytes] at hle'
    simp only [List.map_cons, List.map_nil, List.flatten_cons, List.flatten_nil, List.append_nil,
      List.length_append]
    omega
  simp only [decodeTip, encodeTip, decodeStringList_encodeList hsize, Option.bind_eq_bind,
    Option.bind_some, uintOf_minBytes hheight, bytesToHash_bytes, BitVec.ofNat_toNat,
    BitVec.setWidth_eq]

/-! ## Rows -/

namespace Database

/-- The canonical hash of a height. -/
def canonical? (db : Database) (num : U64) : Option Hash :=
  (db.get? (canonicalKey num)).map bytesToHash

/-- `readTip` -/
def readTip (db : Database) : Option (U64 × Hash) := do
  let blob ← db.get? metaTipKey
  decodeTip blob

/-- `readBlockFromDB` -/
def readBlock (db : Database) (hash : Hash) : Option Block := do
  let hdrBlob ← db.get? (headerKey hash)
  let hdr ← decodeHeader hdrBlob
  let bodyBlob ← db.get? (bodyKey hash)
  let txs ← decodeBody bodyBlob
  let block := Block.new hdr txs
  if block.hash = hash then some block else none

/-- The rows of `writeChainKeys` that keep the block itself. -/
def blockWrites (block : Block) : List (GoMap.Write Bytes Bytes) :=
  [⟨headerKey block.hash, some block.header.encodeRLP⟩,
    ⟨bodyKey block.hash, some (encodeBody block.transactions)⟩,
    ⟨canonicalKey block.number, some block.hash.bytes⟩,
    ⟨metaTipKey, some (encodeTip block.number block.hash)⟩]

/-- `writeChainKeys`, without the rows of receipts, transactions and logs. -/
def writeBlock (db : Database) (block : Block) : Database :=
  GoMap.applyWrites (blockWrites block) db

theorem get?_writeBlock (db : Database) (block : Block) (k : Bytes) :
    (db.writeBlock block).get? k =
      if k = metaTipKey then some (encodeTip block.number block.hash)
      else if k = canonicalKey block.number then some block.hash.bytes
      else if k = bodyKey block.hash then some (encodeBody block.transactions)
      else if k = headerKey block.hash then some block.header.encodeRLP
      else db.get? k := by
  simp only [writeBlock, blockWrites, GoMap.applyWrites, List.foldl_cons, List.foldl_nil,
    GoMap.Write.get?_apply]

theorem canonical?_writeBlock (db : Database) (block : Block) (num : U64) :
    (db.writeBlock block).canonical? num =
      if num = block.number then some block.hash else db.canonical? num := by
  have htip : canonicalKey num ≠ metaTipKey := by simp [canonicalKey, metaTipKey]
  have hbody : canonicalKey num ≠ bodyKey block.hash := by simp [canonicalKey, bodyKey]
  have hheader : canonicalKey num ≠ headerKey block.hash := by simp [canonicalKey, headerKey]
  rw [canonical?, get?_writeBlock, if_neg htip, if_neg hbody, if_neg hheader]
  simp only [canonicalKey_injective.eq_iff]
  split
  · simp
  · rfl

theorem readTip_writeBlock (db : Database) (block : Block) :
    (db.writeBlock block).readTip = some (block.number, block.hash) := by
  simp [readTip, get?_writeBlock, decodeTip_encodeTip]

theorem get?_headerKey_writeBlock (db : Database) (block : Block) (hash : Hash) :
    (db.writeBlock block).get? (headerKey hash) =
      if hash = block.hash then some block.header.encodeRLP else db.get? (headerKey hash) := by
  have htip : headerKey hash ≠ metaTipKey := by simp [headerKey, metaTipKey]
  have hcanonical : headerKey hash ≠ canonicalKey block.number := by simp [headerKey, canonicalKey]
  have hbody : headerKey hash ≠ bodyKey block.hash := by simp [headerKey, bodyKey]
  rw [get?_writeBlock, if_neg htip, if_neg hcanonical, if_neg hbody]
  simp only [headerKey_injective.eq_iff]

theorem get?_bodyKey_writeBlock (db : Database) (block : Block) (hash : Hash) :
    (db.writeBlock block).get? (bodyKey hash) =
      if hash = block.hash then some (encodeBody block.transactions)
      else db.get? (bodyKey hash) := by
  have htip : bodyKey hash ≠ metaTipKey := by simp [bodyKey, metaTipKey]
  have hcanonical : bodyKey hash ≠ canonicalKey block.number := by simp [bodyKey, canonicalKey]
  have hheader : bodyKey hash ≠ headerKey block.hash := by simp [bodyKey, headerKey]
  rw [get?_writeBlock, if_neg htip, if_neg hcanonical, if_neg hheader]
  simp only [bodyKey_injective.eq_iff]

theorem readBlock_writeBlock_of_ne (db : Database) {block : Block} {hash : Hash}
    (h : hash ≠ block.hash) : (db.writeBlock block).readBlock hash = db.readBlock hash := by
  rw [readBlock, readBlock, get?_headerKey_writeBlock, get?_bodyKey_writeBlock, if_neg h, if_neg h]

/-- Whatever is read under the hash of a block has its height. -/
theorem number_of_readBlock_writeBlock (db : Database) {block b : Block}
    (hsize : block.header.items.flatten.length < 256 ^ 8)
    (h : (db.writeBlock block).readBlock block.hash = some b) : b.number = block.number := by
  rw [readBlock, get?_headerKey_writeBlock, if_pos rfl, get?_bodyKey_writeBlock, if_pos rfl] at h
  simp only [Option.bind_eq_bind, Option.bind_some, decodeHeader_encodeRLP hsize] at h
  obtain ⟨txs, -, h⟩ := Option.bind_eq_some_iff.mp h
  split at h
  · obtain rfl := Option.some.inj h
    rfl
  · cases h

/-- Two databases with the same rows but for those of the state. -/
def SameChain (db db' : Database) : Prop :=
  ∀ k, StateDB.isStateKey k = false → db'.get? k = db.get? k

section SameChain

variable {db db' : Database}

theorem SameChain.canonical?_eq (h : SameChain db db') (num : U64) :
    db'.canonical? num = db.canonical? num := by
  rw [canonical?, canonical?, h (canonicalKey num) (by simp [canonicalKey, StateDB.isStateKey])]

theorem SameChain.readTip_eq (h : SameChain db db') : db'.readTip = db.readTip := by
  rw [readTip, readTip, h metaTipKey rfl]

theorem SameChain.readBlock_eq (h : SameChain db db') (hash : Hash) :
    db'.readBlock hash = db.readBlock hash := by
  rw [readBlock, readBlock, h (headerKey hash) (by simp [headerKey, StateDB.isStateKey]),
    h (bodyKey hash) (by simp [bodyKey, StateDB.isStateKey])]

end SameChain

end Database

/-! ## Blocks that read back -/

namespace Block

/-- A block as `NewBlock` builds it, with encodings of fewer than `2 ^ 64` bytes. -/
structure Storable (b : Block) : Prop where
  built : Block.new b.header b.transactions = b
  header : b.header.items.flatten.length < 256 ^ 8
  body : ((b.transactions.map Transaction.marshalBinary).map encodeString).flatten.length < 256 ^ 8

/-- The block that the rows of a block give back. -/
def stored (b : Block) : Block :=
  { b with header := b.header.stored }

@[simp] theorem hash_stored (b : Block) : b.stored.hash = b.hash :=
  rfl

@[simp] theorem number_stored (b : Block) : b.stored.number = b.number :=
  rfl

end Block

theorem Database.readBlock_writeBlock (db : Database) {b : Block} (h : b.Storable) :
    (db.writeBlock b).readBlock b.hash = some b.stored := by
  have hnew : Block.new b.header.stored b.transactions = b.stored :=
    congrArg Block.stored h.built
  rw [Database.readBlock, get?_headerKey_writeBlock, if_pos rfl, get?_bodyKey_writeBlock,
    if_pos rfl]
  simp only [Option.bind_eq_bind, Option.bind_some, decodeHeader_encodeRLP h.header,
    decodeBody_encodeBody h.body, hnew, Block.hash_stored, if_true]

/-! ## Import, queries and reopening -/

/-- The genesis block over the state that the allocation gives: the database holds state rows only,
the block has height zero. -/
structure Genesis where
  chainID : ℕ
  statedb : StateDB
  block : Block
  stateRows : ∀ k, statedb.db.get? k ≠ none → StateDB.isStateKey k = true
  number : block.number = 0
  storable : block.Storable

namespace Node

/-- A node with the database changed. -/
def mapDB (n : Node) (f : Database → Database) : Node :=
  { n with statedb := { n.statedb with db := f n.statedb.db } }

/-- The database of a node. -/
def db (n : Node) : Database :=
  n.statedb.db

/-- `newNodeFromGenesisDB` -/
def newFromGenesis (gen : Genesis) (config : Vm.Config) : Node where
  chainID := gen.chainID
  statedb := { gen.statedb with db := gen.statedb.db.writeBlock gen.block }
  header := gen.block.header
  blocks := (∅ : GoMap Hash Block).set gen.block.hash gen.block
  blockNum := (∅ : GoMap U64 Hash).set 0 gen.block.hash
  txIndex := ∅
  receipts := ∅
  allLogs := []
  baseFee := 1000000000
  config := config
  pool := []

/-- `newEmptyNode` after `hydrateLocked` has put the tip into it. -/
def opened (chainID : ℕ) (config : Vm.Config) (db : Database) (tipNum : U64) (tipHash : Hash)
    (tip : Block) : Node where
  chainID := chainID
  statedb := StateDB.new db
  header := tip.header
  blocks := (∅ : GoMap Hash Block).set tipHash tip
  blockNum := (∅ : GoMap U64 Hash).set tipNum tipHash
  txIndex := ∅
  receipts := ∅
  allLogs := []
  baseFee := tip.header.baseFee.getD 1000000000
  config := config
  pool := []

/-- `openWithDatabase` on a database with a chain: only the tip is read. The rows that are compared
with the genesis file are left out. -/
def openWithDatabase (chainID : ℕ) (config : Vm.Config) (db : Database) : Option Node := do
  let (tipNum, tipHash) ← db.readTip
  let tip ← db.readBlock tipHash
  if tip.number = tipNum then some (opened chainID config db tipNum tipHash tip) else none

theorem openWithDatabase_writeBlock (chainID : ℕ) (config : Vm.Config) (db : Database) {b : Block}
    (hb : b.Storable) : openWithDatabase chainID config (db.writeBlock b) =
      some (opened chainID config (db.writeBlock b) b.number b.hash b.stored) := by
  simp only [openWithDatabase, Database.readTip_writeBlock, Database.readBlock_writeBlock db hb,
    Option.bind_eq_bind, Option.bind_some, Block.number_stored, if_true]

/-- `loadBlockByHashLocked`, the body of `GetBlockByHash`. -/
def loadBlockByHash (n : Node) (hash : Hash) : Option Block × Node :=
  match n.blocks.get? hash with
  | some block => (some block, n)
  | none =>
    match n.db.readBlock hash with
    | none => (none, n)
    | some block =>
      let n := { n with blocks := n.blocks.set hash block }
      let existing := n.blockNum.get? block.number
      if existing = none ∨ existing = some hash then
        (some block, { n with blockNum := n.blockNum.set block.number hash })
      else (some block, n)

/-- `loadBlockByNumberLocked`, the body of `GetBlockByNumber`. -/
def loadBlockByNumber (n : Node) (num : U64) : Option Block × Node :=
  match n.blockNum.get? num with
  | some hash =>
    match n.blocks.get? hash with
    | some block => (some block, n)
    | none => loadCanonical n
  | none => loadCanonical n
where
  loadCanonical (n : Node) : Option Block × Node :=
    match n.db.canonical? num with
    | none => (none, n)
    | some hash => { n with blockNum := n.blockNum.set num hash }.loadBlockByHash hash

/-- `ImportCommittedBlock` with the rows of the chain: a block that becomes the head is written in
the batch that takes the state. -/
def importBlock (g : Geth) (n : Node) (written : Bool) (block : Block) :
    Except Panic (Option NodeError × Node) := do
  let (err, n') ← n.importCommittedBlock g written block
  if err = none ∧ n.blockNum.get? block.number = none then
    return (none, n'.mapDB (·.writeBlock block))
  else return (err, n')

end Node

end Dew
