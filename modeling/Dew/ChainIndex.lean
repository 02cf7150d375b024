/-
# The index of the chain

Next to a block the node writes a receipt and a lookup for every transaction and an entry for every
log, all in the batch that takes the block and the state. Lookups, receipts and logs are also kept in
memory since the node was opened; what is not there is read from the database when it is asked for.

A chain of executed blocks says which rows there should be: one for every receipt, lookup and log,
and a key has one of them (`SoundChain.hasRow_unique`). The batch of a block keeps the rows of the
database those of the chain (`KeepsRows.writeChainKeys`).
-/
import Dew.ChainRecords
import Dew.PrefixScan

open Bytes

namespace Dew

/-! ## Executed blocks -/

/-- `txExecResult` of a transaction of either kind. -/
structure ExecResult where
  txHash : Hash
  tx : Option EthTx
  dewTx : Option DewTx
  sender : Address
  receipt : Receipt
  logs : List Log

/-- A result with its block and its place there. -/
structure Placed where
  block : Block
  res : ExecResult
  index : ℕ

namespace Placed

variable (lib : Library) (p : Placed)

def lookup : Lookup :=
  ⟨p.block.hash, p.block.number, p.index, p.res.tx, p.res.dewTx, p.res.sender, p.res.txHash⟩

/-- The receipt with the fields that `persistBlockLocked` sets. -/
def receipt : Receipt :=
  { p.res.receipt with blockHash := p.block.hash, transactionIndex := p.index }

/-- The logs as `commitBlockLocked` keeps them. -/
def logs : List IndexedLog :=
  p.res.logs.zipIdx.map fun lg =>
    ⟨lg.1, p.block.number, p.block.hash, p.res.txHash, p.index, lg.2⟩

/-- The rows that `writeChainKeys` writes for a transaction. -/
def rows : Except LookupError (List (Bytes × Bytes)) := do
  let look ← p.lookup.encode lib
  return (receiptKey p.res.txHash, encodeReceipt p.receipt) ::
    p.res.receipt.logs.zipIdx.map (fun lg =>
      (logIndexKey p.block.number p.index lg.2, encodeLogIndex lg.1 p.res.txHash p.block.hash)) ++
    [(txLookupKey p.res.txHash, look)]

end Placed

/-- A block with the results of its transactions. -/
structure ExecutedBlock where
  block : Block
  results : List ExecResult

namespace ExecutedBlock

variable (lib : Library) (e : ExecutedBlock)

def placed : List Placed :=
  e.results.zipIdx.map fun r => ⟨e.block, r.1, r.2⟩

/-- The lookups of the block, in the order of its transactions. -/
def lookups : List Lookup :=
  e.placed.map Placed.lookup

/-- The logs of the block, in the order of its transactions. -/
def logs : List IndexedLog :=
  e.placed.flatMap Placed.logs

def rows : Except LookupError (List (Bytes × Bytes)) := do
  let rows ← e.placed.mapM (Placed.rows lib)
  return rows.flatten

end ExecutedBlock

/-- The transactions of a chain, in order. -/
def placedIn (chain : List ExecutedBlock) : List Placed :=
  chain.flatMap ExecutedBlock.placed

/-! ## The log index of a database -/

/-- A batch that puts rows into the database. -/
def Database.put (db : Database) (rows : List (Bytes × Bytes)) : Database :=
  GoMap.applyWrites (rows.map fun e => ⟨e.1, some e.2⟩) db

namespace Database

/-- `logIndexSchemaVersion` -/
def logIndexSchemaVersion : ℕ := 1

/-- The row of `putLogIndexVersion`. -/
def logIndexVersionRow : Bytes × Bytes :=
  (metaLogIndexVersionKey, beBytes 4 logIndexSchemaVersion)

/-- `readLogIndexVersion` -/
def readLogIndexVersion (db : Database) : Except String (Option ℕ) :=
  match db.get? metaLogIndexVersionKey with
  | none => .ok none
  | some blob =>
    if blob.length < 4 then .error "node: invalid meta/logIndexVersion"
    else .ok (some (ofBytes (blob.take 4)))

/-- The entries that `rebuildLogIndex` makes of a receipt row. -/
def rebuiltEntries (row : Bytes × Bytes) : List (Bytes × Bytes) :=
  if row.1.length ≠ 1 + 32 then []
  else
    match decodeReceipt row.2 with
    | none => []
    | some rcpt =>
      rcpt.logs.zipIdx.map fun lg =>
        (logIndexKey rcpt.blockNumber rcpt.transactionIndex lg.2,
          encodeLogIndex lg.1 (bytesToHash row.1.tail) rcpt.blockHash)

/-- `rebuildLogIndex` -/
def rebuildLogIndex (db : Database) : Database :=
  db.put ((db.withPrefix [0x52]).flatMap rebuiltEntries ++ [logIndexVersionRow])

/-- `ensureLogIndex` -/
def ensureLogIndex (db : Database) : Except String Database := do
  let ver ← db.readLogIndexVersion
  if ver = some logIndexSchemaVersion then return db else return db.rebuildLogIndex

/-- `writeChainKeys` -/
def writeChainKeys (lib : Library) (db : Database) (e : ExecutedBlock) :
    Except LookupError Database := do
  let rows ← e.rows lib
  return (db.writeBlock e.block).put (rows ++ [logIndexVersionRow])

end Database

/-! ## The node -/

/-- `Node` with the lookups of both kinds of transactions. -/
structure ChainNode where
  node : Node
  txIndex : GoMap Hash Lookup

inductive PersistError where
  | encode (err : LookupError)
  | batch
deriving DecidableEq, Repr

namespace ChainNode

variable (lib : Library) (n : ChainNode)

local instance lawfulBEq_hash : LawfulBEq Hash := inferInstance

/-- `commitBlockLocked`, after the batch has made `db` of the database. -/
def commitBlock (s : StateDB) (db : Database) (e : ExecutedBlock) : ChainNode where
  node :=
    { n.node with
      statedb := { s.flush with db := db }
      blocks := n.node.blocks.set e.block.hash e.block
      blockNum := n.node.blockNum.set e.block.number e.block.hash
      header := e.block.header
      baseFee := e.block.header.baseFee.getD n.node.baseFee
      receipts := e.placed.foldl (fun m p => m.set p.res.txHash p.receipt) n.node.receipts
      pool := n.node.pool.filter fun h => h ∉ e.results.map ExecResult.txHash
      allLogs := n.node.allLogs ++ e.logs }
  txIndex := e.placed.foldl (fun m p => m.set p.res.txHash p.lookup) n.txIndex

/-- `persistBlockLocked`, over the state `s` that executing the block has left; `written` says
whether the batch was written. -/
def persistBlock (s : StateDB) (written : Bool) (e : ExecutedBlock) :
    Option PersistError × ChainNode :=
  match Database.writeChainKeys lib s.flush.db e with
  | .error err => (some (.encode err), { n with node := { n.node with statedb := s } })
  | .ok db =>
    if written then (none, n.commitBlock s db e)
    else (some .batch, { n with node := { n.node with statedb := s } })

/-- `newNodeFromGenesisDB` -/
def newFromGenesis (gen : Genesis) (config : Vm.Config) : ChainNode :=
  ⟨(Node.newFromGenesis gen config).mapDB (·.put [Database.logIndexVersionRow]), ∅⟩

/-- `openWithDatabase` on a database with a chain. -/
def openWithDatabase (chainID : ℕ) (config : Vm.Config) (db : Database) : Option ChainNode := do
  let node ← Node.openWithDatabase chainID config db
  match db.ensureLogIndex with
  | .error _ => none
  | .ok db => some ⟨node.mapDB fun _ => db, ∅⟩

/-- `loadTxLookupLocked`, the body of `GetTransaction`. -/
def loadTxLookup (hash : Hash) : Option Lookup × ChainNode :=
  match n.txIndex.get? hash with
  | some look => (some look, n)
  | none =>
    match n.node.db.get? (txLookupKey hash) with
    | none => (none, n)
    | some blob =>
      match decodeTxLookup lib blob hash with
      | .error _ => (none, n)
      | .ok look => (some look, { n with txIndex := n.txIndex.set hash look })

/-- `loadBlockByNumberLocked` -/
def loadBlockByNumber (num : U64) : Option Block × ChainNode :=
  let (block, node) := n.node.loadBlockByNumber num
  (block, { n with node := node })

/-- `loadBlockByHashLocked` -/
def loadBlockByHash (hash : Hash) : Option Block × ChainNode :=
  let (block, node) := n.node.loadBlockByHash hash
  (block, { n with node := node })

/-! ### The transactions of a block -/

/-- The closure `add` of `lookupsForBlockLocked`; `seen` is the set of the hashes listed. -/
def addLookup : List Lookup → Lookup → List Lookup :=
  Loops.addNew Lookup.txHash

/-- The loop over the body of the block. -/
def listBody (out : List Lookup) : List Transaction → ChainNode → List Lookup × ChainNode
  | [], n => (out, n)
  | tx :: txs, n =>
    match n.loadTxLookup lib tx.hash with
    | (none, n) => listBody out txs n
    | (some look, n) => listBody (addLookup out look) txs n

/-- The scan of the lookup rows, over the rows that it visits. -/
def listRows (num : U64) (out : List Lookup) :
    List (Bytes × Bytes) → ChainNode → List Lookup × ChainNode
  | [], n => (out, n)
  | (key, value) :: rows, n =>
    let txHash := bytesToHash key.tail
    if key.length ≠ 1 + 32 ∨ txHash ∈ out.map Lookup.txHash then listRows num out rows n
    else
      match decodeTxLookup lib value txHash with
      | .error _ => listRows num out rows n
      | .ok look =>
        if look.blockNumber ≠ num then listRows num out rows n
        else
          listRows num (addLookup out look) rows { n with txIndex := n.txIndex.set txHash look }

/-- `lookupsForBlockLocked`, the body of `TransactionsInBlock`; the map in memory is ranged over in
the order `order`. -/
def lookupsForBlock (order : Mempool.RangeOrder Hash Lookup) (num : U64) :
    List Lookup × ChainNode :=
  let cached := ((order.list n.txIndex).filter (·.blockNumber = num)).foldl addLookup []
  let (block, n₁) := n.loadBlockByNumber num
  let (out, n₂) := listBody lib cached ((block.map Block.transactions).getD []) n₁
  listRows lib num out (n₂.node.db.withPrefix [0x54]) n₂

end ChainNode

/-! ## Chains -/

/-- What executing a transaction gives, within the ranges of the machine types. -/
structure Placed.Made (lib : Library) (p : Placed) : Prop where
  written : p.lookup.Written lib
  number : p.res.receipt.blockNumber = p.block.number
  logs : p.res.receipt.logs = p.res.logs
  inRange : p.receipt.InRange
  index : p.index < 2 ^ 32
  count : p.res.logs.length ≤ 2 ^ 32
  short : ∀ rows, p.rows lib = .ok rows → ∀ row ∈ rows, row.2.length < 2 ^ 64

/-- A chain of executed blocks: each has the height of its place, hashes tell blocks and transactions
apart, and the body of a block has its transactions, or nothing when they are `DewTx`. -/
structure SoundChain (lib : Library) (chain : List ExecutedBlock) : Prop where
  numbered : ∀ (i : ℕ) (e : ExecutedBlock), chain[i]? = some e → e.block.number.toNat = i
  storable : ∀ e ∈ chain, e.block.Storable
  hashes : (chain.map fun e => e.block.hash).Nodup
  made : ∀ p ∈ placedIn chain, p.Made lib
  txHashes : ((placedIn chain).map fun p => p.res.txHash).Nodup
  bodies : ∀ e ∈ chain, e.block.transactions = [] ∨
    e.block.transactions.map Transaction.hash = e.results.map ExecResult.txHash

theorem ExecutedBlock.mem_placed {e : ExecutedBlock} {p : Placed} :
    p ∈ e.placed ↔ p.block = e.block ∧ e.results[p.index]? = some p.res := by
  obtain ⟨block, res, index⟩ := p
  simp only [ExecutedBlock.placed, List.mem_map, List.mem_zipIdx_iff_getElem?, Prod.exists]
  constructor
  · rintro ⟨r, i, h, heq⟩
    cases heq
    exact ⟨rfl, h⟩
  · rintro ⟨hblock, h⟩
    exact ⟨res, index, h, by rw [hblock]⟩

theorem mem_placedIn {chain : List ExecutedBlock} {p : Placed} :
    p ∈ placedIn chain ↔ ∃ e ∈ chain, p ∈ e.placed :=
  List.mem_flatMap

theorem placedIn_append (chain chain' : List ExecutedBlock) :
    placedIn (chain ++ chain') = placedIn chain ++ placedIn chain' :=
  List.flatMap_append

theorem placedIn_singleton (e : ExecutedBlock) : placedIn [e] = e.placed :=
  List.flatMap_singleton _ _

namespace SoundChain

variable {lib : Library} {chain : List ExecutedBlock}

/-- The block at a height. -/
theorem getElem?_number (hs : SoundChain lib chain) {e : ExecutedBlock} (he : e ∈ chain) :
    chain[e.block.number.toNat]? = some e := by
  obtain ⟨i, hi⟩ := List.mem_iff_getElem?.mp he
  rw [hs.numbered i e hi, hi]

theorem eq_of_number (hs : SoundChain lib chain) {e e' : ExecutedBlock} (he : e ∈ chain)
    (he' : e' ∈ chain) (h : e.block.number = e'.block.number) : e = e' := by
  have hat := hs.getElem?_number he
  rw [h, hs.getElem?_number he'] at hat
  exact (Option.some.inj hat).symm

theorem eq_of_hash (hs : SoundChain lib chain) {e e' : ExecutedBlock} (he : e ∈ chain)
    (he' : e' ∈ chain) (h : e.block.hash = e'.block.hash) : e = e' :=
  List.inj_on_of_nodup_map hs.hashes he he' h

theorem eq_of_txHash (hs : SoundChain lib chain) {p p' : Placed} (hp : p ∈ placedIn chain)
    (hp' : p' ∈ placedIn chain) (h : p.res.txHash = p'.res.txHash) : p = p' :=
  List.inj_on_of_nodup_map hs.txHashes hp hp' h

theorem eq_of_place (hs : SoundChain lib chain) {p p' : Placed} (hp : p ∈ placedIn chain)
    (hp' : p' ∈ placedIn chain) (hnumber : p.block.number = p'.block.number)
    (hindex : p.index = p'.index) : p = p' := by
  obtain ⟨e, he, hpe⟩ := mem_placedIn.mp hp
  obtain ⟨e', he', hpe'⟩ := mem_placedIn.mp hp'
  obtain ⟨block, res, index⟩ := p
  obtain ⟨block', res', index'⟩ := p'
  obtain ⟨hblock, hres⟩ := ExecutedBlock.mem_placed.mp hpe
  obtain ⟨hblock', hres'⟩ := ExecutedBlock.mem_placed.mp hpe'
  dsimp only at hblock hres hblock' hres' hnumber hindex
  subst hblock hblock' hindex
  obtain rfl := hs.eq_of_number he he' hnumber
  rw [hres] at hres'
  rw [Option.some.inj hres']

theorem number_last {e : ExecutedBlock} (hs : SoundChain lib (chain ++ [e])) :
    e.block.number.toNat = chain.length :=
  hs.numbered chain.length e (by simp)

/-- A block that follows the chain. -/
theorem append (hs : SoundChain lib chain) {e : ExecutedBlock}
    (hnumber : e.block.number.toNat = chain.length) (hstorable : e.block.Storable)
    (hhash : ∀ e' ∈ chain, e'.block.hash ≠ e.block.hash) (hmade : ∀ p ∈ e.placed, p.Made lib)
    (hnodup : (e.placed.map fun p => p.res.txHash).Nodup)
    (hfresh : ∀ p ∈ placedIn chain, ∀ q ∈ e.placed, p.res.txHash ≠ q.res.txHash)
    (hbody : e.block.transactions = [] ∨
      e.block.transactions.map Transaction.hash = e.results.map ExecResult.txHash) :
    SoundChain lib (chain ++ [e]) where
  numbered i e' h := by
    rw [List.getElem?_append] at h
    split at h
    · exact hs.numbered i e' h
    · obtain ⟨hlt, rfl⟩ := List.getElem?_eq_some_iff.mp h
      simp only [List.length_singleton, List.getElem_singleton] at hlt ⊢
      omega
  storable := List.forall_mem_append.mpr ⟨hs.storable, by simpa using hstorable⟩
  hashes := by
    rw [List.map_append, List.nodup_append]
    refine ⟨hs.hashes, List.nodup_singleton _, ?_⟩
    intro x hx y hy
    obtain ⟨e', he', rfl⟩ := List.mem_map.mp hx
    rw [List.mem_singleton.mp hy]
    exact hhash e' he'
  made := by
    rw [placedIn_append, placedIn_singleton]
    exact List.forall_mem_append.mpr ⟨hs.made, hmade⟩
  txHashes := by
    rw [placedIn_append, placedIn_singleton, List.map_append, List.nodup_append]
    refine ⟨hs.txHashes, hnodup, ?_⟩
    intro x hx y hy
    obtain ⟨p, hp, rfl⟩ := List.mem_map.mp hx
    obtain ⟨q, hq, rfl⟩ := List.mem_map.mp hy
    exact hfresh p hp q hq
  bodies := List.forall_mem_append.mpr ⟨hs.bodies, by simpa using hbody⟩

end SoundChain

/-! ## The rows of a chain -/

namespace IndexedLog

/-- The key of a log in the index. -/
def key (il : IndexedLog) : Bytes :=
  logIndexKey il.blockNumber il.txIndex il.index

/-- The row of a log in the index. -/
def value (il : IndexedLog) : Bytes :=
  encodeLogIndex il.log il.txHash il.blockHash

end IndexedLog

/-- The keys of receipts, lookups and logs. -/
def IsIndexKey (k : Bytes) : Prop :=
  k.head? = some 0x52 ∨ k.head? = some 0x54 ∨ k.head? = some 0x4c

/-- The rows of a transaction: its receipt, its lookup and its logs. -/
def Placed.HasRow (lib : Library) (p : Placed) (k v : Bytes) : Prop :=
  k = receiptKey p.res.txHash ∧ v = encodeReceipt p.receipt ∨
    k = txLookupKey p.res.txHash ∧ p.lookup.encode lib = .ok v ∨
    ∃ il ∈ p.logs, k = il.key ∧ v = il.value

namespace Placed

variable {lib : Library} {p : Placed} {k v : Bytes}

theorem mem_logs {il : IndexedLog} : il ∈ p.logs ↔ p.res.logs[il.index]? = some il.log ∧
    il.blockNumber = p.block.number ∧ il.blockHash = p.block.hash ∧ il.txHash = p.res.txHash ∧
    il.txIndex = p.index := by
  obtain ⟨log, blockNumber, blockHash, txHash, txIndex, index⟩ := il
  simp only [logs, List.mem_map, List.mem_zipIdx_iff_getElem?, Prod.exists]
  constructor
  · rintro ⟨lg, j, h, heq⟩
    cases heq
    exact ⟨h, rfl, rfl, rfl, rfl⟩
  · rintro ⟨h, rfl, rfl, rfl, rfl⟩
    exact ⟨log, index, h, rfl⟩

theorem HasRow.isIndexKey (h : p.HasRow lib k v) : IsIndexKey k := by
  rcases h with ⟨rfl, -⟩ | ⟨rfl, -⟩ | ⟨il, -, rfl, -⟩
  · exact Or.inl rfl
  · exact Or.inr (Or.inl rfl)
  · exact Or.inr (Or.inr rfl)

theorem hasRow_receipt {txHash : Hash} : p.HasRow lib (receiptKey txHash) v ↔
    txHash = p.res.txHash ∧ v = encodeReceipt p.receipt := by
  simp [HasRow, receiptKey, txLookupKey, IndexedLog.key, logIndexKey, logIndexBlockPrefix,
    Hash.bytes_injective.eq_iff]

theorem hasRow_lookup {txHash : Hash} : p.HasRow lib (txLookupKey txHash) v ↔
    txHash = p.res.txHash ∧ p.lookup.encode lib = .ok v := by
  simp [HasRow, receiptKey, txLookupKey, IndexedLog.key, logIndexKey, logIndexBlockPrefix,
    Hash.bytes_injective.eq_iff]

/-- The rows that are written. -/
theorem Made.exists_rows (h : p.Made lib) :
    ∃ rows, p.rows lib = .ok rows ∧ ∀ k v, (k, v) ∈ rows ↔ p.HasRow lib k v := by
  obtain ⟨look, hlook, -⟩ := Lookup.decodeTxLookup_encode h.written
  have hrows : p.rows lib = .ok ((receiptKey p.res.txHash, encodeReceipt p.receipt) ::
      p.logs.map (fun il => (il.key, il.value)) ++ [(txLookupKey p.res.txHash, look)]) := by
    rw [rows, hlook, h.logs, Placed.logs, List.map_map]
    rfl
  refine ⟨_, hrows, fun k v => ?_⟩
  simp only [HasRow, hlook, List.cons_append, List.mem_cons, List.mem_append, List.mem_map,
    Prod.mk.injEq, Except.ok.injEq, List.not_mem_nil, or_false]
  constructor
  · rintro (h | ⟨il, hil, rfl, rfl⟩ | ⟨rfl, rfl⟩)
    · exact Or.inl h
    · exact Or.inr (Or.inr ⟨il, hil, rfl, rfl⟩)
    · exact Or.inr (Or.inl ⟨rfl, rfl⟩)
  · rintro (h | ⟨rfl, rfl⟩ | ⟨il, hil, rfl, rfl⟩)
    · exact Or.inl h
    · exact Or.inr (Or.inr ⟨rfl, rfl⟩)
    · exact Or.inr (Or.inl ⟨il, hil, rfl, rfl⟩)

theorem Made.length_lt (h : p.Made lib) (hrow : p.HasRow lib k v) : v.length < 2 ^ 64 := by
  obtain ⟨rows, hrows, hmem⟩ := h.exists_rows
  exact h.short rows hrows (k, v) ((hmem k v).mpr hrow)

theorem Made.index_log (h : p.Made lib) {il : IndexedLog} (hil : il ∈ p.logs) :
    il.txIndex < 2 ^ 32 ∧ il.index < 2 ^ 32 := by
  obtain ⟨hat, -, -, -, hindex⟩ := mem_logs.mp hil
  obtain ⟨hlt, -⟩ := List.getElem?_eq_some_iff.mp hat
  exact ⟨hindex ▸ h.index, lt_of_lt_of_le hlt h.count⟩

end Placed

theorem ExecutedBlock.exists_rows {lib : Library} {e : ExecutedBlock}
    (h : ∀ p ∈ e.placed, p.Made lib) :
    ∃ rows, e.rows lib = .ok rows ∧
      ∀ k v, (k, v) ∈ rows ↔ ∃ p ∈ e.placed, p.HasRow lib k v := by
  obtain ⟨rows, hrows⟩ := Loops.exists_mapM (f := Placed.rows lib) fun p hp =>
    (h p hp).exists_rows.imp fun _ hrows => hrows.1
  refine ⟨rows.flatten, by rw [ExecutedBlock.rows, hrows]; rfl, fun k v => ?_⟩
  simp only [List.mem_flatten, Loops.mem_mapM_iff hrows]
  constructor
  · rintro ⟨ws, ⟨p, hp, hws⟩, hmem⟩
    obtain ⟨ws', hws', hiff⟩ := (h p hp).exists_rows
    obtain rfl := Except.ok.inj (hws.symm.trans hws')
    exact ⟨p, hp, (hiff k v).mp hmem⟩
  · rintro ⟨p, hp, hrow⟩
    obtain ⟨ws, hws, hiff⟩ := (h p hp).exists_rows
    exact ⟨ws, ⟨p, hp, hws⟩, (hiff k v).mpr hrow⟩

/-- Keys of the log index tell the places of logs apart. -/
theorem logIndexKey_injective {b b' : U64} {i i' j j' : ℕ} (hi : i < 2 ^ 32) (hj : j < 2 ^ 32)
    (hi' : i' < 2 ^ 32) (hj' : j' < 2 ^ 32) (h : logIndexKey b i j = logIndexKey b' i' j') :
    b = b' ∧ i = i' ∧ j = j' := by
  have hparse : parseLogIndexKey (logIndexKey b i j) = some (b, i, j) :=
    parseLogIndexKey_logIndexKey hi hj
  rw [h, parseLogIndexKey_logIndexKey hi' hj'] at hparse
  cases hparse
  exact ⟨rfl, rfl, rfl⟩

/-- A key has one row in a chain. -/
theorem SoundChain.hasRow_unique {lib : Library} {chain : List ExecutedBlock} (hs : SoundChain lib chain)
    {p p' : Placed} (hp : p ∈ placedIn chain) (hp' : p' ∈ placedIn chain) {k v v' : Bytes}
    (h : p.HasRow lib k v) (h' : p'.HasRow lib k v') : v = v' := by
  rcases h with ⟨rfl, rfl⟩ | ⟨rfl, hv⟩ | ⟨il, hil, rfl, rfl⟩
  · obtain ⟨hhash, rfl⟩ := Placed.hasRow_receipt.mp h'
    rw [hs.eq_of_txHash hp hp' hhash]
  · obtain ⟨hhash, hv'⟩ := Placed.hasRow_lookup.mp h'
    rw [hs.eq_of_txHash hp hp' hhash, hv'] at hv
    exact (Except.ok.inj hv).symm
  · rcases h' with ⟨hk, -⟩ | ⟨hk, -⟩ | ⟨il', hil', hk, rfl⟩
    · simp [receiptKey, IndexedLog.key, logIndexKey, logIndexBlockPrefix] at hk
    · simp [txLookupKey, IndexedLog.key, logIndexKey, logIndexBlockPrefix] at hk
    · obtain ⟨hi, hj⟩ := (hs.made p hp).index_log hil
      obtain ⟨hi', hj'⟩ := (hs.made p' hp').index_log hil'
      obtain ⟨hnumber, hindex, hlog⟩ := logIndexKey_injective hi hj hi' hj' hk
      obtain ⟨hat, hb, hbh, htx, hix⟩ := Placed.mem_logs.mp hil
      obtain ⟨hat', hb', hbh', htx', hix'⟩ := Placed.mem_logs.mp hil'
      obtain rfl := hs.eq_of_place hp hp' (by rw [← hb, ← hb', hnumber])
        (by rw [← hix, ← hix', hindex])
      rw [hlog, hat'] at hat
      rw [IndexedLog.value, IndexedLog.value, Option.some.inj hat, htx, htx', hbh, hbh']

/-! ## The rows of the database -/

namespace Database

variable {db : Database} {rows : List (Bytes × Bytes)} {k v : Bytes}

theorem get?_put_of_mem (hrow : (k, v) ∈ rows) (hone : ∀ v', (k, v') ∈ rows → v' = v) :
    (db.put rows).get? k = some v := by
  rw [put, GoMap.get?_applyWrites_of_agree (v := some v), if_pos]
  · exact ⟨_, List.mem_map_of_mem hrow, rfl⟩
  · intro w hw hk
    obtain ⟨⟨k', v'⟩, hmem, rfl⟩ := List.mem_map.mp hw
    obtain rfl : k' = k := hk
    rw [hone v' hmem]

theorem get?_put_of_not_mem (hnone : ∀ v, (k, v) ∉ rows) : (db.put rows).get? k = db.get? k := by
  have hkey : ∀ w ∈ rows.map (fun e => (⟨e.1, some e.2⟩ : GoMap.Write Bytes Bytes)), w.key ≠ k := by
    intro w hw hk
    obtain ⟨⟨k', v'⟩, hmem, rfl⟩ := List.mem_map.mp hw
    obtain rfl : k' = k := hk
    exact hnone v' hmem
  rw [put, GoMap.get?_applyWrites_of_agree (v := none) fun w hw hk => absurd hk (hkey w hw), if_neg]
  rintro ⟨w, hw, hk⟩
  exact hkey w hw hk

theorem not_isIndexKey_logIndexVersion : ¬ IsIndexKey metaLogIndexVersionKey := by
  unfold IsIndexKey
  decide

/-- The rows of the index are not those of the state or of blocks. -/
theorem get?_writeBlock_of_isIndexKey (block : Block) (hk : IsIndexKey k) :
    (db.writeBlock block).get? k = db.get? k := by
  have htip : k ≠ metaTipKey := by
    rintro rfl
    revert hk
    unfold IsIndexKey
    decide
  have hcanonical : k ≠ canonicalKey block.number := by
    rintro rfl
    simp [IsIndexKey, canonicalKey] at hk
  have hbody : k ≠ bodyKey block.hash := by
    rintro rfl
    simp [IsIndexKey, bodyKey] at hk
  have hheader : k ≠ headerKey block.hash := by
    rintro rfl
    simp [IsIndexKey, headerKey] at hk
  rw [get?_writeBlock, if_neg htip, if_neg hcanonical, if_neg hbody, if_neg hheader]

theorem isStateKey_of_isIndexKey (hk : IsIndexKey k) : StateDB.isStateKey k = false := by
  cases k with
  | nil => rfl
  | cons b rest =>
      simp only [IsIndexKey, List.head?_cons, Option.some.injEq] at hk
      rcases hk with rfl | rfl | rfl <;> rfl

end Database

/-- The rows of receipts, lookups and logs are those of the chain, and the marker is there. -/
structure KeepsRows (lib : Library) (db : Database) (chain : List ExecutedBlock) : Prop where
  rows : ∀ k v, IsIndexKey k → (db.get? k = some v ↔ ∃ p ∈ placedIn chain, p.HasRow lib k v)
  version : db.get? metaLogIndexVersionKey = some (beBytes 4 Database.logIndexSchemaVersion)

namespace KeepsRows

variable {lib : Library} {db db' : Database} {chain : List ExecutedBlock}

/-- The batch of a block adds its rows. -/
theorem writeChainKeys {e : ExecutedBlock} (h : KeepsRows lib db chain)
    (hs : SoundChain lib (chain ++ [e])) (hsame : db.SameChain db') {db'' : Database}
    (hwrite : db'.writeChainKeys lib e = .ok db'') : KeepsRows lib db'' (chain ++ [e]) := by
  have hplaced : placedIn (chain ++ [e]) = placedIn chain ++ e.placed := by
    rw [placedIn_append, placedIn_singleton]
  have hmade : ∀ p ∈ e.placed, p.Made lib := fun p hp =>
    hs.made p (hplaced ▸ List.mem_append_right _ hp)
  obtain ⟨rows, hrows, hmem⟩ := ExecutedBlock.exists_rows hmade
  have hdb : db'' = (db'.writeBlock e.block).put (rows ++ [Database.logIndexVersionRow]) := by
    rw [Database.writeChainKeys, hrows] at hwrite
    exact (Except.ok.inj hwrite).symm
  have hmem' : ∀ {k v}, IsIndexKey k → ((k, v) ∈ rows ++ [Database.logIndexVersionRow] ↔
      ∃ p ∈ e.placed, p.HasRow lib k v) := by
    intro k v hk
    rw [List.mem_append, hmem, List.mem_singleton]
    refine or_iff_left ?_
    intro heq
    obtain rfl := congrArg Prod.fst heq
    exact Database.not_isIndexKey_logIndexVersion hk
  subst hdb
  refine ⟨fun k v hk => ?_, ?_⟩
  · simp only [hplaced, List.mem_append]
    -- a key that the batch writes has no other row in the chain
    by_cases hnew : ∃ v', ∃ p ∈ e.placed, p.HasRow lib k v'
    · obtain ⟨v', p, hp, hrow⟩ := hnew
      have hone : ∀ p' ∈ placedIn (chain ++ [e]), ∀ {w}, p'.HasRow lib k w → w = v' :=
        fun p' hp' w hw => hs.hasRow_unique hp' (hplaced ▸ List.mem_append_right _ hp) hw hrow
      rw [Database.get?_put_of_mem ((hmem' hk).mpr ⟨p, hp, hrow⟩)]
      · constructor
        · intro hv
          obtain rfl := Option.some.inj hv
          exact ⟨p, Or.inr hp, hrow⟩
        · rintro ⟨p', hp', hrow'⟩
          rw [hone p' (hplaced ▸ List.mem_append.mpr hp') hrow']
      · intro w hw
        obtain ⟨p', hp', hrow'⟩ := (hmem' hk).mp hw
        exact hone p' (hplaced ▸ List.mem_append_right _ hp') hrow'
    · rw [Database.get?_put_of_not_mem, Database.get?_writeBlock_of_isIndexKey _ hk,
        hsame k (Database.isStateKey_of_isIndexKey hk), h.rows k v hk]
      · constructor
        · rintro ⟨p, hp, hrow⟩
          exact ⟨p, Or.inl hp, hrow⟩
        · rintro ⟨p, hp | hp, hrow⟩
          · exact ⟨p, hp, hrow⟩
          · exact absurd ⟨v, p, hp, hrow⟩ hnew
      · intro w hw
        exact hnew ⟨w, (hmem' hk).mp hw⟩
  · refine Database.get?_put_of_mem (List.mem_append_right _ (List.mem_singleton_self _)) ?_
    intro v' hv'
    rcases List.mem_append.mp hv' with hv' | hv'
    · obtain ⟨p, -, hrow⟩ := (hmem _ _).mp hv'
      exact absurd hrow.isIndexKey Database.not_isIndexKey_logIndexVersion
    · exact congrArg Prod.snd (List.mem_singleton.mp hv')

theorem readLogIndexVersion (h : KeepsRows lib db chain) :
    db.readLogIndexVersion = .ok (some Database.logIndexSchemaVersion) := by
  rw [Database.readLogIndexVersion, h.version]
  rfl

/-- A database with the marker is opened as it is. -/
theorem ensureLogIndex (h : KeepsRows lib db chain) : db.ensureLogIndex = .ok db := by
  rw [Database.ensureLogIndex, h.readLogIndexVersion]
  rfl

end KeepsRows

end Dew
