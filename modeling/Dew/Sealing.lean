/-
# Sending and sealing

The node with its pool: `SendRawTransaction` and `SendDewRawTransaction` check a transaction against
the account nonce, hand it to the pool, and with auto-mining seal a block of the entries that are
ready; `ImportCommittedBlock` applies a block from elsewhere. A committed block takes the entries
with the hashes of its transactions out of the pool.

Loops over maps go in an order that is a parameter, and so do the clock and whether the database
takes the batch. Lookups and receipts of `DewTx` are left out, no operation reads them.
-/
import Dew.Mempool
import Dew.NativeExecutor
import Dew.TransactionWire

open Bytes

namespace Dew

open Mempool

/-! ## What comes from outside -/

/-- What the wire formats fix of a transaction that go-ethereum decodes from `raw`: legacy
transactions are the RLP list of their fields, every other type has its byte in front, and a
dynamic-fee transaction is `0x02` and the list of its fields. Addresses have 20 bytes and storage
keys 32. -/
structure WireFormat (raw : Bytes) (txType : ℕ) : Prop where
  legacy : txType = 0 → ∃ p : Types.LegacyRLP, p.Nonneg ∧ (Types.Payload.legacy p).FullLength ∧
    p.items.flatten.length < 256 ^ 8 ∧ raw = Rlp.encodeList p.items
  typed : txType ≠ 0 → txType < 0x80 ∧ ∃ rest, raw = UInt8.ofNat txType :: rest
  dynamicFee : txType = 2 → ∃ p : Types.DynamicFeeRLP, p.Nonneg ∧
    (Types.Payload.dynamicFee p).FullLength ∧ p.items.flatten.length < 256 ^ 8 ∧
    raw = 2 :: Rlp.encodeList p.items

/-- The library: it writes back what it has read, and reads the wire formats. The check of the
signature of a `DewTx` is taken from outside as well. -/
structure Library extends Geth where
  marshal : EthTx → Except String Bytes
  dewSignature : DewTx → Option String
  marshal_unmarshal : ∀ raw tx, unmarshal raw = .ok tx → marshal tx = .ok raw
  format : ∀ raw tx, unmarshal raw = .ok tx → WireFormat raw tx.txType

/-- `ethTxToDew`; a transaction of a block is known by its encoding. -/
def Library.ethTxToDew (lib : Library) (tx : EthTx) : Option Transaction := do
  let raw ← (lib.marshal tx).toOption
  let d ← (Types.unmarshalBinary raw).toOption
  let b ← d.marshalBinary.toOption
  some ⟨b⟩

/-- `dewTxToEth` -/
def Library.dewTxToEth (lib : Library) (tx : Transaction) : Except String EthTx :=
  lib.unmarshal tx.marshalBinary

/-- What differs from call to call: the clock, the orders of the maps, and the database. -/
structure Turn where
  now : U64
  addedAt : ℕ
  entryOrder : RangeOrder Hash Entry
  senderOrder : RangeOrder Address (List Entry)
  written : Bool

/-- The node with its pool and the two switches of sending. -/
structure PoolNode where
  node : Node
  pool : Pool
  autoMine : Bool
  enableNative : Bool

inductive SealError where
  | node (err : NodeError)
  | native (err : NativeError)
  | failed (err : Option NativeError)
deriving DecidableEq, Repr

inductive SendError where
  | nativeDisabled
  | invalidTransaction (reason : String)
  | invalidDewTx (err : DewTxError)
  | wrongChainID (got want : ℕ)
  | invalidSignature (reason : String)
  | nonceTooLow (got want : U64)
  | pool (err : PoolError)
  | sealing (err : SealError)
deriving DecidableEq, Repr

def SealError.text : SealError → String
  | node err => err.text
  | native err => err.text
  | failed err => (err.map NativeError.text).getD ""

def SendError.text : SendError → String
  | nativeDisabled => "native path disabled"
  | invalidTransaction reason => s!"invalid transaction: {reason}"
  | invalidDewTx err => "invalid DewTx: " ++ err.text
  | wrongChainID got want => s!"wrong chain id: got {got} want {want}"
  | invalidSignature reason => s!"invalid signature: {reason}"
  | nonceTooLow got want => s!"nonce too low: got {got.toNat} want >= {want.toNat}"
  | pool err => err.text
  | sealing err => err.text

/-! ## Selection -/

/-- `DefaultMaxTxsPerBlock` -/
def defaultMaxTxsPerBlock : ℕ := 64

/-- `groupPendingBySender` with nothing excluded: the entries of one kind, by sender, each list
sorted by nonce. -/
def groupPendingBySender (pending : List Entry) (kind : Kind) : GoMap Address (List Entry) :=
  let kept := pending.filter fun e => e.kind = kind
  kept.foldl (fun m e => m.set e.sender
    ((kept.filter fun e' => e'.sender = e.sender).mergeSort fun a b => a.nonce ≤ b.nonce)) ∅

/-- The entry of a sender's list that is ready: the first that is not below the next nonce, if it
has that nonce. -/
def readyEntry (nextNonce : GoMap Address U64) (list : List Entry) : Option Entry :=
  (list.find? fun e => (nextNonce.get? e.sender).getD 0 ≤ e.nonce).filter fun e =>
    e.nonce = (nextNonce.get? e.sender).getD 0

/-- `pickBestReady`: of the ready entries the first with the highest price. -/
def pickBestReady (order : RangeOrder Address (List Entry)) (bySender : GoMap Address (List Entry))
    (nextNonce : GoMap Address U64) : Option Entry :=
  (order.list bySender).foldl (fun best list =>
    match readyEntry nextNonce list, best with
    | none, best => best
    | some found, none => some found
    | some found, some best => if best.price < found.price then some found else some best) none

/-- What the selection does with the best entry. -/
inductive Choice (α : Type) where
  | take (a : α) (gas : U64)
  | dropEntry
  | dropSender

/-- `filterEntry` on the list of a sender. -/
def filterEntry (bySender : GoMap Address (List Entry)) (e : Entry) : GoMap Address (List Entry) :=
  bySender.set e.sender (((bySender.get? e.sender).getD []).filter fun e' => e'.hash ≠ e.hash)

/-- The loop of the two selections. Every round takes an entry or drops one or a sender, so the
number of rounds is bounded by `maxTxs` and twice the number of entries. -/
def selectLoop {α : Type} (choose : U64 → Entry → Choice α)
    (order : RangeOrder Address (List Entry)) (maxTxs : ℕ) :
    ℕ → GoMap Address (List Entry) → GoMap Address U64 → U64 → List α → List α
  | 0, _, _, _, out => out
  | rounds + 1, bySender, nextNonce, totalGas, out =>
    if maxTxs ≤ out.length then out
    else
      match pickBestReady order bySender nextNonce with
      | none => out
      | some best =>
        match choose totalGas best with
        | .dropEntry =>
          selectLoop choose order maxTxs rounds (filterEntry bySender best) nextNonce totalGas out
        | .dropSender =>
          selectLoop choose order maxTxs rounds (bySender.delete best.sender) nextNonce totalGas out
        | .take a gas =>
          let next := (nextNonce.get? best.sender).getD 0 + 1
          selectLoop choose order maxTxs rounds bySender (nextNonce.set best.sender next)
            (totalGas + gas) (out ++ [a])

/-- The nonces from which the selection starts; reading them fills the caches. -/
def nextNonces (senders : List Address) (s : StateDB) : GoMap Address U64 × StateDB :=
  senders.foldl (fun acc a => (acc.1.set a (acc.2.getNonce a).1, (acc.2.getNonce a).2)) (∅, s)

/-- The two selections, for a kind of entry. -/
def selectPending {α : Type} (choose : U64 → Entry → Choice α) (kind : Kind)
    (order : RangeOrder Address (List Entry)) (pending : List Entry) (s : StateDB) :
    List α × StateDB :=
  let bySender := groupPendingBySender pending kind
  let (nextNonce, s) := nextNonces bySender.keys s
  (selectLoop choose order defaultMaxTxsPerBlock (defaultMaxTxsPerBlock + 2 * pending.length)
    bySender nextNonce 0 [], s)

/-- An EVM entry is taken if it is readable and its gas fits into the block. -/
def chooseEVM (lib : Library) (gasLimit totalGas : U64) (e : Entry) : Choice Transaction :=
  match lib.unmarshal e.raw with
  | .error _ => .dropEntry
  | .ok tx =>
    if 0 < gasLimit ∧ gasLimit < totalGas + tx.gas then .dropSender
    else
      match lib.ethTxToDew tx with
      | none => .dropEntry
      | some d => .take d tx.gas

/-- A `DewTx` entry is taken if it is readable. -/
def chooseDew (_ : U64) (e : Entry) : Choice DewTx :=
  match DewTx.unmarshalBinary e.raw with
  | .error _ => .dropEntry
  | .ok tx => .take tx 0

/-- `selectPendingTxsForBlockLocked` -/
def selectPendingTxsForBlock (lib : Library) (gasLimit : U64) :
    RangeOrder Address (List Entry) → List Entry → StateDB → List Transaction × StateDB :=
  selectPending (chooseEVM lib gasLimit) .evm

/-- `selectPendingDewTxsForBlockLocked` -/
def selectPendingDewTxsForBlock :
    RangeOrder Address (List Entry) → List Entry → StateDB → List DewTx × StateDB :=
  selectPending chooseDew .dew

/-! ## Execution of `DewTx` -/

/-- `executeDewTxLocked`: the hash of the applied transaction. -/
def executeDewTx (lib : Library) (n : Node) (hdr : Header) (tx : DewTx) (s : StateDB) :
    Except Panic (Except SealError Hash × StateDB) :=
  if tx.chainID ≠ n.chainID then .ok (.error (.node (.chainID tx.chainID n.chainID)), s)
  else
    match lib.dewSignature tx with
    | some reason => .ok (.error (.node (.signature reason)), s)
    | none => do
      let exec : NativeExecutor := ⟨hdr.proposer, n.config.stakingEnabled⟩
      let (res, s) ← exec.applyDewTx (some tx) s
      match res with
      | .error err => return (.error (.native err), s)
      | .ok r => if r.failed then return (.error (.failed r.err), s) else return (.ok tx.hash, s)

/-- The loop of `sealReadyDewFromPoolLocked`: all hashes, or the first error. -/
def executeDewTxs (lib : Library) (n : Node) (hdr : Header) : List DewTx → StateDB →
    Except Panic (Except SealError (List Hash) × StateDB)
  | [], s => .ok (.ok [], s)
  | tx :: txs, s => do
    let (res, s) ← executeDewTx lib n hdr tx s
    match res with
    | .error e => .ok (.error e, s)
    | .ok hash =>
      let (rest, s) ← executeDewTxs lib n hdr txs s
      match rest with
      | .error e => .ok (.error e, s)
      | .ok hashes => .ok (.ok (hash :: hashes), s)

/-- `dewHashListRoot` -/
def dewHashListRoot (hashes : List Hash) : Hash :=
  if hashes = [] then emptyTxRoot
  else keccak256Hash (Rlp.encodeList (hashes.map fun h => Rlp.encodeString h.bytes))

namespace PoolNode

/-! ## Commit and rollback -/

/-- The state that is read while a call is checked. -/
def withState (n : PoolNode) (s : StateDB) : PoolNode :=
  { n with node := { n.node with statedb := s } }

/-- `RevertToSnapshot` after a failure. -/
def rollback (n : PoolNode) (s : StateDB) (snap : ℕ) (e : SealError) :
    Except Panic (Option SealError × PoolNode) := do
  let s ← s.revertToSnapshot snap
  return (some e, n.withState s)

/-- The removals of `commitBlockLocked`. -/
def removeAll (pool : Pool) (hashes : List Hash) : Pool :=
  hashes.foldl Pool.remove pool

/-- `persistBlockLocked` with `commitBlockLocked`: the state is flushed, the block becomes the head,
and the transactions with the given hashes leave the pool. -/
def persistBlock (n : PoolNode) (s : StateDB) (snap : ℕ) (written : Bool) (block : Block)
    (results : List TxExecResult) (hashes : List Hash) :
    Except Panic (Option SealError × PoolNode) :=
  if !written then n.rollback s snap (.node .persist)
  else .ok (none,
    { n with
      node := { n.node with statedb := s.flush }.commitBlock block results
      pool := removeAll n.pool hashes })

/-! ## Sealing -/

/-- The header of the next block before its transactions have run. -/
def newHeader (n : Node) (now : U64) : Header where
  parentHash := n.header.hash
  stateRoot := 0
  txRoot := emptyTxRoot
  receiptRoot := emptyTxRoot
  number := n.header.number + 1
  timestamp := if now ≤ n.header.timestamp then n.header.timestamp + 1 else now
  gasLimit := n.header.gasLimit
  gasUsed := 0
  baseFee := some n.baseFee
  extraData := n.header.extraData
  proposer := n.header.proposer

/-- `sealReadyFromPoolLocked` -/
def sealReadyFromPool (lib : Library) (n : PoolNode) (turn : Turn) :
    Except Panic (Option SealError × PoolNode) :=
  let (txs, s) := selectPendingTxsForBlock lib n.node.header.gasLimit turn.senderOrder
    n.pool.entries n.node.statedb
  if txs = [] then .ok (none, n.withState s)
  else do
    let hdr := newHeader n.node turn.now
    let (snap, s) := s.snapshot
    let (res, s) ← n.node.executeBlockTxs lib.toGeth hdr txs 0 0 s
    match res with
    | .error e => n.rollback s snap (.node e)
    | .ok (results, gasUsed) =>
      let (root, s) := s.intermediateRoot
      let block := Block.new
        { hdr with gasUsed := gasUsed, stateRoot := root, txRoot := txRoot txs } txs
      let (err, n) ← n.persistBlock s snap turn.written block results (results.map (·.txHash))
      -- the hashes are removed from the pool a second time
      if err = none then return (none, { n with pool := removeAll n.pool (results.map (·.txHash)) })
      else return (err, n)

/-- `sealReadyDewFromPoolLocked` -/
def sealReadyDewFromPool (lib : Library) (n : PoolNode) (turn : Turn) :
    Except Panic (Option SealError × PoolNode) :=
  let (txs, s) := selectPendingDewTxsForBlock turn.senderOrder n.pool.entries n.node.statedb
  if txs = [] then .ok (none, n.withState s)
  else do
    let hdr := newHeader n.node turn.now
    let (snap, s) := s.snapshot
    let (res, s) ← executeDewTxs lib n.node hdr txs s
    match res with
    | .error e => n.rollback s snap e
    | .ok hashes =>
      let (root, s) := s.intermediateRoot
      let block := Block.new { hdr with stateRoot := root, txRoot := dewHashListRoot hashes } []
      n.persistBlock s snap turn.written block [] hashes

/-! ## Sending -/

/-- What follows the checks of a sent transaction: the pool takes it, and with auto-mining a block is
sealed unless the transaction waits for an earlier nonce. -/
def admitAndSeal (n : PoolNode) (turn : Turn) (entry : Except PoolError Entry) (hash : Hash)
    (nonce accountNonce : U64)
    (sealReady : PoolNode → Except Panic (Option SealError × PoolNode)) :
    Except Panic (Except SendError Hash × PoolNode) :=
  let ((_, err), pool) := n.pool.accept turn.entryOrder entry
  let n := { n with pool := pool }
  match err with
  | some err => .ok (.error (.pool err), n)
  | none =>
    if !n.autoMine ∨ accountNonce < nonce then .ok (.ok hash, n)
    else do
      let (err, n) ← sealReady n
      match err with
      | some err => return (.error (.sealing err), n)
      | none => return (.ok hash, n)

/-- `SendRawTransaction` -/
def sendRawTransaction (lib : Library) (n : PoolNode) (turn : Turn) (raw : Bytes) :
    Except Panic (Except SendError Hash × PoolNode) :=
  match lib.unmarshal raw with
  | .error reason => .ok (.error (.invalidTransaction reason), n)
  | .ok tx =>
    match lib.sender n.node.chainID tx with
    | .error reason => .ok (.error (.invalidSignature reason), n)
    | .ok sender =>
      if tx.chainID ≠ 0 ∧ tx.chainID ≠ n.node.chainID then
        .ok (.error (.wrongChainID tx.chainID n.node.chainID), n)
      else
        let (accountNonce, s) := n.node.statedb.getNonce sender
        let n := n.withState s
        if tx.nonce < accountNonce then .ok (.error (.nonceTooLow tx.nonce accountNonce), n)
        else
          let args : EvmArgs := ⟨some tx, sender, raw, none, some n.node.chainID, turn.addedAt⟩
          n.admitAndSeal turn (args.entry n.pool.policy) tx.hash tx.nonce accountNonce
            (sealReadyFromPool lib · turn)

/-- `SendDewRawTransaction` -/
def sendDewRawTransaction (lib : Library) (n : PoolNode) (turn : Turn) (raw : Bytes) :
    Except Panic (Except SendError Hash × PoolNode) :=
  if !n.enableNative then .ok (.error .nativeDisabled, n)
  else
    match DewTx.unmarshalBinary raw with
    | .error err => .ok (.error (.invalidDewTx err), n)
    | .ok tx =>
      if tx.chainID ≠ n.node.chainID then
        .ok (.error (.wrongChainID tx.chainID n.node.chainID), n)
      else
        match lib.dewSignature tx with
        | some reason => .ok (.error (.invalidSignature reason), n)
        | none =>
          let (accountNonce, s) := n.node.statedb.getNonce tx.sender
          let n := n.withState s
          if tx.nonce < accountNonce then .ok (.error (.nonceTooLow tx.nonce accountNonce), n)
          else
            let args : DewArgs := ⟨some tx, raw, some n.node.chainID, turn.addedAt⟩
            n.admitAndSeal turn (args.entry n.pool.policy) tx.hash tx.nonce accountNonce
              (sealReadyDewFromPool lib · turn)

/-! ## Import -/

/-- The part of `importCommittedBlockLocked` after the checks of the header. -/
def applyBlock (lib : Library) (n : PoolNode) (written : Bool) (block : Block) :
    Except Panic (Option SealError × PoolNode) := do
  let (snap, s) := n.node.statedb.snapshot
  let (res, s) ← n.node.executeBlockTxs lib.toGeth block.header block.transactions 0 0 s
  match res with
  | .error e => n.rollback s snap (.node e)
  | .ok (results, totalGas) =>
    if totalGas ≠ block.header.gasUsed then
      n.rollback s snap (.node (.gasUsed totalGas block.header.gasUsed))
    else
      let (root, s) := s.intermediateRoot
      if root ≠ block.header.stateRoot then
        n.rollback s snap (.node (.stateRoot root block.header.stateRoot))
      else n.persistBlock s snap written block results (results.map (·.txHash))

/-- `ImportCommittedBlock` with the pool. -/
def importCommittedBlock (lib : Library) (n : PoolNode) (written : Bool) (block : Block) :
    Except Panic (Option SealError × PoolNode) :=
  match n.node.blockNum.get? block.header.number with
  | some existing =>
    if existing = block.hash then .ok (none, n)
    else .ok (some (.node (.conflict block.header.number)), n)
  | none =>
    if block.header.number ≠ n.node.header.number + 1 then
      .ok (some (.node (.notNext block.header.number n.node.header.number)), n)
    else if block.header.parentHash ≠ n.node.header.hash then
      .ok (some (.node .parentMismatch), n)
    else applyBlock lib n written block

end PoolNode

end Dew
