/-
# The node

The execution of the transactions of a block, `ValidateAndExecuteBlock` on a copy of the state, and
`ImportCommittedBlock` on the live state. Decoding a transaction, recovering its sender and the EVM
are not part of the source; they are arbitrary functions. Rows of the database that keep headers,
bodies and indexes are left out: what is kept in memory stands for them.
-/
import Dew.Block
import Dew.Executor
import Dew.StateRoot

namespace Dew

/-! ## What the node takes from go-ethereum -/

/-- A decoded Ethereum transaction. -/
structure EthTx where
  txType : ℕ
  chainID : ℕ
  nonce : U64
  gasPrice : ℕ
  gasTipCap : ℕ
  gasFeeCap : ℕ
  gas : U64
  target : Option Address
  value : ℕ
  data : Bytes
  hash : Hash
deriving DecidableEq, Repr

/-- Decoding, sender recovery for a chain, and the EVM. -/
structure Geth where
  unmarshal : Bytes → Except String EthTx
  sender : ℕ → EthTx → Except String Address
  evm : Vm.Evm

/-! ## Receipts and indexes -/

/-- `Receipt` -/
structure Receipt where
  txType : ℕ
  status : ℕ
  cumulativeGasUsed : U64
  gasUsed : U64
  effectiveGasPrice : ℕ
  logs : List Log
  contractAddress : Option Address
  txHash : Hash
  blockHash : Hash
  blockNumber : U64
  transactionIndex : ℕ
deriving DecidableEq, Repr

/-- `txExecResult` of an EVM transaction. -/
structure TxExecResult where
  txHash : Hash
  ethTx : EthTx
  sender : Address
  receipt : Receipt
  logs : List Log
deriving DecidableEq, Repr

/-- `TxLookup` of an EVM transaction. -/
structure TxLookup where
  blockHash : Hash
  blockNumber : U64
  index : ℕ
  tx : EthTx
  sender : Address
  txHash : Hash
deriving DecidableEq, Repr

/-- `IndexedLog` -/
structure IndexedLog where
  log : Log
  blockNumber : U64
  blockHash : Hash
  txHash : Hash
  txIndex : ℕ
  index : ℕ
deriving DecidableEq, Repr

inductive NodeError where
  | conflict (height : U64)
  | notNext (number head : U64)
  | parentMismatch
  | headMismatch
  | decode (reason : String)
  | signature (reason : String)
  | chainID (got want : ℕ)
  | nonce (got want : U64)
  | gasPrice
  | vm (err : Vm.VmError)
  | gasUsed (got want : U64)
  | stateRoot (got want : Hash)
  | persist
deriving DecidableEq, Repr

def NodeError.text : NodeError → String
  | conflict height => s!"node: conflict at height {height.toNat}"
  | notNext number head => s!"node: block {number.toNat} not parent+1 of head {head.toNat}"
  | parentMismatch => "node: parent hash mismatch"
  | headMismatch => "node: head does not match parent"
  | decode reason => reason
  | signature reason => s!"invalid signature: {reason}"
  | chainID got want => s!"wrong chain id: got {got} want {want}"
  | nonce got want => s!"nonce too low/high: got {got.toNat} want {want.toNat}"
  | gasPrice => "gas price too low for base fee"
  | vm err => err.text
  | gasUsed got want => s!"node: gas used mismatch: got {got.toNat} want {want.toNat}"
  | stateRoot got want => "node: state root mismatch: got " ++ got.hex ++ " want " ++ want.hex
  | persist => "node: persist batch"

/-- `Node`, with the hashes of its pool. -/
structure Node where
  chainID : ℕ
  statedb : StateDB
  header : Header
  blocks : GoMap Hash Block
  blockNum : GoMap U64 Hash
  txIndex : GoMap Hash TxLookup
  receipts : GoMap Hash Receipt
  allLogs : List IndexedLog
  baseFee : ℕ
  config : Vm.Config
  pool : List Hash

/-! ## The transactions of a block -/

/-- `effectiveGasPrice` -/
def effectiveGasPrice (tx : EthTx) (baseFee : ℕ) : Option ℕ :=
  if tx.txType = 2 then
    if tx.gasFeeCap < baseFee then none else some (min (baseFee + tx.gasTipCap) tx.gasFeeCap)
  else some tx.gasPrice

/-- `StateDB.Copy`: the caches, with no dirty marks and nothing of a transaction. -/
def StateDB.copy (s : StateDB) : StateDB :=
  { StateDB.new s.db with accounts := s.accounts, storage := s.storage, code := s.code }

namespace Node

variable (g : Geth) (n : Node)

/-- `vm.Message` of a transaction; a value of more than 256 bits panics. -/
def messageOf (tx : EthTx) (sender : Address) (gasPrice : ℕ) : Except Panic Vm.Message :=
  if tx.value < 2 ^ 256 then
    .ok ⟨sender, tx.target, BitVec.ofNat 256 tx.value, tx.gas, gasPrice, tx.data, false⟩
  else .error .integerOverflow

/-- The block context of a header. -/
def blockContext (hdr : Header) : Vm.BlockContext :=
  ⟨hdr.number, hdr.timestamp, hdr.gasLimit, hdr.baseFee.getD n.baseFee, hdr.proposer, n.chainID⟩

/-- The result of an included transaction. -/
def execResult (hdr : Header) (tx : EthTx) (sender : Address) (gasPrice txIndex : ℕ)
    (cumulative : U64) (r : Vm.Result) : TxExecResult where
  txHash := tx.hash
  ethTx := tx
  sender := sender
  receipt :=
    { txType := tx.txType
      status := if r.failed then 0 else 1
      cumulativeGasUsed := cumulative
      gasUsed := r.usedGas
      effectiveGasPrice := gasPrice
      logs := r.logs
      contractAddress := r.contractAddress
      txHash := tx.hash
      blockHash := 0
      blockNumber := hdr.number
      transactionIndex := txIndex }
  logs := r.logs

/-- `executeEVMTxLocked` on a state: the result with the gas used so far, and the state. -/
def executeEVMTx (hdr : Header) (dewTx : Transaction) (txIndex : ℕ) (start : U64) (s : StateDB) :
    Except Panic (Except NodeError (TxExecResult × U64) × StateDB) :=
  match g.unmarshal dewTx.marshalBinary with
  | .error reason => .ok (.error (.decode reason), s)
  | .ok tx =>
    match g.sender n.chainID tx with
    | .error reason => .ok (.error (.signature reason), s)
    | .ok sender =>
      if tx.chainID ≠ 0 ∧ tx.chainID ≠ n.chainID then
        .ok (.error (.chainID tx.chainID n.chainID), s)
      else
        let (nonce, s) := s.getNonce sender
        if tx.nonce ≠ nonce then .ok (.error (.nonce tx.nonce nonce), s)
        else
          match effectiveGasPrice tx (hdr.baseFee.getD n.baseFee) with
          | none => .ok (.error .gasPrice, s)
          | some gasPrice => do
            let msg ← messageOf tx sender gasPrice
            let (res, s) ← Vm.applyMessage g.evm n.config (n.blockContext hdr) msg s
            match res with
            | .error e => .ok (.error (.vm e), s)
            | .ok r =>
              let cumulative := start + r.usedGas
              .ok (.ok (execResult hdr tx sender gasPrice txIndex cumulative r, cumulative), s)

/-- `executeBlockTxsLocked` from transaction `i` on: all results, or the first error. -/
def executeBlockTxs (hdr : Header) : List Transaction → ℕ → U64 → StateDB →
    Except Panic (Except NodeError (List TxExecResult × U64) × StateDB)
  | [], _, cumulative, s => .ok (.ok ([], cumulative), s)
  | tx :: txs, i, cumulative, s => do
    let (res, s) ← executeEVMTx g n hdr tx i cumulative s
    match res with
    | .error e => .ok (.error e, s)
    | .ok (r, used) =>
      let (rest, s) ← executeBlockTxs hdr txs (i + 1) used s
      match rest with
      | .error e => .ok (.error e, s)
      | .ok (results, total) => .ok (.ok (r :: results, total), s)

/-! ## Validation on a copy -/

/-- `simulateBlockExecutionLocked`: the root and the gas on a copy of the state. -/
def simulateBlockExecution (hdr : Header) (txs : List Transaction) :
    Except Panic (Except NodeError (Hash × U64)) := do
  let (res, work) ← executeBlockTxs g n hdr txs 0 0 n.statedb.copy
  match res with
  | .error e => return .error e
  | .ok (_, totalGas) => return .ok (work.intermediateRoot.1, totalGas)

/-- `ValidateAndExecuteBlock`: the root, and the node, whose state may have cached code. -/
def validateAndExecuteBlock (parent : Header) (block : Block) :
    Except Panic (Except NodeError Hash × Node) :=
  if n.header.number ≠ parent.number ∨ n.header.hash ≠ parent.hash then
    .ok (.error .headMismatch, n)
  else if block.transactions = [] then
    if block.header.gasUsed ≠ 0 then .ok (.error (.gasUsed 0 block.header.gasUsed), n)
    else
      let (root, s) := n.statedb.intermediateRoot
      .ok (.ok root, { n with statedb := s })
  else do
    match ← simulateBlockExecution g n block.header block.transactions with
    | .error e => return (.error e, n)
    | .ok (root, totalGas) =>
      if totalGas ≠ block.header.gasUsed then
        return (.error (.gasUsed totalGas block.header.gasUsed), n)
      else return (.ok root, n)

/-! ## Import into the live state -/

/-- `commitBlockLocked` for one included transaction. -/
def commitResult (block : Block) (n : Node) (e : TxExecResult × ℕ) : Node :=
  let (res, i) := e
  { n with
    txIndex := n.txIndex.set res.txHash
      ⟨block.hash, block.header.number, i, res.ethTx, res.sender, res.txHash⟩
    receipts := n.receipts.set res.txHash
      { res.receipt with blockHash := block.hash, transactionIndex := i }
    pool := n.pool.filter (· ≠ res.txHash)
    allLogs := n.allLogs ++ res.logs.zipIdx.map fun (lg, j) =>
      ⟨lg, block.header.number, block.hash, res.txHash, i, j⟩ }

/-- `commitBlockLocked` -/
def commitBlock (n : Node) (block : Block) (results : List TxExecResult) : Node :=
  results.zipIdx.foldl (commitResult block)
    { n with
      blocks := n.blocks.set block.hash block
      blockNum := n.blockNum.set block.header.number block.hash
      header := block.header
      baseFee := block.header.baseFee.getD n.baseFee }

/-- The node with its state taken back to a snapshot, and an error. -/
def rollback (n : Node) (s : StateDB) (snap : ℕ) (e : NodeError) :
    Except Panic (Option NodeError × Node) := do
  let s ← s.revertToSnapshot snap
  return (some e, { n with statedb := s })

/-- The part of `importCommittedBlockLocked` after the checks of the header. `written` tells whether
the database takes the batch. -/
def applyBlock (written : Bool) (block : Block) : Except Panic (Option NodeError × Node) := do
  let (snap, s) := n.statedb.snapshot
  let (res, s) ← executeBlockTxs g n block.header block.transactions 0 0 s
  match res with
  | .error e => rollback n s snap e
  | .ok (results, totalGas) =>
    if totalGas ≠ block.header.gasUsed then
      rollback n s snap (.gasUsed totalGas block.header.gasUsed)
    else
      let (root, s) := s.intermediateRoot
      if root ≠ block.header.stateRoot then rollback n s snap (.stateRoot root block.header.stateRoot)
      else if !written then rollback n s snap .persist
      else return (none, { n with statedb := s.flush }.commitBlock block results)

/-- `ImportCommittedBlock`: the error it returns, and the node. -/
def importCommittedBlock (written : Bool) (block : Block) : Except Panic (Option NodeError × Node) :=
  match n.blockNum.get? block.header.number with
  | some existing =>
    if existing = block.hash then .ok (none, n) else .ok (some (.conflict block.header.number), n)
  | none =>
    if block.header.number ≠ n.header.number + 1 then
      .ok (some (.notNext block.header.number n.header.number), n)
    else if block.header.parentHash ≠ n.header.hash then .ok (some .parentMismatch, n)
    else applyBlock g n written block

end Node

end Dew
