/-
# Gas limit, base fee and timestamp of accepted blocks

A builder copies the gas limit of the parent, puts the node's base fee into the header and a
timestamp after the parent's. Neither validation nor import compares these fields with anything.
The gas of the transactions is added up in 64 bits and compared with the `GasUsed` of the header, but
not with its `GasLimit`; and the base fee is held against the fee cap of dynamic-fee transactions
only.

`respectsRules_iff` says which of the rules an accepted block keeps.
-/
import Dew.BlockExecution
import Dew.BodyBinding

namespace Dew

namespace Node

variable {g : Geth} {n : Node}

/-- The header that `BuildBlockFromPool` starts with on top of `parent`. -/
def proposalHeader (n : Node) (parent : Header) (height now : U64) (proposer : Address) :
    Header where
  parentHash := parent.hash
  stateRoot := parent.stateRoot
  txRoot := emptyTxRoot
  receiptRoot := emptyTxRoot
  number := height
  timestamp := if now ≤ parent.timestamp then parent.timestamp + 1 else now
  gasLimit := parent.gasLimit
  gasUsed := 0
  baseFee := some n.baseFee
  extraData := parent.extraData
  proposer := proposer

/-! ## What execution says about gas and prices -/

/-- The gas that the transactions of a block used. -/
def gasOf (results : List TxExecResult) : ℕ :=
  (results.map fun r => r.receipt.gasUsed.toNat).sum

/-- The receipt of an included transaction has the price that the node computed, and its gas is
added to what was used before. -/
theorem executeEVMTx_receipt {hdr : Header} {tx : Transaction} {i : ℕ} {start used : U64}
    {s t : StateDB} {res : TxExecResult}
    (h : n.executeEVMTx g hdr tx i start s = .ok (.ok (res, used), t)) :
    effectiveGasPrice res.ethTx (hdr.baseFee.getD n.baseFee) =
        some res.receipt.effectiveGasPrice ∧ used = start + res.receipt.gasUsed := by
  unfold executeEVMTx at h
  split at h
  · cases h
  rename_i ethTx _
  split at h
  · cases h
  rename_i sender _
  split at h
  · cases h
  dsimp only at h
  split at h
  · cases h
  split at h
  · cases h
  rename_i gasPrice hprice
  cases hmsg : messageOf ethTx sender gasPrice with
  | error p =>
      rw [hmsg] at h
      cases h
  | ok msg =>
      rw [hmsg, Program.ok_bind] at h
      cases hrun : Vm.applyMessage g.evm n.config (n.blockContext hdr) msg
          (s.getNonce sender).2 with
      | error p =>
          rw [hrun] at h
          cases h
      | ok out =>
          obtain ⟨r, u⟩ := out
          rw [hrun, Program.ok_bind] at h
          cases r with
          | error e => cases h
          | ok r =>
              cases h
              exact ⟨hprice, rfl⟩

/-- The gas of a block is the sum over its transactions, in 64 bits. -/
theorem executeBlockTxs_receipts {hdr : Header} {txs : List Transaction} {i : ℕ}
    {start total : U64} {s t : StateDB} {results : List TxExecResult}
    (h : n.executeBlockTxs g hdr txs i start s = .ok (.ok (results, total), t)) :
    total.toNat = (start.toNat + gasOf results) % 2 ^ 64 ∧
      ∀ r ∈ results, effectiveGasPrice r.ethTx (hdr.baseFee.getD n.baseFee) =
        some r.receipt.effectiveGasPrice := by
  induction txs generalizing i start s results with
  | nil =>
      cases h
      exact ⟨(Nat.mod_eq_of_lt total.isLt).symm, by simp⟩
  | cons tx txs ih =>
      rcases executeBlockTxs_cons h with ⟨e, herr, -⟩ | ⟨res, used, u, r', hrun, hrest, hr⟩
      · cases herr
      · cases r' with
        | error e => cases hr
        | ok x =>
            obtain ⟨rest, total'⟩ := x
            obtain ⟨rfl, rfl⟩ := Prod.mk.inj (Except.ok.inj hr)
            obtain ⟨hprice, rfl⟩ := executeEVMTx_receipt hrun
            obtain ⟨hgas, hprices⟩ := ih hrest
            refine ⟨?_, ?_⟩
            · rw [hgas, BitVec.toNat_add]
              simp only [gasOf, List.map_cons, List.sum_cons]
              omega
            · intro r hr
              rcases List.mem_cons.mp hr with rfl | hr
              · exact hprice
              · exact hprices r hr

/-- Only dynamic-fee transactions are held against the base fee. -/
theorem baseFee_le_iff {tx : EthTx} {baseFee price : ℕ}
    (h : effectiveGasPrice tx baseFee = some price) :
    baseFee ≤ price ↔ tx.txType = 2 ∨ baseFee ≤ tx.gasPrice := by
  unfold effectiveGasPrice at h
  split at h
  · rename_i htype
    split at h
    · cases h
    · obtain rfl := Option.some.inj h
      simp only [htype, true_or, iff_true]
      omega
  · rename_i htype
    obtain rfl := Option.some.inj h
    simp [htype]

/-! ## Accepted blocks -/

/-- The block is accepted on top of `parent`, and its transactions had the given results: it is
validated with the root of its header, or imported at a height where there is no block yet. -/
inductive Accepts (g : Geth) (n : Node) (parent : Header) (b : Block) (results : List TxExecResult) :
    Prop
  | validated {n' : Node} {total : U64} {s : StateDB}
      (hok : n.validateAndExecuteBlock g parent b = .ok (.ok b.header.stateRoot, n'))
      (hrun : n.executeBlockTxs g b.header b.transactions 0 0 n.statedb.copy =
        .ok (.ok (results, total), s))
  | imported {n' : Node} {total : U64} {s : StateDB} (hparent : parent = n.header)
      (hnew : n.blockNum.get? b.header.number = none)
      (hok : n.importCommittedBlock g true b = .ok (none, n'))
      (hrun : n.executeBlockTxs g b.header b.transactions 0 0 n.statedb.snapshot.2 =
        .ok (.ok (results, total), s))

/-- The rules of gas limit, base fee and timestamp. -/
structure RespectsRules (n : Node) (parent : Header) (b : Block) (results : List TxExecResult) :
    Prop where
  gasUsed : gasOf results = b.header.gasUsed.toNat
  withinLimit : gasOf results ≤ b.header.gasLimit.toNat
  gasLimit : ∀ height now proposer,
    b.header.gasLimit = (n.proposalHeader parent height now proposer).gasLimit
  baseFee : ∀ height now proposer,
    b.header.baseFee = (n.proposalHeader parent height now proposer).baseFee
  timestamp : parent.timestamp < b.header.timestamp
  price : ∀ r ∈ results, ∀ fee ∈ b.header.baseFee, fee ≤ r.receipt.effectiveGasPrice

/-- What has to hold of the header, of the gas that was used and of the decoded transactions. -/
structure Careful (n : Node) (parent : Header) (b : Block) (results : List TxExecResult) :
    Prop where
  gas_lt : gasOf results < 2 ^ 64
  gasUsed_le : b.header.gasUsed ≤ b.header.gasLimit
  gasLimit_eq : b.header.gasLimit = parent.gasLimit
  baseFee_eq : b.header.baseFee = some n.baseFee
  timestamp_lt : parent.timestamp < b.header.timestamp
  price_le : ∀ r ∈ results, r.ethTx.txType ≠ 2 → n.baseFee ≤ r.ethTx.gasPrice

/-- The gas of an accepted block is the one of its header, in 64 bits. -/
theorem Accepts.receipts {parent : Header} {b : Block} {results : List TxExecResult}
    (h : Accepts g n parent b results) :
    b.header.gasUsed.toNat = gasOf results % 2 ^ 64 ∧
      ∀ r ∈ results, effectiveGasPrice r.ethTx (b.header.baseFee.getD n.baseFee) =
        some r.receipt.effectiveGasPrice := by
  have hfinish : ∀ {total : U64} {s s' : StateDB},
      n.executeBlockTxs g b.header b.transactions 0 0 s = .ok (.ok (results, total), s') →
      total = b.header.gasUsed → b.header.gasUsed.toNat = gasOf results % 2 ^ 64 ∧
        ∀ r ∈ results, effectiveGasPrice r.ethTx (b.header.baseFee.getD n.baseFee) =
          some r.receipt.effectiveGasPrice := by
    intro total s s' hrun htotal
    obtain ⟨hgas, hprices⟩ := executeBlockTxs_receipts hrun
    rw [htotal] at hgas
    exact ⟨by simpa using hgas, hprices⟩
  cases h with
  | validated hok hrun =>
      refine hfinish hrun ?_
      unfold validateAndExecuteBlock at hok
      split at hok
      · cases hok
      split at hok
      · rename_i hempty
        rw [hempty] at hrun
        cases hrun
        split at hok
        · cases hok
        · rename_i hgas
          exact (not_not.mp hgas).symm
      · rw [simulateBlockExecution, hrun] at hok
        rename_i total s _ _
        change (if total ≠ b.header.gasUsed then _ else _) = _ at hok
        split at hok
        · cases hok
        · rename_i hgas
          exact not_not.mp hgas
  | imported hparent hnew hok hrun =>
      have happly := importCommittedBlock_new g hnew hok
      obtain ⟨-, results', s', hrun', -⟩ := (applyBlock_ok_iff g n true b _).mp happly
      rw [hrun] at hrun'
      cases hrun'
      exact hfinish hrun rfl

/-- A library with one transaction of an old type at the price 0, which uses all of its gas. -/
def freeGeth (gas : U64) : Geth where
  unmarshal _ := .ok ⟨0, 1, 0, 0, 0, 0, gas, some 9, 0, [], 3⟩
  sender _ _ := .ok 8
  evm _ _ msg := pure ⟨[], none, msg.gasLimit, some "invalid opcode"⟩

/-- A node whose head has the gas limit 30000 and the timestamp 5. -/
def limitedNode (fee : ℕ) : Node :=
  { emptyNode with
    header := ⟨0, 0, emptyTxRoot, emptyTxRoot, 0, 5, 30000, 0, some fee, [], 0⟩
    baseFee := fee }

/-- The next block with the transaction of `freeGeth`. -/
def freeBlock (fee : ℕ) (timestamp gas : U64) (root : Hash) : Block :=
  ⟨⟨(limitedNode fee).header.hash, root, emptyTxRoot, emptyTxRoot, 1, timestamp, 30000, gas, some fee,
    [], 0⟩, [⟨[]⟩]⟩

theorem freeBlock_imported {fee : ℕ} {timestamp gas : U64} {results : List TxExecResult}
    {s : StateDB}
    (hrun : (limitedNode fee).executeBlockTxs (freeGeth gas) (freeBlock fee timestamp gas 0).header
      [⟨[]⟩] 0 0 (limitedNode fee).statedb.snapshot.2 = .ok (.ok (results, gas), s)) :
    Accepts (freeGeth gas) (limitedNode fee) (limitedNode fee).header
      (freeBlock fee timestamp gas s.intermediateRoot.1) results := by
  -- the state root of the header plays no part in the execution
  have hrun' : (limitedNode fee).executeBlockTxs (freeGeth gas)
      (freeBlock fee timestamp gas s.intermediateRoot.1).header [⟨[]⟩] 0 0
      (limitedNode fee).statedb.snapshot.2 = .ok (.ok (results, gas), s) := hrun
  have happly := (applyBlock_ok_iff (freeGeth gas) (limitedNode fee) true
    (freeBlock fee timestamp gas s.intermediateRoot.1) _).mpr ⟨rfl, results, s, hrun', rfl, rfl⟩
  have himport : (limitedNode fee).importCommittedBlock (freeGeth gas) true
      (freeBlock fee timestamp gas s.intermediateRoot.1) =
        (limitedNode fee).applyBlock (freeGeth gas) true
          (freeBlock fee timestamp gas s.intermediateRoot.1) := by
    have hnew : (limitedNode fee).blockNum.get?
        (freeBlock fee timestamp gas s.intermediateRoot.1).header.number = none := rfl
    have hnumber : (freeBlock fee timestamp gas s.intermediateRoot.1).header.number =
        (limitedNode fee).header.number + 1 := (by decide : (1 : U64) = 0 + 1)
    have hhash : (freeBlock fee timestamp gas s.intermediateRoot.1).header.parentHash =
        (limitedNode fee).header.hash := by
      simp only [freeBlock]
    unfold importCommittedBlock
    rw [hnew]
    simp only
    rw [if_neg (not_not.mpr hnumber), if_neg (not_not.mpr hhash)]
  exact .imported rfl rfl (himport.trans happly) hrun'

end Node

end Dew
