/-
# The message executor

`ApplyMessage`: gas is bought, the EVM runs, unused gas is refunded, the tip goes to the proposer,
and the transaction is finalised. The EVM is not part of the source: its run is an arbitrary program
over the methods of the state database.
-/
import Dew.Staking

namespace Dew.Vm

/-- `BlockContext` -/
structure BlockContext where
  number : U64
  time : U64
  gasLimit : U64
  baseFee : ℕ
  coinbase : Address
  chainID : ℕ
deriving DecidableEq, Repr

/-- `Message`; no target means a creation. -/
structure Message where
  sender : Address
  target : Option Address
  value : U256
  gasLimit : U64
  gasPrice : ℕ
  data : Bytes
  noFinalise : Bool
deriving DecidableEq, Repr

/-- The feature flags and parameters of an `Executor`. -/
structure Config where
  dewPrecompiles : Bool
  stakingEnabled : Bool
  nativeSwapEnabled : Bool
  staking : StakingConfig
deriving DecidableEq, Repr

/-- What a run of the EVM returns: data, the address of a created contract, the gas it used, and
whether it failed. -/
structure EvmOutcome where
  ret : Bytes
  created : Option Address
  usedGas : U64
  err : Option String
deriving DecidableEq, Repr

/-- `evm.Create` or `evm.Call` for a message: an arbitrary program. -/
abbrev Evm := Config → BlockContext → Message → StateProgram EvmOutcome

/-- `Result` -/
structure Result where
  usedGas : U64
  maxUsedGas : U64
  err : Option String
  returnData : Bytes
  contractAddress : Option Address
  logs : List Log
  failed : Bool
deriving DecidableEq, Repr

inductive VmError where
  | gasLimitZero
  | gasCostOverflow
  | insufficientForGas
  | insufficientForGasAndValue
deriving DecidableEq, Repr

def VmError.text : VmError → String
  | gasLimitZero => "vm: gas limit is zero"
  | gasCostOverflow => "vm: gas cost overflow"
  | insufficientForGas => "vm: insufficient balance for gas"
  | insufficientForGasAndValue => "vm: insufficient balance for gas + value"

/-- The precompiles that are warm from the start. -/
def warmPrecompiles (cfg : Config) : List Address :=
  (List.range 10).map (fun i => BitVec.ofNat 160 (i + 1)) ++
    if cfg.dewPrecompiles then [0x100, 0x101, 0x102] else []

/-- `NewExecutor` replaces a missing gas limit. -/
def BlockContext.withDefaults (block : BlockContext) : BlockContext :=
  { block with gasLimit := if block.gasLimit = 0 then 30000000 else block.gasLimit }

/-- The gas that is left after the refund, at most a fifth of the gas used. -/
def gasLeftAfterRefund (gasLimit usedGas refund : U64) : U64 :=
  let refund := if usedGas / 5 < refund then usedGas / 5 else refund
  let gasLeft := gasLimit - usedGas + refund
  if gasLimit < gasLeft then gasLimit else gasLeft

/-- The checks of `ApplyMessage` before it changes anything, with the cost of the gas. -/
def buyGas (msg : Message) : StateProgram (Except VmError U256) :=
  if msg.gasLimit = 0 then pure (.error .gasLimitZero)
  else if 2 ^ 256 ≤ msg.gasLimit.toNat * msg.gasPrice then pure (.error .gasCostOverflow)
  else do
    let gasCost : U256 := BitVec.ofNat 256 (msg.gasLimit.toNat * msg.gasPrice)
    let balance : U256 ← (Op.getBalance msg.sender).call
    if balance < gasCost then return .error .insufficientForGas
    let balance : U256 ← (Op.getBalance msg.sender).call
    if balance < gasCost + msg.value then return .error .insufficientForGasAndValue
    return .ok gasCost

/-- The run of the EVM: a call increments the nonce itself, a creation does so inside the EVM. -/
def runEvm (evm : Evm) (cfg : Config) (block : BlockContext) (msg : Message) :
    StateProgram EvmOutcome := do
  match msg.target with
  | none => evm cfg block msg
  | some _ =>
    let nonce : U64 ← (Op.getNonce msg.sender).call
    (Op.setNonceJournaled msg.sender (nonce + 1)).call
    let out ← evm cfg block msg
    return { out with created := none }

/-- The end of a message: unused gas is paid back, and the tip is distributed. -/
def settleGas (cfg : Config) (block : BlockContext) (msg : Message) (out : EvmOutcome) :
    StateProgram U64 := do
  let refund : U64 ← Op.getRefund.call
  let gasLeft := gasLeftAfterRefund msg.gasLimit out.usedGas refund
  let usedGas := msg.gasLimit - gasLeft
  if 0 < msg.gasPrice ∧ gasLeft ≠ 0 then
    let _ ← (Op.addBalancePrev msg.sender (BitVec.ofNat 256 (gasLeft.toNat * msg.gasPrice))).call
  if 0 < msg.gasPrice ∧ usedGas ≠ 0 then
    Staking.distributeProposerIncome block.coinbase
      (BitVec.ofNat 256 (usedGas.toNat * msg.gasPrice)) cfg.stakingEnabled
  return usedGas

/-- `ApplyMessage` up to `Finalise`. -/
def execute (evm : Evm) (cfg : Config) (block : BlockContext) (msg : Message) :
    StateProgram (Except VmError (U64 × EvmOutcome)) := do
  match ← buyGas msg with
  | .error e => return .error e
  | .ok gasCost =>
    let _ ← (Op.subBalance msg.sender gasCost).call
    Op.clearLogs.call
    (Op.prepare msg.sender block.coinbase msg.target (warmPrecompiles cfg)).call
    let out ← runEvm evm cfg block msg
    let usedGas ← settleGas cfg block msg out
    return .ok (usedGas, out)

/-- `ApplyMessage` -/
def applyMessage (evm : Evm) (cfg : Config) (block : BlockContext) (msg : Message) (s : StateDB) :
    Except Panic (Except VmError Result × StateDB) := do
  let (res, s) ← (execute evm cfg block.withDefaults msg).run Op.exec s
  match res with
  | .error e => return (.error e, s)
  | .ok (usedGas, out) =>
    let s := if msg.noFinalise then s else s.finalise true
    return (.ok {
      usedGas := usedGas
      maxUsedGas := usedGas
      err := out.err
      returnData := out.ret
      contractAddress := if out.err.isNone then out.created else none
      logs := s.logs
      failed := out.err.isSome }, s.clearLogs)

end Dew.Vm
