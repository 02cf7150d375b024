/-
# The system precompiles

The contracts at `0x100` (native transfer), `0x101` (orderbook) and `0x102` (staking), as programs.
Besides the state database a precompile reaches the records of value transfers, which all calls of
a message share, and calls ERC-20 tokens through the EVM. `credit` is not in the source: it marks
where an amount is credited on the strength of such a record, for the record of the execution.
-/
import Dew.Orderbook

open Bytes

namespace Dew

/-- `NativeTransferPrecompile` -/
def nativeTransferAddr : Address := 0x100

/-! ## Errors -/

/-- Errors of the precompiles, by their texts. -/
inductive PrecompileError where
  | transferInput
  | stakingDisabled
  | stakingEmptyInput
  | stakingMethod (method : UInt8)
  | needAddress
  | needTwoAddresses
  | bondInput
  | bondValue
  | unbondInput
  | withdrawInput
  | escrowInsolvent
  | activeCountInput
  | activeAtInput
  | activeAtRange
  | jailInput (got : ℕ)
  | evidence (reason : String)
  | delegateInput
  | delegateValue
  | undelegateInput
  | withdrawDelegationInput
  | commissionInput
  | claimInput
  | rewardInsolvent
  | staking (e : StakingError)
  | swapDisabled
  | swapEmptyInput
  | swapMethod
  | placeInput
  | placeBuyValue (quoteLock got : U256)
  | quoteLockMismatch
  | placeSellValue
  | invalidSide
  | cancelInput
  | quoteInsolvent
  | fillInput
  | fillSellValue (quoteNeed got : U256)
  | fillInsolvent
  | excessInsolvent
  | fillBuyValue
  | buyFillInsolvent
  | getOrderInput
  | bestInput
  | escrowInput
  | erc20Failed (method reason : String)
  | erc20False (method : String)
  | orderbook (e : OrderbookError)
deriving DecidableEq, Repr

namespace PrecompileError

def text : PrecompileError → String
  | transferInput => "nativeTransfer: input must be exactly 20-byte recipient"
  | stakingDisabled => "staking precompile: not enabled (set EnableStaking)"
  | stakingEmptyInput => "staking: empty input"
  | stakingMethod m => "staking: unknown method 0x" ++ hexByte m
  | needAddress => "staking: need method + 20-byte address"
  | needTwoAddresses => "staking: need method + two 20-byte addresses"
  | bondInput => "staking: bond input must be single method byte"
  | bondValue => "staking: bond requires non-zero value"
  | unbondInput => "staking: unbond needs method + uint256 amount"
  | withdrawInput => "staking: withdraw takes no args"
  | escrowInsolvent => "staking: module escrow insolvent"
  | activeCountInput => "staking: activeCount takes no args"
  | activeAtInput => "staking: activeAt needs index"
  | activeAtRange => "staking: activeAt out of range"
  | jailInput got => "staking: jail needs dual-vote evidence (229 bytes, got " ++ toString got ++ ")"
  | evidence reason => "staking: evidence " ++ reason
  | delegateInput => "staking: delegate needs method + validator 20"
  | delegateValue => "staking: delegate requires non-zero value"
  | undelegateInput => "staking: undelegate needs validator 20 + amount u256"
  | withdrawDelegationInput => "staking: withdrawDelegation needs validator 20"
  | commissionInput => "staking: setCommission needs bps u256"
  | claimInput => "staking: claimRewards needs method + validator 20"
  | rewardInsolvent => "staking: module reward escrow insolvent"
  | staking e => e.text
  | swapDisabled => "native swap: not enabled (set EnableNativeSwap)"
  | swapEmptyInput => "native swap: empty input"
  | swapMethod => "method"
  | placeInput => "native swap: place input length"
  | placeBuyValue quoteLock got =>
    "native swap: place buy requires CALLVALUE == quoteLock (" ++ toString quoteLock.toNat ++
      " got " ++ toString got.toNat ++ ")"
  | quoteLockMismatch => "native swap: quote lock mismatch"
  | placeSellValue => "native swap: place sell requires zero CALLVALUE"
  | invalidSide => "native swap: invalid side"
  | cancelInput => "native swap: cancel needs orderId"
  | quoteInsolvent => "native swap: quote escrow insolvent"
  | fillInput => "native swap: fill needs orderId + baseAmount"
  | fillSellValue quoteNeed got =>
    "native swap: fill sell needs CALLVALUE >= " ++ toString quoteNeed.toNat ++ " (got " ++
      toString got.toNat ++ ")"
  | fillInsolvent => "native swap: quote insolvent on fill"
  | excessInsolvent => "native swap: excess refund insolvent"
  | fillBuyValue => "native swap: fill buy requires zero CALLVALUE"
  | buyFillInsolvent => "native swap: quote insolvent on buy fill"
  | getOrderInput => "native swap: getOrder needs orderId"
  | bestInput => "native swap: best needs baseToken"
  | escrowInput => "native swap: getEscrow needs maker + baseToken"
  | erc20Failed method reason => "native swap: " ++ method ++ ": " ++ reason
  | erc20False method => "native swap: " ++ method ++ " returned false"
  | orderbook e => e.text
where
  /-- Two hexadecimal digits. -/
  hexByte (b : UInt8) : String :=
    String.ofList [Nat.digitChar (b.toNat / 16), Nat.digitChar (b.toNat % 16)]

end PrecompileError

/-! ## What a precompile can reach -/

/-- What an amount is credited for. -/
inductive CreditKind where
  | bond
  | delegate
  | placeBuy
  | fillSell
deriving DecidableEq, Repr

/-- An amount credited on the strength of a recorded value transfer. -/
structure Credit where
  kind : CreditKind
  account : Address
  amount : U256
deriving DecidableEq, Repr

/-- One access of a precompile. -/
inductive PreOp where
  /-- A method of the state database. -/
  | state (op : Op)
  /-- The payer and the amount of the last transfer recorded for `0x102`. -/
  | stakeRecord
  | consumeStake
  /-- The amount of the last transfer recorded for `0x101`. -/
  | depositValue
  | consumeDeposit
  /-- A call of a token, with its answer or the text of its error. -/
  | token (addr : Address) (data : Bytes)
  | credit (c : Credit)

@[reducible] def PreOp.Result : PreOp → Type
  | state op => op.Result
  | stakeRecord => Address × U256
  | depositValue => U256
  | token _ _ => Except String Bytes
  | _ => Unit

/-- A program of a precompile that may end in an error. -/
abbrev PreProgram (α : Type) := ExceptT PrecompileError (Program PreOp PreOp.Result) α

namespace PreProgram

def access (o : PreOp) : PreProgram o.Result :=
  ExceptT.lift (Program.op o)

/-- A program over the state database as a program of a precompile. -/
def ofState {α : Type} : StateProgram α → Program PreOp PreOp.Result α
  | .pure a => .pure a
  | .call op k => .call (.state op) fun r => ofState (k r)

def state {α : Type} (p : StateProgram α) : PreProgram α :=
  ExceptT.lift (ofState p)

/-- A method of a module, whose error ends the precompile. -/
def attempt {ε α : Type} (wrap : ε → PrecompileError) (p : StateProgram (Except ε α)) :
    PreProgram α := do
  match ← state p with
  | .error e => throw (wrap e)
  | .ok a => return a

end PreProgram

open PreProgram

/-- What a precompile is installed with. -/
structure PreEnv where
  origin : Address
  blockTime : U64
  blockNum : U64
  stakingEnabled : Bool
  nativeSwapEnabled : Bool
  stakingCfg : StakingConfig
  /-- Decoding and verification of double-sign evidence: the offender, or the error text. -/
  evidence : Bytes → Except String Address

/-! ## Input and output words -/

/-- `u256Pad` -/
def u256Pad (v : U256) : Bytes :=
  beBytes 32 v.toNat

def u64Pad (v : U64) : Bytes :=
  beBytes 32 v.toNat

def addressPad (a : Address) : Bytes :=
  beBytes 32 a.toNat

/-- The word at an offset of the input. -/
def wordAt (input : Bytes) (offset : ℕ) : U256 :=
  BitVec.ofNat 256 (ofBytes ((input.drop offset).take 32))

def addressAt (input : Bytes) (offset : ℕ) : Address :=
  BitVec.ofNat 160 (ofBytes ((input.drop offset).take 20))

/-- Ends the precompile with `e` unless the condition holds. -/
def demand (c : Prop) [Decidable c] (e : PrecompileError) : PreProgram Unit :=
  if c then pure () else throw e

/-- A payment out of a module's account, which must hold the amount. -/
def payOut (self dst : Address) (amount : U256) (e : PrecompileError) : PreProgram Unit := do
  let modBal ← access (.state (.getBalance self))
  demand (amount ≤ modBal) e
  let _ ← access (.state (.subBalance self amount))
  let _ ← access (.state (.addBalancePrev dst amount))
  return ()

/-! ## `0x100` -/

def nativeTransferGas : U64 := 3000

/-- `nativeTransferPrecompile.Run`: the whole balance of `0x100` goes to the recipient. -/
def nativeTransferRun (input : Bytes) : PreProgram Bytes := do
  demand (input.length = 20) .transferInput
  let bal ← access (.state (.getBalance nativeTransferAddr))
  if bal = 0 then return u256Pad 0
  let _ ← access (.state (.subBalance nativeTransferAddr bal))
  let _ ← access (.state (.addBalancePrev (addressAt input 0) bal))
  return u256Pad bal

/-! ## `0x102` -/

/-- `RequiredGas` of the staking precompile. -/
def stakingGas (input : Bytes) : U64 :=
  match input.head?.map UInt8.toNat with
  | some 0x00 | some 0x0a => 50000
  | some 0x01 | some 0x08 | some 0x0b | some 0x0c | some 0x12 => 40000
  | some 0x06 => 30000
  | some 0x0d => 30000
  | _ => 2000

/-- `bondCaller`: the payer and the amount of the last recorded transfer. -/
def bondCaller (e : PrecompileError) : PreProgram (Address × U256) := do
  let r ← access .stakeRecord
  demand (r.2 ≠ 0) e
  return r

/-- `readAddr` -/
def readAddr (input : Bytes) : PreProgram Address := do
  demand (input.length = 21) .needAddress
  return addressAt input 1

/-- `readTwoAddr` -/
def readTwoAddr (input : Bytes) : PreProgram (Address × Address) := do
  demand (input.length = 41) .needTwoAddresses
  return (addressAt input 1, addressAt input 21)

namespace StakingPrecompile

def bond (env : PreEnv) (input : Bytes) : PreProgram Bytes := do
  demand (input.length = 1) .bondInput
  let (bonder, amt) ← bondCaller .bondValue
  attempt .staking (Staking.bond (newStakingModule env.stakingCfg) bonder amt)
  access (.credit ⟨.bond, bonder, amt⟩)
  access .consumeStake
  return u256Pad amt

def unbond (env : PreEnv) (input : Bytes) : PreProgram Bytes := do
  demand (input.length = 33) .unbondInput
  let amount := wordAt input 1
  attempt .staking
    (Staking.unbond (newStakingModule env.stakingCfg) env.origin amount env.blockTime)
  return u256Pad amount

def withdraw (env : PreEnv) (input : Bytes) : PreProgram Bytes := do
  demand (input.length = 1) .withdrawInput
  let out ← attempt .staking (Staking.withdraw env.origin env.blockTime)
  payOut stakingModuleAddr env.origin out .escrowInsolvent
  return u256Pad out

def pendingUnbond (input : Bytes) : PreProgram Bytes := do
  let addr ← readAddr input
  let (amt, unlock) ← state (Staking.pendingUnbond addr)
  return u256Pad amt ++ u64Pad unlock

def activeCount (env : PreEnv) (input : Bytes) : PreProgram Bytes := do
  demand (input.length = 1) .activeCountInput
  let set ← state (Staking.activeSet (newStakingModule env.stakingCfg))
  return u64Pad (BitVec.ofNat 64 set.length)

def activeAt (env : PreEnv) (input : Bytes) : PreProgram Bytes := do
  demand (input.length = 33) .activeAtInput
  let set ← state (Staking.activeSet (newStakingModule env.stakingCfg))
  match set[((wordAt input 1).setWidth 64).toNat]? with
  | none => throw .activeAtRange
  | some c => return addressPad c.address

/-- Evidence of a double sign: the method byte and two votes of 114 bytes. -/
def jail (env : PreEnv) (input : Bytes) : PreProgram Bytes := do
  demand (input.length = 229) (.jailInput input.length)
  match env.evidence input.tail with
  | .error reason => throw (.evidence reason)
  | .ok offender => return u256Pad (← state (Staking.slashAndJail offender))

def delegate (input : Bytes) : PreProgram Bytes := do
  demand (input.length = 21) .delegateInput
  let (delegator, amt) ← bondCaller .delegateValue
  attempt .staking (Staking.delegate (addressAt input 1) delegator amt)
  access (.credit ⟨.delegate, delegator, amt⟩)
  access .consumeStake
  return u256Pad amt

def undelegate (env : PreEnv) (input : Bytes) : PreProgram Bytes := do
  demand (input.length = 53) .undelegateInput
  let amount := wordAt input 21
  attempt .staking (Staking.undelegate (newStakingModule env.stakingCfg) (addressAt input 1)
    env.origin amount env.blockTime)
  return u256Pad amount

def withdrawDelegation (env : PreEnv) (input : Bytes) : PreProgram Bytes := do
  demand (input.length = 21) .withdrawDelegationInput
  let out ← attempt .staking
    (Staking.withdrawDelegation (addressAt input 1) env.origin env.blockTime)
  payOut stakingModuleAddr env.origin out .escrowInsolvent
  return u256Pad out

def setCommission (env : PreEnv) (input : Bytes) : PreProgram Bytes := do
  demand (input.length = 33) .commissionInput
  let bps : U64 := (wordAt input 1).setWidth 64
  attempt .staking (Staking.setCommission env.origin bps)
  return u64Pad bps

def pendingUndelegation (input : Bytes) : PreProgram Bytes := do
  let (val, del) ← readTwoAddr input
  let (amt, unlock) ← state (Staking.pendingUndelegation val del)
  return u256Pad amt ++ u64Pad unlock

def claimRewards (env : PreEnv) (input : Bytes) : PreProgram Bytes := do
  demand (input.length = 21) .claimInput
  let amt ← attempt .staking (Staking.claimRewards (addressAt input 1) env.origin)
  payOut stakingModuleAddr env.origin amt .rewardInsolvent
  return u256Pad amt

/-- The methods that look up one word about an address. -/
def lookup (input : Bytes) (query : Address → StateProgram U256) : PreProgram Bytes := do
  let addr ← readAddr input
  return u256Pad (← state (query addr))

/-- The methods that look up one word about a validator and a delegator. -/
def lookupPair (input : Bytes) (query : Address → Address → StateProgram U256) :
    PreProgram Bytes := do
  let (val, del) ← readTwoAddr input
  return u256Pad (← state (query val del))

/-- `IsJailed` as a word. -/
def isJailedWord (addr : Address) : StateProgram U256 := do
  return if ← Staking.isJailed addr then 1 else 0

/-- `CommissionBps` as a word. -/
def commissionWord (addr : Address) : StateProgram U256 := do
  return (← Staking.commissionBps addr).setWidth 256

/-- The method of an input byte. -/
def method (env : PreEnv) (input : Bytes) (m : UInt8) : PreProgram Bytes :=
  match m.toNat with
  | 0x00 => bond env input
  | 0x01 => unbond env input
  | 0x02 => lookup input Staking.selfStake
  | 0x03 => lookup input Staking.votingPower
  | 0x04 => activeCount env input
  | 0x05 => activeAt env input
  | 0x06 => jail env input
  | 0x07 => lookup input isJailedWord
  | 0x08 => withdraw env input
  | 0x09 => pendingUnbond input
  | 0x0a => delegate input
  | 0x0b => undelegate env input
  | 0x0c => withdrawDelegation env input
  | 0x0d => setCommission env input
  | 0x0e => lookupPair input Staking.delegation
  | 0x0f => lookup input commissionWord
  | 0x10 => lookup input Staking.delegatedTotal
  | 0x11 => pendingUndelegation input
  | 0x12 => claimRewards env input
  | 0x13 => lookupPair input Staking.pendingRewards
  | _ => throw (.stakingMethod m)

/-- `stakingPrecompile.Run` -/
def run (env : PreEnv) (input : Bytes) : PreProgram Bytes := do
  demand (env.stakingEnabled = true) .stakingDisabled
  match input with
  | [] => throw .stakingEmptyInput
  | m :: _ => method env input m

end StakingPrecompile

/-! ## `0x101` -/

/-- `RequiredGas` of the orderbook precompile. -/
def orderbookGas (input : Bytes) : U64 :=
  match input.head?.map UInt8.toNat with
  | some 0x00 => 50000
  | some 0x01 => 30000
  | some 0x02 => 80000
  | _ => 3000

namespace OrderbookPrecompile

/-- `erc20Success`: some tokens return nothing. -/
def erc20Success (ret : Bytes) : Bool :=
  ret = [] || ofBytes ret != 0

/-- The call of a token and the check of its answer. -/
def erc20Call (name : String) (token : Address) (data : Bytes) : PreProgram Unit := do
  match ← access (.token token data) with
  | .error reason => throw (.erc20Failed name reason)
  | .ok ret => demand (erc20Success ret = true) (.erc20False name)

def erc20TransferFrom (token src dst : Address) (amount : U256) : PreProgram Unit :=
  if amount = 0 then pure ()
  else erc20Call "transferFrom" token
    ([0x23, 0xb8, 0x72, 0xdd] ++ addressPad src ++ addressPad dst ++ u256Pad amount)

def erc20Transfer (token dst : Address) (amount : U256) : PreProgram Unit :=
  if amount = 0 then pure ()
  else erc20Call "transfer" token ([0xa9, 0x05, 0x9c, 0xbb] ++ addressPad dst ++ u256Pad amount)

/-- A payment out of the module's account, unless there is nothing to pay. -/
def payQuote (dst : Address) (amount : U256) (e : PrecompileError) : PreProgram Unit :=
  if amount = 0 then pure () else payOut orderbookModuleAddr dst amount e

def place (env : PreEnv) (input : Bytes) : PreProgram Bytes := do
  demand (input.length = 86) .placeInput
  let side : U8 := (input.getD 1 0).toBitVec
  let token := addressAt input 2
  let price := wordAt input 22
  let baseAmt := wordAt input 54
  if side = orderSideBuy then
    let quoteLock := Orderbook.quoteLockCeil baseAmt price
    let val ← access .depositValue
    demand (val = quoteLock) (.placeBuyValue quoteLock val)
    let (id, lock) ← attempt .orderbook
      (Orderbook.placeBuy env.origin token price baseAmt env.blockNum)
    demand (lock = quoteLock) .quoteLockMismatch
    access (.credit ⟨.placeBuy, env.origin, lock⟩)
    access .consumeDeposit
    return u64Pad id
  else if side = orderSideSell then
    let val ← access .depositValue
    demand (val = 0) .placeSellValue
    erc20TransferFrom token env.origin orderbookModuleAddr baseAmt
    let id ← attempt .orderbook
      (Orderbook.placeSell env.origin token price baseAmt env.blockNum)
    return u64Pad id
  else throw .invalidSide

def cancel (env : PreEnv) (input : Bytes) : PreProgram Bytes := do
  demand (input.length = 33) .cancelInput
  let refund ← attempt .orderbook (Orderbook.cancel env.origin ((wordAt input 1).setWidth 64))
  payQuote env.origin refund.quote .quoteInsolvent
  erc20Transfer refund.token env.origin refund.base
  return []

/-- `packFillOut` -/
def packFillOut (baseFilled quotePaid : U256) : Bytes :=
  u256Pad baseFilled ++ u256Pad quotePaid

/-- The part of an excess that is refunded: `Sign` takes the word as a signed number, and refunds
nothing when it is negative. -/
def refundable (excess : U256) : U256 :=
  if 0 < excess.toInt then excess else 0

/-- A fill of a sell order: the taker pays quote out of the deposit and receives base. -/
def fillSell (env : PreEnv) (o : Order) (id : U64) (maxBase quoteNeed : U256) :
    PreProgram Bytes := do
  let val ← access .depositValue
  demand (quoteNeed ≤ val) (.fillSellValue quoteNeed val)
  let (baseFilled, quotePaid) ← attempt .orderbook (Orderbook.fill env.origin id maxBase)
  erc20Transfer o.baseToken env.origin baseFilled
  payQuote o.maker quotePaid .fillInsolvent
  let excess := refundable (val - quotePaid)
  payQuote env.origin excess .excessInsolvent
  access (.credit ⟨.fillSell, env.origin, quotePaid + excess⟩)
  access .consumeDeposit
  return packFillOut baseFilled quotePaid

/-- A fill of a buy order: the taker delivers base and receives quote from the escrow. -/
def fillBuy (env : PreEnv) (o : Order) (id : U64) (maxBase fillBase : U256) :
    PreProgram Bytes := do
  let val ← access .depositValue
  demand (val = 0) .fillBuyValue
  erc20TransferFrom o.baseToken env.origin orderbookModuleAddr fillBase
  let (baseFilled, quotePaid) ← attempt .orderbook (Orderbook.fill env.origin id maxBase)
  if baseFilled < fillBase then
    erc20Transfer o.baseToken env.origin (fillBase - baseFilled)
  erc20Transfer o.baseToken o.maker baseFilled
  payQuote env.origin quotePaid .buyFillInsolvent
  return packFillOut baseFilled quotePaid

def fill (env : PreEnv) (input : Bytes) : PreProgram Bytes := do
  demand (input.length = 65) .fillInput
  let id : U64 := (wordAt input 1).setWidth 64
  let maxBase := wordAt input 33
  match ← state (Orderbook.getOrder id) with
  | none => throw (.orderbook .orderNotFound)
  | some o =>
    demand (o.status = orderStatusOpen) (.orderbook .orderNotOpen)
    let fillBase := if o.baseOpen < maxBase then o.baseOpen else maxBase
    if o.side = orderSideSell then
      fillSell env o id maxBase (Orderbook.quoteFloor fillBase o.priceX18)
    else fillBuy env o id maxBase fillBase

def getOrder (input : Bytes) : PreProgram Bytes := do
  demand (input.length = 33) .getOrderInput
  match ← state (Orderbook.getOrder ((wordAt input 1).setWidth 64)) with
  | none => return []
  | some o =>
    return u64Pad o.id ++ addressPad o.maker ++ addressPad o.baseToken ++
      u256Pad (o.side.setWidth 256) ++ u256Pad o.priceX18 ++ u256Pad o.baseOpen ++
      u256Pad o.baseOrig ++ u64Pad o.createdAt ++ u256Pad (o.status.setWidth 256)

def best (input : Bytes) (query : Address → StateProgram (Option (U256 × U64))) :
    PreProgram Bytes := do
  demand (input.length = 21) .bestInput
  match ← state (query (addressAt input 1)) with
  | none => return u256Pad 0 ++ u256Pad 0
  | some (price, id) => return u256Pad price ++ u64Pad id

def getEscrow (input : Bytes) : PreProgram Bytes := do
  demand (input.length = 41) .escrowInput
  let base ← state (Orderbook.escrowBase (addressAt input 1) (addressAt input 21))
  let quote ← state (Orderbook.escrowQuote (addressAt input 1))
  return u256Pad base ++ u256Pad quote

/-- The method of an input byte. -/
def method (env : PreEnv) (input : Bytes) (m : UInt8) : PreProgram Bytes :=
  match m.toNat with
  | 0x00 => place env input
  | 0x01 => cancel env input
  | 0x02 => fill env input
  | 0x03 => getOrder input
  | 0x04 => best input Orderbook.bestBid
  | 0x05 => best input Orderbook.bestAsk
  | 0x06 => getEscrow input
  | _ => throw .swapMethod

/-- `orderbookPrecompile.Run` -/
def run (env : PreEnv) (input : Bytes) : PreProgram Bytes := do
  demand (env.nativeSwapEnabled = true) .swapDisabled
  match input with
  | [] => throw .swapEmptyInput
  | m :: _ => method env input m

end OrderbookPrecompile

end Dew
