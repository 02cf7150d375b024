/-
# The staking module

The staking module keeps its state in storage slots of the system account `0x102`. Its methods are
programs over the state database interface, written as the source writes them: every write goes
through `SetState`, which leaves no journal entry. Amounts are 256-bit and wrap around; division by
zero gives zero.

`distributeProposerIncome` splits a fee or tip between the block proposer and its delegators.
-/
import Dew.Credits
import Dew.Ledger

namespace Dew

/-- A storage slot of a native module: the digest of a domain tag and its arguments. -/
def slotHash (parts : List Bytes) : Hash :=
  keccak256Hash parts.flatten

/-- The eight bytes of an index, most significant first. -/
def u64BE (i : U64) : Bytes :=
  Bytes.beBytes 8 i.toNat

/-- `uint256.MustFromBig`, which panics on integers of more than 256 bits. -/
def mustFromBig (n : ℕ) : StateProgram U256 :=
  if n < 2 ^ 256 then pure (BitVec.ofNat 256 n)
  else do
    let e ← (Op.panic .integerOverflow).call
    nomatch e

/-- `StakingModuleAddr` -/
def stakingModuleAddr : Address := 0x102

/-- `MaxCommissionBps`, one hundred percent in basis points. -/
def maxCommissionBps : U64 := 10000

/-- `StakeRatePrecision`, the scale of exchange rates and reward indexes. -/
def stakePrecision : U256 := 1000000000000000000

/-- `DoubleSignSelfBurnBps`; the cap by `MaxCommissionBps` in `SlashAndJail` does not bind. -/
def doubleSignSelfBurnBps : U64 := 10000

/-- `DoubleSignDelegatorBurnBps` -/
def doubleSignDelegatorBurnBps : U64 := 500

/-- `StakingConfig`, without the epoch length, which no method of the module reads. -/
structure StakingConfig where
  minSelfStake : Option ℕ
  activeCap : U64
  unbondSeconds : U64
deriving DecidableEq, Repr

/-- `MinValidatorStakeWei` -/
def minValidatorStakeWei : ℕ := 100000 * 10 ^ 18

/-- `DefaultStakingConfig` -/
def defaultStakingConfig : StakingConfig where
  minSelfStake := some minValidatorStakeWei
  activeCap := 100
  unbondSeconds := 604800

/-- The parameters of a `StakingModule`. -/
structure StakingModule where
  minSelfStake : ℕ
  activeCap : U64
  unbondSeconds : U64
deriving DecidableEq, Repr

/-- `NewStakingModule`: missing parameters get their defaults. -/
def newStakingModule (cfg : StakingConfig) : StakingModule where
  minSelfStake := cfg.minSelfStake.getD minValidatorStakeWei
  activeCap := if cfg.activeCap = 0 then 100 else cfg.activeCap
  unbondSeconds := cfg.unbondSeconds

/-- Errors of the staking module, by their texts. -/
inductive StakingError where
  | zeroBond
  | zeroUnbond
  | jailed
  | insufficientStake
  | noPendingUnbond
  | unbondingNotElapsed (unlockAt now : U64)
  | zeroDelegate
  | selfDelegate
  | delegateTooSmall
  | zeroUndelegate
  | insufficientDelegation
  | undelegateTooSmall
  | delegatedTotalUnderflow
  | noPendingUndelegation
  | undelegationNotElapsed (unlockAt now : U64)
  | commissionTooHigh
  | noRewards
deriving DecidableEq, Repr

namespace StakingError

def text : StakingError → String
  | zeroBond => "staking: zero bond"
  | zeroUnbond => "staking: zero unbond"
  | jailed => "staking: jailed"
  | insufficientStake => "staking: insufficient stake"
  | noPendingUnbond => "staking: no pending unbond"
  | unbondingNotElapsed unlockAt now =>
    "staking: unbonding period not elapsed (unlockAt=" ++ toString unlockAt.toNat ++ " now=" ++
      toString now.toNat ++ ")"
  | zeroDelegate => "staking: zero delegate"
  | selfDelegate => "staking: self-delegate forbidden (use bond)"
  | delegateTooSmall => "staking: delegate amount too small for rate"
  | zeroUndelegate => "staking: zero undelegate"
  | insufficientDelegation => "staking: insufficient delegation"
  | undelegateTooSmall => "staking: undelegate amount too small for rate"
  | delegatedTotalUnderflow => "staking: delegated total underflow"
  | noPendingUndelegation => "staking: no pending undelegation"
  | undelegationNotElapsed unlockAt now =>
    "staking: undelegation period not elapsed (unlockAt=" ++ toString unlockAt.toNat ++ " now=" ++
      toString now.toNat ++ ")"
  | commissionTooHigh => "staking: commission bps > 10000"
  | noRewards => "staking: no rewards"

end StakingError

namespace Staking

/-! ## Slots -/

def selfSlot (addr : Address) : Hash := slotHash [ascii "dew/stake/v1/self", addr.bytes]
def jailedSlot (addr : Address) : Hash := slotHash [ascii "dew/stake/v1/jailed", addr.bytes]
def candSlot (addr : Address) : Hash := slotHash [ascii "dew/stake/v1/cand", addr.bytes]
def lenSlot : Hash := slotHash [ascii "dew/stake/v1/candlen"]
def idxSlot (i : U64) : Hash := slotHash [ascii "dew/stake/v1/candi", u64BE i]
def unbondAmtSlot (addr : Address) : Hash := slotHash [ascii "dew/stake/v1/unbondAmt", addr.bytes]
def unbondAtSlot (addr : Address) : Hash := slotHash [ascii "dew/stake/v1/unbondAt", addr.bytes]
def delSlot (val del : Address) : Hash :=
  slotHash [ascii "dew/stake/v1/del", val.bytes, del.bytes]
def delTotSlot (val : Address) : Hash := slotHash [ascii "dew/stake/v1/delTot", val.bytes]
def commSlot (val : Address) : Hash := slotHash [ascii "dew/stake/v1/comm", val.bytes]
def delUnbondAmtSlot (val del : Address) : Hash :=
  slotHash [ascii "dew/stake/v1/delUnbondAmt", val.bytes, del.bytes]
def delUnbondAtSlot (val del : Address) : Hash :=
  slotHash [ascii "dew/stake/v1/delUnbondAt", val.bytes, del.bytes]
def delRateSlot (val : Address) : Hash := slotHash [ascii "dew/stake/v1/delRate", val.bytes]
def rewIdxSlot (val : Address) : Hash := slotHash [ascii "dew/stake/v1/rewIdx", val.bytes]
def rewDebtSlot (val del : Address) : Hash :=
  slotHash [ascii "dew/stake/v1/rewDebt", val.bytes, del.bytes]
def rewPendSlot (val del : Address) : Hash :=
  slotHash [ascii "dew/stake/v1/rewPend", val.bytes, del.bytes]

/-- A word of the module's storage. -/
def load (slot : Hash) : StateProgram U256 :=
  (Op.getState ⟨stakingModuleAddr, slot⟩).call

def store (slot : Hash) (v : U256) : StateProgram Unit :=
  (Op.setState ⟨stakingModuleAddr, slot⟩ v).call

/-! ## Queries -/

def selfStake (addr : Address) : StateProgram U256 :=
  load (selfSlot addr)

def isJailed (addr : Address) : StateProgram Bool := do
  let v ← load (jailedSlot addr)
  return v != 0

def isCandidate (addr : Address) : StateProgram Bool := do
  let v ← load (candSlot addr)
  return v != 0

/-- `DelRate`: an unset rate is one. -/
def delRate (validator : Address) : StateProgram U256 := do
  let r ← load (delRateSlot validator)
  return if r = 0 then stakePrecision else r

def delegationShares (validator delegator : Address) : StateProgram U256 :=
  load (delSlot validator delegator)

def delegatedTotalShares (validator : Address) : StateProgram U256 :=
  load (delTotSlot validator)

def sharesToWei (validator : Address) (shares : U256) : StateProgram U256 :=
  if shares = 0 then pure 0
  else do
    let rate ← delRate validator
    return shares * rate / stakePrecision

def weiToShares (validator : Address) (wei : U256) : StateProgram U256 :=
  if wei = 0 then pure 0
  else do
    let rate ← delRate validator
    return wei * stakePrecision / rate

def delegation (validator delegator : Address) : StateProgram U256 := do
  sharesToWei validator (← delegationShares validator delegator)

def delegatedTotal (validator : Address) : StateProgram U256 := do
  sharesToWei validator (← delegatedTotalShares validator)

def commissionBps (validator : Address) : StateProgram U64 := do
  let v ← load (commSlot validator)
  return v.setWidth 64

def pendingUndelegation (validator delegator : Address) : StateProgram (U256 × U64) := do
  let amount ← load (delUnbondAmtSlot validator delegator)
  let unlockAt ← load (delUnbondAtSlot validator delegator)
  return (amount, unlockAt.setWidth 64)

def votingPower (addr : Address) : StateProgram U256 := do
  if ← isJailed addr then return 0
  if !(← isCandidate addr) then return 0
  let self ← selfStake addr
  let total ← delegatedTotal addr
  return self + total

def pendingUnbond (addr : Address) : StateProgram (U256 × U64) := do
  let amount ← load (unbondAmtSlot addr)
  let unlockAt ← load (unbondAtSlot addr)
  return (amount, unlockAt.setWidth 64)

def rewardIndex (validator : Address) : StateProgram U256 :=
  load (rewIdxSlot validator)

/-! ## Bonding -/

def registerCandidate (addr : Address) : StateProgram Unit := do
  if ← isCandidate addr then return ()
  store (candSlot addr) 1
  let n ← load lenSlot
  let n : U64 := n.setWidth 64
  store (idxSlot n) (addr.setWidth 256)
  store lenSlot ((n + 1).setWidth 256)

def bond (m : StakingModule) (addr : Address) (amount : U256) :
    StateProgram (Except StakingError Unit) :=
  if amount = 0 then pure (.error .zeroBond)
  else do
    let cur ← selfStake addr
    let next := cur + amount
    store (selfSlot addr) next
    let min ← mustFromBig m.minSelfStake
    if min ≤ next then
      if !(← isCandidate addr) then registerCandidate addr
    return .ok ()

def unbond (m : StakingModule) (addr : Address) (amount : U256) (now : U64) :
    StateProgram (Except StakingError Unit) :=
  if amount = 0 then pure (.error .zeroUnbond)
  else do
    if ← isJailed addr then return .error .jailed
    let cur ← selfStake addr
    if cur < amount then return .error .insufficientStake
    let next := cur - amount
    store (selfSlot addr) next
    let min ← mustFromBig m.minSelfStake
    if next < min then store (candSlot addr) 0
    let unlock := now + m.unbondSeconds
    let (pending, oldUnlock) ← pendingUnbond addr
    store (unbondAmtSlot addr) (pending + amount)
    store (unbondAtSlot addr) ((if unlock < oldUnlock then oldUnlock else unlock).setWidth 256)
    return .ok ()

def withdraw (addr : Address) (now : U64) : StateProgram (Except StakingError U256) := do
  let (pending, unlockAt) ← pendingUnbond addr
  if pending = 0 then return .error .noPendingUnbond
  if now < unlockAt then return .error (.unbondingNotElapsed unlockAt now)
  store (unbondAmtSlot addr) 0
  store (unbondAtSlot addr) 0
  return .ok pending

/-! ## Slashing -/

def jail (addr : Address) : StateProgram Unit := do
  store (jailedSlot addr) 1
  store (candSlot addr) 0

/-- `SlashAndJail`, returning what was burned; an already jailed validator is left alone. -/
def slashAndJail (addr : Address) : StateProgram U256 := do
  if ← isJailed addr then return 0
  let self ← selfStake addr
  let selfBurn := self * doubleSignSelfBurnBps.setWidth 256 / maxCommissionBps.setWidth 256
  if selfBurn ≠ 0 then store (selfSlot addr) (self - selfBurn)
  let delEff ← delegatedTotal addr
  let delBurn := delEff * doubleSignDelegatorBurnBps.setWidth 256 / maxCommissionBps.setWidth 256
  if delBurn ≠ 0 ∧ delEff ≠ 0 then
    let rate ← delRate addr
    let remainBps := maxCommissionBps - doubleSignDelegatorBurnBps
    let newRate := rate * remainBps.setWidth 256 / maxCommissionBps.setWidth 256
    store (delRateSlot addr) (if newRate = 0 ∧ 0 < remainBps then 1 else newRate)
  let totalBurn := selfBurn + delBurn
  let burned ←
    if totalBurn = 0 then pure 0
    else do
      let bal : U256 ← (Op.getBalance stakingModuleAddr).call
      let burned := if bal < totalBurn then bal else totalBurn
      if burned ≠ 0 then
        let _ ← (Op.subBalance stakingModuleAddr burned).call
      pure burned
  jail addr
  return burned

/-! ## Rewards and delegation -/

def rewardDebt (validator delegator : Address) : StateProgram U256 :=
  load (rewDebtSlot validator delegator)

def setRewardDebt (validator delegator : Address) (debt : U256) : StateProgram Unit :=
  store (rewDebtSlot validator delegator) debt

def pendingStored (validator delegator : Address) : StateProgram U256 :=
  load (rewPendSlot validator delegator)

def setPendingStored (validator delegator : Address) (v : U256) : StateProgram Unit :=
  store (rewPendSlot validator delegator) v

def rewardDebtForShares (validator : Address) (shares : U256) : StateProgram U256 :=
  if shares = 0 then pure 0
  else do
    let idx ← rewardIndex validator
    return shares * idx / stakePrecision

/-- `settleRewards`: what the index accrued since the last settlement becomes pending. -/
def settleRewards (validator delegator : Address) : StateProgram Unit := do
  let shares ← delegationShares validator delegator
  let owed ← rewardDebtForShares validator shares
  let debt ← rewardDebt validator delegator
  if debt < owed then
    let pend ← pendingStored validator delegator
    setPendingStored validator delegator (pend + (owed - debt))
  setRewardDebt validator delegator owed

/-- `PendingRewards`, which settles first and so writes. -/
def pendingRewards (validator delegator : Address) : StateProgram U256 := do
  settleRewards validator delegator
  pendingStored validator delegator

def claimRewards (validator delegator : Address) : StateProgram (Except StakingError U256) := do
  settleRewards validator delegator
  let pend ← pendingStored validator delegator
  if pend = 0 then return .error .noRewards
  setPendingStored validator delegator 0
  return .ok pend

def delegate (validator delegator : Address) (amount : U256) :
    StateProgram (Except StakingError Unit) :=
  if amount = 0 then pure (.error .zeroDelegate)
  else if validator = delegator then pure (.error .selfDelegate)
  else do
    settleRewards validator delegator
    let sharesAdd ← weiToShares validator amount
    if sharesAdd = 0 then return .error .delegateTooSmall
    let cur ← delegationShares validator delegator
    let next := cur + sharesAdd
    store (delSlot validator delegator) next
    let tot ← delegatedTotalShares validator
    store (delTotSlot validator) (tot + sharesAdd)
    let debt ← rewardDebtForShares validator next
    setRewardDebt validator delegator debt
    return .ok ()

def undelegate (m : StakingModule) (validator delegator : Address) (amount : U256) (now : U64) :
    StateProgram (Except StakingError Unit) :=
  if amount = 0 then pure (.error .zeroUndelegate)
  else do
    settleRewards validator delegator
    let curEff ← delegation validator delegator
    if curEff < amount then return .error .insufficientDelegation
    let sharesWant ← weiToShares validator amount
    if sharesWant = 0 then return .error .undelegateTooSmall
    let curShares ← delegationShares validator delegator
    let sharesSub := if curShares < sharesWant then curShares else sharesWant
    let nextShares := curShares - sharesSub
    store (delSlot validator delegator) nextShares
    let totShares ← delegatedTotalShares validator
    if totShares < sharesSub then return .error .delegatedTotalUnderflow
    store (delTotSlot validator) (totShares - sharesSub)
    let debt ← rewardDebtForShares validator nextShares
    setRewardDebt validator delegator debt
    let unlock := now + m.unbondSeconds
    let (pending, oldUnlock) ← pendingUndelegation validator delegator
    store (delUnbondAmtSlot validator delegator) (pending + amount)
    store (delUnbondAtSlot validator delegator)
      ((if unlock < oldUnlock then oldUnlock else unlock).setWidth 256)
    return .ok ()

def withdrawDelegation (validator delegator : Address) (now : U64) :
    StateProgram (Except StakingError U256) := do
  let (pending, unlockAt) ← pendingUndelegation validator delegator
  if pending = 0 then return .error .noPendingUndelegation
  if now < unlockAt then return .error (.undelegationNotElapsed unlockAt now)
  store (delUnbondAmtSlot validator delegator) 0
  store (delUnbondAtSlot validator delegator) 0
  return .ok pending

def setCommission (validator : Address) (bps : U64) : StateProgram (Except StakingError Unit) :=
  if maxCommissionBps < bps then pure (.error .commissionTooHigh)
  else do
    store (commSlot validator) (bps.setWidth 256)
    return .ok ()

def increaseRewardIndex (validator : Address) (delPart shares : U256) : StateProgram Unit :=
  if delPart = 0 ∨ shares = 0 then pure ()
  else
    let inc := delPart * stakePrecision / shares
    if inc = 0 then pure ()
    else do
      let idx ← rewardIndex validator
      store (rewIdxSlot validator) (idx + inc)

/-! ## The active set -/

structure Candidate where
  address : Address
  votingPower : U256
deriving DecidableEq, Repr

/-- The candidate of one entry of the list, if it is eligible. -/
def eligible (min : U256) (i : U64) : StateProgram (Option Candidate) := do
  let h ← load (idxSlot i)
  let addr : Address := h.setWidth 160
  if addr = 0 then return none
  if !(← isCandidate addr) then return none
  if ← isJailed addr then return none
  let self ← selfStake addr
  if self < min then return none
  let vp ← votingPower addr
  if vp = 0 then return none
  return some ⟨addr, vp⟩

/-- The eligible candidates of the entries from `i` on, `n` of them. -/
def candidatesFrom (min : U256) : ℕ → U64 → StateProgram (List Candidate)
  | 0, _ => pure []
  | n + 1, i => do
    let c ← eligible min i
    let rest ← candidatesFrom min n (i + 1)
    return c.toList ++ rest

/-- Higher power first, lower address first among equals. -/
def Candidate.before (a b : Candidate) : Bool :=
  if a.votingPower = b.votingPower then decide (a.address ≤ b.address)
  else decide (b.votingPower < a.votingPower)

def activeSet (m : StakingModule) : StateProgram (List Candidate) := do
  let n ← load lenSlot
  let min ← mustFromBig m.minSelfStake
  let list ← candidatesFrom min (n.setWidth 64).toNat 0
  return (list.mergeSort Candidate.before).take m.activeCap.toNat

/-! ## Proposer income -/

/-- The proposer's part of an income: `amount * (S * 10000 + D * c) / ((S + D) * 10000)`, at most
the whole. -/
def validatorPart (amount self delegated : U256) (commission : U64) : U256 :=
  let num := self * maxCommissionBps.setWidth 256 + delegated * commission.setWidth 256
  let den := (self + delegated) * maxCommissionBps.setWidth 256
  let part := amount * num / den
  if amount < part then amount else part

/-- `AddBalancePrev`, unless there is nothing to add. -/
def pay (addr : Address) (amount : U256) : StateProgram Unit :=
  if amount = 0 then pure ()
  else do
    let _ ← (Op.addBalancePrev addr amount).call

/-- The delegators' part is kept by the module, or goes to the proposer when nobody delegates. -/
def payDelegators (proposer : Address) (delPart : U256) : StateProgram Unit :=
  if delPart = 0 then pure ()
  else do
    let shares ← delegatedTotalShares proposer
    if shares = 0 then pay proposer delPart
    else
      pay stakingModuleAddr delPart
      increaseRewardIndex proposer delPart shares

/-- `DistributeProposerIncome` -/
def distributeProposerIncome (proposer : Address) (amount : U256) (stakingEnabled : Bool) :
    StateProgram Unit :=
  if amount = 0 then pure ()
  else if !stakingEnabled then pay proposer amount
  else do
    let self ← selfStake proposer
    let delegated ← delegatedTotal proposer
    if self + delegated = 0 then pay proposer amount
    else
      let commission ← commissionBps proposer
      let valGets := validatorPart amount self delegated commission
      pay proposer valGets
      payDelegators proposer (amount - valGets)

end Staking

/-! ## What the module does on a ledger -/

/-- A ledger after a credit, unless there is nothing to add. -/
def Ledger.pay (L : Ledger) (addr : Address) (amount : U256) : Ledger :=
  if amount = 0 then L else L.updateBalance addr (· + amount)

namespace Staking

/-- A word of the module's storage on a ledger. -/
def word (L : Ledger) (slot : Hash) : U256 :=
  L.slot ⟨stakingModuleAddr, slot⟩

@[simp] theorem run_load (L : Ledger) (slot : Hash) :
    (load slot).run Op.execL L = .ok (word L slot, L) := by
  rw [load, Program.run_op]
  rfl

@[simp] theorem run_store (L : Ledger) (slot : Hash) (v : U256) :
    (store slot v).run Op.execL L = .ok ((), L.setState ⟨stakingModuleAddr, slot⟩ v) := by
  rw [store, Program.run_op]
  rfl

@[simp] theorem run_pay (L : Ledger) (addr : Address) (amount : U256) :
    (pay addr amount).run Op.execL L = .ok ((), L.pay addr amount) := by
  unfold pay Ledger.pay
  split <;> rfl

/-- The rate of a validator's shares. -/
def rateOf (L : Ledger) (validator : Address) : U256 :=
  if word L (delRateSlot validator) = 0 then stakePrecision else word L (delRateSlot validator)

/-- The stake delegated to a validator. -/
def delegatedOf (L : Ledger) (validator : Address) : U256 :=
  let shares := word L (delTotSlot validator)
  if shares = 0 then 0 else shares * rateOf L validator / stakePrecision

theorem run_delegatedTotal (L : Ledger) (validator : Address) :
    (delegatedTotal validator).run Op.execL L = .ok (delegatedOf L validator, L) := by
  by_cases h : word L (delTotSlot validator) = 0#256
  · simp [delegatedTotal, delegatedTotalShares, sharesToWei, delegatedOf, h]
  · simp [delegatedTotal, delegatedTotalShares, sharesToWei, delRate, delegatedOf, rateOf, h]

/-- The credits of an income: to the proposer, and to the module for the delegators. Credits of
nothing are not made. -/
def incomeCredits (L : Ledger) (proposer : Address) (amount : U256) (stakingEnabled : Bool) :
    List (Address × U256) :=
  let self := word L (selfSlot proposer)
  let delegated := delegatedOf L proposer
  if !stakingEnabled || self + delegated = 0 then Credits.nonzero [(proposer, amount)]
  else
    let valGets := validatorPart amount self delegated ((word L (commSlot proposer)).setWidth 64)
    let keeper := if word L (delTotSlot proposer) = 0 then proposer else stakingModuleAddr
    Credits.nonzero [(proposer, valGets), (keeper, amount - valGets)]

/-- The split reads nothing but storage. -/
theorem incomeCredits_congr {L L' : Ledger} (h : L'.slot = L.slot) (proposer : Address)
    (amount : U256) (stakingEnabled : Bool) :
    incomeCredits L' proposer amount stakingEnabled =
      incomeCredits L proposer amount stakingEnabled := by
  have hword : word L' = word L := by
    funext k
    rw [word, h, word]
  unfold incomeCredits delegatedOf rateOf
  rw [hword]

theorem validatorPart_le (amount self delegated : U256) (commission : U64) :
    validatorPart amount self delegated commission ≤ amount := by
  unfold validatorPart
  simp only
  split
  · exact BitVec.le_refl _
  · rename_i h
    exact BitVec.not_lt.mp h

end Staking

end Dew
