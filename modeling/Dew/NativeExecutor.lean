/-
# Execution of native transactions

`ApplyDewTx`: the checks, the debit of the sender, the credits of the receiver, of the optional
credit payload and of the fee, the nonce, and `Finalise`. The sum of the debit is taken modulo
`2 ^ 256`.

The second half accounts for the money. On the ledger an applied transaction is one debit followed
by a list of credits (`dewTxCredits`), so its effect on the sum of all balances is the one computed
in `Dew.Credits`, and `applyDewTx_conserves_iff` gives the exact condition under which no money is
created or destroyed.
-/
import Dew.Credits
import Dew.DewTx
import Dew.Ledger
import Dew.Persistence
import Dew.Staking
import Mathlib.Data.FinEnum

open Bytes

namespace Dew

/-! ## The executor -/

/-- `params.DefaultDewTxFeeWei` -/
def defaultDewTxFeeWei : U64 := 2100000000000

/-- `params.MinDewTxFeeWei` -/
def minDewTxFeeWei : U64 := defaultDewTxFeeWei

inductive NativeError where
  | nilTx
  | unsupportedVersion (version : BitVec 32)
  | feeBelowMinimum (fee : U64)
  | accessListIncomplete (addr : Address)
  | badNonce (tx state : U64)
  | invalidCreditPayloadLength
  | unknownPayloadModule (tag : UInt8)
  | insufficientBalance
deriving DecidableEq, Repr

def NativeError.text : NativeError → String
  | nilTx => "native: nil tx"
  | unsupportedVersion v => "native: unsupported version " ++ toString v.toNat
  | feeBelowMinimum fee =>
    "native: fee " ++ toString fee.toNat ++ " below minimum " ++ toString minDewTxFeeWei.toNat
  | accessListIncomplete addr => "native: access list incomplete: touched " ++ addr.hex
  | badNonce tx state =>
    "native: bad nonce: got tx " ++ toString tx.toNat ++ " state " ++ toString state.toNat
  | invalidCreditPayloadLength => "native: invalid credit payload length"
  | unknownPayloadModule tag =>
    "native: unknown payload module 0x" ++ String.ofList ((hexDigits [tag]).map hexDigit)
  | insufficientBalance => "native: insufficient balance"

/-- `Result` of applying a native transaction. -/
structure NativeResult where
  feePaid : U64
  failed : Bool
  err : Option NativeError
  touched : List Address
deriving DecidableEq, Repr

def failResult (err : NativeError) : NativeResult where
  feePaid := 0
  failed := true
  err := some err
  touched := []

/-- `Executor`, without the staking parameters, which the fee split does not read. -/
structure NativeExecutor where
  feeSink : Address
  stakingEnabled : Bool
deriving DecidableEq, Repr

namespace NativeExecutor

/-- The fee charged: zero stands for the default. -/
def effectiveFee (tx : DewTx) : U64 :=
  if tx.fee = 0 then defaultDewTxFeeWei else tx.fee

/-- The accounts a transaction may touch. -/
def allowed (e : NativeExecutor) (tx : DewTx) (addr : Address) : Bool :=
  addr == tx.sender || addr == tx.receiver || tx.accessList.contains addr || addr == e.feeSink

def require (e : NativeExecutor) (tx : DewTx) (addr : Address) : Except NativeError Unit :=
  if e.allowed tx addr then .ok () else .error (.accessListIncomplete addr)

/-- The secondary credit of the payload: `0x01`, twenty bytes of address, 32 bytes of amount. -/
def parsePayload (e : NativeExecutor) (tx : DewTx) :
    Except NativeError (Option (Address × U256)) :=
  match tx.payload with
  | [] => .ok none
  | tag :: body =>
    if tag = 0x01 then
      if body.length ≠ 20 + 32 then .error .invalidCreditPayloadLength
      else do
        let a := addressOfBytes (body.take 20)
        e.require tx a
        .ok (some (a, BitVec.ofNat 256 (ofBytes (body.drop 20))))
    else .error (.unknownPayloadModule tag)

/-- What may stop a transaction with a failed result: the payload and the access list. -/
def module (e : NativeExecutor) (tx : DewTx) : Except NativeError (Option (Address × U256)) := do
  let extra ← e.parsePayload tx
  e.require tx tx.sender
  e.require tx tx.receiver
  .ok extra

/-- `need`: the debit of the sender, modulo `2 ^ 256`. -/
def need (tx : DewTx) (extra : Option (Address × U256)) : U256 :=
  tx.amount.getD 0 + (extra.map Prod.snd).getD 0 + (effectiveFee tx).setWidth 256

/-- The credit of the payload, if there is one. -/
def payExtra (extra : Option (Address × U256)) : StateProgram Unit :=
  match extra with
  | some (a, x) => Staking.pay a x
  | none => pure ()

/-- The mutation of the state by a transaction that passed its checks. -/
def mutate (e : NativeExecutor) (tx : DewTx) (extra : Option (Address × U256)) :
    StateProgram Unit := do
  let _ ← (Op.subBalance tx.sender (need tx extra)).call
  Staking.pay tx.receiver (tx.amount.getD 0)
  payExtra extra
  if effectiveFee tx ≠ 0 then
    Staking.distributeProposerIncome e.feeSink ((effectiveFee tx).setWidth 256) e.stakingEnabled
  (Op.setNonceJournaled tx.sender (tx.nonce + 1)).call

def successResult (e : NativeExecutor) (tx : DewTx) (extra : Option (Address × U256)) :
    NativeResult where
  feePaid := effectiveFee tx
  failed := false
  err := none
  touched := [tx.sender, tx.receiver, e.feeSink] ++ (extra.map Prod.fst).toList

/-- `ApplyDewTx` up to `Finalise`. -/
def execute (e : NativeExecutor) (tx : DewTx) : StateProgram (Except NativeError NativeResult) :=
  if tx.version ≠ dewTxVersion then pure (.error (.unsupportedVersion tx.version))
  else if effectiveFee tx < minDewTxFeeWei then pure (.error (.feeBelowMinimum (effectiveFee tx)))
  else do
    let nonce : U64 ← (Op.getNonce tx.sender).call
    if nonce ≠ tx.nonce then return .error (.badNonce tx.nonce nonce)
    match e.module tx with
    | .error err => return .ok (failResult err)
    | .ok extra =>
      let balance : U256 ← (Op.getBalance tx.sender).call
      if balance < need tx extra then return .error .insufficientBalance
      e.mutate tx extra
      return .ok (e.successResult tx extra)

/-- `ApplyDewTx`: an applied transaction ends with `Finalise(true)`. -/
def applyDewTx (e : NativeExecutor) (tx : Option DewTx) (s : StateDB) :
    Except Panic (Except NativeError NativeResult × StateDB) :=
  match tx with
  | none => .ok (.error .nilTx, s)
  | some tx => do
    let (out, s) ← (e.execute tx).run Op.exec s
    match out with
    | .error err => .ok (.error err, s)
    | .ok result => .ok (.ok result, if result.failed then s else s.finalise true)

end NativeExecutor

/-! ## Payments on the ledger -/

namespace Ledger

theorem balance_eq_accountOrNew (L : Ledger) (a : Address) :
    L.balance a = (L.accountOrNew a).balance := by
  unfold balance accountOrNew
  cases L.account? a <;> rfl

theorem nonce_eq_accountOrNew (L : Ledger) (a : Address) :
    L.nonce a = (L.accountOrNew a).nonce := by
  unfold nonce accountOrNew
  cases L.account? a <;> rfl

theorem emptyAt_eq_accountOrNew (L : Ledger) (a : Address) :
    L.emptyAt a = (L.accountOrNew a).isEmpty := by
  unfold emptyAt accountOrNew
  cases L.account? a <;> rfl

theorem accountOrNew_setObject {L : Ledger} {a : Address} (ha : a ∉ L.suicides) (acc : Account) :
    (L.setObject a acc).accountOrNew = Function.update L.accountOrNew a acc := by
  funext b
  unfold accountOrNew account? setObject
  by_cases hb : b = a
  · subst hb
    simp [ha]
  · simp [hb]

theorem accountOrNew_updateAccount {L : Ledger} {a : Address} (ha : a ∉ L.suicides)
    (entry : Account → JournalEntry) (f : Account → Account) :
    (L.updateAccount a entry f).accountOrNew =
      Function.update L.accountOrNew a (f (L.accountOrNew a)) :=
  accountOrNew_setObject (L := L.record _) ha _

theorem accountOrNew_touch {L : Ledger} {a : Address} (ha : a ∉ L.suicides) :
    (L.touch a).accountOrNew = L.accountOrNew := by
  unfold touch
  split
  · rfl
  · rename_i hnone
    rw [accountOrNew_setObject ha, Function.update_eq_self_iff, accountOrNew, hnone]
    rfl

end Ledger

theorem Journal.mem_dirties_append {e : JournalEntry} {a : Address}
    (he : e.dirtyAddress = some a) (j : Journal) (b : Address) :
    b ∈ (j.append e).dirties.keys ↔ b ∈ j.dirties.keys ∨ b = a := by
  unfold Journal.append
  rw [he, ← GoMap.isSome_get?, ← GoMap.isSome_get?, GoMap.get?_set]
  by_cases hb : b = a <;> simp [hb]

/-- The accounts marked in the journal, to be checked for emptiness by `Finalise`. -/
def TxScope.Marked (s : TxScope) (a : Address) : Prop :=
  a ∈ s.journal.dirties.keys

/-- A ledger after the credits `cs` and nothing else that concerns accounts. -/
structure Ledger.Pays (L L' : Ledger) (cs : List (Address × U256)) : Prop where
  account : ∀ a, L'.accountOrNew a =
    { L.accountOrNew a with balance := Credits.creditAll L.balance cs a }
  marked : ∀ a, L'.Marked a ↔ L.Marked a ∨ a ∈ Credits.payees cs
  suicides : L'.suicides = L.suicides
  row : L'.rowObject = L.rowObject

namespace Ledger.Pays

theorem balance {L L' : Ledger} {cs : List (Address × U256)} (h : Pays L L' cs) :
    L'.balance = Credits.creditAll L.balance cs := by
  funext a
  rw [balance_eq_accountOrNew, h.account]

theorem refl (L : Ledger) : Pays L L [] where
  account a := by
    rw [Credits.creditAll_nil, balance_eq_accountOrNew]
  marked a := by simp [Credits.payees]
  suicides := rfl
  row := rfl

theorem trans {L L' L'' : Ledger} {cs ds : List (Address × U256)} (h : Pays L L' cs)
    (h' : Pays L' L'' ds) : Pays L L'' (cs ++ ds) where
  account a := by
    rw [h'.account, h.account, h.balance, Credits.creditAll_append]
  marked a := by
    rw [h'.marked, h.marked, Credits.payees_append, List.mem_append, or_assoc]
  suicides := h'.suicides.trans h.suicides
  row := h'.row.trans h.row

theorem addBalance {L : Ledger} (hlive : L.suicides = []) (a : Address) (x : U256) :
    Pays L (L.updateBalance a (· + x)) [(a, x)] where
  account b := by
    rw [updateBalance, accountOrNew_updateAccount (by simp [hlive])]
    by_cases hb : b = a
    · subst hb
      simp [Credits.credit, balance_eq_accountOrNew]
    · simp [Credits.credit, hb, balance_eq_accountOrNew]
  marked b := by
    rw [Credits.payees]
    simp only [List.map_cons, List.map_nil, List.mem_singleton]
    exact Journal.mem_dirties_append rfl L.journal b
  suicides := rfl
  row := rfl

theorem pay {L : Ledger} (hlive : L.suicides = []) (a : Address) (x : U256) :
    Pays L (L.pay a x) (Credits.nonzero [(a, x)]) := by
  unfold Ledger.pay
  by_cases hx : x = 0#256
  · simpa [Credits.nonzero, hx] using refl L
  · simpa [Credits.nonzero, hx] using addBalance hlive a x

theorem setState {L : Ledger} (hlive : L.suicides = []) (id : StorageID) (v : Hash) :
    Pays L (L.setState id v) [] where
  account b := by
    rw [Credits.creditAll_nil, balance_eq_accountOrNew]
    show (L.touch id.addr).accountOrNew b = _
    rw [accountOrNew_touch (by simp [hlive])]
  marked b := by
    rw [Credits.payees]
    unfold Ledger.setState Ledger.touch
    split <;> simp [TxScope.Marked, Ledger.setSlot, Ledger.setObject]
  suicides := by
    unfold Ledger.setState Ledger.touch
    split <;> rfl
  row := by
    unfold Ledger.setState Ledger.touch
    split <;> rfl

end Ledger.Pays

namespace Staking

open Ledger

theorem run_increaseRewardIndex {L : Ledger} (hlive : L.suicides = []) (validator : Address)
    (delPart shares : U256) :
    ∃ L', (increaseRewardIndex validator delPart shares).run Op.execL L = .ok ((), L') ∧
      L.Pays L' [] := by
  unfold increaseRewardIndex rewardIndex
  simp only
  split
  · exact ⟨L, rfl, .refl L⟩
  · split
    · exact ⟨L, rfl, .refl L⟩
    · refine ⟨_, ?_, .setState hlive ⟨stakingModuleAddr, rewIdxSlot validator⟩
        (word L (rewIdxSlot validator) + delPart * stakePrecision / shares)⟩
      simp

theorem slot_pay (L : Ledger) (a : Address) (x : U256) : (L.pay a x).slot = L.slot := by
  unfold Ledger.pay
  split <;> rfl

theorem run_payDelegators {L : Ledger} (hlive : L.suicides = []) (proposer : Address)
    (delPart : U256) :
    ∃ L', (payDelegators proposer delPart).run Op.execL L = .ok ((), L') ∧
      L.Pays L' (Credits.nonzero
        [(if word L (delTotSlot proposer) = 0 then proposer else stakingModuleAddr, delPart)]) := by
  unfold payDelegators delegatedTotalShares
  by_cases hzero : delPart = 0
  · exact ⟨L, by simp [hzero], by simpa [Credits.nonzero, hzero] using Pays.refl L⟩
  rw [if_neg hzero, Program.run_bind, run_load, Program.ok_bind]
  simp only
  split
  · exact ⟨_, run_pay _ _ _, .pay hlive proposer delPart⟩
  · have hpay := Pays.pay hlive stakingModuleAddr delPart
    obtain ⟨L', hrun, hidx⟩ := run_increaseRewardIndex (hpay.suicides.trans hlive) proposer delPart
      (word L (delTotSlot proposer))
    refine ⟨L', ?_, by simpa using hpay.trans hidx⟩
    rw [Program.run_bind, run_pay, Program.ok_bind]
    exact hrun

/-- An income is paid out by its credits. -/
theorem run_distributeProposerIncome {L : Ledger} (hlive : L.suicides = []) (proposer : Address)
    (amount : U256) (stakingEnabled : Bool) :
    ∃ L', (distributeProposerIncome proposer amount stakingEnabled).run Op.execL L = .ok ((), L') ∧
      L.Pays L' (incomeCredits L proposer amount stakingEnabled) := by
  unfold distributeProposerIncome incomeCredits
  simp only
  by_cases hzero : amount = 0
  · -- nothing is paid, whatever the split
    subst hzero
    have hnone : ∀ self delegated commission, validatorPart 0 self delegated commission = 0 := by
      intro self delegated commission
      exact BitVec.le_zero_iff.mp (validatorPart_le 0 self delegated commission)
    refine ⟨L, by simp, ?_⟩
    simp only [hnone]
    split <;> simpa [Credits.nonzero] using Pays.refl L
  rw [if_neg hzero]
  cases stakingEnabled with
  | false => exact ⟨_, by simp, .pay hlive proposer amount⟩
  | true =>
      simp only [Bool.not_true, Bool.false_eq_true, if_false, Bool.false_or, Program.run_bind,
        selfStake, run_load, Program.ok_bind, run_delegatedTotal, decide_eq_true_eq]
      split
      · exact ⟨_, run_pay _ _ _, .pay hlive proposer amount⟩
      · simp only [commissionBps, Program.run_bind, run_load, Program.ok_bind, Program.run_pure,
          run_pay]
        generalize validatorPart amount _ _ _ = valGets
        have hpay := Pays.pay hlive proposer valGets
        obtain ⟨L', hrun, hdel⟩ := run_payDelegators (hpay.suicides.trans hlive) proposer
          (amount - valGets)
        refine ⟨L', hrun, ?_⟩
        have hword : word (L.pay proposer valGets) (delTotSlot proposer) =
            word L (delTotSlot proposer) := by
          rw [word, slot_pay, word]
        rw [hword] at hdel
        have hboth := hpay.trans hdel
        rw [← Credits.nonzero_append] at hboth
        exact hboth

end Staking

namespace NativeExecutor

open Ledger

/-- What a transaction costs its sender, without wrap-around. -/
def cost (tx : DewTx) (extra : Option (Address × U256)) : ℕ :=
  (tx.amount.getD 0).toNat + ((extra.map Prod.snd).getD 0).toNat + (effectiveFee tx).toNat

/-- The credits an applied transaction makes, in order. -/
def credits (e : NativeExecutor) (tx : DewTx) (extra : Option (Address × U256)) (L : Ledger) :
    List (Address × U256) :=
  Credits.nonzero ((tx.receiver, tx.amount.getD 0) :: extra.toList) ++
    Staking.incomeCredits L e.feeSink ((effectiveFee tx).setWidth 256) e.stakingEnabled

/-- A ledger after the mutation by an applied transaction. -/
structure Applied (L L' : Ledger) (tx : DewTx) (debit : U256) (cs : List (Address × U256)) :
    Prop where
  balance : L'.balance = Credits.creditAll (Credits.debit L.balance tx.sender debit) cs
  nonce : L'.nonce = Function.update L.nonce tx.sender (tx.nonce + 1)
  codeHash : L'.codeHash = L.codeHash
  marked : ∀ a, L'.Marked a ↔ L.Marked a ∨ a = tx.sender ∨ a ∈ Credits.payees cs
  suicides : L'.suicides = []
  row : L'.rowObject = L.rowObject

theorem run_payExtra {L : Ledger} (hlive : L.suicides = []) (extra : Option (Address × U256)) :
    ∃ L', (payExtra extra).run Op.execL L = .ok ((), L') ∧
      L.Pays L' (Credits.nonzero extra.toList) ∧ L'.slot = L.slot := by
  rcases extra with _ | ⟨a, x⟩
  · exact ⟨L, rfl, .refl L, rfl⟩
  · exact ⟨_, Staking.run_pay L a x, .pay hlive a x, Staking.slot_pay L a x⟩

theorem effectiveFee_ne_zero (tx : DewTx) : effectiveFee tx ≠ 0 := by
  unfold effectiveFee
  split
  · decide
  · assumption

theorem applied_of_pays {L L₀ L₃ : Ledger} {tx : DewTx} {x : U256} {cs : List (Address × U256)}
    (hlive : L.suicides = []) (hL₀ : L₀ = L.updateBalance tx.sender (· - x))
    (hpays : L₀.Pays L₃ cs) : Applied L (L₃.setNonce tx.sender (tx.nonce + 1)) tx x cs := by
  have hsender : ∀ a, L₀.accountOrNew a = { L.accountOrNew a with
      balance := Credits.debit L.balance tx.sender x a } := by
    intro a
    rw [hL₀, updateBalance, accountOrNew_updateAccount (by simp [hlive])]
    by_cases ha : a = tx.sender
    · subst ha
      simp [Credits.debit, balance_eq_accountOrNew]
    · simp [Credits.debit, ha, balance_eq_accountOrNew]
  have hbal₀ : L₀.balance = Credits.debit L.balance tx.sender x := by
    funext a
    rw [balance_eq_accountOrNew, hsender]
  have hlive₃ : L₃.suicides = [] := by
    rw [hpays.suicides, hL₀]
    exact hlive
  have hfinal : ∀ a, (L₃.setNonce tx.sender (tx.nonce + 1)).accountOrNew a =
      { L.accountOrNew a with
        balance := Credits.creditAll (Credits.debit L.balance tx.sender x) cs a
        nonce := Function.update L.nonce tx.sender (tx.nonce + 1) a } := by
    intro a
    rw [setNonce, accountOrNew_updateAccount (by simp [hlive₃])]
    by_cases ha : a = tx.sender
    · subst ha
      simp [hpays.account, hsender, hbal₀]
    · simp [ha, hpays.account, hsender, hbal₀, nonce_eq_accountOrNew]
  constructor
  · funext a
    rw [balance_eq_accountOrNew, hfinal]
  · funext a
    rw [nonce_eq_accountOrNew, hfinal]
  · funext a
    rw [StateDB.codeHash_eq_accountOrNew, hfinal, StateDB.codeHash_eq_accountOrNew]
  · intro a
    have hnonce : (L₃.setNonce tx.sender (tx.nonce + 1)).Marked a ↔ L₃.Marked a ∨ a = tx.sender :=
      Journal.mem_dirties_append rfl L₃.journal a
    have hdebit : L₀.Marked a ↔ L.Marked a ∨ a = tx.sender := by
      rw [hL₀]
      exact Journal.mem_dirties_append rfl L.journal a
    rw [hnonce, hpays.marked, hdebit]
    constructor
    · rintro (((h | h) | h) | h) <;> simp [h]
    · rintro (h | h | h) <;> simp [h]
  · exact hlive₃
  · show L₃.rowObject = _
    rw [hpays.row, hL₀]
    rfl

/-- The mutation is one debit followed by the credits. -/
theorem run_mutate {L : Ledger} (hlive : L.suicides = []) (e : NativeExecutor) (tx : DewTx)
    (extra : Option (Address × U256)) :
    ∃ L', (e.mutate tx extra).run Op.execL L = .ok ((), L') ∧
      Applied L L' tx (need tx extra) (e.credits tx extra L) := by
  obtain ⟨L₀, hL₀⟩ : ∃ L₀, L₀ = L.updateBalance tx.sender (· - need tx extra) := ⟨_, rfl⟩
  have hlive₀ : L₀.suicides = [] := by
    rw [hL₀]
    exact hlive
  have hpay := Pays.pay hlive₀ tx.receiver (tx.amount.getD 0)
  obtain ⟨L₂, hrun₂, hextra, hslot₂⟩ := run_payExtra (hpay.suicides.trans hlive₀) extra
  obtain ⟨L₃, hrun₃, hfee⟩ := Staking.run_distributeProposerIncome
    (hextra.suicides.trans (hpay.suicides.trans hlive₀)) e.feeSink
    ((effectiveFee tx).setWidth 256) e.stakingEnabled
  have hslot : L₂.slot = L.slot := by
    rw [hslot₂, Staking.slot_pay, hL₀]
    rfl
  rw [Staking.incomeCredits_congr hslot] at hfee
  refine ⟨L₃.setNonce tx.sender (tx.nonce + 1), ?_, applied_of_pays hlive hL₀ ?_⟩
  · unfold mutate
    have hdebit : (Op.subBalance tx.sender (need tx extra)).execL L =
        .ok ((L.accountOrNew tx.sender).balance, L₀) := by
      rw [hL₀]
      rfl
    rw [Program.run_bind, Program.run_op, hdebit, Program.ok_bind, Program.run_bind,
      Staking.run_pay, Program.ok_bind, Program.run_bind, hrun₂, Program.ok_bind,
      if_pos (effectiveFee_ne_zero tx), Program.run_bind, hrun₃, Program.ok_bind]
    rfl
  · rw [credits, ← List.singleton_append, Credits.nonzero_append]
    exact (hpay.trans hextra).trans hfee

/-! ## Which transactions are applied -/

/-- The checks of `ApplyDewTx`, for a transaction with the given payload credit. -/
structure Accepts (e : NativeExecutor) (tx : DewTx) (s : StateDB)
    (extra : Option (Address × U256)) : Prop where
  version : tx.version = dewTxVersion
  fee : minDewTxFeeWei ≤ effectiveFee tx
  nonce : s.nonceOf tx.sender = tx.nonce
  module : e.module tx = .ok extra
  covered : need tx extra ≤ s.balanceOf tx.sender

/-- Whether `ApplyDewTx` reports success. -/
def Succeeded (r : Except NativeError NativeResult) : Prop :=
  ∃ result, r = .ok result ∧ result.failed = false

theorem run_execute_of_accepts {e : NativeExecutor} {tx : DewTx} {s : StateDB}
    {extra : Option (Address × U256)} (h : e.Accepts tx s extra) (hlive : s.suicides = []) :
    ∃ result L', (e.execute tx).run Op.execL s.view = .ok (.ok result, L') ∧
      result.failed = false ∧ Applied s.view L' tx (need tx extra) (e.credits tx extra s.view) := by
  obtain ⟨L', hrun, happlied⟩ := run_mutate (L := s.view) hlive e tx extra
  have hnonce : (Op.getNonce tx.sender).execL s.view = .ok (tx.nonce, s.view) := by
    rw [← h.nonce]
    rfl
  have hbalance : (Op.getBalance tx.sender).execL s.view = .ok (s.balanceOf tx.sender, s.view) :=
    rfl
  refine ⟨e.successResult tx extra, L', ?_, rfl, happlied⟩
  unfold execute
  rw [if_neg (not_not.mpr h.version), if_neg (BitVec.not_lt.mpr h.fee), Program.run_bind,
    Program.run_op, hnonce, Program.ok_bind]
  simp only [ne_eq, not_true_eq_false, if_false, h.module]
  rw [Program.run_bind, Program.run_op, hbalance, Program.ok_bind]
  simp only
  rw [if_neg (BitVec.not_lt.mpr h.covered), Program.run_bind, hrun, Program.ok_bind]
  rfl

/-- A transaction that does not pass the checks leaves the ledger alone. -/
theorem run_execute_of_rejected {e : NativeExecutor} {tx : DewTx} {s : StateDB}
    (h : ∀ extra, ¬ e.Accepts tx s extra) :
    ∃ r, (e.execute tx).run Op.execL s.view = .ok (r, s.view) ∧ ¬ Succeeded r := by
  have herror : ∀ err : NativeError, ¬ Succeeded (.error err) := by
    rintro err ⟨result, hr, -⟩
    cases hr
  have hfail : ∀ err : NativeError, ¬ Succeeded (.ok (failResult err)) := by
    rintro err ⟨result, hr, hok⟩
    cases hr
    cases hok
  unfold execute
  by_cases hversion : tx.version = dewTxVersion
  swap
  · exact ⟨_, by rw [if_pos hversion]; rfl, herror _⟩
  rw [if_neg (not_not.mpr hversion)]
  by_cases hfee : effectiveFee tx < minDewTxFeeWei
  · exact ⟨_, by rw [if_pos hfee]; rfl, herror _⟩
  rw [if_neg hfee, Program.run_bind, Program.run_op,
    show (Op.getNonce tx.sender).execL s.view = .ok (s.nonceOf tx.sender, s.view) from rfl,
    Program.ok_bind]
  simp only
  by_cases hnonce : s.nonceOf tx.sender = tx.nonce
  swap
  · exact ⟨_, by rw [if_pos hnonce]; rfl, herror _⟩
  rw [if_neg (not_not.mpr hnonce)]
  cases hmodule : e.module tx with
  | error err => exact ⟨_, rfl, hfail err⟩
  | ok extra =>
      simp only
      rw [Program.run_bind, Program.run_op,
        show (Op.getBalance tx.sender).execL s.view = .ok (s.balanceOf tx.sender, s.view) from rfl,
        Program.ok_bind]
      simp only
      by_cases hcovered : s.balanceOf tx.sender < need tx extra
      · exact ⟨_, by rw [if_pos hcovered]; rfl, herror _⟩
      · exact absurd ⟨hversion, BitVec.not_lt.mp hfee, hnonce, hmodule, BitVec.not_lt.mp hcovered⟩
          (h extra)

/-! ## The sum of all balances -/

theorem amount_incomeCredits (L : Ledger) (proposer : Address) (amount : U256)
    (stakingEnabled : Bool) :
    Credits.amount (Staking.incomeCredits L proposer amount stakingEnabled) = amount.toNat := by
  unfold Staking.incomeCredits
  simp only
  split
  · rw [Credits.amount_nonzero]
    simp [Credits.amount]
  · rw [Credits.amount_nonzero]
    generalize hpart : Staking.validatorPart amount _ _ _ = part
    have hle : part ≤ amount := hpart ▸ Staking.validatorPart_le amount _ _ _
    have hle' : part.toNat ≤ amount.toNat := hle
    simp only [Credits.amount, List.map_cons, List.map_nil, List.sum_cons, List.sum_nil,
      BitVec.toNat_sub_of_le hle]
    omega

theorem amount_credits (e : NativeExecutor) (tx : DewTx) (extra : Option (Address × U256))
    (L : Ledger) : Credits.amount (e.credits tx extra L) = cost tx extra := by
  have hfee : ((effectiveFee tx).setWidth 256).toNat = (effectiveFee tx).toNat :=
    BitVec.toNat_setWidth_of_le (by decide)
  unfold credits cost
  rw [Credits.amount_append, Credits.amount_nonzero, amount_incomeCredits, hfee]
  cases extra <;> simp [Credits.amount]

theorem toNat_need (tx : DewTx) (extra : Option (Address × U256)) :
    (need tx extra).toNat = cost tx extra % 2 ^ 256 := by
  have hfee : ((effectiveFee tx).setWidth 256).toNat = (effectiveFee tx).toNat :=
    BitVec.toNat_setWidth_of_le (by decide)
  unfold need cost
  rw [BitVec.toNat_add, BitVec.toNat_add, hfee, Nat.mod_add_mod]

/-- The balance of an account's database row. -/
def rowBalance (s : StateDB) (a : Address) : U256 :=
  ((s.db.account? a).map Account.balance).getD 0

theorem balanceOf_finalise {t : StateDB} (hlive : t.suicides = []) (a : Address) :
    (t.finalise true).balanceOf a = if t.Dropped a then rowBalance t a else t.balanceOf a := by
  unfold StateDB.balanceOf
  rw [StateDB.account?_of_no_suicides (StateDB.finalise_suicides t), StateDB.object?_finalise,
    StateDB.account?_of_no_suicides hlive]
  split <;> rfl

theorem balanceOf_le_finalise {t : StateDB} (hlive : t.suicides = []) (a : Address) :
    (t.balanceOf a).toNat ≤ ((t.finalise true).balanceOf a).toNat := by
  rw [balanceOf_finalise hlive]
  split
  · rename_i hdrop
    rw [(StateDB.shows_empty_of_dropped hdrop (by simp [hlive])).1]
    exact Nat.zero_le _
  · exact le_rfl

/-- `Finalise` keeps the balances exactly if no account it drops has a balance in its row. -/
theorem balanceOf_finalise_eq_iff {t : StateDB} (hlive : t.suicides = []) :
    t.balanceOf = (t.finalise true).balanceOf ↔ ∀ a, t.Dropped a → rowBalance t a = 0 := by
  constructor
  · intro h a hdrop
    have ha := congrFun h a
    rw [balanceOf_finalise hlive, if_pos hdrop,
      (StateDB.shows_empty_of_dropped hdrop (by simp [hlive])).1] at ha
    exact ha.symm
  · intro h
    funext a
    rw [balanceOf_finalise hlive]
    split
    · rename_i hdrop
      rw [h a hdrop, (StateDB.shows_empty_of_dropped hdrop (by simp [hlive])).1]
    · rfl

/-- An account is left without balance, nonce and code by an applied transaction; the balance is
computed modulo `2 ^ 256`. -/
def EndsEmpty (e : NativeExecutor) (tx : DewTx) (extra : Option (Address × U256)) (s : StateDB)
    (a : Address) : Prop :=
  s.codeHashOf a = emptyCodeHash ∧
    (if a = tx.sender then tx.nonce + 1 else s.nonceOf a) = 0 ∧
    ((s.balanceOf a).toNat + Credits.received (e.credits tx extra s.view) a) % 2 ^ 256 =
      (if a = tx.sender then cost tx extra else 0) % 2 ^ 256

/-- The condition under which an accepted transaction keeps the sum of all balances and charges its
sender in full: as many credits wrap around as the debit; the debit does not wrap around at all
unless the sender is credited too; and no account that ends up empty has a balance in its database
row. -/
structure BooksBalance (e : NativeExecutor) (tx : DewTx) (extra : Option (Address × U256))
    (s : StateDB) : Prop where
  carries : cost tx extra / 2 ^ 256 =
    Credits.wraps (Credits.debit s.balanceOf tx.sender (need tx extra)) (e.credits tx extra s.view)
  paid : tx.sender ∈ Credits.payees (e.credits tx extra s.view) ∨ cost tx extra < 2 ^ 256
  rows : ∀ a, s.Marked a ∨ a = tx.sender ∨ a ∈ Credits.payees (e.credits tx extra s.view) →
    e.EndsEmpty tx extra s a → rowBalance s a = 0

/-- No money is created or destroyed by `ApplyDewTx`, and a successful one charges a sender that is
not credited exactly what it costs. -/
def Conserves (e : NativeExecutor) (tx : DewTx) (s : StateDB) : Prop :=
  ∃ r t, e.applyDewTx (some tx) s = .ok (r, t) ∧
    Credits.total t.balanceOf = Credits.total s.balanceOf ∧
    (Succeeded r → ∀ extra, e.module tx = .ok extra →
      tx.sender ∉ Credits.payees (e.credits tx extra s.view) →
      (s.balanceOf tx.sender).toNat = (t.balanceOf tx.sender).toNat + cost tx extra)

theorem dropped_iff {e : NativeExecutor} {tx : DewTx} {extra : Option (Address × U256)}
    {s t : StateDB} (hcovered : need tx extra ≤ s.balanceOf tx.sender)
    (h : Applied s.view t.view tx (need tx extra) (e.credits tx extra s.view)) (a : Address) :
    t.Dropped a ↔
      (s.Marked a ∨ a = tx.sender ∨ a ∈ Credits.payees (e.credits tx extra s.view)) ∧
        e.EndsEmpty tx extra s a := by
  have hlive : t.suicides = [] := h.suicides
  have hmarked : a ∈ t.journal.dirties.keys ↔
      s.Marked a ∨ a = tx.sender ∨ a ∈ Credits.payees (e.credits tx extra s.view) := h.marked a
  have hempty : t.emptyAt a ↔ e.EndsEmpty tx extra s a := by
    have hnonce : t.view.nonce a = if a = tx.sender then tx.nonce + 1 else s.nonceOf a := by
      rw [h.nonce, Function.update_apply]
      rfl
    have hcode : t.view.codeHash a = s.codeHashOf a := congrFun h.codeHash a
    have hbalance : t.view.balance a = 0 ↔
        ((s.balanceOf a).toNat + Credits.received (e.credits tx extra s.view) a) % 2 ^ 256 =
          (if a = tx.sender then cost tx extra else 0) % 2 ^ 256 := by
      have hcredited : t.view.balance = Credits.creditAll
          (Credits.debit s.balanceOf tx.sender (need tx extra)) (e.credits tx extra s.view) :=
        h.balance
      rw [hcredited, ← BitVec.toNat_inj, Credits.toNat_creditAll, Credits.debit]
      have hneed := toNat_need tx extra
      have hle : (need tx extra).toNat ≤ (s.balanceOf tx.sender).toNat := hcovered
      by_cases ha : a = tx.sender
      · subst ha
        rw [Function.update_self, if_pos rfl, BitVec.toNat_sub_of_le hcovered]
        simp only [BitVec.ofNat_eq_ofNat, BitVec.toNat_ofNat, Nat.zero_mod]
        omega
      · rw [Function.update_of_ne ha, if_neg ha]
        rfl
    have hacc : t.emptyAt a = (t.view.accountOrNew a).isEmpty :=
      Ledger.emptyAt_eq_accountOrNew t.view a
    rw [hacc, Account.isEmpty, ← Ledger.nonce_eq_accountOrNew, ← Ledger.balance_eq_accountOrNew,
      ← StateDB.codeHash_eq_accountOrNew, hnonce, hcode]
    simp only [Bool.and_eq_true, beq_iff_eq, hbalance, EndsEmpty]
    constructor
    · rintro ⟨⟨hn, hb⟩, hc⟩
      exact ⟨hc, hn, hb⟩
    · rintro ⟨hc, hn, hb⟩
      exact ⟨⟨hn, hb⟩, hc⟩
  unfold StateDB.Dropped
  rw [hmarked, hempty]
  simp [hlive]

theorem applyDewTx_of_accepts {e : NativeExecutor} {tx : DewTx} {s : StateDB}
    {extra : Option (Address × U256)} (h : e.Accepts tx s extra) (hlive : s.suicides = []) :
    ∃ r, ∃ t : StateDB, e.applyDewTx (some tx) s = .ok (r, t.finalise true) ∧ Succeeded r ∧
      Applied s.view t.view tx (need tx extra) (e.credits tx extra s.view) := by
  obtain ⟨result, L', hrun, hok, happlied⟩ := run_execute_of_accepts h hlive
  obtain ⟨t, hexec, rfl⟩ := StateProgram.run_of_view hrun
  refine ⟨.ok result, t, ?_, ⟨result, rfl, hok⟩, happlied⟩
  simp [applyDewTx, hexec, hok]

theorem applyDewTx_of_rejected {e : NativeExecutor} {tx : DewTx} {s : StateDB}
    (h : ∀ extra, ¬ e.Accepts tx s extra) :
    ∃ r t, e.applyDewTx (some tx) s = .ok (r, t) ∧ ¬ Succeeded r ∧ t.view = s.view := by
  obtain ⟨r, hrun, hfail⟩ := run_execute_of_rejected h
  obtain ⟨t, hexec, hview⟩ := StateProgram.run_of_view hrun
  refine ⟨r, t, ?_, hfail, hview⟩
  simp only [applyDewTx, hexec, Program.ok_bind]
  cases r with
  | error err => rfl
  | ok result =>
      cases hfailed : result.failed with
      | true => simp [hfailed]
      | false => exact absurd ⟨result, rfl, hfailed⟩ hfail

/-- The sum of all balances after an applied transaction is the one before exactly if the carries
cancel and `Finalise` brings no balance back. -/
theorem total_applied_iff {e : NativeExecutor} {tx : DewTx} {extra : Option (Address × U256)}
    {s t : StateDB} (hcovered : need tx extra ≤ s.balanceOf tx.sender)
    (hsum : Credits.total s.balanceOf < 2 ^ 256)
    (h : Applied s.view t.view tx (need tx extra) (e.credits tx extra s.view)) :
    Credits.total (t.finalise true).balanceOf = Credits.total s.balanceOf ↔
      cost tx extra / 2 ^ 256 =
          Credits.wraps (Credits.debit s.balanceOf tx.sender (need tx extra))
            (e.credits tx extra s.view) ∧
        t.balanceOf = (t.finalise true).balanceOf := by
  have hlive : t.suicides = [] := h.suicides
  have hneed : (need tx extra).toNat = Credits.amount (e.credits tx extra s.view) % 2 ^ 256 := by
    rw [amount_credits, toNat_need]
  have hbooks := Credits.total_debit_creditAll hcovered hneed
  have hbalance : t.balanceOf = Credits.creditAll
      (Credits.debit s.balanceOf tx.sender (need tx extra)) (e.credits tx extra s.view) :=
    h.balance
  rw [amount_credits, ← hbalance] at hbooks
  have hgrow := Credits.total_mono (balanceOf_le_finalise hlive)
  rw [← Credits.total_eq_iff_of_le (balanceOf_le_finalise hlive)]
  generalize Credits.wraps _ (e.credits tx extra s.view) = w at hbooks ⊢
  generalize cost tx extra / 2 ^ 256 = k at hbooks ⊢
  omega

/-- A state in which the account `0x01` holds `10 ^ 18` and nobody else holds anything. -/
def fundedState : StateDB :=
  { StateDB.new ∅ with accounts := GoMap.set ∅ 0x01 ⟨0, 1000000000000000000, emptyCodeHash⟩ }

/-- A transfer of five wei from `0x01` to `0x02` at the default fee. -/
def transferFive : DewTx where
  version := 1
  chainID := 1
  nonce := 0
  sender := 0x01
  receiver := 0x02
  amount := some 5
  fee := 0
  payload := []
  accessList := []
  v := 0
  r := 1
  s := 1

/-- A transaction whose amount and fee add up to `2 ^ 256`. -/
def mintingTx : DewTx where
  version := 1
  chainID := 1
  nonce := 0
  sender := 0x01
  receiver := 0x02
  amount := some (-2100000000000)
  fee := 2100000000000
  payload := []
  accessList := []
  v := 0
  r := 1
  s := 1

end NativeExecutor

end Dew
