/-
# The words of the staking module

The staking module's storage as a family of named words, and what its methods do to them. Each
method has one specification: from a ledger that shows the words `B` it returns a value and leads to
a ledger that shows other words, both given by functions of `B`.
-/
import Dew.KeccakEval
import Dew.ModuleStorage

namespace Dew.Staking

open Program

/-- The names of the words of the module. -/
inductive Key where
  | self (a : Address)
  | jailed (a : Address)
  | cand (a : Address)
  | len
  | idx (i : U64)
  | unbondAmt (a : Address)
  | unbondAt (a : Address)
  | del (v d : Address)
  | delTot (v : Address)
  | comm (v : Address)
  | delUnbondAmt (v d : Address)
  | delUnbondAt (v d : Address)
  | delRate (v : Address)
  | rewIdx (v : Address)
  | rewDebt (v d : Address)
  | rewPend (v d : Address)
deriving DecidableEq, Repr

namespace Key

/-- The slot of a word. -/
def slot : Key → Hash
  | self a => selfSlot a
  | jailed a => jailedSlot a
  | cand a => candSlot a
  | len => lenSlot
  | idx i => idxSlot i
  | unbondAmt a => unbondAmtSlot a
  | unbondAt a => unbondAtSlot a
  | del v d => delSlot v d
  | delTot v => delTotSlot v
  | comm v => commSlot v
  | delUnbondAmt v d => delUnbondAmtSlot v d
  | delUnbondAt v d => delUnbondAtSlot v d
  | delRate v => delRateSlot v
  | rewIdx v => rewIdxSlot v
  | rewDebt v d => rewDebtSlot v d
  | rewPend v d => rewPendSlot v d

/-- The string whose digest is the slot. -/
def name : Key → Bytes
  | self a => ascii "dew/stake/v1/self" ++ a.bytes
  | jailed a => ascii "dew/stake/v1/jailed" ++ a.bytes
  | cand a => ascii "dew/stake/v1/cand" ++ a.bytes
  | len => ascii "dew/stake/v1/candlen"
  | idx i => ascii "dew/stake/v1/candi" ++ u64BE i
  | unbondAmt a => ascii "dew/stake/v1/unbondAmt" ++ a.bytes
  | unbondAt a => ascii "dew/stake/v1/unbondAt" ++ a.bytes
  | del v d => ascii "dew/stake/v1/del" ++ v.bytes ++ d.bytes
  | delTot v => ascii "dew/stake/v1/delTot" ++ v.bytes
  | comm v => ascii "dew/stake/v1/comm" ++ v.bytes
  | delUnbondAmt v d => ascii "dew/stake/v1/delUnbondAmt" ++ v.bytes ++ d.bytes
  | delUnbondAt v d => ascii "dew/stake/v1/delUnbondAt" ++ v.bytes ++ d.bytes
  | delRate v => ascii "dew/stake/v1/delRate" ++ v.bytes
  | rewIdx v => ascii "dew/stake/v1/rewIdx" ++ v.bytes
  | rewDebt v d => ascii "dew/stake/v1/rewDebt" ++ v.bytes ++ d.bytes
  | rewPend v d => ascii "dew/stake/v1/rewPend" ++ v.bytes ++ d.bytes

theorem slot_eq (k : Key) : k.slot = keccak256Hash k.name := by
  cases k <;>
    simp [slot, name, selfSlot, jailedSlot, candSlot, lenSlot, idxSlot, unbondAmtSlot, unbondAtSlot,
      delSlot, delTotSlot, commSlot, delUnbondAmtSlot, delUnbondAtSlot, delRateSlot, rewIdxSlot,
      rewDebtSlot, rewPendSlot, slotHash]

/-- The slots by their numbers. -/
theorem slot_eq_evalNat (k : Key) : k.slot = BitVec.ofNat 256 (Keccak.evalNat k.name) := by
  rw [slot_eq]
  apply Keccak.keccak256_eq_evalNat
  cases k <;> simp [name, ascii, u64BE]

end Key

/-- The words of the module by their names. -/
abbrev Words := Key → U256

/-- The ledger shows the words `B` under the names of `K`. -/
def Shows (K : Set Key) (B : Words) (L : Ledger) : Prop :=
  ∃ bal, Holds stakingModuleAddr Key.slot K B bal L

section Words

variable {K : Set Key} {B : Words}

theorem total_load {k : Key} (hk : k ∈ K) :
    Program.Total Op.execL (Shows K B) (load k.slot) fun v L => v = B k ∧ Shows K B L := by
  apply Total.fix
  intro bal
  refine (Holds.load hk).conseq (fun _ h => h) ?_
  rintro v L ⟨hv, hL⟩
  exact ⟨hv, bal, hL⟩

theorem total_store (hinj : Set.InjOn Key.slot K) {k : Key} (hk : k ∈ K) (v : U256) :
    Program.Total Op.execL (Shows K B) (store k.slot v) fun _ L =>
      Shows K (Function.update B k v) L := by
  apply Total.fix
  intro bal
  refine (Holds.store hinj hk v).conseq (fun _ h => h) ?_
  rintro _ L hL
  exact ⟨bal, hL⟩

theorem total_pay (a : Address) (x : U256) :
    Program.Total Op.execL (Shows K B) (pay a x) fun _ L => Shows K B L := by
  rintro L ⟨bal, hL⟩
  refine ⟨(), L.pay a x, run_pay L a x, _, ?_, rfl⟩
  intro k hk
  have hslot : (L.pay a x).slot = L.slot := by
    unfold Ledger.pay
    split
    · rfl
    · rfl
  rw [hslot]
  exact hL.word k hk

end Words

/-! ## Shares and rewards -/

/-- The exchange rate of a validator's shares. -/
def rate (B : Words) (v : Address) : U256 :=
  if B (.delRate v) = 0 then stakePrecision else B (.delRate v)

/-- The stake that shares stand for. -/
def weiOf (B : Words) (v : Address) (shares : U256) : U256 :=
  if shares = 0 then 0 else shares * rate B v / stakePrecision

/-- The shares that stake buys. -/
def sharesOf (B : Words) (v : Address) (wei : U256) : U256 :=
  if wei = 0 then 0 else wei * stakePrecision / rate B v

/-- The rewards that shares have earned since the beginning. -/
def earned (B : Words) (v : Address) (shares : U256) : U256 :=
  if shares = 0 then 0 else shares * B (.rewIdx v) / stakePrecision

section Methods

variable {K : Set Key} {B : Words} {v d : Address}

theorem total_delRate (hk : Key.delRate v ∈ K) :
    Program.Total Op.execL (Shows K B) (delRate v) fun r L => r = rate B v ∧ Shows K B L := by
  apply (total_load hk).bind
  intro r
  apply Total.assume
  rintro rfl
  exact Total.pure fun L hL => ⟨rfl, hL⟩

theorem total_sharesToWei (hk : Key.delRate v ∈ K) (shares : U256) :
    Program.Total Op.execL (Shows K B) (sharesToWei v shares) fun r L =>
      r = weiOf B v shares ∧ Shows K B L := by
  unfold sharesToWei weiOf
  split
  · exact Total.pure fun L hL => ⟨rfl, hL⟩
  · apply (total_delRate hk).bind
    intro r
    apply Total.assume
    rintro rfl
    exact Total.pure fun L hL => ⟨rfl, hL⟩

theorem total_weiToShares (hk : Key.delRate v ∈ K) (wei : U256) :
    Program.Total Op.execL (Shows K B) (weiToShares v wei) fun r L =>
      r = sharesOf B v wei ∧ Shows K B L := by
  unfold weiToShares sharesOf
  split
  · exact Total.pure fun L hL => ⟨rfl, hL⟩
  · apply (total_delRate hk).bind
    intro r
    apply Total.assume
    rintro rfl
    exact Total.pure fun L hL => ⟨rfl, hL⟩

theorem total_delegation (hdel : Key.del v d ∈ K) (hrate : Key.delRate v ∈ K) :
    Program.Total Op.execL (Shows K B) (delegation v d) fun r L =>
      r = weiOf B v (B (.del v d)) ∧ Shows K B L := by
  apply (total_load hdel).bind
  intro shares
  apply Total.assume
  rintro rfl
  exact total_sharesToWei hrate _

theorem total_delegatedTotal (htot : Key.delTot v ∈ K) (hrate : Key.delRate v ∈ K) :
    Program.Total Op.execL (Shows K B) (delegatedTotal v) fun r L =>
      r = weiOf B v (B (.delTot v)) ∧ Shows K B L := by
  apply (total_load htot).bind
  intro shares
  apply Total.assume
  rintro rfl
  exact total_sharesToWei hrate _

theorem total_commissionBps (hcomm : Key.comm v ∈ K) :
    Program.Total Op.execL (Shows K B) (commissionBps v) fun r L =>
      r = (B (.comm v)).setWidth 64 ∧ Shows K B L := by
  apply (total_load hcomm).bind
  intro w
  apply Total.assume
  rintro rfl
  exact Total.pure fun L hL => ⟨rfl, hL⟩

theorem total_pendingUndelegation (hamt : Key.delUnbondAmt v d ∈ K)
    (hat : Key.delUnbondAt v d ∈ K) :
    Program.Total Op.execL (Shows K B) (pendingUndelegation v d) fun r L =>
      r = (B (.delUnbondAmt v d), (B (.delUnbondAt v d)).setWidth 64) ∧ Shows K B L := by
  apply (total_load hamt).bind
  intro amount
  apply Total.assume
  rintro rfl
  apply (total_load hat).bind
  intro unlock
  apply Total.assume
  rintro rfl
  exact Total.pure fun L hL => ⟨rfl, hL⟩

theorem total_rewardDebtForShares (hk : Key.rewIdx v ∈ K) (shares : U256) :
    Program.Total Op.execL (Shows K B) (rewardDebtForShares v shares) fun r L =>
      r = earned B v shares ∧ Shows K B L := by
  unfold rewardDebtForShares earned
  split
  · exact Total.pure fun L hL => ⟨rfl, hL⟩
  · apply (total_load hk).bind
    intro r
    apply Total.assume
    rintro rfl
    exact Total.pure fun L hL => ⟨rfl, hL⟩

/-- The words after `settleRewards`. -/
def settled (B : Words) (v d : Address) : Words :=
  let owed := earned B v (B (.del v d))
  let B' := if B (.rewDebt v d) < owed then
      Function.update B (.rewPend v d) (B (.rewPend v d) + (owed - B (.rewDebt v d)))
    else B
  Function.update B' (.rewDebt v d) owed

theorem total_settleRewards (hinj : Set.InjOn Key.slot K) (hdel : Key.del v d ∈ K)
    (hidx : Key.rewIdx v ∈ K) (hdebt : Key.rewDebt v d ∈ K) (hpend : Key.rewPend v d ∈ K) :
    Program.Total Op.execL (Shows K B) (settleRewards v d) fun _ L => Shows K (settled B v d) L := by
  apply (total_load hdel).bind
  intro shares
  apply Total.assume
  rintro rfl
  apply (total_rewardDebtForShares hidx _).bind
  intro owed
  apply Total.assume
  rintro rfl
  apply (total_load hdebt).bind
  intro debt
  apply Total.assume
  rintro rfl
  unfold settled
  dsimp only
  split
  · apply (total_load hpend).bind
    intro pend
    apply Total.assume
    rintro rfl
    apply (total_store hinj hpend _).bind
    intro _
    exact total_store hinj hdebt _
  · exact total_store hinj hdebt _

/-- `ClaimRewards`: what it returns, and the words after it. -/
def claimed (B : Words) (v d : Address) : Except StakingError U256 × Words :=
  let B' := settled B v d
  if B' (.rewPend v d) = 0 then (.error .noRewards, B')
  else (.ok (B' (.rewPend v d)), Function.update B' (.rewPend v d) 0)

theorem total_claimRewards (hinj : Set.InjOn Key.slot K) (hdel : Key.del v d ∈ K)
    (hidx : Key.rewIdx v ∈ K) (hdebt : Key.rewDebt v d ∈ K) (hpend : Key.rewPend v d ∈ K) :
    Program.Total Op.execL (Shows K B) (claimRewards v d) fun r L =>
      r = (claimed B v d).1 ∧ Shows K (claimed B v d).2 L := by
  apply (total_settleRewards hinj hdel hidx hdebt hpend).bind
  intro _
  apply (total_load hpend).bind
  intro pend
  apply Total.assume
  rintro rfl
  unfold claimed
  dsimp only
  split
  · exact Total.pure fun L hL => ⟨rfl, hL⟩
  · apply (total_store hinj hpend _).bind
    intro _
    exact Total.pure fun L hL => ⟨rfl, hL⟩

theorem total_pendingRewards (hinj : Set.InjOn Key.slot K) (hdel : Key.del v d ∈ K)
    (hidx : Key.rewIdx v ∈ K) (hdebt : Key.rewDebt v d ∈ K) (hpend : Key.rewPend v d ∈ K) :
    Program.Total Op.execL (Shows K B) (pendingRewards v d) fun r L =>
      r = settled B v d (.rewPend v d) ∧ Shows K (settled B v d) L := by
  apply (total_settleRewards hinj hdel hidx hdebt hpend).bind
  intro _
  exact total_load hpend

/-- The words after `shares` of a delegator and of all its validator's delegators are set, with the
debt that goes with them. -/
def withShares (B : Words) (v d : Address) (shares total : U256) : Words :=
  let B' := Function.update (Function.update B (.del v d) shares) (.delTot v) total
  Function.update B' (.rewDebt v d) (earned B' v shares)

/-- `Delegate`: what it returns, and the words after it. -/
def delegated (B : Words) (v d : Address) (amount : U256) : Except StakingError Unit × Words :=
  if amount = 0 then (.error .zeroDelegate, B)
  else if v = d then (.error .selfDelegate, B)
  else
    let B' := settled B v d
    let add := sharesOf B' v amount
    if add = 0 then (.error .delegateTooSmall, B')
    else (.ok (), withShares B' v d (B' (.del v d) + add) (B' (.delTot v) + add))

theorem total_delegate (hinj : Set.InjOn Key.slot K) (hdel : Key.del v d ∈ K)
    (htot : Key.delTot v ∈ K) (hrate : Key.delRate v ∈ K) (hidx : Key.rewIdx v ∈ K)
    (hdebt : Key.rewDebt v d ∈ K) (hpend : Key.rewPend v d ∈ K) (amount : U256) :
    Program.Total Op.execL (Shows K B) (delegate v d amount) fun r L =>
      r = (delegated B v d amount).1 ∧ Shows K (delegated B v d amount).2 L := by
  unfold delegate delegated
  split
  · exact Total.pure fun L hL => ⟨rfl, hL⟩
  split
  · exact Total.pure fun L hL => ⟨rfl, hL⟩
  apply (total_settleRewards hinj hdel hidx hdebt hpend).bind
  intro _
  apply (total_weiToShares hrate amount).bind
  intro add
  apply Total.assume
  rintro rfl
  dsimp only
  split
  · exact Total.pure fun L hL => ⟨rfl, hL⟩
  apply (total_load hdel).bind
  intro cur
  apply Total.assume
  rintro rfl
  apply (total_store hinj hdel _).bind
  intro _
  apply (total_load htot).bind
  intro tot
  apply Total.assume
  rintro rfl
  apply (total_store hinj htot _).bind
  intro _
  apply (total_rewardDebtForShares hidx _).bind
  intro debt
  apply Total.assume
  rintro rfl
  apply (total_store hinj hdebt _).bind
  intro _
  refine Total.pure fun L hL => ⟨rfl, ?_⟩
  rwa [Function.update_of_ne (show Key.delTot v ≠ Key.del v d by rintro ⟨⟩)] at hL

/-- `Undelegate`: what it returns, and the words after it. -/
def undelegated (m : StakingModule) (B : Words) (v d : Address) (amount : U256) (now : U64) :
    Except StakingError Unit × Words :=
  if amount = 0 then (.error .zeroUndelegate, B)
  else
    let B' := settled B v d
    let want := sharesOf B' v amount
    if weiOf B' v (B' (.del v d)) < amount then (.error .insufficientDelegation, B')
    else if want = 0 then (.error .undelegateTooSmall, B')
    else
      let sub := if B' (.del v d) < want then B' (.del v d) else want
      let next := B' (.del v d) - sub
      -- the shares of the delegator are written before the total is checked
      if B' (.delTot v) < sub then
        (.error .delegatedTotalUnderflow, Function.update B' (.del v d) next)
      else
        let B'' := withShares B' v d next (B' (.delTot v) - sub)
        let unlock := now + m.unbondSeconds
        let old : U64 := (B'' (.delUnbondAt v d)).setWidth 64
        (.ok (), Function.update (Function.update B'' (.delUnbondAmt v d)
          (B'' (.delUnbondAmt v d) + amount)) (.delUnbondAt v d)
          ((if unlock < old then old else unlock).setWidth 256))

theorem total_undelegate (m : StakingModule) (hinj : Set.InjOn Key.slot K) (hdel : Key.del v d ∈ K)
    (htot : Key.delTot v ∈ K) (hrate : Key.delRate v ∈ K) (hidx : Key.rewIdx v ∈ K)
    (hdebt : Key.rewDebt v d ∈ K) (hpend : Key.rewPend v d ∈ K) (hamt : Key.delUnbondAmt v d ∈ K)
    (hat : Key.delUnbondAt v d ∈ K) (amount : U256) (now : U64) :
    Program.Total Op.execL (Shows K B) (undelegate m v d amount now) fun r L =>
      r = (undelegated m B v d amount now).1 ∧ Shows K (undelegated m B v d amount now).2 L := by
  unfold undelegate undelegated
  split
  · exact Total.pure fun L hL => ⟨rfl, hL⟩
  apply (total_settleRewards hinj hdel hidx hdebt hpend).bind
  intro _
  apply (total_delegation hdel hrate).bind
  intro eff
  apply Total.assume
  rintro rfl
  dsimp only
  split
  · exact Total.pure fun L hL => ⟨rfl, hL⟩
  apply (total_weiToShares hrate amount).bind
  intro want
  apply Total.assume
  rintro rfl
  split
  · exact Total.pure fun L hL => ⟨rfl, hL⟩
  apply (total_load hdel).bind
  intro cur
  apply Total.assume
  rintro rfl
  generalize (if settled B v d (.del v d) < sharesOf (settled B v d) v amount then
    settled B v d (.del v d) else sharesOf (settled B v d) v amount) = sub
  apply (total_store hinj hdel _).bind
  intro _
  apply (total_load htot).bind
  intro tot
  apply Total.assume
  rintro rfl
  rw [Function.update_of_ne (show Key.delTot v ≠ Key.del v d by rintro ⟨⟩)]
  split
  · exact Total.pure fun L hL => ⟨rfl, hL⟩
  apply (total_store hinj htot _).bind
  intro _
  apply (total_rewardDebtForShares hidx _).bind
  intro debt
  apply Total.assume
  rintro rfl
  apply (total_store hinj hdebt _).bind
  intro _
  apply (total_pendingUndelegation hamt hat).bind
  intro pending
  apply Total.assume
  rintro rfl
  apply (total_store hinj hamt _).bind
  intro _
  apply (total_store hinj hat _).bind
  intro _
  exact Total.pure fun L hL => ⟨rfl, hL⟩

/-- What `DistributeProposerIncome` keeps at the module for the delegators. -/
def delegatorPart (B : Words) (v : Address) (amount : U256) (enabled : Bool) : U256 :=
  let self := B (.self v)
  let stake := weiOf B v (B (.delTot v))
  if amount = 0 ∨ enabled = false ∨ self + stake = 0 ∨ B (.delTot v) = 0 then 0
  else amount - validatorPart amount self stake ((B (.comm v)).setWidth 64)

/-- The words after `DistributeProposerIncome`. -/
def distributed (B : Words) (v : Address) (amount : U256) (enabled : Bool) : Words :=
  let part := delegatorPart B v amount enabled
  let inc := part * stakePrecision / B (.delTot v)
  if part = 0 ∨ inc = 0 then B else Function.update B (.rewIdx v) (B (.rewIdx v) + inc)

theorem total_payDelegators (hinj : Set.InjOn Key.slot K) (htot : Key.delTot v ∈ K)
    (hidx : Key.rewIdx v ∈ K) (part : U256) :
    Program.Total Op.execL (Shows K B) (payDelegators v part) fun _ L =>
      Shows K (if B (.delTot v) = 0 then B
        else if part = 0 ∨ part * stakePrecision / B (.delTot v) = 0 then B
        else Function.update B (.rewIdx v)
          (B (.rewIdx v) + part * stakePrecision / B (.delTot v))) L := by
  unfold payDelegators
  split
  · rename_i hzero
    refine Total.pure fun L hL => ?_
    rw [if_pos (Or.inl hzero), ite_self]
    exact hL
  rename_i hpart
  apply (total_load htot).bind
  intro shares
  apply Total.assume
  rintro rfl
  split
  · exact total_pay v part
  rename_i hshares
  apply (total_pay stakingModuleAddr part).bind
  intro _
  unfold increaseRewardIndex
  rw [if_neg (not_or.mpr ⟨hpart, hshares⟩)]
  dsimp only
  split
  · rename_i hinc
    rw [if_pos (Or.inr hinc)]
    exact Total.pure fun L hL => hL
  · rename_i hinc
    rw [if_neg (not_or.mpr ⟨hpart, hinc⟩)]
    apply (total_load hidx).bind
    intro idx
    apply Total.assume
    rintro rfl
    exact total_store hinj hidx _

theorem total_distributeProposerIncome (hinj : Set.InjOn Key.slot K) (hself : Key.self v ∈ K)
    (htot : Key.delTot v ∈ K) (hrate : Key.delRate v ∈ K) (hcomm : Key.comm v ∈ K)
    (hidx : Key.rewIdx v ∈ K) (amount : U256) (enabled : Bool) :
    Program.Total Op.execL (Shows K B) (distributeProposerIncome v amount enabled) fun _ L =>
      Shows K (distributed B v amount enabled) L := by
  have hkeep : delegatorPart B v amount enabled = 0 → distributed B v amount enabled = B := by
    intro h
    simp [distributed, h]
  unfold distributeProposerIncome
  split
  · rename_i hzero
    rw [hkeep (if_pos (.inl hzero))]
    exact Total.pure fun L hL => hL
  rename_i hamount
  split
  · rename_i hoff
    rw [hkeep (if_pos (.inr (.inl (by simpa using hoff))))]
    exact total_pay v amount
  rename_i hon
  apply (total_load hself).bind
  intro self
  apply Total.assume
  rintro rfl
  apply (total_delegatedTotal htot hrate).bind
  intro stake
  apply Total.assume
  rintro rfl
  split
  · rename_i hnone
    rw [hkeep (if_pos (.inr (.inr (.inl hnone))))]
    exact total_pay v amount
  rename_i hstake
  apply (total_commissionBps hcomm).bind
  intro commission
  apply Total.assume
  rintro rfl
  apply (total_pay v _).bind
  intro _
  refine (total_payDelegators hinj htot hidx _).conseq (fun _ h => h) fun _ L hL => ?_
  by_cases hnobody : B (.delTot v) = 0
  · rw [hkeep (if_pos (.inr (.inr (.inr hnobody))))]
    rwa [if_pos hnobody] at hL
  · have hpart : delegatorPart B v amount enabled = amount - validatorPart amount (B (.self v))
        (weiOf B v (B (.delTot v))) ((B (.comm v)).setWidth 64) := by
      refine if_neg ?_
      rintro (h | h | h | h)
      · exact hamount h
      · exact hon (by simpa using h)
      · exact hstake h
      · exact hnobody h
    rw [if_neg hnobody, ← hpart] at hL
    exact hL

end Methods

end Dew.Staking
