/-
# The staking module with its vault

Bonding, unbonding, withdrawing and slashing on the words of the staking module, and the balance of
the module's account beside them. Methods that only access storage leave the balance alone; slashing
burns from it, deposits and payments move it.
-/
import Dew.NativeExecutor
import Dew.StakingSpec

/-- What the operations that a program calls keep, the program keeps. -/
theorem Program.Calls.run_keeps {O : Type} {R : O → Type} {α σ ε : Type}
    {h : (o : O) → σ → Except ε (R o × σ)} {C : O → Prop} {I : σ → Prop}
    (hop : ∀ o, C o → ∀ s r t, h o s = .ok (r, t) → I s → I t) {p : Program O R α}
    (hp : p.Calls C) {s t : σ} {a : α} (hrun : p.run h s = .ok (a, t)) (hs : I s) : I t := by
  induction p generalizing s with
  | pure b =>
      cases hrun
      exact hs
  | call o k ih =>
      obtain ⟨r, u, ho, hk⟩ := Program.run_call_ok hrun
      exact ih r (hp.2 r) hk (hop o hp.1 s r u ho hs)

namespace Dew

open Program

namespace Staking

/-! ## Bonding on words -/

/-- The words after `registerCandidate` of an address that is no candidate. -/
def registered (B : Words) (a : Address) : Words :=
  let n : U64 := (B .len).setWidth 64
  Function.update (Function.update (Function.update B (.cand a) 1) (.idx n) (a.setWidth 256)) .len
    ((n + 1).setWidth 256)

/-- `Bond`: what it returns, and the words after it. -/
def bonded (m : StakingModule) (B : Words) (a : Address) (amount : U256) :
    Except StakingError Unit × Words :=
  if amount = 0 then (.error .zeroBond, B)
  else
    let next := B (.self a) + amount
    let B' := Function.update B (.self a) next
    (.ok (), if BitVec.ofNat 256 m.minSelfStake ≤ next ∧ B' (.cand a) = 0 then registered B' a else B')

/-- `Unbond`: what it returns, and the words after it. -/
def unbonded (m : StakingModule) (B : Words) (a : Address) (amount : U256) (now : U64) :
    Except StakingError Unit × Words :=
  if amount = 0 then (.error .zeroUnbond, B)
  else if B (.jailed a) ≠ 0 then (.error .jailed, B)
  else if B (.self a) < amount then (.error .insufficientStake, B)
  else
    let next := B (.self a) - amount
    let B₁ := Function.update B (.self a) next
    let B₂ := if next < BitVec.ofNat 256 m.minSelfStake then Function.update B₁ (.cand a) 0 else B₁
    let unlock := now + m.unbondSeconds
    let old : U64 := (B₂ (.unbondAt a)).setWidth 64
    (.ok (), Function.update (Function.update B₂ (.unbondAmt a) (B₂ (.unbondAmt a) + amount))
      (.unbondAt a) ((if unlock < old then old else unlock).setWidth 256))

/-- The withdrawal of a pending amount: what it returns, and the words after it. -/
def released (B : Words) (amt time : Key) (now : U64) (none : StakingError)
    (early : U64 → U64 → StakingError) : Except StakingError U256 × Words :=
  let unlock : U64 := (B time).setWidth 64
  if B amt = 0 then (.error none, B)
  else if now < unlock then (.error (early unlock now), B)
  else (.ok (B amt), Function.update (Function.update B amt 0) time 0)

/-- `Withdraw`: what it returns, and the words after it. -/
def withdrawn (B : Words) (a : Address) (now : U64) : Except StakingError U256 × Words :=
  released B (.unbondAmt a) (.unbondAt a) now .noPendingUnbond .unbondingNotElapsed

/-- `WithdrawDelegation`: what it returns, and the words after it. -/
def withdrawnDelegation (B : Words) (v d : Address) (now : U64) :
    Except StakingError U256 × Words :=
  released B (.delUnbondAmt v d) (.delUnbondAt v d) now .noPendingUndelegation
    .undelegationNotElapsed

section Methods

variable {K : Set Key} {B : Words} {a v d : Address}

theorem total_isJailed (hk : Key.jailed a ∈ K) :
    Program.Total Op.execL (Shows K B) (isJailed a) fun r L =>
      r = (B (.jailed a) != 0) ∧ Shows K B L := by
  apply (total_load hk).bind
  intro w
  apply Total.assume
  rintro rfl
  exact Total.pure fun L hL => ⟨rfl, hL⟩

theorem total_isCandidate (hk : Key.cand a ∈ K) :
    Program.Total Op.execL (Shows K B) (isCandidate a) fun r L =>
      r = (B (.cand a) != 0) ∧ Shows K B L := by
  apply (total_load hk).bind
  intro w
  apply Total.assume
  rintro rfl
  exact Total.pure fun L hL => ⟨rfl, hL⟩

theorem total_mustFromBig {n : ℕ} (hn : n < 2 ^ 256) :
    Program.Total Op.execL (Shows K B) (mustFromBig n) fun r L =>
      r = BitVec.ofNat 256 n ∧ Shows K B L := by
  unfold mustFromBig
  rw [if_pos hn]
  exact Total.pure fun L hL => ⟨rfl, hL⟩

theorem total_registerCandidate (hinj : Set.InjOn Key.slot K) (hcand : Key.cand a ∈ K)
    (hlen : Key.len ∈ K) (hidx : Key.idx ((B .len).setWidth 64) ∈ K) (hfree : B (.cand a) = 0) :
    Program.Total Op.execL (Shows K B) (registerCandidate a) fun _ L =>
      Shows K (registered B a) L := by
  apply (total_isCandidate hcand).bind
  intro c
  apply Total.assume
  rintro rfl
  rw [hfree]
  apply (total_store hinj hcand _).bind
  intro _
  apply (total_load hlen).bind
  intro n
  apply Total.assume
  rintro rfl
  rw [Function.update_of_ne (show Key.len ≠ .cand a by rintro ⟨⟩)]
  apply (total_store hinj hidx _).bind
  intro _
  exact total_store hinj hlen _

theorem total_bond {m : StakingModule} (hmin : m.minSelfStake < 2 ^ 256)
    (hinj : Set.InjOn Key.slot K) (hself : Key.self a ∈ K) (hcand : Key.cand a ∈ K)
    (hlen : Key.len ∈ K) (hidx : Key.idx ((B .len).setWidth 64) ∈ K) (amount : U256) :
    Program.Total Op.execL (Shows K B) (bond m a amount) fun r L =>
      r = (bonded m B a amount).1 ∧ Shows K (bonded m B a amount).2 L := by
  unfold bond bonded
  split
  · exact Total.pure fun L hL => ⟨rfl, hL⟩
  apply (total_load hself).bind
  intro cur
  apply Total.assume
  rintro rfl
  apply (total_store hinj hself _).bind
  intro _
  apply (total_mustFromBig hmin).bind
  intro min
  apply Total.assume
  rintro rfl
  dsimp only
  have hidx' : Key.idx
      ((Function.update B (.self a) (B (.self a) + amount) .len).setWidth 64) ∈ K := by
    rw [Function.update_of_ne (by rintro ⟨⟩)]
    exact hidx
  generalize Function.update B (.self a) (B (.self a) + amount) = B' at hidx' ⊢
  split
  · rename_i henough
    apply (total_isCandidate hcand).bind
    intro c
    apply Total.assume
    rintro rfl
    by_cases hfree : B' (.cand a) = 0
    · have hc : (B' (.cand a) != 0) = false := by simpa using hfree
      rw [hc, if_pos (show _ ∧ _ from ⟨henough, hfree⟩)]
      apply (total_registerCandidate hinj hcand hlen hidx' hfree).bind
      intro _
      exact Total.pure fun L hL => ⟨rfl, hL⟩
    · have hc : (B' (.cand a) != 0) = true := by simpa using hfree
      rw [hc, if_neg (show ¬(_ ∧ _) from fun h => hfree h.2)]
      exact Total.pure fun L hL => ⟨rfl, hL⟩
  · rename_i hlow
    rw [if_neg fun h => hlow h.1]
    exact Total.pure fun L hL => ⟨rfl, hL⟩

theorem total_pendingUnbond (hamt : Key.unbondAmt a ∈ K) (hat : Key.unbondAt a ∈ K) :
    Program.Total Op.execL (Shows K B) (pendingUnbond a) fun r L =>
      r = (B (.unbondAmt a), (B (.unbondAt a)).setWidth 64) ∧ Shows K B L := by
  apply (total_load hamt).bind
  intro amount
  apply Total.assume
  rintro rfl
  apply (total_load hat).bind
  intro unlock
  apply Total.assume
  rintro rfl
  exact Total.pure fun L hL => ⟨rfl, hL⟩

theorem total_unbond {m : StakingModule} (hmin : m.minSelfStake < 2 ^ 256)
    (hinj : Set.InjOn Key.slot K) (hself : Key.self a ∈ K) (hjail : Key.jailed a ∈ K)
    (hcand : Key.cand a ∈ K) (hamt : Key.unbondAmt a ∈ K) (hat : Key.unbondAt a ∈ K)
    (amount : U256) (now : U64) :
    Program.Total Op.execL (Shows K B) (unbond m a amount now) fun r L =>
      r = (unbonded m B a amount now).1 ∧ Shows K (unbonded m B a amount now).2 L := by
  unfold unbond unbonded
  split
  · exact Total.pure fun L hL => ⟨rfl, hL⟩
  apply (total_isJailed hjail).bind
  intro j
  apply Total.assume
  rintro rfl
  by_cases hfree : B (.jailed a) = 0
  swap
  · have hj : (B (.jailed a) != 0) = true := by simpa using hfree
    rw [if_pos hfree, hj]
    exact Total.pure fun L hL => ⟨rfl, hL⟩
  have hj : (B (.jailed a) != 0) = false := by simpa using hfree
  rw [if_neg (not_not.mpr hfree), hj]
  apply (total_load hself).bind
  intro cur
  apply Total.assume
  rintro rfl
  split
  · exact Total.pure fun L hL => ⟨rfl, hL⟩
  apply (total_store hinj hself _).bind
  intro _
  apply (total_mustFromBig hmin).bind
  intro min
  apply Total.assume
  rintro rfl
  dsimp only
  -- what follows starts from the words with the candidate flag dropped or not
  have hqueue : ∀ B' : Words, Program.Total Op.execL (Shows K B') (do
      let queued ← pendingUnbond a
      store (unbondAmtSlot a) (queued.1 + amount)
      store (unbondAtSlot a) ((if now + m.unbondSeconds < queued.2 then queued.2
        else now + m.unbondSeconds).setWidth 256)
      return Except.ok () : StateProgram (Except StakingError Unit)) fun r L => r = .ok () ∧
        Shows K (Function.update (Function.update B' (.unbondAmt a) (B' (.unbondAmt a) + amount))
          (.unbondAt a) ((if now + m.unbondSeconds < (B' (.unbondAt a)).setWidth 64 then
            (B' (.unbondAt a)).setWidth 64 else now + m.unbondSeconds).setWidth 256)) L := by
    intro B'
    apply (total_pendingUnbond hamt hat).bind
    intro pending
    apply Total.assume
    rintro rfl
    apply (total_store hinj hamt _).bind
    intro _
    apply (total_store hinj hat _).bind
    intro _
    exact Total.pure fun L hL => ⟨rfl, hL⟩
  split
  · apply (total_store hinj hcand _).bind
    intro _
    exact hqueue _
  · exact hqueue _

theorem total_withdraw (hinj : Set.InjOn Key.slot K) (hamt : Key.unbondAmt a ∈ K)
    (hat : Key.unbondAt a ∈ K) (now : U64) :
    Program.Total Op.execL (Shows K B) (withdraw a now) fun r L =>
      r = (withdrawn B a now).1 ∧ Shows K (withdrawn B a now).2 L := by
  apply (total_pendingUnbond hamt hat).bind
  intro pending
  apply Total.assume
  rintro rfl
  unfold withdrawn released
  dsimp only
  split
  · exact Total.pure fun L hL => ⟨rfl, hL⟩
  split
  · exact Total.pure fun L hL => ⟨rfl, hL⟩
  apply (total_store hinj hamt _).bind
  intro _
  apply (total_store hinj hat _).bind
  intro _
  exact Total.pure fun L hL => ⟨rfl, hL⟩

theorem total_withdrawDelegation (hinj : Set.InjOn Key.slot K) (hamt : Key.delUnbondAmt v d ∈ K)
    (hat : Key.delUnbondAt v d ∈ K) (now : U64) :
    Program.Total Op.execL (Shows K B) (withdrawDelegation v d now) fun r L =>
      r = (withdrawnDelegation B v d now).1 ∧ Shows K (withdrawnDelegation B v d now).2 L := by
  apply (total_pendingUndelegation hamt hat).bind
  intro pending
  apply Total.assume
  rintro rfl
  unfold withdrawnDelegation released
  dsimp only
  split
  · exact Total.pure fun L hL => ⟨rfl, hL⟩
  split
  · exact Total.pure fun L hL => ⟨rfl, hL⟩
  apply (total_store hinj hamt _).bind
  intro _
  apply (total_store hinj hat _).bind
  intro _
  exact Total.pure fun L hL => ⟨rfl, hL⟩

end Methods

/-! ## Storage accesses -/

theorem accesses_load (slot : Hash) : (load slot).Calls Op.IsStorage := by
  simp [load, Op.IsStorage]

theorem accesses_store (slot : Hash) (v : U256) : (store slot v).Calls Op.IsStorage := by
  simp [store, Op.IsStorage]

theorem accesses_isJailed (a : Address) : (isJailed a).Calls Op.IsStorage :=
  Calls.bind (accesses_load _) fun _ => trivial

theorem accesses_isCandidate (a : Address) : (isCandidate a).Calls Op.IsStorage :=
  Calls.bind (accesses_load _) fun _ => trivial

theorem accesses_delRate (v : Address) : (delRate v).Calls Op.IsStorage :=
  Calls.bind (accesses_load _) fun _ => trivial

theorem accesses_sharesToWei (v : Address) (x : U256) : (sharesToWei v x).Calls Op.IsStorage := by
  unfold sharesToWei
  split
  · trivial
  · exact Calls.bind (accesses_delRate v) fun _ => trivial

theorem accesses_weiToShares (v : Address) (x : U256) : (weiToShares v x).Calls Op.IsStorage := by
  unfold weiToShares
  split
  · trivial
  · exact Calls.bind (accesses_delRate v) fun _ => trivial

theorem accesses_rewardDebtForShares (v : Address) (x : U256) :
    (rewardDebtForShares v x).Calls Op.IsStorage := by
  unfold rewardDebtForShares
  split
  · trivial
  · exact Calls.bind (accesses_load _) fun _ => trivial

theorem accesses_settleRewards (v d : Address) : (settleRewards v d).Calls Op.IsStorage := by
  refine Calls.bind (accesses_load _) fun _ => ?_
  refine Calls.bind (accesses_rewardDebtForShares v _) fun _ => ?_
  refine Calls.bind (accesses_load _) fun _ => ?_
  split
  · exact Calls.bind (accesses_load _) fun _ =>
      Calls.bind (accesses_store _ _) fun _ => accesses_store _ _
  · exact accesses_store _ _

theorem accesses_pendingUndelegation (v d : Address) :
    (pendingUndelegation v d).Calls Op.IsStorage :=
  Calls.bind (accesses_load _) fun _ => Calls.bind (accesses_load _) fun _ => trivial

theorem accesses_pendingUnbond (a : Address) : (pendingUnbond a).Calls Op.IsStorage :=
  Calls.bind (accesses_load _) fun _ => Calls.bind (accesses_load _) fun _ => trivial

theorem accesses_delegate (v d : Address) (amount : U256) :
    (delegate v d amount).Calls Op.IsStorage := by
  unfold delegate
  split
  · trivial
  split
  · trivial
  refine Calls.bind (accesses_settleRewards v d) fun _ => ?_
  refine Calls.bind (accesses_weiToShares v amount) fun _ => ?_
  split
  · trivial
  refine Calls.bind (accesses_load _) fun _ => ?_
  refine Calls.bind (accesses_store _ _) fun _ => ?_
  refine Calls.bind (accesses_load _) fun _ => ?_
  refine Calls.bind (accesses_store _ _) fun _ => ?_
  refine Calls.bind (accesses_rewardDebtForShares v _) fun _ => ?_
  exact Calls.bind (accesses_store _ _) fun _ => trivial

theorem accesses_undelegate (m : StakingModule) (v d : Address) (amount : U256) (now : U64) :
    (undelegate m v d amount now).Calls Op.IsStorage := by
  unfold undelegate
  split
  · trivial
  refine Calls.bind (accesses_settleRewards v d) fun _ => ?_
  refine Calls.bind (Calls.bind (accesses_load _) fun _ => accesses_sharesToWei v _) fun _ => ?_
  split
  · trivial
  refine Calls.bind (accesses_weiToShares v amount) fun _ => ?_
  split
  · trivial
  refine Calls.bind (accesses_load _) fun cur => ?_
  refine Calls.bind (accesses_store _ _) fun _ => ?_
  refine Calls.bind (accesses_load _) fun tot => ?_
  generalize (if cur < _ then cur else _) = sub
  split
  · trivial
  refine Calls.bind (accesses_store _ _) fun _ => ?_
  refine Calls.bind (accesses_rewardDebtForShares v _) fun _ => ?_
  refine Calls.bind (accesses_store _ _) fun _ => ?_
  refine Calls.bind (accesses_pendingUndelegation v d) fun _ => ?_
  refine Calls.bind (accesses_store _ _) fun _ => ?_
  exact Calls.bind (accesses_store _ _) fun _ => trivial

theorem accesses_mustFromBig {n : ℕ} (hn : n < 2 ^ 256) : (mustFromBig n).Calls Op.IsStorage := by
  unfold mustFromBig
  rw [if_pos hn]
  trivial

theorem accesses_registerCandidate (a : Address) : (registerCandidate a).Calls Op.IsStorage := by
  refine Calls.bind (accesses_isCandidate a) fun c => ?_
  cases c
  · refine Calls.bind (accesses_store _ _) fun _ => ?_
    refine Calls.bind (accesses_load _) fun _ => ?_
    exact Calls.bind (accesses_store _ _) fun _ => accesses_store _ _
  · trivial

theorem accesses_bond {m : StakingModule} (hmin : m.minSelfStake < 2 ^ 256) (a : Address)
    (amount : U256) : (bond m a amount).Calls Op.IsStorage := by
  unfold bond
  split
  · trivial
  refine Calls.bind (accesses_load _) fun _ => ?_
  refine Calls.bind (accesses_store _ _) fun _ => ?_
  refine Calls.bind (accesses_mustFromBig hmin) fun _ => ?_
  split
  · refine Calls.bind (accesses_isCandidate a) fun c => ?_
    cases c
    · exact Calls.bind (accesses_registerCandidate a) fun _ => trivial
    · trivial
  · trivial

theorem accesses_unbond {m : StakingModule} (hmin : m.minSelfStake < 2 ^ 256) (a : Address)
    (amount : U256) (now : U64) : (unbond m a amount now).Calls Op.IsStorage := by
  unfold unbond
  split
  · trivial
  refine Calls.bind (accesses_isJailed a) fun j => ?_
  cases j
  swap
  · trivial
  refine Calls.bind (accesses_load _) fun _ => ?_
  split
  · trivial
  refine Calls.bind (accesses_store _ _) fun _ => ?_
  refine Calls.bind (accesses_mustFromBig hmin) fun _ => ?_
  have hqueue : (do
      let queued ← pendingUnbond a
      store (unbondAmtSlot a) (queued.1 + amount)
      store (unbondAtSlot a) ((if now + m.unbondSeconds < queued.2 then queued.2
        else now + m.unbondSeconds).setWidth 256)
      return Except.ok () : StateProgram (Except StakingError Unit)).Calls Op.IsStorage := by
    refine Calls.bind (accesses_pendingUnbond a) fun _ => ?_
    refine Calls.bind (accesses_store _ _) fun _ => ?_
    exact Calls.bind (accesses_store _ _) fun _ => trivial
  split
  · exact Calls.bind (accesses_store _ _) fun _ => hqueue
  · exact hqueue

theorem accesses_withdraw (a : Address) (now : U64) : (withdraw a now).Calls Op.IsStorage := by
  refine Calls.bind (accesses_pendingUnbond a) fun _ => ?_
  dsimp only
  split
  · trivial
  split
  · trivial
  exact Calls.bind (accesses_store _ _) fun _ => Calls.bind (accesses_store _ _) fun _ => trivial

theorem accesses_withdrawDelegation (v d : Address) (now : U64) :
    (withdrawDelegation v d now).Calls Op.IsStorage := by
  refine Calls.bind (accesses_pendingUndelegation v d) fun _ => ?_
  dsimp only
  split
  · trivial
  split
  · trivial
  exact Calls.bind (accesses_store _ _) fun _ => Calls.bind (accesses_store _ _) fun _ => trivial

/-! ## The vault -/

/-- The ledger shows the words `B`, and the module's account, which is not destroyed, holds `b`. -/
structure Vault (K : Set Key) (B : Words) (b : U256) (L : Ledger) : Prop where
  word : ∀ k ∈ K, L.slot ⟨stakingModuleAddr, k.slot⟩ = B k
  balance : L.balance stakingModuleAddr = b
  standing : stakingModuleAddr ∉ L.suicides

section Vault

variable {K : Set Key} {B : Words} {b : U256}

/-- A storage access leaves balances and destroyed accounts alone. -/
theorem keeps_of_isStorage {bal : Address → U256} {dead : List Address} :
    ∀ o : Op, o.IsStorage → ∀ L r L', o.execL L = .ok (r, L') →
      L.balance = bal ∧ L.suicides = dead → L'.balance = bal ∧ L'.suicides = dead := by
  intro o ho L r L' hrun hL
  cases o with
  | getState id =>
      cases hrun
      exact hL
  | setState id v =>
      cases hrun
      refine ⟨(balance_setState L id v).trans hL.1, ?_⟩
      show (L.touch id.addr).suicides = _
      unfold Ledger.touch
      split
      · exact hL.2
      · exact hL.2
  | _ => cases ho

/-- What a method does to the words, it does beside the vault. -/
theorem Vault.lift {α : Type} {p : StateProgram α} (hp : p.Calls Op.IsStorage) {x : α} {B' : Words}
    (h : Program.Total Op.execL (Shows K B) p fun r L => r = x ∧ Shows K B' L) :
    Program.Total Op.execL (Vault K B b) p fun r L => r = x ∧ Vault K B' b L := by
  intro L hL
  obtain ⟨r, L', hrun, hr, bal, hL'⟩ := h L ⟨_, hL.word, rfl⟩
  obtain ⟨hbal, hdead⟩ := hp.run_keeps keeps_of_isStorage hrun ⟨rfl, rfl⟩
  refine ⟨r, L', hrun, hr, hL'.word, ?_, ?_⟩
  · rw [hbal]
    exact hL.balance
  · rw [hdead]
    exact hL.standing

theorem Vault.load {k : Key} (hk : k ∈ K) :
    Program.Total Op.execL (Vault K B b) (load k.slot) fun r L => r = B k ∧ Vault K B b L :=
  Vault.lift (accesses_load _) (total_load hk)

theorem Vault.store (hinj : Set.InjOn Key.slot K) {k : Key} (hk : k ∈ K) (v : U256) :
    Program.Total Op.execL (Vault K B b) (store k.slot v) fun _ L =>
      Vault K (Function.update B k v) b L := by
  refine (Vault.lift (x := ()) (accesses_store _ _) ?_).conseq (fun _ h => h) fun _ _ h => h.2
  exact (total_store hinj hk v).conseq (fun _ h => h) fun _ _ h => ⟨rfl, h⟩

/-- A change of a balance is seen at the module only if it is the module's. -/
theorem Vault.updateBalance {L : Ledger} (hL : Vault K B b L) (a : Address) (f : U256 → U256) :
    Vault K B (if a = stakingModuleAddr then f b else b) (L.updateBalance a f) where
  word k hk := hL.word k hk
  balance := by
    split
    · rename_i ha
      subst ha
      rw [Ledger.balance_eq_accountOrNew, Ledger.updateBalance,
        Ledger.accountOrNew_updateAccount hL.standing, Function.update_self,
        ← Ledger.balance_eq_accountOrNew, hL.balance]
    · rename_i ha
      rw [← hL.balance]
      have hne : stakingModuleAddr ≠ a := fun h => ha h.symm
      simp [Ledger.balance, Ledger.account?, Ledger.updateBalance, Ledger.updateAccount,
        Ledger.setObject, Ledger.record, Ledger.inScope, TxScope.appendJournal, hne]
  standing := hL.standing

theorem Vault.getBalance : Program.Total Op.execL (Vault K B b)
    (Op.getBalance stakingModuleAddr).call fun r L => r = b ∧ Vault K B b L := by
  apply Total.op
  intro L hL
  exact ⟨_, L, rfl, hL.balance, hL⟩

theorem Vault.subBalance (x : U256) : Program.Total Op.execL (Vault K B b)
    (Op.subBalance stakingModuleAddr x).call fun _ L => Vault K B (b - x) L := by
  apply Total.op
  intro L hL
  have hsub := hL.updateBalance stakingModuleAddr (· - x)
  rw [if_pos rfl] at hsub
  exact ⟨_, _, rfl, hsub⟩

theorem Vault.addBalance (a : Address) (x : U256) : Program.Total Op.execL (Vault K B b)
    (Op.addBalancePrev a x).call fun _ L =>
      Vault K B (if a = stakingModuleAddr then b + x else b) L := by
  apply Total.op
  intro L hL
  exact ⟨_, _, rfl, hL.updateBalance a (· + x)⟩

/-! ## Slashing -/

/-- The part of the stake of a validator itself that `SlashAndJail` burns. -/
def selfBurn (B : Words) (v : Address) : U256 :=
  B (.self v) * doubleSignSelfBurnBps.setWidth 256 / maxCommissionBps.setWidth 256

/-- The part of the delegated stake that `SlashAndJail` burns. -/
def delBurn (B : Words) (v : Address) : U256 :=
  weiOf B v (B (.delTot v)) * doubleSignDelegatorBurnBps.setWidth 256 / maxCommissionBps.setWidth 256

/-- The rate after a slash. -/
def cutRate (B : Words) (v : Address) : U256 :=
  let remain := maxCommissionBps - doubleSignDelegatorBurnBps
  let new := rate B v * remain.setWidth 256 / maxCommissionBps.setWidth 256
  if new = 0 ∧ 0 < remain then 1 else new

/-- The words after the burns of `SlashAndJail`. -/
def burnt (B : Words) (v : Address) : Words :=
  let B' := if selfBurn B v ≠ 0 then Function.update B (.self v) (B (.self v) - selfBurn B v) else B
  if delBurn B v ≠ 0 ∧ weiOf B v (B (.delTot v)) ≠ 0 then
    Function.update B' (.delRate v) (cutRate B v)
  else B'

/-- What `SlashAndJail` takes from a vault of `b`. -/
def burnOf (B : Words) (v : Address) (b : U256) : U256 :=
  let all := selfBurn B v + delBurn B v
  if all = 0 then 0 else if b < all then b else all

/-- `SlashAndJail`: what it burns, and the words after it. -/
def slashed (B : Words) (v : Address) (b : U256) : U256 × Words :=
  if B (.jailed v) ≠ 0 then (0, B)
  else (burnOf B v b, Function.update (Function.update (burnt B v) (.jailed v) 1) (.cand v) 0)

theorem total_jail {v : Address} (hinj : Set.InjOn Key.slot K) (hjail : Key.jailed v ∈ K)
    (hcand : Key.cand v ∈ K) :
    Program.Total Op.execL (Vault K B b) (jail v) fun _ L =>
      Vault K (Function.update (Function.update B (.jailed v) 1) (.cand v) 0) b L :=
  (Vault.store hinj hjail 1).bind fun _ => Vault.store hinj hcand 0

/-- The end of `SlashAndJail`: what the account holds of the burn is taken, and the validator is
marked. -/
def burnAndJail (v : Address) (totalBurn : U256) : StateProgram U256 := do
  let burned ←
    if totalBurn = 0 then Pure.pure 0
    else do
      let bal : U256 ← (Op.getBalance stakingModuleAddr).call
      let burned := if bal < totalBurn then bal else totalBurn
      if burned ≠ 0 then
        let _ ← (Op.subBalance stakingModuleAddr burned).call
      Pure.pure burned
  jail v
  return burned

theorem total_burnAndJail {v : Address} (hinj : Set.InjOn Key.slot K) (hjail : Key.jailed v ∈ K)
    (hcand : Key.cand v ∈ K) (x : U256) :
    Program.Total Op.execL (Vault K B b) (burnAndJail v x) fun r L =>
      r = (if x = 0 then 0 else if b < x then b else x) ∧
        Vault K (Function.update (Function.update B (.jailed v) 1) (.cand v) 0) (b - r) L := by
  have hmark : ∀ b' y : U256, Program.Total Op.execL (Vault K B b') (do
      jail v
      return y : StateProgram U256) fun r L => r = y ∧
        Vault K (Function.update (Function.update B (.jailed v) 1) (.cand v) 0) b' L := by
    intro b' y
    apply (total_jail hinj hjail hcand).bind
    intro _
    exact Total.pure fun L hL => ⟨rfl, hL⟩
  unfold burnAndJail
  split
  · refine (hmark b 0).conseq (fun _ h => h) ?_
    rintro _ L ⟨rfl, hL⟩
    rw [show b - (0 : U256) = b from BitVec.sub_zero b]
    exact ⟨rfl, hL⟩
  apply Vault.getBalance.bind
  intro bal
  apply Total.assume
  rintro rfl
  dsimp only
  generalize (if bal < x then bal else x) = burned
  split
  · apply (Vault.subBalance burned).bind
    intro _
    refine (hmark _ burned).conseq (fun _ h => h) ?_
    rintro _ L ⟨rfl, hL⟩
    exact ⟨rfl, hL⟩
  · rename_i hzero
    refine (hmark bal burned).conseq (fun _ h => h) ?_
    rintro _ L ⟨rfl, hL⟩
    rw [not_not.mp hzero, show bal - (0 : U256) = bal from BitVec.sub_zero bal]
    exact ⟨rfl, hL⟩

/-- `SlashAndJail` after the burn of the self stake: the rate of the shares is cut. -/
def cutAndBurn (v : Address) (selfBurn : U256) : StateProgram U256 := do
  let delEff ← delegatedTotal v
  let delBurn := delEff * doubleSignDelegatorBurnBps.setWidth 256 / maxCommissionBps.setWidth 256
  if delBurn ≠ 0 ∧ delEff ≠ 0 then
    let rate ← delRate v
    let remainBps := maxCommissionBps - doubleSignDelegatorBurnBps
    let newRate := rate * remainBps.setWidth 256 / maxCommissionBps.setWidth 256
    store (delRateSlot v) (if newRate = 0 ∧ 0 < remainBps then 1 else newRate)
  burnAndJail v (selfBurn + delBurn)

/-- The burn of the self stake has left the shares as they are. -/
theorem total_cutAndBurn {v : Address} (hinj : Set.InjOn Key.slot K) (hjail : Key.jailed v ∈ K)
    (hcand : Key.cand v ∈ K) (htot : Key.delTot v ∈ K) (hrate : Key.delRate v ∈ K) {B₁ : Words}
    (hsame : B₁ (.delTot v) = B (.delTot v)) (hkept : B₁ (.delRate v) = B (.delRate v)) :
    Program.Total Op.execL (Vault K B₁ b) (cutAndBurn v (selfBurn B v)) fun r L =>
      r = burnOf B v b ∧
        Vault K (Function.update (Function.update (if delBurn B v ≠ 0 ∧
          weiOf B v (B (.delTot v)) ≠ 0 then Function.update B₁ (.delRate v) (cutRate B v) else B₁)
            (.jailed v) 1) (.cand v) 0) (b - r) L := by
  have hrateB : rate B₁ v = rate B v := by rw [rate, hkept, rate]
  have heff : weiOf B₁ v (B₁ (.delTot v)) = weiOf B v (B (.delTot v)) := by
    rw [weiOf, hrateB, hsame, weiOf]
  apply (Vault.lift (Calls.bind (accesses_load _) fun _ => accesses_sharesToWei v _)
    (total_delegatedTotal htot hrate)).bind
  intro eff
  apply Total.assume
  rintro rfl
  rw [heff]
  dsimp only
  split
  · rename_i hcut
    rw [if_pos (show delBurn B v ≠ 0 ∧ weiOf B v (B (.delTot v)) ≠ 0 from hcut)]
    apply (Vault.lift (accesses_delRate v) (total_delRate hrate)).bind
    intro r
    apply Total.assume
    rintro rfl
    rw [hrateB]
    apply (Vault.store hinj hrate _).bind
    intro _
    exact total_burnAndJail hinj hjail hcand _
  · rename_i hkeep
    rw [if_neg (show ¬(delBurn B v ≠ 0 ∧ weiOf B v (B (.delTot v)) ≠ 0) from hkeep)]
    exact total_burnAndJail hinj hjail hcand _

theorem total_slashAndJail {v : Address} (hinj : Set.InjOn Key.slot K) (hself : Key.self v ∈ K)
    (hjail : Key.jailed v ∈ K) (hcand : Key.cand v ∈ K) (htot : Key.delTot v ∈ K)
    (hrate : Key.delRate v ∈ K) :
    Program.Total Op.execL (Vault K B b) (slashAndJail v) fun r L =>
      r = (slashed B v b).1 ∧ Vault K (slashed B v b).2 (b - r) L := by
  apply (Vault.lift (accesses_isJailed v) (total_isJailed hjail)).bind
  intro j
  apply Total.assume
  rintro rfl
  unfold slashed
  by_cases hfree : B (.jailed v) = 0
  swap
  · have hj : (B (.jailed v) != 0) = true := by simpa using hfree
    rw [if_pos hfree, hj]
    refine Total.pure fun L hL => ⟨rfl, ?_⟩
    rw [show b - (0 : U256) = b from BitVec.sub_zero b]
    exact hL
  have hj : (B (.jailed v) != 0) = false := by simpa using hfree
  rw [if_neg (not_not.mpr hfree), hj]
  apply (Vault.load hself).bind
  intro self
  apply Total.assume
  rintro rfl
  dsimp only
  unfold burnt
  dsimp only
  split
  · rename_i hburn
    rw [if_pos (show selfBurn B v ≠ 0 from hburn)]
    apply (Vault.store hinj hself _).bind
    intro _
    exact total_cutAndBurn hinj hjail hcand htot hrate
      (Function.update_of_ne (by rintro ⟨⟩) _ _) (Function.update_of_ne (by rintro ⟨⟩) _ _)
  · rename_i hkeep
    rw [if_neg (show ¬selfBurn B v ≠ 0 from hkeep)]
    exact total_cutAndBurn hinj hjail hcand htot hrate rfl rfl

end Vault

end Staking

end Dew
