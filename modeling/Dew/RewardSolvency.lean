/-
# Are rewards covered by what was kept for them?

The rewards of the delegators of one validator. Each delegator's claim on the kept income is followed
at the full precision of the reward index: what is pending, and what the index has added to the
shares since the last settlement. Settling and claiming keep the sum of the claims and the payments,
and an income adds at most its delegators' part. A change of shares rounds the new debt down, which
can enlarge a claim; it does not when the remainder of the new shares is at most that of the old
ones.
-/
import Dew.StakingSpec
import Mathlib.Algebra.BigOperators.Ring.Finset

namespace Dew.Staking

open Program

/-! ## Claims at full precision -/

/-- The precision of rates and indexes, as a number. -/
def scale : ℕ := 10 ^ 18

theorem toNat_stakePrecision : stakePrecision.toNat = scale := by decide

theorem scale_pos : 0 < scale := by decide

/-- What shares have earned, before rounding. -/
def accrued (B : Words) (v : Address) (shares : U256) : ℕ :=
  shares.toNat * (B (.rewIdx v)).toNat

/-- The claim of a delegator, scaled by the precision. -/
def potential (B : Words) (v d : Address) : ℕ :=
  (B (.rewPend v d)).toNat * scale +
    (accrued B v (B (.del v d)) - (B (.rewDebt v d)).toNat * scale)

/-- No product or sum of a settlement wraps. -/
structure Fits (B : Words) (v d : Address) : Prop where
  product : accrued B v (B (.del v d)) < 2 ^ 256
  sum : (B (.rewPend v d)).toNat + accrued B v (B (.del v d)) / scale < 2 ^ 256

instance (B : Words) (v d : Address) : Decidable (Fits B v d) :=
  decidable_of_iff (accrued B v (B (.del v d)) < 2 ^ 256 ∧
    (B (.rewPend v d)).toNat + accrued B v (B (.del v d)) / scale < 2 ^ 256)
    ⟨fun h => ⟨h.1, h.2⟩, fun h => ⟨h.product, h.sum⟩⟩

/-- The claims of the delegators `D` and what was paid are covered by what was kept. -/
structure Backed (D : Finset Address) (v : Address) (B : Words) (paid kept : ℕ) : Prop where
  total : ∑ d ∈ D, (B (.del v d)).toNat = (B (.delTot v)).toNat
  debt : ∀ d ∈ D, (B (.rewDebt v d)).toNat * scale ≤ accrued B v (B (.del v d))
  funds : paid * scale + ∑ d ∈ D, potential B v d ≤ kept * scale

theorem toNat_earned {B : Words} {v : Address} {shares : U256} (h : accrued B v shares < 2 ^ 256) :
    (earned B v shares).toNat = accrued B v shares / scale := by
  unfold earned
  split
  · rename_i hzero
    simp [accrued, hzero]
  · rw [BitVec.toNat_udiv, BitVec.toNat_mul, toNat_stakePrecision]
    show accrued B v shares % 2 ^ 256 / scale = _
    rw [Nat.mod_eq_of_lt h]

/-- A sum over delegators of whom one changes. -/
theorem sum_change {D : Finset Address} {d : Address} (hd : d ∈ D) {f g : Address → ℕ}
    (h : ∀ e, e ≠ d → g e = f e) : ∑ e ∈ D, g e + f d = ∑ e ∈ D, f e + g d := by
  rw [← Finset.add_sum_erase D g hd, ← Finset.add_sum_erase D f hd]
  have hrest : ∑ e ∈ D.erase d, g e = ∑ e ∈ D.erase d, f e :=
    Finset.sum_congr rfl fun e he => h e (Finset.ne_of_mem_erase he)
  omega

/-! ## Settling -/

section Settle

variable {B : Words} {v d : Address}

theorem settled_of_ne {k : Key} (hpend : k ≠ .rewPend v d) (hdebt : k ≠ .rewDebt v d) :
    settled B v d k = B k := by
  unfold settled
  rw [Function.update_of_ne hdebt]
  split
  · rw [Function.update_of_ne hpend]
  · rfl

theorem accrued_settled (shares : U256) : accrued (settled B v d) v shares = accrued B v shares := by
  unfold accrued
  rw [settled_of_ne (by rintro ⟨⟩) (by rintro ⟨⟩)]

theorem toNat_settled_debt (hfit : Fits B v d) :
    (settled B v d (.rewDebt v d)).toNat = accrued B v (B (.del v d)) / scale := by
  unfold settled
  rw [Function.update_self, toNat_earned hfit.product]

theorem toNat_settled_pend (hfit : Fits B v d) :
    (settled B v d (.rewPend v d)).toNat = (B (.rewPend v d)).toNat +
      (accrued B v (B (.del v d)) / scale - (B (.rewDebt v d)).toNat) := by
  have howed := toNat_earned hfit.product
  have hsum := hfit.sum
  unfold settled
  rw [Function.update_of_ne (by rintro ⟨⟩)]
  split
  · rename_i hlt
    rw [BitVec.lt_def, howed] at hlt
    rw [Function.update_self, BitVec.toNat_add, BitVec.toNat_sub_of_le (by
      rw [BitVec.le_def, howed]
      omega), howed]
    exact Nat.mod_eq_of_lt (by omega)
  · rename_i hle
    rw [BitVec.lt_def, howed] at hle
    omega

/-- Settling does not change a claim. -/
theorem potential_settled (hdebt : (B (.rewDebt v d)).toNat * scale ≤ accrued B v (B (.del v d)))
    (hfit : Fits B v d) (e : Address) : potential (settled B v d) v e = potential B v e := by
  unfold potential
  rw [settled_of_ne (show Key.del v e ≠ .rewPend v d by rintro ⟨⟩)
    (show Key.del v e ≠ .rewDebt v d by rintro ⟨⟩), accrued_settled]
  by_cases he : e = d
  · subst he
    rw [toNat_settled_pend hfit, toNat_settled_debt hfit]
    have hle : (B (.rewDebt v e)).toNat ≤ accrued B v (B (.del v e)) / scale :=
      (Nat.le_div_iff_mul_le scale_pos).mpr hdebt
    have hfloor : accrued B v (B (.del v e)) / scale * scale ≤ accrued B v (B (.del v e)) :=
      Nat.div_mul_le_self _ _
    rw [Nat.add_mul, Nat.sub_mul]
    have := Nat.mul_le_mul_right scale hle
    omega
  · rw [settled_of_ne (show Key.rewPend v e ≠ .rewPend v d by simpa using he) (by rintro ⟨⟩),
      settled_of_ne (by rintro ⟨⟩) (show Key.rewDebt v e ≠ .rewDebt v d by simpa using he)]

theorem Backed.settle {D : Finset Address} {paid kept : ℕ} (h : Backed D v B paid kept) (hd : d ∈ D)
    (hfit : Fits B v d) : Backed D v (settled B v d) paid kept := by
  have hdel : ∀ e, settled B v d (.del v e) = B (.del v e) :=
    fun e => settled_of_ne (by rintro ⟨⟩) (by rintro ⟨⟩)
  refine ⟨?_, ?_, ?_⟩
  · simp only [hdel]
    rw [settled_of_ne (by rintro ⟨⟩) (by rintro ⟨⟩)]
    exact h.total
  · intro e he
    rw [hdel, accrued_settled]
    by_cases hed : e = d
    · subst hed
      rw [toNat_settled_debt hfit]
      exact Nat.div_mul_le_self _ _
    · rw [settled_of_ne (by rintro ⟨⟩) (show Key.rewDebt v e ≠ .rewDebt v d by simpa using hed)]
      exact h.debt e he
  · rw [Finset.sum_congr rfl fun e _ => potential_settled (h.debt d hd) hfit e]
    exact h.funds

end Settle

/-! ## Claiming, changing shares, and incomes -/

section Change

variable {D : Finset Address} {B : Words} {v d : Address} {paid kept : ℕ}

/-- The amount that a claim returns. -/
def paidOut (r : Except StakingError U256) : U256 :=
  match r with
  | .ok x => x
  | .error _ => 0

theorem Backed.claim (h : Backed D v B paid kept) (hd : d ∈ D) (hfit : Fits B v d) :
    Backed D v (claimed B v d).2 (paid + (paidOut (claimed B v d).1).toNat) kept := by
  have hs := h.settle hd hfit
  unfold claimed
  dsimp only
  generalize settled B v d = S at hs ⊢
  split
  · simpa [paidOut] using hs
  · dsimp only
    have hne : ∀ k, k ≠ .rewPend v d → Function.update S (.rewPend v d) 0 k = S k :=
      fun k hk => Function.update_of_ne hk _ _
    have hacc : ∀ x, accrued (Function.update S (.rewPend v d) 0) v x = accrued S v x := by
      intro x
      rw [accrued, hne _ (by rintro ⟨⟩), accrued]
    refine ⟨?_, ?_, ?_⟩
    · simp only [hne _ (show Key.delTot v ≠ .rewPend v d by rintro ⟨⟩),
        fun e => hne (.del v e) (by rintro ⟨⟩)]
      exact hs.total
    · intro e he
      rw [hne _ (show Key.rewDebt v e ≠ .rewPend v d by rintro ⟨⟩),
        hne _ (show Key.del v e ≠ .rewPend v d by rintro ⟨⟩), hacc]
      exact hs.debt e he
    · have hchange := sum_change hd (f := potential S v)
        (g := potential (Function.update S (.rewPend v d) 0) v) fun e he => by
          simp only [potential, hacc, hne _ (show Key.del v e ≠ .rewPend v d by rintro ⟨⟩),
            hne _ (show Key.rewDebt v e ≠ .rewPend v d by rintro ⟨⟩),
            hne _ (show Key.rewPend v e ≠ .rewPend v d by simpa using he)]
      have hd' : potential (Function.update S (.rewPend v d) 0) v d + (S (.rewPend v d)).toNat * scale =
          potential S v d := by
        simp only [potential, hacc, hne _ (show Key.del v d ≠ .rewPend v d by rintro ⟨⟩),
          hne _ (show Key.rewDebt v d ≠ .rewPend v d by rintro ⟨⟩), Function.update_self]
        simp
        omega
      have hfunds := hs.funds
      simp only [paidOut]
      rw [Nat.add_mul]
      omega

/-- Where the words that matter to the claims are the same, nothing changes. -/
theorem Backed.congr {B' : Words} (h : Backed D v B paid kept)
    (hB : ∀ k, (∀ e, k ≠ .delUnbondAmt v e ∧ k ≠ .delUnbondAt v e) → B' k = B k) :
    Backed D v B' paid kept := by
  have hacc : ∀ x, accrued B' v x = accrued B v x := by
    intro x
    rw [accrued, hB _ fun e => ⟨by rintro ⟨⟩, by rintro ⟨⟩⟩, accrued]
  have hdel : ∀ e, B' (.del v e) = B (.del v e) :=
    fun e => hB _ fun _ => ⟨by rintro ⟨⟩, by rintro ⟨⟩⟩
  have hdebt : ∀ e, B' (.rewDebt v e) = B (.rewDebt v e) :=
    fun e => hB _ fun _ => ⟨by rintro ⟨⟩, by rintro ⟨⟩⟩
  have hpend : ∀ e, B' (.rewPend v e) = B (.rewPend v e) :=
    fun e => hB _ fun _ => ⟨by rintro ⟨⟩, by rintro ⟨⟩⟩
  refine ⟨?_, ?_, ?_⟩
  · simp only [hdel, hB (.delTot v) fun _ => ⟨by rintro ⟨⟩, by rintro ⟨⟩⟩]
    exact h.total
  · intro e he
    rw [hdebt, hdel, hacc]
    exact h.debt e he
  · simp only [potential, hpend, hdel, hdebt, hacc]
    exact h.funds

/-- A change of a settled delegator's shares that does not enlarge the remainder. -/
theorem Backed.withShares (h : Backed D v B paid kept) (hd : d ∈ D)
    (hexact : (B (.rewDebt v d)).toNat = accrued B v (B (.del v d)) / scale) {shares total : U256}
    (htotal : total.toNat + (B (.del v d)).toNat = (B (.delTot v)).toNat + shares.toNat)
    (hfit : accrued B v shares < 2 ^ 256)
    (hround : accrued B v shares % scale ≤ accrued B v (B (.del v d)) % scale) :
    Backed D v (withShares B v d shares total) paid kept := by
  have hne : ∀ k, k ≠ .del v d → k ≠ .delTot v → k ≠ .rewDebt v d →
      Staking.withShares B v d shares total k = B k := by
    intro k h1 h2 h3
    unfold Staking.withShares
    rw [Function.update_of_ne h3, Function.update_of_ne h2, Function.update_of_ne h1]
  have hacc : ∀ x, accrued (Staking.withShares B v d shares total) v x = accrued B v x := by
    intro x
    rw [accrued, hne _ (by rintro ⟨⟩) (by rintro ⟨⟩) (by rintro ⟨⟩), accrued]
  have hdel : Staking.withShares B v d shares total (.del v d) = shares := by
    unfold Staking.withShares
    rw [Function.update_of_ne (by rintro ⟨⟩), Function.update_of_ne (by rintro ⟨⟩),
      Function.update_self]
  have htot : Staking.withShares B v d shares total (.delTot v) = total := by
    unfold Staking.withShares
    rw [Function.update_of_ne (by rintro ⟨⟩), Function.update_self]
  have hdebt : (Staking.withShares B v d shares total (.rewDebt v d)).toNat =
      accrued B v shares / scale := by
    have hsame : accrued (Function.update (Function.update B (.del v d) shares) (.delTot v) total) v
        shares = accrued B v shares := by
      rw [accrued, Function.update_of_ne (by rintro ⟨⟩), Function.update_of_ne (by rintro ⟨⟩), accrued]
    unfold Staking.withShares
    rw [Function.update_self, toNat_earned (by rw [hsame]; exact hfit), hsame]
  have hothers : ∀ e, e ≠ d → Staking.withShares B v d shares total (.del v e) = B (.del v e) ∧
      Staking.withShares B v d shares total (.rewDebt v e) = B (.rewDebt v e) := by
    intro e he
    exact ⟨hne _ (by simpa using he) (by rintro ⟨⟩) (by rintro ⟨⟩),
      hne _ (by rintro ⟨⟩) (by rintro ⟨⟩) (by simpa using he)⟩
  have hpend : ∀ e, Staking.withShares B v d shares total (.rewPend v e) = B (.rewPend v e) :=
    fun e => hne _ (by rintro ⟨⟩) (by rintro ⟨⟩) (by rintro ⟨⟩)
  refine ⟨?_, ?_, ?_⟩
  · have hchange := sum_change hd (f := fun e => (B (.del v e)).toNat)
      (g := fun e => (Staking.withShares B v d shares total (.del v e)).toNat)
      fun e he => by simp only [(hothers e he).1]
    have := h.total
    simp only [hdel] at hchange
    rw [htot]
    omega
  · intro e he
    rw [hacc]
    by_cases hed : e = d
    · subst hed
      rw [hdebt, hdel]
      exact Nat.div_mul_le_self _ _
    · rw [(hothers e hed).1, (hothers e hed).2]
      exact h.debt e he
  · have hchange := sum_change hd (f := potential B v)
      (g := potential (Staking.withShares B v d shares total) v) fun e he => by
        simp only [potential, hacc, hpend, (hothers e he).1, (hothers e he).2]
    -- both claims on the new shares are remainders
    have hnew : potential (Staking.withShares B v d shares total) v d =
        (B (.rewPend v d)).toNat * scale + accrued B v shares % scale := by
      rw [potential, hacc, hpend, hdel, hdebt]
      have := Nat.div_add_mod' (accrued B v shares) scale
      omega
    have hold : potential B v d =
        (B (.rewPend v d)).toNat * scale + accrued B v (B (.del v d)) % scale := by
      rw [potential, hexact]
      have := Nat.div_add_mod' (accrued B v (B (.del v d))) scale
      omega
    have := h.funds
    omega

/-- An income adds at most the delegators' part. -/
theorem Backed.distribute (h : Backed D v B paid kept) (amount : U256) (enabled : Bool)
    (hpart : (delegatorPart B v amount enabled).toNat * scale < 2 ^ 256)
    (hidx : (B (.rewIdx v)).toNat +
      (delegatorPart B v amount enabled).toNat * scale / (B (.delTot v)).toNat < 2 ^ 256) :
    Backed D v (distributed B v amount enabled) paid
      (kept + (delegatorPart B v amount enabled).toNat) := by
  have hmore : Backed D v B paid (kept + (delegatorPart B v amount enabled).toNat) := by
    refine ⟨h.total, h.debt, h.funds.trans ?_⟩
    exact Nat.mul_le_mul_right scale (Nat.le_add_right _ _)
  unfold distributed
  dsimp only
  split
  · exact hmore
  generalize hp : delegatorPart B v amount enabled = part at *
  have hinc : (part * stakePrecision / B (.delTot v)).toNat =
      part.toNat * scale / (B (.delTot v)).toNat := by
    rw [BitVec.toNat_udiv, BitVec.toNat_mul, toNat_stakePrecision, Nat.mod_eq_of_lt hpart]
  generalize hi : part * stakePrecision / B (.delTot v) = inc at *
  have hsum : (B (.rewIdx v) + inc).toNat = (B (.rewIdx v)).toNat + inc.toNat := by
    rw [BitVec.toNat_add]
    exact Nat.mod_eq_of_lt (by omega)
  have hne : ∀ k, k ≠ .rewIdx v →
      Function.update B (.rewIdx v) (B (.rewIdx v) + inc) k = B k :=
    fun k hk => Function.update_of_ne hk _ _
  have hacc : ∀ x, accrued (Function.update B (.rewIdx v) (B (.rewIdx v) + inc)) v x =
      accrued B v x + x.toNat * inc.toNat := by
    intro x
    rw [accrued, Function.update_self, hsum, Nat.mul_add, accrued]
  refine ⟨?_, ?_, ?_⟩
  · simp only [hne (.delTot v) (by rintro ⟨⟩), fun e => hne (.del v e) (by rintro ⟨⟩)]
    exact h.total
  · intro e he
    rw [hne (.rewDebt v e) (by rintro ⟨⟩), hne (.del v e) (by rintro ⟨⟩), hacc]
    have := h.debt e he
    omega
  · have hpot : ∀ e ∈ D, potential (Function.update B (.rewIdx v) (B (.rewIdx v) + inc)) v e =
        potential B v e + (B (.del v e)).toNat * inc.toNat := by
      intro e he
      have := h.debt e he
      rw [potential, hne (.rewPend v e) (by rintro ⟨⟩), hne (.rewDebt v e) (by rintro ⟨⟩),
        hne (.del v e) (by rintro ⟨⟩), hacc, potential]
      omega
    rw [Finset.sum_congr rfl hpot, Finset.sum_add_distrib, ← Finset.sum_mul, h.total, hinc,
      Nat.add_mul]
    have hfloor : (B (.delTot v)).toNat * (part.toNat * scale / (B (.delTot v)).toNat) ≤
        part.toNat * scale := Nat.mul_div_le _ _
    have := h.funds
    omega

/-- What delegators would be told is covered. -/
theorem Backed.pending_le (h : Backed D v B paid kept) (hfit : ∀ d ∈ D, Fits B v d) :
    paid + ∑ d ∈ D, (settled B v d (.rewPend v d)).toNat ≤ kept := by
  have hle : ∀ d ∈ D, (settled B v d (.rewPend v d)).toNat * scale ≤ potential B v d := by
    intro d hd
    rw [toNat_settled_pend (hfit d hd), Nat.add_mul, Nat.sub_mul, potential]
    have := Nat.div_mul_le_self (accrued B v (B (.del v d))) scale
    omega
  have hsum : (paid + ∑ d ∈ D, (settled B v d (.rewPend v d)).toNat) * scale ≤ kept * scale := by
    rw [Nat.add_mul, Finset.sum_mul]
    exact (Nat.add_le_add_left (Finset.sum_le_sum hle) _).trans h.funds
  exact Nat.le_of_mul_le_mul_right hsum scale_pos

end Change

/-! ## Histories -/

/-- One call that concerns the rewards of a validator's delegators. -/
inductive RewardOp where
  | delegate (d : Address) (amount : U256)
  | undelegate (d : Address) (amount : U256) (now : U64)
  | claim (d : Address)
  | pending (d : Address)
  | distribute (amount : U256) (enabled : Bool)
deriving DecidableEq, Repr

namespace RewardOp

/-- The call, with the rewards it returns to be paid. -/
def program (m : StakingModule) (v : Address) : RewardOp → StateProgram U256
  | delegate d amount => do
    let _ ← Staking.delegate v d amount
    return 0
  | undelegate d amount now => do
    let _ ← Staking.undelegate m v d amount now
    return 0
  | claim d => do
    let r ← claimRewards v d
    return paidOut r
  | pending d => do
    let _ ← pendingRewards v d
    return 0
  | distribute amount enabled => do
    distributeProposerIncome v amount enabled
    return 0

/-- The words after the call. -/
def next (m : StakingModule) (v : Address) (B : Words) : RewardOp → Words
  | delegate d amount => (delegated B v d amount).2
  | undelegate d amount now => (undelegated m B v d amount now).2
  | claim d => (claimed B v d).2
  | pending d => settled B v d
  | distribute amount enabled => distributed B v amount enabled

/-- The rewards that the call returns. -/
def pays (v : Address) (B : Words) : RewardOp → U256
  | claim d => paidOut (claimed B v d).1
  | _ => 0

/-- The delegators' part that the call keeps at the module. -/
def keeps (v : Address) (B : Words) : RewardOp → U256
  | distribute amount enabled => delegatorPart B v amount enabled
  | _ => 0

/-- The delegator of the call is one of `D`. -/
def By (D : Finset Address) : RewardOp → Prop
  | delegate d _ | undelegate d _ _ | claim d | pending d => d ∈ D
  | distribute _ _ => True

/-- No intermediate result of the call wraps. -/
def Exact (v : Address) (B : Words) : RewardOp → Prop
  | delegate d amount =>
    let S := settled B v d
    let add := sharesOf S v amount
    Fits B v d ∧ (S (.del v d)).toNat + add.toNat < 2 ^ 256 ∧
      (S (.delTot v)).toNat + add.toNat < 2 ^ 256 ∧ accrued S v (S (.del v d) + add) < 2 ^ 256
  | undelegate d _ _ | claim d | pending d => Fits B v d
  | distribute amount enabled =>
    (delegatorPart B v amount enabled).toNat * scale < 2 ^ 256 ∧
      (B (.rewIdx v)).toNat +
        (delegatorPart B v amount enabled).toNat * scale / (B (.delTot v)).toNat < 2 ^ 256

/-- The new debt is not rounded down by more than the old one was. -/
def Rounds (m : StakingModule) (v : Address) (B : Words) (op : RewardOp) : Prop :=
  match op with
  | delegate d _ | undelegate d _ _ =>
    accrued B v (op.next m v B (.del v d)) % scale ≤ accrued B v (B (.del v d)) % scale
  | _ => True

instance decidableExact (v : Address) (B : Words) : (op : RewardOp) → Decidable (op.Exact v B)
  | delegate _ _ => inferInstanceAs (Decidable (Fits _ _ _ ∧ _ < _ ∧ _ < _ ∧ _ < _))
  | undelegate _ _ _ | claim _ | pending _ => inferInstanceAs (Decidable (Fits _ _ _))
  | distribute _ _ => inferInstanceAs (Decidable (_ < _ ∧ _ < _))

instance decidableRounds (m : StakingModule) (v : Address) (B : Words) :
    (op : RewardOp) → Decidable (op.Rounds m v B)
  | delegate _ _ | undelegate _ _ _ => inferInstanceAs (Decidable (_ ≤ _))
  | claim _ | pending _ | distribute _ _ => inferInstanceAs (Decidable True)

end RewardOp

/-- The names of the words that the rewards of the delegators `D` depend on. -/
def rewardKeys (v : Address) (D : Finset Address) : Set Key
  | .self a | .delTot a | .comm a | .delRate a | .rewIdx a => a = v
  | .del a d | .rewDebt a d | .rewPend a d | .delUnbondAmt a d | .delUnbondAt a d => a = v ∧ d ∈ D
  | _ => False

theorem RewardOp.total_program (m : StakingModule) {v : Address} {D : Finset Address} {B : Words}
    (hinj : Set.InjOn Key.slot (rewardKeys v D)) {op : RewardOp} (hop : op.By D) :
    Program.Total Op.execL (Shows (rewardKeys v D) B) (op.program m v) fun r L =>
      r = op.pays v B ∧ Shows (rewardKeys v D) (op.next m v B) L := by
  cases op with
  | delegate d amount =>
      have hd : v = v ∧ d ∈ D := ⟨rfl, hop⟩
      apply (total_delegate hinj (d := d) hd rfl rfl rfl hd hd amount).bind
      intro r
      apply Total.assume
      intro _
      exact Total.pure fun L hL => ⟨rfl, hL⟩
  | undelegate d amount now =>
      have hd : v = v ∧ d ∈ D := ⟨rfl, hop⟩
      apply (total_undelegate m hinj (d := d) hd rfl rfl rfl hd hd hd hd amount now).bind
      intro r
      apply Total.assume
      intro _
      exact Total.pure fun L hL => ⟨rfl, hL⟩
  | claim d =>
      have hd : v = v ∧ d ∈ D := ⟨rfl, hop⟩
      apply (total_claimRewards hinj (d := d) hd rfl hd hd).bind
      intro r
      apply Total.assume
      rintro rfl
      exact Total.pure fun L hL => ⟨rfl, hL⟩
  | pending d =>
      have hd : v = v ∧ d ∈ D := ⟨rfl, hop⟩
      apply (total_pendingRewards hinj (d := d) hd rfl hd hd).bind
      intro r
      apply Total.assume
      intro _
      exact Total.pure fun L hL => ⟨rfl, hL⟩
  | distribute amount enabled =>
      apply (total_distributeProposerIncome hinj rfl rfl rfl rfl rfl amount enabled).bind
      intro _
      exact Total.pure fun L hL => ⟨rfl, hL⟩

/-- A sequence of calls, with the rewards they return. -/
def rewardHistory (m : StakingModule) (v : Address) : List RewardOp → StateProgram (List U256)
  | [] => return []
  | op :: ops => do
    let r ← op.program m v
    let rs ← rewardHistory m v ops
    return r :: rs

/-- A condition on each call of a history and the words before it. -/
def Along (m : StakingModule) (v : Address) (P : Words → RewardOp → Prop) :
    List RewardOp → Words → Prop
  | [], _ => True
  | op :: ops, B => P B op ∧ Along m v P ops (op.next m v B)

instance decidableAlong (m : StakingModule) (v : Address) (P : Words → RewardOp → Prop)
    [∀ B op, Decidable (P B op)] :
    (ops : List RewardOp) → (B : Words) → Decidable (Along m v P ops B)
  | [], _ => inferInstanceAs (Decidable True)
  | op :: ops, B =>
    have := decidableAlong m v P ops (op.next m v B)
    inferInstanceAs (Decidable (_ ∧ _))

/-- The words after a history. -/
def finalWords (m : StakingModule) (v : Address) : List RewardOp → Words → Words
  | [], B => B
  | op :: ops, B => finalWords m v ops (op.next m v B)

/-- The rewards that a history returns. -/
def payouts (m : StakingModule) (v : Address) : List RewardOp → Words → List U256
  | [], _ => []
  | op :: ops, B => op.pays v B :: payouts m v ops (op.next m v B)

/-- The delegators' parts that a history keeps at the module. -/
def totalKept (m : StakingModule) (v : Address) : List RewardOp → Words → ℕ
  | [], _ => 0
  | op :: ops, B => (op.keeps v B).toNat + totalKept m v ops (op.next m v B)

theorem total_rewardHistory (m : StakingModule) {v : Address} {D : Finset Address} {B : Words}
    (hinj : Set.InjOn Key.slot (rewardKeys v D)) {ops : List RewardOp} (hops : ∀ op ∈ ops, op.By D) :
    Program.Total Op.execL (Shows (rewardKeys v D) B) (rewardHistory m v ops) fun rs L =>
      rs = payouts m v ops B ∧ Shows (rewardKeys v D) (finalWords m v ops B) L := by
  induction ops generalizing B with
  | nil => exact Total.pure fun L hL => ⟨rfl, hL⟩
  | cons op ops ih =>
      apply (RewardOp.total_program m hinj (hops op List.mem_cons_self)).bind
      intro r
      apply Total.assume
      rintro rfl
      apply (ih fun o ho => hops o (List.mem_cons_of_mem _ ho)).bind
      intro rs
      apply Total.assume
      rintro rfl
      exact Total.pure fun L hL => ⟨rfl, hL⟩

/-! ## Every exact call that rounds well keeps the claims backed -/

section Step

variable {m : StakingModule} {D : Finset Address} {B : Words} {v d : Address} {paid kept : ℕ}

theorem settled_del : settled B v d (.del v d) = B (.del v d) :=
  settled_of_ne (by rintro ⟨⟩) (by rintro ⟨⟩)

theorem withShares_del (S : Words) (shares total : U256) :
    withShares S v d shares total (.del v d) = shares := by
  unfold withShares
  rw [Function.update_of_ne (by rintro ⟨⟩), Function.update_of_ne (by rintro ⟨⟩),
    Function.update_self]

/-- A settled delegator's debt is the floor of what the shares accrued. -/
theorem settled_exact (hfit : Fits B v d) : (settled B v d (.rewDebt v d)).toNat =
    accrued (settled B v d) v (settled B v d (.del v d)) / scale := by
  rw [toNat_settled_debt hfit, accrued_settled, settled_del]

theorem Backed.delegate (h : Backed D v B paid kept) (hd : d ∈ D) {amount : U256}
    (hexact : (RewardOp.delegate d amount).Exact v B)
    (hround : (RewardOp.delegate d amount).Rounds m v B) :
    Backed D v (delegated B v d amount).2 paid kept := by
  obtain ⟨hfit, hshares, htotal, hproduct⟩ := hexact
  have hs := h.settle hd hfit
  unfold RewardOp.Rounds RewardOp.next at hround
  dsimp only at hround
  revert hround
  unfold delegated
  split
  · exact fun _ => h
  split
  · exact fun _ => h
  dsimp only
  split
  · exact fun _ => hs
  intro hround
  dsimp only at hround
  rw [withShares_del] at hround
  refine hs.withShares hd (settled_exact hfit) ?_ hproduct ?_
  · rw [BitVec.toNat_add, BitVec.toNat_add, Nat.mod_eq_of_lt hshares, Nat.mod_eq_of_lt htotal]
    omega
  · rw [accrued_settled, accrued_settled, settled_del]
    rw [settled_del] at hround
    exact hround

theorem Backed.undelegate (h : Backed D v B paid kept) (hd : d ∈ D) {amount : U256} {now : U64}
    (hfit : Fits B v d) (hround : (RewardOp.undelegate d amount now).Rounds m v B) :
    Backed D v (undelegated m B v d amount now).2 paid kept := by
  have hs := h.settle hd hfit
  unfold RewardOp.Rounds RewardOp.next at hround
  dsimp only at hround
  revert hround
  unfold undelegated
  split
  · exact fun _ => h
  dsimp only
  split
  · exact fun _ => hs
  split
  · exact fun _ => hs
  have hsub : (if settled B v d (.del v d) < sharesOf (settled B v d) v amount then
      settled B v d (.del v d) else sharesOf (settled B v d) v amount) ≤ settled B v d (.del v d) := by
    split
    · exact BitVec.le_refl _
    · rename_i hle
      exact BitVec.not_lt.mp hle
  generalize (if settled B v d (.del v d) < sharesOf (settled B v d) v amount then
    settled B v d (.del v d) else sharesOf (settled B v d) v amount) = sub at hsub ⊢
  -- the total is the sum of all shares, so that it does not fall below the delegator's
  have hle : (settled B v d (.del v d)).toNat ≤ (settled B v d (.delTot v)).toNat := by
    rw [← hs.total]
    exact Finset.single_le_sum (f := fun e => (settled B v d (.del v e)).toNat)
      (fun _ _ => Nat.zero_le _) hd
  rw [BitVec.le_def] at hsub
  split
  · rename_i hlt
    rw [BitVec.lt_def] at hlt
    omega
  rename_i hnot
  intro hround
  dsimp only at hround ⊢
  rw [Function.update_of_ne (by rintro ⟨⟩), Function.update_of_ne (by rintro ⟨⟩), withShares_del]
    at hround
  have hnext : (settled B v d (.del v d) - sub).toNat =
      (settled B v d (.del v d)).toNat - sub.toNat := BitVec.toNat_sub_of_le (BitVec.le_def.mpr hsub)
  have hshares : Backed D v (Staking.withShares (settled B v d) v d (settled B v d (.del v d) - sub)
      (settled B v d (.delTot v) - sub)) paid kept := by
    refine hs.withShares hd (settled_exact hfit) ?_ ?_ ?_
    · rw [BitVec.toNat_sub_of_le (BitVec.not_lt.mp hnot), hnext]
      omega
    · refine lt_of_le_of_lt ?_ hfit.product
      rw [accrued_settled, settled_del]
      refine Nat.mul_le_mul_right _ ?_
      rw [settled_del] at hnext
      omega
    · rw [accrued_settled, accrued_settled, settled_del]
      rw [settled_del] at hround
      exact hround
  refine hshares.congr fun k hk => ?_
  rw [Function.update_of_ne (hk d).2, Function.update_of_ne (hk d).1]

/-- What one call preserves. -/
theorem Backed.step (h : Backed D v B paid kept) {op : RewardOp} (hop : op.By D)
    (hexact : op.Exact v B) (hround : op.Rounds m v B) :
    Backed D v (op.next m v B) (paid + (op.pays v B).toNat) (kept + (op.keeps v B).toNat) := by
  cases op with
  | delegate d amount => exact h.delegate hop hexact hround
  | undelegate d amount now => exact h.undelegate hop hexact hround
  | claim d => exact h.claim hop hexact
  | pending d => exact h.settle hop hexact
  | distribute amount enabled => exact h.distribute amount enabled hexact.1 hexact.2

/-- What a history preserves. -/
theorem Backed.history {ops : List RewardOp} (h : Backed D v B paid kept)
    (hops : ∀ op ∈ ops, op.By D) (hexact : Along m v (fun B op => op.Exact v B) ops B)
    (hround : Along m v (fun B op => op.Rounds m v B) ops B) :
    Backed D v (finalWords m v ops B) (paid + ((payouts m v ops B).map BitVec.toNat).sum)
      (kept + totalKept m v ops B) := by
  induction ops generalizing B paid kept with
  | nil => exact h
  | cons op ops ih =>
      have hstep := h.step (hops op List.mem_cons_self) hexact.1 hround.1
      have hrest := ih hstep (fun o ho => hops o (List.mem_cons_of_mem _ ho)) hexact.2 hround.2
      simp only [payouts, totalKept, List.map_cons, List.sum_cons]
      rw [← Nat.add_assoc, ← Nat.add_assoc]
      exact hrest

end Step

/-- The words of the module on a ledger. -/
def wordsOf (L : Ledger) : Words :=
  fun k => L.slot ⟨stakingModuleAddr, k.slot⟩

/-- What `PendingRewards` would report. -/
def reports (B : Words) (v d : Address) : ℕ :=
  (settled B v d (.rewPend v d)).toNat

/-- The words that decide about rewards decide about reports. -/
theorem reports_congr {K : Set Key} {B B' : Words} {v d : Address} (hB : ∀ k ∈ K, B k = B' k)
    (hdel : Key.del v d ∈ K) (hidx : Key.rewIdx v ∈ K) (hdebt : Key.rewDebt v d ∈ K)
    (hpend : Key.rewPend v d ∈ K) : reports B v d = reports B' v d := by
  have hearned : earned B v (B (.del v d)) = earned B' v (B' (.del v d)) := by
    rw [earned, earned, hB _ hdel, hB _ hidx]
  unfold reports settled
  rw [Function.update_of_ne (by rintro ⟨⟩), Function.update_of_ne (by rintro ⟨⟩), hearned, hB _ hdebt]
  split
  · rw [Function.update_self, Function.update_self, hB _ hpend]
  · rw [hB _ hpend]

/-- The words of the delegators `7` and `8` of validator `9`. -/
def pairKeys : List Key :=
  [.self 9, .delTot 9, .comm 9, .delRate 9, .rewIdx 9, .del 9 7, .rewDebt 9 7, .rewPend 9 7,
    .delUnbondAmt 9 7, .delUnbondAt 9 7, .del 9 8, .rewDebt 9 8, .rewPend 9 8, .delUnbondAmt 9 8,
    .delUnbondAt 9 8]

theorem mem_pairKeys {k : Key} (hk : k ∈ rewardKeys 9 {7, 8}) : k ∈ pairKeys := by
  cases k with
  | self a | delTot a | comm a | delRate a | rewIdx a =>
      obtain rfl : a = 9 := hk
      simp [pairKeys]
  | del a d | rewDebt a d | rewPend a d | delUnbondAmt a d | delUnbondAt a d =>
      obtain ⟨rfl, hd⟩ := hk
      rcases Finset.mem_insert.mp hd with rfl | hd
      · simp [pairKeys]
      · obtain rfl := Finset.mem_singleton.mp hd
        simp [pairKeys]
  | jailed a | cand a | len | idx i | unbondAmt a | unbondAt a => exact hk.elim

theorem pairKeys_injOn : Set.InjOn Key.slot (rewardKeys 9 {7, 8}) :=
  injOn_of_digests Key.slot_eq_evalNat (fun _ => mem_pairKeys) (by decide +kernel)

/-- Words given by a table; all others are zero. -/
def ofTable (l : List (Key × U256)) : Words :=
  fun k => (l.lookup k).getD 0

theorem wordsOf_new : wordsOf (StateDB.new ∅).view = ofTable [] := rfl

/-- A call leaves the words of others alone. -/
theorem RewardOp.next_of_not_mem {m : StakingModule} {v : Address} {D : Finset Address} {B : Words}
    {op : RewardOp} (hop : op.By D) {k : Key} (hk : k ∉ rewardKeys v D) : op.next m v B k = B k := by
  have hset : ∀ d ∈ D, settled B v d k = B k := by
    intro d hd
    exact settled_of_ne (by rintro rfl; exact hk ⟨rfl, hd⟩) (by rintro rfl; exact hk ⟨rfl, hd⟩)
  have hshares : ∀ d ∈ D, ∀ x y, withShares (settled B v d) v d x y k = B k := by
    intro d hd x y
    unfold withShares
    rw [Function.update_of_ne (by rintro rfl; exact hk ⟨rfl, hd⟩),
      Function.update_of_ne (by rintro rfl; exact hk rfl),
      Function.update_of_ne (by rintro rfl; exact hk ⟨rfl, hd⟩), hset d hd]
  cases op with
  | delegate d amount =>
      have hd : d ∈ D := hop
      simp only [next, delegated]
      split
      · rfl
      split
      · rfl
      split
      · exact hset d hd
      · exact hshares d hd _ _
  | undelegate d amount now =>
      have hd : d ∈ D := hop
      simp only [next, undelegated]
      split
      · rfl
      split
      · exact hset d hd
      split
      · exact hset d hd
      generalize (if settled B v d (.del v d) < sharesOf (settled B v d) v amount then
        settled B v d (.del v d) else sharesOf (settled B v d) v amount) = sub
      split
      · dsimp only
        rw [Function.update_of_ne (by rintro rfl; exact hk ⟨rfl, hd⟩), hset d hd]
      · dsimp only
        rw [Function.update_of_ne (by rintro rfl; exact hk ⟨rfl, hd⟩),
          Function.update_of_ne (by rintro rfl; exact hk ⟨rfl, hd⟩)]
        exact hshares d hd _ _
  | claim d =>
      have hd : d ∈ D := hop
      simp only [next, claimed]
      split
      · exact hset d hd
      · dsimp only
        rw [Function.update_of_ne (by rintro rfl; exact hk ⟨rfl, hd⟩), hset d hd]
  | pending d => exact hset d hop
  | distribute amount enabled =>
      simp only [next, distributed]
      split
      · rfl
      · rw [Function.update_of_ne (by rintro rfl; exact hk rfl)]

theorem ofTable_of_not_mem {l : List (Key × U256)} (hl : ∀ e ∈ l, e.1 ∈ pairKeys) {k : Key}
    (hk : k ∉ pairKeys) : ofTable l k = 0 := by
  have hnone : l.lookup k = none := by
    rw [List.lookup_eq_none_iff]
    intro e he
    have hne : k ≠ e.1 := by
      rintro rfl
      exact hk (hl e he)
    simpa using hne
  rw [ofTable, hnone]
  rfl

/-- A call on the words of a table gives those of another one, if it does so on the words of the
two delegators. -/
theorem next_ofTable {op : RewardOp} {l r : List (Key × U256)} (hop : op.By {7, 8})
    (hl : ∀ e ∈ l, e.1 ∈ pairKeys) (hr : ∀ e ∈ r, e.1 ∈ pairKeys)
    (h : ∀ k ∈ pairKeys, op.next (newStakingModule defaultStakingConfig) 9 (ofTable l) k =
      ofTable r k) :
    op.next (newStakingModule defaultStakingConfig) 9 (ofTable l) = ofTable r := by
  funext k
  by_cases hk : k ∈ pairKeys
  · exact h k hk
  · rw [RewardOp.next_of_not_mem hop fun hmem => hk (mem_pairKeys hmem), ofTable_of_not_mem hl hk,
      ofTable_of_not_mem hr hk]

/-- The delegator `7` holds two shares when an income of one unit comes in, takes one of them back,
and the delegator `8` joins with one share: both debts are rounded down from a half to nothing.
Another unit of income gives each of the two shares a half. -/
def roundedHistory : List RewardOp :=
  [.delegate 7 2, .distribute 1 true, .undelegate 7 1 0, .delegate 8 1, .distribute 1 true]

/-- Half a unit per share. -/
def half : U256 := 500000000000000000

def joined : List (Key × U256) :=
  [(.del 9 7, 2), (.delTot 9, 2)]

def earning : List (Key × U256) :=
  [(.del 9 7, 2), (.delTot 9, 2), (.rewIdx 9, half)]

def reduced : List (Key × U256) :=
  [(.del 9 7, 1), (.delTot 9, 1), (.rewIdx 9, half), (.rewPend 9 7, 1), (.delUnbondAmt 9 7, 1),
    (.delUnbondAt 9 7, (newStakingModule defaultStakingConfig).unbondSeconds.setWidth 256)]

def shared : List (Key × U256) :=
  (.del 9 8, 1) :: (.delTot 9, 2) :: reduced

def finished : List (Key × U256) :=
  (.rewIdx 9, stakePrecision) :: shared

theorem next_joined : (RewardOp.delegate 7 2).next (newStakingModule defaultStakingConfig) 9
    (ofTable []) = ofTable joined :=
  next_ofTable (by simp [RewardOp.By]) (by decide) (by decide) (by decide)

theorem next_earning : (RewardOp.distribute 1 true).next (newStakingModule defaultStakingConfig) 9
    (ofTable joined) = ofTable earning :=
  next_ofTable trivial (by decide) (by decide) (by decide)

theorem next_reduced : (RewardOp.undelegate 7 1 0).next (newStakingModule defaultStakingConfig) 9
    (ofTable earning) = ofTable reduced :=
  next_ofTable (by simp [RewardOp.By]) (by decide) (by decide) (by decide)

theorem next_shared : (RewardOp.delegate 8 1).next (newStakingModule defaultStakingConfig) 9
    (ofTable reduced) = ofTable shared :=
  next_ofTable (by simp [RewardOp.By]) (by decide) (by decide) (by decide)

theorem next_finished : (RewardOp.distribute 1 true).next (newStakingModule defaultStakingConfig) 9
    (ofTable shared) = ofTable finished :=
  next_ofTable trivial (by decide) (by decide) (by decide)

def cashed : List (Key × U256) :=
  (.rewDebt 9 7, 1) :: earning

theorem next_cashed : (RewardOp.claim 7).next (newStakingModule defaultStakingConfig) 9
    (ofTable earning) = ofTable cashed :=
  next_ofTable (by simp [RewardOp.By]) (by decide) (by decide) (by decide)

end Dew.Staking
