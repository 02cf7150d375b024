/-
# The quorum test in 64 bits

`HasQuorum` compares `3 * votes` with `2 * total` in `uint64`. `NewValidatorSet` only makes sure that
the sum of the powers fits, so both products can wrap. The test says what it should exactly for the
powers of `Faithful`: all of them while three times the total fits, and above that bound it depends on
where the two products fall.
-/
import Dew.Agreement

namespace Dew.Consensus

/-- The powers for which the wrapped comparison is that of the numbers. -/
def Faithful (p total : ℕ) : Prop :=
  if 2 * total < 2 ^ 64 then 3 * p < 2 ^ 64
  else 3 * p + 2 ^ 64 ≤ 2 * total ∨ (2 ^ 64 ≤ 3 * p ∧ 3 * p < 2 * 2 ^ 64)

instance (p total : ℕ) : Decidable (Faithful p total) :=
  inferInstanceAs (Decidable (if 2 * total < 2 ^ 64 then _ else _ ∨ _ ∧ _))

/-- The test, on the wrapped products. -/
theorem hasQuorum_iff_mod {p t : ℕ} (ht : t < 2 ^ 64) (hpos : t ≠ 0) :
    hasQuorum (BitVec.ofNat 64 p) (BitVec.ofNat 64 t) = true ↔
      2 * t % 2 ^ 64 < 3 * p % 2 ^ 64 := by
  have hne : BitVec.ofNat 64 t ≠ 0 := by
    intro h
    have := congrArg BitVec.toNat h
    rw [BitVec.toNat_ofNat, Nat.mod_eq_of_lt ht] at this
    exact hpos this
  have hdouble : (BitVec.ofNat 64 t * 2).toNat = 2 * t % 2 ^ 64 := by
    rw [BitVec.toNat_mul, BitVec.toNat_ofNat, show (2 : U64).toNat = 2 from rfl]
    omega
  have htriple : (BitVec.ofNat 64 p * 3).toNat = 3 * p % 2 ^ 64 := by
    rw [BitVec.toNat_mul, BitVec.toNat_ofNat, show (3 : U64).toNat = 3 from rfl]
    omega
  unfold hasQuorum
  rw [if_neg hne, decide_eq_true_iff, BitVec.lt_def, hdouble, htriple]

/-- Where the wrapped comparison is that of the numbers. -/
theorem mod_lt_iff_faithful {p t : ℕ} (ht : t < 2 ^ 64) (hp : p ≤ t) :
    (2 * t % 2 ^ 64 < 3 * p % 2 ^ 64 ↔ 2 * t < 3 * p) ↔ Faithful p t := by
  -- the first product wraps at most once, the second at most twice
  have hdouble : 2 * t / 2 ^ 64 = 0 ∨ 2 * t / 2 ^ 64 = 1 := by omega
  have htriple : 3 * p / 2 ^ 64 = 0 ∨ 3 * p / 2 ^ 64 = 1 ∨ 3 * p / 2 ^ 64 = 2 := by omega
  unfold Faithful
  rcases hdouble with hd | hd <;> rcases htriple with ht | ht | ht <;> split <;> omega

namespace ValidatorSet

/-- The power of some validators. -/
def powerIn (vs : ValidatorSet) (S : Finset Address) : ℕ :=
  ∑ a ∈ S, (vs.powerOf a).toNat

/-- `HasQuorum` on the power of some validators. -/
def hasQuorumIn (vs : ValidatorSet) (S : Finset Address) : Bool :=
  hasQuorum (BitVec.ofNat 64 (vs.powerIn S)) vs.totalPower

theorem powerIn_le (vs : ValidatorSet) {S : Finset Address} (hS : S ⊆ vs.members) :
    vs.powerIn S ≤ vs.totalPower.toNat := by
  rw [← vs.sum_powerOf]
  exact Finset.sum_le_sum_of_subset hS

theorem totalPower_pos (vs : ValidatorSet) : vs.totalPower.toNat ≠ 0 := by
  obtain ⟨v, hv⟩ := List.exists_mem_of_ne_nil _ vs.nonempty
  have hle := List.single_le_sum (by simp) _ (List.mem_map_of_mem (f := fun v => v.power.toNat) hv)
  have hpos : v.power.toNat ≠ 0 := fun h => vs.positive v hv (BitVec.eq_of_toNat_eq h)
  rw [vs.total_eq] at hle
  omega

theorem hasQuorumIn_iff_mod (vs : ValidatorSet) (S : Finset Address) :
    vs.hasQuorumIn S = true ↔
      2 * vs.totalPower.toNat % 2 ^ 64 < 3 * vs.powerIn S % 2 ^ 64 := by
  have h := hasQuorum_iff_mod (p := vs.powerIn S) vs.totalPower.isLt vs.totalPower_pos
  rwa [BitVec.ofNat_toNat, BitVec.setWidth_eq] at h

/-- The powers of two groups overlap in what they have beyond the total. -/
theorem powerIn_inter (vs : ValidatorSet) {S T : Finset Address} (hS : S ⊆ vs.members)
    (hT : T ⊆ vs.members) :
    vs.powerIn S + vs.powerIn T ≤ vs.totalPower.toNat + vs.powerIn (S ∩ T) := by
  have hsum : vs.powerIn (S ∪ T) + vs.powerIn (S ∩ T) = vs.powerIn S + vs.powerIn T :=
    Finset.sum_union_inter
  have hle : vs.powerIn (S ∪ T) ≤ vs.totalPower.toNat := vs.powerIn_le (Finset.union_subset hS hT)
  omega

/-- The quorum test is exact for a group of validators just if their power is `Faithful`. Where it is,
the full set is a quorum, and two quorums share more than a third of the power. -/
theorem hasQuorum_exact_iff (vs : ValidatorSet) :
    (∀ S ⊆ vs.members,
      ((vs.hasQuorumIn S = true ↔ 2 * vs.totalPower.toNat < 3 * vs.powerIn S) ↔
        Faithful (vs.powerIn S) vs.totalPower.toNat)) ∧
    (vs.hasQuorumIn vs.members = true ↔ Faithful vs.totalPower.toNat vs.totalPower.toNat) ∧
    ∀ S ⊆ vs.members, ∀ T ⊆ vs.members,
      Faithful (vs.powerIn S) vs.totalPower.toNat → Faithful (vs.powerIn T) vs.totalPower.toNat →
      vs.hasQuorumIn S = true → vs.hasQuorumIn T = true →
      vs.totalPower.toNat < 3 * vs.powerIn (S ∩ T) := by
  have hexact : ∀ S ⊆ vs.members,
      ((vs.hasQuorumIn S = true ↔ 2 * vs.totalPower.toNat < 3 * vs.powerIn S) ↔
        Faithful (vs.powerIn S) vs.totalPower.toNat) := by
    intro S hS
    rw [hasQuorumIn_iff_mod]
    exact mod_lt_iff_faithful vs.totalPower.isLt (vs.powerIn_le hS)
  refine ⟨hexact, ?_, ?_⟩
  · have hpos := vs.totalPower_pos
    have hfull : vs.powerIn vs.members = vs.totalPower.toNat := vs.sum_powerOf
    have hmembers := hexact vs.members (Finset.Subset.refl _)
    rw [hfull] at hmembers
    rw [← hmembers]
    constructor
    · intro hq
      exact ⟨fun _ => by omega, fun _ => hq⟩
    · intro h
      exact h.mpr (by omega)
  · intro S hS T hT hfS hfT hqS hqT
    have hS' := ((hexact S hS).mpr hfS).mp hqS
    have hT' := ((hexact T hT).mpr hfT).mp hqT
    have := vs.powerIn_inter hS hT
    omega

end ValidatorSet

/-- A single validator may have any power. -/
theorem newValidatorSet_single (a : Address) {power : U64} (hpower : power ≠ 0) :
    ∃ vs, newValidatorSet [⟨a, power⟩] = .ok vs ∧ vs.validators = [⟨a, power⟩] ∧
      vs.totalPower = power := by
  have hscan : ∀ total, scan [⟨a, power⟩] [] 0 = .ok total ↔ power = total := by
    intro total
    have hfits : ¬(0 + power < 0) := by simp [BitVec.lt_def]
    simp only [scan, hpower, List.not_mem_nil, hfits, if_false, Except.ok.injEq]
    rw [show (0 : U64) + power = power from BitVec.zero_add power]
  unfold newValidatorSet
  simp only [List.mergeSort_singleton]
  split
  · rename_i hempty
    cases hempty
  · split
    · rename_i e h
      rw [List.mergeSort_singleton, (hscan power).mpr rfl] at h
      cases h
    · rename_i total h
      rw [List.mergeSort_singleton] at h
      exact ⟨_, rfl, rfl, ((hscan total).mp h).symm⟩

/-- A validator with just over a third of `2 ^ 64` is not a quorum of the set that it alone forms. -/
theorem full_set_not_quorum :
    ∃ vs, newValidatorSet [⟨1, 6148914691236517206⟩] = .ok vs ∧
      vs.hasQuorumIn vs.members = false ∧ 2 * vs.totalPower.toNat < 3 * vs.powerIn vs.members := by
  obtain ⟨vs, hvs, hvalidators, htotal⟩ :=
    newValidatorSet_single 1 (show (6148914691236517206 : U64) ≠ 0 by decide)
  have hfull : vs.powerIn vs.members = vs.totalPower.toNat := vs.sum_powerOf
  refine ⟨vs, hvs, ?_, ?_⟩
  · rw [Bool.eq_false_iff]
    intro h
    rw [ValidatorSet.hasQuorumIn_iff_mod, hfull, htotal] at h
    exact absurd h (by decide)
  · rw [hfull, htotal]
    decide

end Dew.Consensus
