/-
# The share of each proposer

`ProposerIndex` walks over the cumulative powers up to the slot `(height + round) mod total`. The
loop always ends inside the set, and over a whole period every validator proposes as often as its
power says. Since the set is sorted by address, the order of its construction does not matter.
-/
import Dew.Quorum
import Dew.WeightedSlots

namespace Dew.Consensus

open WeightedSlots

namespace ValidatorSet

/-- The loop of `ProposerIndex`: the first validator whose cumulative power exceeds the slot. -/
def findSlot (slot : U64) : U64 → ℕ → List Validator → Option ℕ
  | _, _, [] => none
  | acc, i, v :: vs =>
    if slot < acc + v.power then some i else findSlot slot (acc + v.power) (i + 1) vs

/-- `ProposerIndex`; the last index is the fallback behind the loop. -/
def proposerIndex (vs : ValidatorSet) (height round : U64) : ℕ :=
  if vs.totalPower = 0 then 0
  else
    (findSlot ((height + round) % vs.totalPower) 0 0 vs.validators).getD
      (vs.validators.length - 1)

/-- The powers as numbers. -/
def powers (vs : ValidatorSet) : List ℕ :=
  vs.validators.map fun v => v.power.toNat

/-- While the sum of the powers fits, the loop finds the block of the slot. -/
theorem findSlot_eq (slot acc : U64) (i : ℕ) (vs : List Validator)
    (hacc : acc.toNat ≤ slot.toNat)
    (hsum : acc.toNat + (vs.map fun v => v.power.toNat).sum < 2 ^ 64) :
    findSlot slot acc i vs =
      (slotOf (vs.map fun v => v.power.toNat) (slot.toNat - acc.toNat)).map (· + i) := by
  induction vs generalizing acc i with
  | nil => rfl
  | cons v vs ih =>
      rw [List.map_cons, List.sum_cons] at hsum
      have hadd : (acc + v.power).toNat = acc.toNat + v.power.toNat := by
        rw [BitVec.toNat_add, Nat.mod_eq_of_lt (by omega)]
      rw [findSlot, List.map_cons, slotOf]
      by_cases hslot : slot < acc + v.power
      · have hlt : slot.toNat - acc.toNat < v.power.toNat := by
          rw [BitVec.lt_def, hadd] at hslot
          omega
        simp [hslot, hlt]
      · have hge : ¬ slot.toNat - acc.toNat < v.power.toNat := by
          rw [BitVec.lt_def, hadd] at hslot
          omega
        rw [if_neg hslot, if_neg hge, ih (acc + v.power) (i + 1) (by omega) (by omega), hadd,
          Option.map_map, Nat.sub_add_eq]
        congr 1
        funext k
        simp only [Function.comp_apply]
        omega

theorem sum_powers (vs : ValidatorSet) : vs.powers.sum = vs.totalPower.toNat :=
  vs.total_eq

theorem totalPower_ne_zero (vs : ValidatorSet) : vs.totalPower ≠ 0 :=
  fun h => vs.totalPower_pos (congrArg BitVec.toNat h)

/-- The loop over the whole set finds the block of the slot. -/
theorem findSlot_validators (vs : ValidatorSet) (height round : U64) :
    findSlot ((height + round) % vs.totalPower) 0 0 vs.validators =
      slotOf vs.powers ((height + round).toNat % vs.totalPower.toNat) := by
  have hsum : (0 : U64).toNat + vs.powers.sum < 2 ^ 64 := by
    rw [sum_powers, show (0 : U64).toNat = 0 from rfl, Nat.zero_add]
    exact vs.totalPower.isLt
  rw [findSlot_eq _ 0 0 vs.validators (by simp) hsum, BitVec.toNat_umod]
  simp [powers]

/-- The loop never runs to the fallback. -/
theorem findSlot_isSome (vs : ValidatorSet) (height round : U64) :
    (findSlot ((height + round) % vs.totalPower) 0 0 vs.validators).isSome := by
  rw [findSlot_validators, slotOf_isSome_iff, sum_powers]
  exact Nat.mod_lt _ (Nat.pos_of_ne_zero vs.totalPower_pos)

theorem slotOf_eq_some_iff (vs : ValidatorSet) (height round : U64) (i : ℕ) :
    slotOf vs.powers ((height + round).toNat % vs.totalPower.toNat) = some i ↔
      vs.proposerIndex height round = i := by
  obtain ⟨j, hj⟩ := Option.isSome_iff_exists.mp (vs.findSlot_isSome height round)
  rw [proposerIndex, if_neg vs.totalPower_ne_zero, hj, ← findSlot_validators, hj]
  simp

/-- The walk of `Proposer` stops at the validator that the loop finds. -/
theorem proposerAt_of_findSlot {slot : U64} (last : Address) (acc : U64) (i : ℕ)
    (vs : List Validator) {j : ℕ} (h : findSlot slot acc i vs = some j) :
    i ≤ j ∧ vs[j - i]?.map Validator.address = some (proposerAt slot acc vs last) := by
  induction vs generalizing acc i last with
  | nil => cases h
  | cons v vs ih =>
      rw [findSlot] at h
      rw [proposerAt]
      split at h
      · rename_i hslot
        obtain rfl := Option.some.inj h
        simp [hslot]
      · rename_i hslot
        obtain ⟨hle, hget⟩ := ih v.address (acc + v.power) (i + 1) h
        have hsucc : j - i = j - (i + 1) + 1 := by omega
        rw [if_neg hslot, hsucc, List.getElem?_cons_succ]
        exact ⟨by omega, hget⟩

/-- `Proposer` is the validator at `ProposerIndex`. -/
theorem getElem?_proposerIndex (vs : ValidatorSet) (height round : U64) :
    vs.validators[vs.proposerIndex height round]?.map Validator.address =
      some (vs.proposer height round) := by
  obtain ⟨j, hj⟩ := Option.isSome_iff_exists.mp (vs.findSlot_isSome height round)
  obtain ⟨-, hget⟩ := proposerAt_of_findSlot 0 0 0 vs.validators hj
  rw [proposerIndex, if_neg vs.totalPower_ne_zero, hj, proposer]
  exact hget

/-- Addresses tell the validators apart. -/
theorem proposer_eq_iff (vs : ValidatorSet) (height round : U64) {i : ℕ}
    (hi : i < vs.validators.length) :
    vs.proposer height round = vs.validators[i].address ↔ vs.proposerIndex height round = i := by
  obtain ⟨v, hv, haddr⟩ := Option.map_eq_some_iff.mp (vs.getElem?_proposerIndex height round)
  obtain ⟨hlt, rfl⟩ := List.getElem?_eq_some_iff.mp hv
  rw [← haddr]
  constructor
  · intro h
    refine (@List.Nodup.getElem_inj_iff _ _ vs.nodup _ (by simpa using hlt) _
      (by simpa using hi)).mp ?_
    simpa using h
  · intro h
    simp only [h]

/-- Over the `TotalPower` values of height plus round from `s` on, a validator proposes as often as
its power says. -/
theorem card_proposer (vs : ValidatorSet) {i : ℕ} (hi : i < vs.validators.length) {s : ℕ}
    (hs : s + vs.totalPower.toNat < 2 ^ 64) (height round : ℕ → U64)
    (hsum : ∀ k < vs.totalPower.toNat, (height k).toNat + (round k).toNat = s + k) :
    ((Finset.range vs.totalPower.toNat).filter fun k =>
      vs.proposer (height k) (round k) = vs.validators[i].address).card =
        vs.validators[i].power.toNat := by
  have hi' : i < vs.powers.length := by simpa [powers] using hi
  have hwindow := card_window hi' s
  have hpower : vs.powers[i] = vs.validators[i].power.toNat := by simp [powers]
  rw [hpower, sum_powers] at hwindow
  rw [← hwindow]
  -- the offset in the period against the value of height plus round
  refine Finset.card_bij (fun k _ => s + k) ?_ ?_ ?_
  · intro k hk
    obtain ⟨hk, hprop⟩ := Finset.mem_filter.mp hk
    have hlt := Finset.mem_range.mp hk
    refine Finset.mem_filter.mpr ⟨Finset.mem_Ico.mpr ⟨by omega, by omega⟩, ?_⟩
    have hadd : (height k + round k).toNat = s + k := by
      rw [BitVec.toNat_add, hsum k hlt, Nat.mod_eq_of_lt (by omega)]
    rw [← hadd, slotOf_eq_some_iff, ← proposer_eq_iff vs _ _ hi]
    exact hprop
  · intro k _ k' _ h
    omega
  · intro x hx
    obtain ⟨hx, hslot⟩ := Finset.mem_filter.mp hx
    obtain ⟨hge, hlt⟩ := Finset.mem_Ico.mp hx
    have hk : x - s < vs.totalPower.toNat := by omega
    have hadd : (height (x - s) + round (x - s)).toNat = x := by
      rw [BitVec.toNat_add, hsum _ hk, Nat.mod_eq_of_lt (by omega)]
      omega
    refine ⟨x - s, Finset.mem_filter.mpr ⟨Finset.mem_range.mpr hk, ?_⟩, by omega⟩
    rw [proposer_eq_iff vs _ _ hi, ← slotOf_eq_some_iff, hadd]
    exact hslot

end ValidatorSet

/-! ## The order of construction -/

/-- The sorting of `NewValidatorSet`. -/
def sortByAddress (vals : List Validator) : List Validator :=
  vals.mergeSort fun a b => decide (a.address ≤ b.address)

theorem pairwise_sortByAddress (vals : List Validator) :
    (sortByAddress vals).Pairwise fun a b => a.address ≤ b.address := by
  have h := @List.pairwise_mergeSort Validator (fun a b => decide (a.address ≤ b.address))
    (by simpa using fun a b c => BitVec.le_trans) (by simpa using fun a b => BitVec.le_total ..) vals
  exact h.imp fun hab => by simpa using hab

/-- Without equal addresses, sorting forgets the order. -/
theorem sortByAddress_perm {vals vals' : List Validator} (h : vals.Perm vals')
    (hnodup : ((sortByAddress vals).map Validator.address).Nodup) :
    sortByAddress vals' = sortByAddress vals := by
  have hperm : (sortByAddress vals').Perm (sortByAddress vals) :=
    (List.mergeSort_perm vals' _).trans (h.symm.trans (List.mergeSort_perm vals _).symm)
  refine @List.Perm.eq_of_pairwise _ (fun a b => a.address ≤ b.address) _ _ ?_
    (pairwise_sortByAddress vals') (pairwise_sortByAddress vals) hperm
  intro a b ha hb hab hba
  refine List.inj_on_of_nodup_map hnodup (hperm.subset ha) hb ?_
  exact BitVec.le_antisymm hab hba

/-- The set holds the sorted validators and the total of their scan. -/
theorem newValidatorSet_eq_ok_iff {vals : List Validator} {vs : ValidatorSet} :
    newValidatorSet vals = .ok vs ↔
      vs.validators = sortByAddress vals ∧ scan (sortByAddress vals) [] 0 = .ok vs.totalPower := by
  constructor
  · intro h
    unfold newValidatorSet at h
    simp only at h
    split at h
    · cases h
    · split at h
      · cases h
      · rename_i total hscan
        obtain rfl := Except.ok.inj h
        exact ⟨rfl, hscan⟩
  · rintro ⟨hvalidators, hscan⟩
    unfold newValidatorSet
    simp only
    split
    · rename_i hempty
      exact absurd (hvalidators.trans hempty) vs.nonempty
    · split
      · rename_i e herr
        cases hscan.symm.trans herr
      · rename_i total htotal
        obtain rfl := Except.ok.inj (htotal.symm.trans hscan)
        cases vs
        cases hvalidators
        rfl

/-- Proposer selection is proportional to stake: over a whole period of height plus round every
validator is the proposer as often as its power says, whatever the order in which the validators were
passed; and the loop of `ProposerIndex` never runs to its fallback. -/
theorem proposer_proportional {vals : List Validator} {vs : ValidatorSet}
    (h : newValidatorSet vals = .ok vs) :
    (∀ v ∈ vals, ∀ s, s + vs.totalPower.toNat < 2 ^ 64 → ∀ height round : ℕ → U64,
      (∀ k < vs.totalPower.toNat, (height k).toNat + (round k).toNat = s + k) →
      ((Finset.range vs.totalPower.toNat).filter fun k =>
        vs.proposer (height k) (round k) = v.address).card = v.power.toNat) ∧
    (∀ vals', vals.Perm vals' → newValidatorSet vals' = .ok vs) ∧
    ∀ height round,
      (ValidatorSet.findSlot ((height + round) % vs.totalPower) 0 0 vs.validators).isSome ∧
      vs.validators[vs.proposerIndex height round]?.map Validator.address =
        some (vs.proposer height round) := by
  obtain ⟨hsorted, hscan⟩ := newValidatorSet_eq_ok_iff.mp h
  refine ⟨?_, ?_, ?_⟩
  · intro v hv s hs height round hsum
    have hmem : v ∈ vs.validators := by
      rw [hsorted]
      exact (List.mergeSort_perm vals _).mem_iff.mpr hv
    obtain ⟨i, hi, rfl⟩ := List.mem_iff_getElem.mp hmem
    exact vs.card_proposer hi hs height round hsum
  · intro vals' hperm
    have hnodup : ((sortByAddress vals).map Validator.address).Nodup := by
      rw [← hsorted]
      exact vs.nodup
    rw [newValidatorSet_eq_ok_iff, sortByAddress_perm hperm hnodup]
    exact ⟨hsorted, hscan⟩
  · intro height round
    exact ⟨vs.findSlot_isSome height round, vs.getElem?_proposerIndex height round⟩

/-- A single validator of power three proposes at three heights out of three. -/
theorem proposer_proportional_single :
    ∃ vs, newValidatorSet [⟨7, 3⟩] = .ok vs ∧
      ((Finset.range 3).filter fun k => vs.proposer (BitVec.ofNat 64 (5 + k)) 0 = 7).card = 3 := by
  obtain ⟨vs, hvs, -, htotal⟩ := newValidatorSet_single 7 (show (3 : U64) ≠ 0 by decide)
  have hnat : vs.totalPower.toNat = 3 := by rw [htotal]; rfl
  have hcount := (proposer_proportional hvs).1 ⟨7, 3⟩ (by simp) 5 (by rw [hnat]; decide)
    (fun k => BitVec.ofNat 64 (5 + k)) (fun _ => 0) (by
      intro k hk
      rw [hnat] at hk
      rw [BitVec.toNat_ofNat, Nat.mod_eq_of_lt (by omega)]
      rfl)
  rw [hnat] at hcount
  exact ⟨vs, hvs, hcount⟩

end Dew.Consensus
