/-
# The validator set of the next epoch

At the end of an epoch the active candidates become the validator set. Their voting powers, in wei,
are cut off at the largest `uint64`, and the constructor of the set rejects a sum of powers above it
and an address that occurs twice. The rotation yields a faithful set exactly when the addresses of the
active candidates differ and the sum of their cut powers fits; two candidates with the default minimum
stake already exceed it.
-/
import Dew.Agreement
import Dew.Rotation
import Dew.StakeVault

namespace Dew.Consensus

/-! ## The constructor -/

theorem scan_isOk {vs : List Validator} {seen : List Address} {total : U64}
    (hpower : ∀ v ∈ vs, v.power ≠ 0) (hnodup : (vs.map Validator.address).Nodup)
    (hfresh : ∀ v ∈ vs, v.address ∉ seen)
    (hsum : total.toNat + (vs.map fun v => v.power.toNat).sum < 2 ^ 64) :
    ∃ t, scan vs seen total = .ok t := by
  induction vs generalizing seen total with
  | nil => exact ⟨total, rfl⟩
  | cons v vs ih =>
      rw [List.map_cons, List.nodup_cons] at hnodup
      rw [List.map_cons, List.sum_cons] at hsum
      have hadd : (total + v.power).toNat = total.toNat + v.power.toNat := by
        rw [BitVec.toNat_add, Nat.mod_eq_of_lt (by omega)]
      have hfits : ¬total + v.power < total := by
        rw [BitVec.lt_def, hadd]
        omega
      unfold scan
      rw [if_neg (hpower v List.mem_cons_self), if_neg (hfresh v List.mem_cons_self), if_neg hfits]
      refine ih (fun u hu => hpower u (List.mem_cons_of_mem _ hu)) hnodup.2 ?_ (by omega)
      intro u hu hmem
      rcases List.mem_cons.mp hmem with heq | hmem
      · exact hnodup.1 (heq ▸ List.mem_map_of_mem hu)
      · exact hfresh u (List.mem_cons_of_mem _ hu) hmem

/-- The set consists of the given validators. -/
theorem perm_of_newValidatorSet {vals : List Validator} {vs : ValidatorSet}
    (h : newValidatorSet vals = .ok vs) : vs.validators.Perm vals := by
  unfold newValidatorSet at h
  simp only at h
  split at h
  · cases h
  split at h
  · cases h
  · cases h
    exact List.mergeSort_perm _ _

/-- When `NewValidatorSet` succeeds. -/
theorem newValidatorSet_ok_iff {vals : List Validator} (hpower : ∀ v ∈ vals, v.power ≠ 0) :
    (∃ vs, newValidatorSet vals = .ok vs) ↔
      vals ≠ [] ∧ (vals.map Validator.address).Nodup ∧
        (vals.map fun v => v.power.toNat).sum < 2 ^ 64 := by
  constructor
  · rintro ⟨vs, hvs⟩
    have hperm := perm_of_newValidatorSet hvs
    refine ⟨?_, (hperm.map _).nodup_iff.mp vs.nodup, ?_⟩
    · rintro rfl
      exact vs.nonempty hperm.eq_nil
    · rw [← (hperm.map _).sum_eq, vs.total_eq]
      exact vs.totalPower.isLt
  · rintro ⟨hne, hnodup, hsum⟩
    have hperm : (vals.mergeSort fun a b => decide (a.address ≤ b.address)).Perm vals :=
      List.mergeSort_perm _ _
    have hscan : ∃ t, scan (vals.mergeSort fun a b => decide (a.address ≤ b.address)) [] 0 =
        .ok t := by
      refine scan_isOk ?_ ((hperm.map _).nodup_iff.mpr hnodup) ?_ ?_
      · exact fun v hv => hpower v (hperm.mem_iff.mp hv)
      · exact fun v _ => List.not_mem_nil
      · rw [(hperm.map _).sum_eq]
        simpa using hsum
    obtain ⟨t, ht⟩ := hscan
    unfold newValidatorSet
    simp only
    split
    · rename_i hempty
      rw [hempty] at hperm
      exact absurd hperm.symm.eq_nil hne
    split
    · rename_i err herr
      rw [ht] at herr
      cases herr
    · exact ⟨_, rfl⟩

/-! ## Powers -/

theorem toNat_powerFromU256 (v : U256) : (powerFromU256 v).toNat = min v.toNat (2 ^ 64 - 1) := by
  unfold powerFromU256
  split
  · rename_i h
    rw [BitVec.toNat_setWidth, Nat.mod_eq_of_lt h]
    omega
  · rename_i h
    rw [BitVec.toNat_allOnes]
    omega

theorem powerFromU256_ne_zero {v : U256} (h : v ≠ 0) : powerFromU256 v ≠ 0 := by
  intro hzero
  have hnat := congrArg BitVec.toNat hzero
  rw [toNat_powerFromU256] at hnat
  have hv : v.toNat ≠ 0 := fun h0 => h (BitVec.eq_of_toNat_eq h0)
  have hz : (0 : U64).toNat = 0 := rfl
  omega

theorem powerFromU256_mono {v w : U256} (h : v ≤ w) :
    powerFromU256 v ≤ powerFromU256 w := by
  rw [BitVec.le_def] at h ⊢
  rw [toNat_powerFromU256, toNat_powerFromU256]
  omega

/-! ## The active candidates -/

/-- An entry of the candidate list, as the words show it. -/
def eligibleOf (L : Ledger) (min : U256) (i : U64) : Option Staking.Candidate :=
  let a : Address := (Staking.word L (Staking.idxSlot i)).setWidth 160
  if a = 0 ∨ Staking.word L (Staking.candSlot a) = 0 ∨ Staking.word L (Staking.jailedSlot a) ≠ 0 ∨
      Staking.word L (Staking.selfSlot a) < min then none
  else
    let power := Staking.word L (Staking.selfSlot a) + Staking.delegatedOf L a
    if power = 0 then none else some ⟨a, power⟩

theorem run_eligible_eq (L : Ledger) (min : U256) (i : U64) :
    (Staking.eligible min i).run Op.execL L = .ok (eligibleOf L min i, L) := by
  unfold Staking.eligible eligibleOf
  rw [Program.run_bind, Staking.run_load, Program.ok_bind]
  dsimp only
  generalize (Staking.word L (Staking.idxSlot i)).setWidth 160 = a
  by_cases hzero : a = 0#160
  · simp [hzero]
  by_cases hcand : Staking.word L (Staking.candSlot a) = 0#256
  · simp [hzero, Staking.isCandidate, hcand]
  by_cases hjailed : Staking.word L (Staking.jailedSlot a) = 0#256
  · by_cases hlow : Staking.word L (Staking.selfSlot a) < min
    · simp [hzero, Staking.isCandidate, hcand, Staking.isJailed, hjailed, Staking.selfStake, hlow]
    · by_cases hpower : Staking.word L (Staking.selfSlot a) + Staking.delegatedOf L a = 0#256
      · simp [hzero, Staking.isCandidate, hcand, Staking.isJailed, hjailed, Staking.selfStake, hlow,
          Staking.votingPower, Staking.run_delegatedTotal, hpower]
      · simp [hzero, Staking.isCandidate, hcand, Staking.isJailed, hjailed, Staking.selfStake, hlow,
          Staking.votingPower, Staking.run_delegatedTotal, hpower]
  · simp [hzero, Staking.isCandidate, hcand, Staking.isJailed, hjailed]

/-- The eligible entries from `i` on. -/
def candidatesOf (L : Ledger) (min : U256) : ℕ → U64 → List Staking.Candidate
  | 0, _ => []
  | n + 1, i => (eligibleOf L min i).toList ++ candidatesOf L min n (i + 1)

theorem run_candidatesFrom_eq (L : Ledger) (min : U256) (n : ℕ) (i : U64) :
    (Staking.candidatesFrom min n i).run Op.execL L = .ok (candidatesOf L min n i, L) := by
  induction n generalizing i with
  | zero => rfl
  | succ n ih =>
      unfold Staking.candidatesFrom candidatesOf
      rw [Program.run_bind, run_eligible_eq, Program.ok_bind, Program.run_bind, ih, Program.ok_bind,
        Program.run_pure]

/-- The active set, as the words show it. -/
def activeOf (m : StakingModule) (L : Ledger) : List Staking.Candidate :=
  ((candidatesOf L (BitVec.ofNat 256 m.minSelfStake)
    ((Staking.word L Staking.lenSlot).setWidth 64).toNat 0).mergeSort
      Staking.Candidate.before).take m.activeCap.toNat

theorem run_activeSet_eq {m : StakingModule} (hmin : m.minSelfStake < 2 ^ 256) (L : Ledger) :
    (Staking.activeSet m).run Op.execL L = .ok (activeOf m L, L) := by
  unfold Staking.activeSet mustFromBig activeOf
  rw [Program.run_bind, Staking.run_load, Program.ok_bind, if_pos hmin, Program.run_bind,
    Program.run_pure, Program.ok_bind, Program.run_bind, run_candidatesFrom_eq, Program.ok_bind,
    Program.run_pure]

/-- An active candidate has an address and power. -/
theorem candidate_of_mem_activeOf {m : StakingModule} {L : Ledger} {c : Staking.Candidate}
    (hc : c ∈ activeOf m L) : c.address ≠ 0 ∧ c.votingPower ≠ 0 := by
  have hentry : ∀ (min : U256) (i : U64), c ∈ (eligibleOf L min i).toList →
      c.address ≠ 0 ∧ c.votingPower ≠ 0 := by
    intro min i hmem
    unfold eligibleOf at hmem
    dsimp only at hmem
    split at hmem
    · cases hmem
    rename_i hok
    split at hmem
    · cases hmem
    · rename_i hpower
      rw [not_or] at hok
      rw [Option.toList_some, List.mem_singleton] at hmem
      subst hmem
      exact ⟨hok.1, hpower⟩
  have hlist : ∀ (min : U256) (n : ℕ) (i : U64), c ∈ candidatesOf L min n i →
      c.address ≠ 0 ∧ c.votingPower ≠ 0 := by
    intro min n
    induction n with
    | zero =>
        intro i hmem
        cases hmem
    | succ n ih =>
        intro i hmem
        rcases List.mem_append.mp hmem with hmem | hmem
        · exact hentry min i hmem
        · exact ih (i + 1) hmem
  exact hlist _ _ _ (List.mem_mergeSort.mp (List.mem_of_mem_take hc))

/-! ## The rotation -/

/-- The addresses differ, and the cut powers have a sum that fits. -/
def Fits (active : List Staking.Candidate) : Prop :=
  (active.map Staking.Candidate.address).Nodup ∧
    (active.map fun c => min c.votingPower.toNat (2 ^ 64 - 1)).sum < 2 ^ 64

instance (active : List Staking.Candidate) : Decidable (Fits active) :=
  inferInstanceAs (Decidable (_ ∧ _))

/-- A set with exactly the addresses of the candidates, in which more voting power never means less
power. -/
structure ValidatorSet.Represents (vs : ValidatorSet) (active : List Staking.Candidate) : Prop where
  members : ∀ a, (vs.get? a).isSome ↔ a ∈ active.map Staking.Candidate.address
  power : ∀ c ∈ active, vs.powerOf c.address = powerFromU256 c.votingPower
  ordered : ∀ c ∈ active, ∀ d ∈ active, c.votingPower < d.votingPower →
    vs.powerOf c.address ≤ vs.powerOf d.address

/-- The validators that stand for the candidates. -/
def toValidators (active : List Staking.Candidate) : List Validator :=
  active.map fun c => ⟨c.address, powerFromU256 c.votingPower⟩

theorem activeSetToValidatorSet_eq {active : List Staking.Candidate}
    (h : ∀ c ∈ active, c.address ≠ 0 ∧ c.votingPower ≠ 0) :
    activeSetToValidatorSet active = newValidatorSet (toValidators active) := by
  unfold activeSetToValidatorSet toValidators
  congr 1
  rw [← List.filterMap_eq_map]
  refine List.filterMap_congr fun c hc => ?_
  obtain ⟨haddress, hpower⟩ := h c hc
  rw [if_neg]
  · rfl
  · rintro (hzero | hzero | hzero)
    · exact haddress hzero
    · exact hpower hzero
    · exact powerFromU256_ne_zero hpower hzero

theorem represents_of_ok {active : List Staking.Candidate} {vs : ValidatorSet}
    (h : newValidatorSet (toValidators active) = .ok vs) : vs.Represents active := by
  have hperm := perm_of_newValidatorSet h
  have hpower : ∀ c ∈ active, vs.powerOf c.address = powerFromU256 c.votingPower := by
    intro c hc
    have hmem : (⟨c.address, powerFromU256 c.votingPower⟩ : Validator) ∈ vs.validators :=
      hperm.mem_iff.mpr (List.mem_map_of_mem (f := fun c : Staking.Candidate =>
        (⟨c.address, powerFromU256 c.votingPower⟩ : Validator)) hc)
    exact vs.powerOf_of_mem hmem
  refine ⟨?_, hpower, ?_⟩
  · intro a
    have haddresses : (vs.validators.map Validator.address).Perm
        (active.map Staking.Candidate.address) := by
      have := hperm.map Validator.address
      rwa [toValidators, List.map_map] at this
    constructor
    · intro hget
      obtain ⟨v, hv⟩ := Option.isSome_iff_exists.mp hget
      have haddr : v.address = a := by
        simpa using List.find?_some (p := fun v : Validator => v.address == a) hv
      rw [← haddr]
      exact haddresses.mem_iff.mp (List.mem_map_of_mem (List.mem_of_find?_eq_some hv))
    · intro hmem
      obtain ⟨v, hv, rfl⟩ := List.mem_map.mp (haddresses.mem_iff.mpr hmem)
      rw [vs.get?_of_mem hv]
      rfl
  · intro c hc d hd hlt
    rw [hpower c hc, hpower d hd]
    exact powerFromU256_mono (BitVec.le_of_lt hlt)

theorem run_tryRotate {params : StakingParams} {height : U64} {L : Ledger}
    {active : List Staking.Candidate} (henabled : params.enabled = true)
    (hepoch : shouldRotateEpoch height params.epochLength = true)
    (hactive : (Staking.activeSet params.module).run Op.execL L = .ok (active, L))
    (hne : active ≠ []) :
    (tryRotateValidatorSet params height).run Op.execL L =
      .ok ((activeSetToValidatorSet active).map some, L) := by
  simp [tryRotateValidatorSet, henabled, hepoch, hactive, hne]

/-- At the end of an epoch with active candidates the rotation gives a set that represents them just
if they fit. -/
theorem rotation_represents_iff {params : StakingParams} {height : U64} {L : Ledger}
    {active : List Staking.Candidate} (henabled : params.enabled = true)
    (hepoch : shouldRotateEpoch height params.epochLength = true)
    (hactive : (Staking.activeSet params.module).run Op.execL L = .ok (active, L))
    (hne : active ≠ []) :
    (∃ vs, (tryRotateValidatorSet params height).run Op.execL L = .ok (.ok (some vs), L) ∧
      vs.Represents active) ↔ Fits active := by
  -- a larger minimum makes `ActiveSet` panic
  have hmin : params.module.minSelfStake < 2 ^ 256 := by
    by_contra hbig
    unfold Staking.activeSet mustFromBig at hactive
    rw [Program.run_bind, Staking.run_load, Program.ok_bind, if_neg hbig] at hactive
    simp [Op.execL] at hactive
  have hof : activeOf params.module L = active := by
    rw [run_activeSet_eq hmin] at hactive
    exact (Prod.mk.inj (Except.ok.inj hactive)).1
  -- so `ActiveSetToValidatorSet` skips none of the candidates
  have hentries : ∀ c ∈ active, c.address ≠ 0 ∧ c.votingPower ≠ 0 := by
    rw [← hof]
    exact fun c hc => candidate_of_mem_activeOf hc
  have hrun : (tryRotateValidatorSet params height).run Op.execL L =
      .ok ((newValidatorSet (toValidators active)).map some, L) := by
    rw [run_tryRotate henabled hepoch hactive hne, activeSetToValidatorSet_eq hentries]
  have hpowers : ∀ v ∈ toValidators active, v.power ≠ 0 := by
    intro v hv
    obtain ⟨c, hc, rfl⟩ := List.mem_map.mp hv
    exact powerFromU256_ne_zero (hentries c hc).2
  -- what is left of the checks of `NewValidatorSet` is `Fits`
  have hfits : (∃ vs, newValidatorSet (toValidators active) = .ok vs) ↔ Fits active := by
    rw [newValidatorSet_ok_iff hpowers]
    have hnil : toValidators active ≠ [] := by simpa [toValidators] using hne
    simp only [toValidators, List.map_map, Function.comp_def, toNat_powerFromU256] at hnil ⊢
    exact and_iff_right hnil
  rw [← hfits, hrun]
  constructor
  · rintro ⟨vs, hvs, -⟩
    cases hset : newValidatorSet (toValidators active) with
    | error err =>
        rw [hset] at hvs
        cases hvs
    | ok vs' => exact ⟨vs', rfl⟩
  · rintro ⟨vs, hvs⟩
    refine ⟨vs, ?_, represents_of_ok hvs⟩
    rw [hvs]
    rfl

/-- One candidate with a stake of one unit becomes the only validator. -/
theorem sole_candidate_represented :
    ∃ vs, (tryRotateValidatorSet ⟨true, ⟨1, 1#64, 0#64⟩, 1#64⟩ 1#64).run Op.execL
        Chain.bondedLedger = .ok (.ok (some vs), Chain.bondedLedger) ∧
      vs.Represents [⟨1#160, 1#256⟩] := by
  have hfits : Fits [⟨1#160, 1#256⟩] := by decide
  let params : StakingParams := ⟨true, ⟨1, 1#64, 0#64⟩, 1#64⟩
  have hepoch : shouldRotateEpoch 1#64 params.epochLength = true := by decide
  have hactive : (Staking.activeSet params.module).run Op.execL Chain.bondedLedger =
      .ok ([⟨1#160, 1#256⟩], Chain.bondedLedger) := Chain.run_activeSet_bonded
  have hrotate := rotation_represents_iff (show params.enabled = true from rfl) hepoch hactive
    (List.cons_ne_nil _ _)
  exact hrotate.mpr hfits

/-! ## Two candidates with the default stake -/

section TwoCandidates

open Staking

/-- The words of the candidates `1` and `2`. -/
def twoKeys : List Key :=
  [.self 1, .self 2, .cand 1, .cand 2, .jailed 1, .jailed 2, .delTot 1, .delTot 2, .delRate 1,
    .delRate 2, .len, .idx 0, .idx 1]

theorem twoKeys_injOn : Set.InjOn Key.slot {k | k ∈ twoKeys} :=
  injOn_of_digests Key.slot_eq_evalNat (fun _ hk => hk) (by decide +kernel)

/-- The default minimum stake. -/
def minStake : U256 :=
  BitVec.ofNat 256 minValidatorStakeWei

/-- The words after both have bonded the default minimum. -/
def twoBonded : Words :=
  (bonded (newStakingModule defaultStakingConfig)
    (bonded (newStakingModule defaultStakingConfig) (fun _ => 0) 1 minStake).2 2
    minStake).2

/-- The two calls of `Bond`. -/
def bondTwice : StateProgram Unit := do
  let _ ← bond (newStakingModule defaultStakingConfig) 1 minStake
  let _ ← bond (newStakingModule defaultStakingConfig) 2 minStake

theorem total_bondTwice :
    Program.Total Op.execL (Shows {k | k ∈ twoKeys} fun _ => 0) bondTwice
      fun _ L => Shows {k | k ∈ twoKeys} twoBonded L := by
  unfold bondTwice
  apply (total_bond (by decide) twoKeys_injOn (by simp [twoKeys]) (by simp [twoKeys])
    (by simp [twoKeys]) (by simp [twoKeys]) _).bind
  intro _
  apply Program.Total.assume
  rintro -
  apply (total_bond (by decide) twoKeys_injOn (by simp [twoKeys]) (by simp [twoKeys])
    (by simp [twoKeys]) (by decide) _).bind
  intro _
  apply Program.Total.assume
  rintro -
  exact Program.Total.pure fun L hL => hL

/-- A candidate without delegations, as its words show it. -/
theorem eligibleOf_bonded {L : Ledger} {min : U256} {i : U64} {a : Address}
    (hidx : word L (idxSlot i) = a.setWidth 256) (hzero : a ≠ 0)
    (hcand : word L (candSlot a) ≠ 0) (hjailed : word L (jailedSlot a) = 0)
    (hmin : ¬word L (selfSlot a) < min) (hself : word L (selfSlot a) ≠ 0)
    (hdelTot : word L (delTotSlot a) = 0) :
    eligibleOf L min i = some ⟨a, word L (selfSlot a)⟩ := by
  have haddr : (a.setWidth 256).setWidth 160 = a := by
    rw [BitVec.setWidth_setWidth_of_le _ (by decide), BitVec.setWidth_eq]
  have hdelegated : delegatedOf L a = 0 := by simp [delegatedOf, hdelTot]
  unfold eligibleOf
  rw [hidx]
  simp only [haddr, hdelegated]
  rw [if_neg, if_neg]
  · rw [show word L (selfSlot a) + 0 = word L (selfSlot a) from BitVec.add_zero _]
  · rw [show word L (selfSlot a) + 0 = word L (selfSlot a) from BitVec.add_zero _]
    exact hself
  · rintro (h | h | h | h)
    · exact hzero h
    · exact hcand h
    · exact h hjailed
    · exact hmin h

theorem activeOf_twoBonded {L : Ledger} (hL : Shows {k | k ∈ twoKeys} twoBonded L) :
    activeOf (newStakingModule defaultStakingConfig) L = [⟨1, minStake⟩, ⟨2, minStake⟩] := by
  have hword : ∀ k ∈ twoKeys, word L k.slot = twoBonded k := by
    obtain ⟨bal, hholds⟩ := hL
    exact fun k hk => hholds.word k hk
  have htable : ∀ a : Address, a = 1 ∨ a = 2 → twoBonded (.cand a) = 1 ∧ twoBonded (.jailed a) = 0 ∧
      twoBonded (.self a) = minStake ∧ twoBonded (.delTot a) = 0 := by
    rintro a (rfl | rfl) <;> decide
  have hentry : ∀ (a : Address) (i : U64), a = 1 ∨ a = 2 → Key.idx i ∈ twoKeys →
      twoBonded (.idx i) = a.setWidth 256 → a ≠ 0 →
      Key.cand a ∈ twoKeys ∧ Key.jailed a ∈ twoKeys ∧ Key.self a ∈ twoKeys ∧
        Key.delTot a ∈ twoKeys →
      eligibleOf L (BitVec.ofNat 256 (newStakingModule defaultStakingConfig).minSelfStake) i =
        some ⟨a, minStake⟩ := by
    rintro a i ha hi hidx hzero ⟨hc, hj, hs, hd⟩
    obtain ⟨hcand, hjailed, hself, hdelTot⟩ := htable a ha
    have hstake : word L (selfSlot a) = minStake := (hword _ hs).trans hself
    rw [← hstake]
    refine eligibleOf_bonded ((hword _ hi).trans hidx) hzero ?_ ((hword _ hj).trans hjailed) ?_ ?_
      ((hword _ hd).trans hdelTot)
    · rw [show word L (candSlot a) = 1 from (hword _ hc).trans hcand]
      decide
    · rw [hstake]
      decide
    · rw [hstake]
      decide
  have hlen : word L lenSlot = 2 := (hword .len (by simp [twoKeys])).trans (by decide)
  have hfirst := hentry 1 0 (.inl rfl) (by simp [twoKeys]) (by decide) (by decide)
    (by simp [twoKeys])
  have hsecond := hentry 2 1 (.inr rfl) (by simp [twoKeys]) (by decide) (by decide)
    (by simp [twoKeys])
  have hlist : candidatesOf L (BitVec.ofNat 256 (newStakingModule defaultStakingConfig).minSelfStake)
      2 0 = [⟨1, minStake⟩, ⟨2, minStake⟩] := by
    simp only [candidatesOf]
    rw [hfirst, show (0 : U64) + 1 = 1 by decide, hsecond]
    rfl
  unfold activeOf
  rw [hlen, show ((2 : U256).setWidth 64).toNat = 2 by decide, hlist,
    List.mergeSort_of_pairwise (by decide)]
  rfl

theorem newValidatorSet_error {vals : List Validator} {err : ValidatorSetError} (hne : vals ≠ [])
    (h : scan (vals.mergeSort fun a b => decide (a.address ≤ b.address)) [] 0 = .error err) :
    newValidatorSet vals = .error err := by
  unfold newValidatorSet
  simp only
  split
  · rename_i hempty
    have hperm := List.mergeSort_perm vals fun a b => decide (a.address ≤ b.address)
    rw [hempty] at hperm
    exact absurd hperm.symm.eq_nil hne
  split
  · rename_i err' herr
    rw [h] at herr
    cases herr
    rfl
  · rename_i total htotal
    rw [h] at htotal
    cases htotal

/-- Two candidates bond the default minimum on a fresh state: both are active, and the rotation fails
at the end of every epoch. -/
theorem default_stakes_overflow :
    ∃ t, bondTwice.run Op.exec (StateDB.new ∅) = .ok ((), t) ∧
      (activeSet (newStakingModule defaultStakingConfig)).run Op.execL t.view =
        .ok ([⟨1, minStake⟩, ⟨2, minStake⟩], t.view) ∧
      ∀ epochLength height, shouldRotateEpoch height epochLength = true →
        (tryRotateValidatorSet ⟨true, newStakingModule defaultStakingConfig, epochLength⟩ height).run
          Op.execL t.view = .ok (.error .powerOverflow, t.view) := by
  have hstart : Shows {k | k ∈ twoKeys} (fun _ => 0) (StateDB.new ∅).view :=
    ⟨_, fun _ _ => rfl, rfl⟩
  obtain ⟨_, L, hrun, hL⟩ := total_bondTwice _ hstart
  obtain ⟨t, hexec, rfl⟩ := StateProgram.run_of_view hrun
  have hactive : (activeSet (newStakingModule defaultStakingConfig)).run Op.execL t.view =
      .ok ([⟨1, minStake⟩, ⟨2, minStake⟩], t.view) := by
    rw [run_activeSet_eq (by decide), activeOf_twoBonded hL]
  refine ⟨t, hexec, hactive, ?_⟩
  intro epochLength height hepoch
  have hentries : ∀ c ∈ [(⟨1, minStake⟩ : Candidate), ⟨2, minStake⟩],
      c.address ≠ 0 ∧ c.votingPower ≠ 0 := by
    decide
  have hset : activeSetToValidatorSet [⟨1, minStake⟩, ⟨2, minStake⟩] = .error .powerOverflow := by
    rw [activeSetToValidatorSet_eq hentries]
    refine newValidatorSet_error (by simp [toValidators]) ?_
    rw [List.mergeSort_of_pairwise (by decide)]
    decide
  rw [run_tryRotate rfl hepoch hactive (List.cons_ne_nil _ _), hset]
  rfl

end TwoCandidates

end Dew.Consensus
