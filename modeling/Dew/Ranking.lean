/-
# The active set as a ranking

`ActiveSet` walks the list of candidates, keeps the entries that are eligible and sorts them. The
list only grows: an account that drops below the minimum loses its flag, keeps its entry, and is
entered once more when it comes back. So every eligible account is in the list, but perhaps more than
once, and then the active set names it as often and pushes others out.
-/
import Dew.EpochSet
import Dew.StakeSolvency
import Mathlib.Data.Finset.Sort

/-- A sorted list with repetitions begins like the sorted list without them just as long as nothing
is repeated; what is repeated in the last place is cut off. -/
theorem List.take_eq_take_iff_count {α : Type} [DecidableEq α] {le : α → α → Prop}
    (hanti : ∀ a b, le a b → le b a → a = b) {r s : List α} (hr : r.Pairwise le) (hnodup : r.Nodup)
    (hs : s.Pairwise le) (hmem : ∀ a, a ∈ s ↔ a ∈ r) (k : ℕ) :
    s.take k = r.take k ↔ ∀ a ∈ r.take (k - 1), s.count a = 1 := by
  induction r generalizing s k with
  | nil =>
      have hnil : s = [] := List.eq_nil_iff_forall_not_mem.mpr fun a ha => by simpa using (hmem a).mp ha
      simp [hnil]
  | cons a r ih =>
      cases s with
      | nil => simpa using (hmem a).mpr List.mem_cons_self
      | cons b t =>
          obtain ⟨hbt, ht⟩ := List.pairwise_cons.mp hs
          obtain ⟨har, hr'⟩ := List.pairwise_cons.mp hr
          obtain ⟨hnot, hnodup'⟩ := List.nodup_cons.mp hnodup
          -- both lists begin with the least element
          obtain rfl : b = a := by
            rcases List.mem_cons.mp ((hmem b).mp List.mem_cons_self) with h | h
            · exact h
            · rcases List.mem_cons.mp ((hmem a).mpr List.mem_cons_self) with h' | h'
              · exact h'.symm
              · exact hanti b a (hbt a h') (har b h)
          rcases k with _ | _ | k
          · simp
          · simp
          rw [List.take_succ_cons, List.take_succ_cons, List.cons_inj_right, Nat.add_sub_cancel,
            List.take_succ_cons, List.forall_mem_cons, List.count_cons_self]
          by_cases hrep : b ∈ t
          · -- a repetition of the least element comes next, where the other list goes on
            have hcount : t.count b + 1 ≠ 1 := by
              have := List.count_pos_iff.mpr hrep
              omega
            refine iff_of_false (fun heq => ?_) fun h => hcount h.1
            obtain ⟨c, t, rfl⟩ := List.exists_cons_of_ne_nil (List.ne_nil_of_mem hrep)
            have hc : b = c := by
              rcases List.mem_cons.mp hrep with h | h
              · exact h
              · exact hanti b c (hbt c List.mem_cons_self) ((List.pairwise_cons.mp ht).1 b h)
            refine hnot (List.mem_of_mem_take (i := k + 1) ?_)
            rw [← heq, List.take_succ_cons, hc]
            exact List.mem_cons_self
          · have hmem' : ∀ a, a ∈ t ↔ a ∈ r := by
              intro a
              by_cases hab : a = b
              · subst hab
                exact iff_of_false hrep hnot
              · simpa [hab] using hmem a
            rw [ih hr' hnodup' ht hmem' (k + 1), Nat.add_sub_cancel, List.count_eq_zero.mpr hrep]
            refine ⟨fun h => ⟨rfl, fun a ha => ?_⟩, fun h a ha => ?_⟩
            · have hab : b ≠ a := fun e => hnot (e ▸ List.mem_of_mem_take ha)
              rw [List.count_cons_of_ne hab, h a ha]
            · have hab : b ≠ a := fun e => hnot (e ▸ List.mem_of_mem_take ha)
              rw [← List.count_cons_of_ne hab, h.2 a ha]

namespace Dew.Staking

/-! ## The ranking -/

/-- What counts for an account: its own stake and the stake delegated to it. -/
def power (B : Words) (a : Address) : ℕ :=
  (B (.self a)).toNat + (weiOf B a (B (.delTot a))).toNat

/-- The account is not jailed and has the minimum stake. -/
def Standing (m : StakingModule) (B : Words) (a : Address) : Prop :=
  B (.jailed a) = 0 ∧ m.minSelfStake ≤ (B (.self a)).toNat

instance (m : StakingModule) (B : Words) : DecidablePred (Standing m B) :=
  fun a => inferInstanceAs (Decidable (B (.jailed a) = 0 ∧ m.minSelfStake ≤ (B (.self a)).toNat))

/-- More power first, the lower address first among equals. -/
def Ahead (B : Words) (a b : Address) : Prop :=
  power B b < power B a ∨ power B a = power B b ∧ a.toNat ≤ b.toNat

instance (B : Words) : DecidableRel (Ahead B) :=
  fun a b => inferInstanceAs
    (Decidable (power B b < power B a ∨ power B a = power B b ∧ a.toNat ≤ b.toNat))

theorem Ahead.antisymm {B : Words} (a b : Address) (h : Ahead B a b) (h' : Ahead B b a) : a = b := by
  unfold Ahead at h h'
  exact BitVec.eq_of_toNat_eq (by omega)

theorem Ahead.trans {B : Words} {a b c : Address} (h : Ahead B a b) (h' : Ahead B b c) :
    Ahead B a c := by
  unfold Ahead at *
  omega

theorem Ahead.total {B : Words} (a b : Address) : Ahead B a b ∨ Ahead B b a := by
  unfold Ahead
  omega

instance (B : Words) : IsTrans Address (Ahead B) := ⟨fun _ _ _ => Ahead.trans⟩
instance (B : Words) : Std.Antisymm (Ahead B) := ⟨Ahead.antisymm⟩
instance (B : Words) : Std.Total (Ahead B) := ⟨Ahead.total⟩

/-- The accounts that may be active, in the order of their power. -/
def ranking (m : StakingModule) (V : Finset Address) (B : Words) : List Address :=
  (V.filter (Standing m B)).sort (Ahead B)

theorem mem_ranking {m : StakingModule} {V : Finset Address} {B : Words} {a : Address} :
    a ∈ ranking m V B ↔ a ∈ V ∧ Standing m B a := by
  rw [ranking, Finset.mem_sort, Finset.mem_filter]

theorem pairwise_ranking (m : StakingModule) (V : Finset Address) (B : Words) :
    (ranking m V B).Pairwise (Ahead B) :=
  Finset.pairwise_sort _ _

theorem nodup_ranking (m : StakingModule) (V : Finset Address) (B : Words) : (ranking m V B).Nodup :=
  Finset.sort_nodup _ _

/-- The list of candidates as the words hold it. -/
def roster (B : Words) : List Address :=
  (List.range ((B .len).setWidth 64 : U64).toNat).map fun i =>
    (B (.idx (BitVec.ofNat 64 i))).setWidth 160

/-! ## What decides about the list -/

/-- The words that the list of candidates and the eligibility of its entries depend on, delegation
apart. -/
def Key.Listed : Key → Prop
  | .self _ | .jailed _ | .cand _ | .len | .idx _ => True
  | _ => False

/-- The words of the list are the same. -/
def SameList (B B' : Words) : Prop :=
  ∀ k : Key, k.Listed → B' k = B k

theorem SameList.refl (B : Words) : SameList B B := fun _ _ => rfl

theorem SameList.update {B B' : Words} (h : SameList B B') {k : Key} (hk : ¬k.Listed) (v : U256) :
    SameList B (Function.update B' k v) := by
  intro j hj
  rw [Function.update_of_ne (by rintro rfl; exact hk hj)]
  exact h j hj

theorem SameList.settled {B B' : Words} (h : SameList B B') (v d : Address) :
    SameList B (settled B' v d) := by
  unfold Staking.settled
  dsimp only
  split
  · exact (h.update id _).update id _
  · exact h.update id _

theorem SameList.withShares {B B' : Words} (h : SameList B B') (v d : Address) (x y : U256) :
    SameList B (withShares B' v d x y) :=
  ((h.update id _).update id _).update id _

theorem sameList_delegated (B : Words) (v d : Address) (amount : U256) :
    SameList B (delegated B v d amount).2 := by
  have hset := (SameList.refl B).settled v d
  unfold delegated
  split
  · exact .refl B
  split
  · exact .refl B
  dsimp only
  split
  · exact hset
  · exact hset.withShares v d _ _

theorem sameList_undelegated (m : StakingModule) (B : Words) (v d : Address) (amount : U256)
    (now : U64) : SameList B (undelegated m B v d amount now).2 := by
  have hset := (SameList.refl B).settled v d
  unfold undelegated
  split
  · exact .refl B
  dsimp only
  split
  · exact hset
  split
  · exact hset
  generalize (if settled B v d (.del v d) < _ then settled B v d (.del v d) else _) = sub
  split
  · exact hset.update (k := .del v d) id _
  · exact ((hset.withShares v d _ _).update (k := .delUnbondAmt v d) id _).update
      (k := .delUnbondAt v d) id _

theorem sameList_released (B : Words) {amt time : Key} (hamt : ¬amt.Listed) (htime : ¬time.Listed)
    (now : U64) (none : StakingError) (early : U64 → U64 → StakingError) :
    SameList B (released B amt time now none early).2 := by
  rcases released_cases B amt time now none early with ⟨e, h⟩ | h
  · rw [h]
    exact .refl B
  · rw [h]
    exact ((SameList.refl B).update hamt _).update htime _

theorem roster_congr {B B' : Words} (hlen : B' .len = B .len) (hidx : ∀ i, B' (.idx i) = B (.idx i)) :
    roster B' = roster B := by
  simp only [roster, hlen, hidx]

/-! ## The list through a history -/

/-- Every standing account has its flag, every flag has its entry, and all entries are accounts that
have taken part. -/
structure Enrolled (m : StakingModule) (V : Finset Address) (B : Words) : Prop where
  flag : ∀ a ∈ V, Standing m B a → B (.cand a) ≠ 0
  entry : ∀ a ∈ V, B (.cand a) ≠ 0 → a ∈ roster B
  known : ∀ a ∈ roster B, a ∈ V

section Enrolled

variable {m : StakingModule} {V : Finset Address} {B B' : Words} {a : Address}

theorem Enrolled.congr (h : Enrolled m V B) (hsame : SameList B B') : Enrolled m V B' := by
  have hroster : roster B' = roster B :=
    roster_congr (hsame .len trivial) fun i => hsame (.idx i) trivial
  refine ⟨fun a ha hs => ?_, fun a ha hc => ?_, fun a ha => h.known a (hroster ▸ ha)⟩
  · rw [hsame (.cand a) trivial]
    refine h.flag a ha ?_
    rwa [Standing, hsame (.jailed a) trivial, hsame (.self a) trivial] at hs
  · rw [hsame (.cand a) trivial] at hc
    rw [hroster]
    exact h.entry a ha hc

/-- A change of the flag, the stake and the jail of one account. -/
theorem Enrolled.change (h : Enrolled m V B) (hlen : B' .len = B .len)
    (hidx : ∀ i, B' (.idx i) = B (.idx i))
    (hothers : ∀ b, b ≠ a → B' (.self b) = B (.self b) ∧ B' (.jailed b) = B (.jailed b) ∧
      B' (.cand b) = B (.cand b))
    (hflag : Standing m B' a → B' (.cand a) ≠ 0) (hentry : B' (.cand a) ≠ 0 → B (.cand a) ≠ 0) :
    Enrolled m V B' := by
  have hroster : roster B' = roster B := roster_congr hlen hidx
  refine ⟨fun b hb hs => ?_, fun b hb hc => ?_, fun b hb => h.known b (hroster ▸ hb)⟩
  · by_cases hba : b = a
    · subst hba
      exact hflag hs
    · obtain ⟨hself, hjailed, hcand⟩ := hothers b hba
      rw [hcand]
      refine h.flag b hb ?_
      rwa [Standing, hself, hjailed] at hs
  · rw [hroster]
    refine h.entry b hb ?_
    by_cases hba : b = a
    · subst hba
      exact hentry hc
    · rwa [← (hothers b hba).2.2]

/-- A new entry is the last one. -/
theorem roster_registered (B : Words) (a : Address)
    (hlen : ((B .len).setWidth 64 : U64).toNat + 1 < 2 ^ 64) :
    roster (registered B a) = roster B ++ [a] := by
  have hnew : (((registered B a) .len).setWidth 64 : U64).toNat =
      ((B .len).setWidth 64 : U64).toNat + 1 := by
    simp only [registered, Function.update_self]
    rw [BitVec.setWidth_setWidth_of_le _ (by decide), BitVec.setWidth_eq, BitVec.toNat_add]
    exact Nat.mod_eq_of_lt hlen
  have hlast : registered B a (.idx ((B .len).setWidth 64)) = a.setWidth 256 := by
    unfold registered
    rw [Function.update_of_ne (by rintro ⟨⟩), Function.update_self]
  have hold : ∀ i < ((B .len).setWidth 64 : U64).toNat,
      registered B a (.idx (BitVec.ofNat 64 i)) = B (.idx (BitVec.ofNat 64 i)) := by
    intro i hi
    have hne : BitVec.ofNat 64 i ≠ (B .len).setWidth 64 := by
      intro h
      have hnat := congrArg BitVec.toNat h
      rw [BitVec.toNat_ofNat, Nat.mod_eq_of_lt (by omega)] at hnat
      omega
    unfold registered
    rw [Function.update_of_ne (by rintro ⟨⟩), Function.update_of_ne (by simpa using hne),
      Function.update_of_ne (by rintro ⟨⟩)]
  unfold roster
  rw [hnew, List.range_succ, List.map_append, List.map_singleton, BitVec.ofNat_toNat,
    BitVec.setWidth_eq, hlast, BitVec.setWidth_setWidth_of_le _ (by decide), BitVec.setWidth_eq]
  congr 1
  exact List.map_congr_left fun i hi => by rw [hold i (List.mem_range.mp hi)]

theorem Enrolled.register (h : Enrolled m V B) (ha : a ∈ V)
    (hlen : ((B .len).setWidth 64 : U64).toNat + 1 < 2 ^ 64) : Enrolled m V (registered B a) := by
  have hroster := roster_registered B a hlen
  have hcand : ∀ b, registered B a (.cand b) = if b = a then 1 else B (.cand b) := by
    intro b
    unfold registered
    rw [Function.update_of_ne (by rintro ⟨⟩), Function.update_of_ne (by rintro ⟨⟩)]
    by_cases hba : b = a
    · rw [hba, if_pos rfl, Function.update_self]
    · rw [if_neg hba, Function.update_of_ne (by simpa using hba)]
  have hkeep : ∀ k : Key, k ≠ .len → (∀ i, k ≠ .idx i) → k ≠ .cand a → registered B a k = B k := by
    intro k hk hi hc
    unfold registered
    rw [Function.update_of_ne hk, Function.update_of_ne (hi _), Function.update_of_ne hc]
  refine ⟨fun b hb hs => ?_, fun b hb hc => ?_, fun b hb => ?_⟩
  · rw [hcand]
    split
    · decide
    · refine h.flag b hb ?_
      rwa [Standing, hkeep _ (by rintro ⟨⟩) (by rintro _ ⟨⟩) (by rintro ⟨⟩),
        hkeep _ (by rintro ⟨⟩) (by rintro _ ⟨⟩) (by rintro ⟨⟩)] at hs
  · rw [hroster, List.mem_append, List.mem_singleton]
    by_cases hba : b = a
    · exact .inr hba
    · rw [hcand, if_neg hba] at hc
      exact .inl (h.entry b hb hc)
  · rw [hroster, List.mem_append, List.mem_singleton] at hb
    rcases hb with hb | rfl
    · exact h.known b hb
    · exact ha

/-- A stake of an account that has its flag, or a stake below the minimum. -/
theorem Enrolled.stake (h : Enrolled m V B) {x : U256}
    (hcase : B (.cand a) ≠ 0 ∨ x.toNat < m.minSelfStake) :
    Enrolled m V (Function.update B (.self a) x) := by
  refine h.change (a := a) (Function.update_of_ne (by rintro ⟨⟩) _ _)
    (fun i => Function.update_of_ne (by rintro ⟨⟩) _ _) (fun b hb => ?_) (fun hs => ?_) ?_
  · rw [Function.update_of_ne (by simpa using hb), Function.update_of_ne (by rintro ⟨⟩),
      Function.update_of_ne (by rintro ⟨⟩)]
    exact ⟨rfl, rfl, rfl⟩
  · have hle := hs.2
    rw [Function.update_self] at hle
    rw [Function.update_of_ne (by rintro ⟨⟩)]
    exact hcase.resolve_right (by omega)
  · rw [Function.update_of_ne (by rintro ⟨⟩)]
    exact id

/-- The flag of an account that does not stand is dropped. -/
theorem Enrolled.drop (h : Enrolled m V B) (hlow : ¬Standing m B a) :
    Enrolled m V (Function.update B (.cand a) 0) := by
  refine h.change (a := a) (Function.update_of_ne (by rintro ⟨⟩) _ _)
    (fun i => Function.update_of_ne (by rintro ⟨⟩) _ _) (fun b hb => ?_) (fun hs => ?_) (fun hc => ?_)
  · rw [Function.update_of_ne (by rintro ⟨⟩), Function.update_of_ne (by rintro ⟨⟩),
      Function.update_of_ne (by simpa using hb)]
    exact ⟨rfl, rfl, rfl⟩
  · rw [Standing, Function.update_of_ne (by rintro ⟨⟩), Function.update_of_ne (by rintro ⟨⟩)] at hs
    exact absurd hs hlow
  · rw [Function.update_self] at hc
    exact absurd rfl hc

theorem registered_update_self (B : Words) (a : Address) (x : U256) :
    registered (Function.update B (.self a) x) a = Function.update (registered B a) (.self a) x := by
  unfold registered
  dsimp only
  rw [Function.update_of_ne (show Key.len ≠ .self a by rintro ⟨⟩),
    Function.update_comm (show Key.self a ≠ .cand a by rintro ⟨⟩),
    Function.update_comm (show Key.self a ≠ .idx _ by rintro ⟨⟩),
    Function.update_comm (show Key.self a ≠ .len by rintro ⟨⟩)]

theorem Enrolled.bond (h : Enrolled m V B) (hmin : m.minSelfStake < 2 ^ 256) (ha : a ∈ V)
    (hlen : ((B .len).setWidth 64 : U64).toNat + 1 < 2 ^ 64) (amount : U256) :
    Enrolled m V (bonded m B a amount).2 := by
  have hmin' : (BitVec.ofNat 256 m.minSelfStake).toNat = m.minSelfStake := by
    rw [BitVec.toNat_ofNat, Nat.mod_eq_of_lt hmin]
  unfold bonded
  split
  · exact h
  dsimp only
  rw [Function.update_of_ne (show Key.cand a ≠ .self a by rintro ⟨⟩)]
  split
  · -- entered before or after the stake is written, it is the same list
    rw [registered_update_self]
    refine (h.register ha hlen).stake (.inl ?_)
    unfold registered
    rw [Function.update_of_ne (by rintro ⟨⟩), Function.update_of_ne (by rintro ⟨⟩),
      Function.update_self]
    decide
  · rename_i hno
    refine h.stake ?_
    rw [not_and_or, BitVec.not_le, BitVec.lt_def, hmin'] at hno
    exact hno.symm

theorem Enrolled.unbond (h : Enrolled m V B) (hmin : m.minSelfStake < 2 ^ 256) (ha : a ∈ V)
    (amount : U256) (now : U64) : Enrolled m V (unbonded m B a amount now).2 := by
  have hmin' : (BitVec.ofNat 256 m.minSelfStake).toNat = m.minSelfStake := by
    rw [BitVec.toNat_ofNat, Nat.mod_eq_of_lt hmin]
  unfold unbonded
  split
  · exact h
  split
  · exact h
  rename_i hfree
  split
  · exact h
  rename_i hcovered
  dsimp only
  have hsub : (B (.self a) - amount).toNat = (B (.self a)).toNat - amount.toNat :=
    BitVec.toNat_sub_of_le (BitVec.not_lt.mp hcovered)
  refine Enrolled.congr ?_ (((SameList.refl _).update (k := .unbondAmt a) id _).update
    (k := .unbondAt a) id _)
  split
  · rename_i hlow
    rw [BitVec.lt_def, hmin'] at hlow
    refine (h.stake (.inr hlow)).drop fun hs => ?_
    have hle := hs.2
    rw [Function.update_self] at hle
    omega
  · rename_i henough
    rw [BitVec.lt_def, hmin'] at henough
    refine h.stake (.inl (h.flag a ha ⟨not_not.mp hfree, ?_⟩))
    omega

theorem burnt_of_ne {v : Address} {k : Key} (hself : k ≠ .self v) (hrate : k ≠ .delRate v) :
    burnt B v k = B k := by
  have hstake : (if selfBurn B v ≠ 0 then
      Function.update B (.self v) (B (.self v) - selfBurn B v) else B) k = B k := by
    split
    · exact Function.update_of_ne hself _ _
    · rfl
  unfold burnt
  split
  · exact (Function.update_of_ne hrate _ _).trans hstake
  · exact hstake

theorem Enrolled.slash (h : Enrolled m V B) (v : Address) (b : U256) :
    Enrolled m V (slashed B v b).2 := by
  unfold slashed
  split
  · exact h
  dsimp only
  have hkeep : ∀ k : Key, k ≠ .cand v → k ≠ .jailed v → k ≠ .self v → k ≠ .delRate v →
      Function.update (Function.update (burnt B v) (.jailed v) 1) (.cand v) 0 k = B k := by
    intro k hc hj hs hr
    rw [Function.update_of_ne hc, Function.update_of_ne hj, burnt_of_ne hs hr]
  refine h.change (a := v) (hkeep _ (by rintro ⟨⟩) (by rintro ⟨⟩) (by rintro ⟨⟩) (by rintro ⟨⟩))
    (fun i => hkeep _ (by rintro ⟨⟩) (by rintro ⟨⟩) (by rintro ⟨⟩) (by rintro ⟨⟩)) (fun b hb => ?_)
    (fun hs => ?_) (fun hc => ?_)
  · exact ⟨hkeep _ (by rintro ⟨⟩) (by rintro ⟨⟩) (by simpa using hb) (by rintro ⟨⟩),
      hkeep _ (by rintro ⟨⟩) (by simpa using hb) (by rintro ⟨⟩) (by rintro ⟨⟩),
      hkeep _ (by simpa using hb) (by rintro ⟨⟩) (by rintro ⟨⟩) (by rintro ⟨⟩)⟩
  · have hjailed := hs.1
    rw [Function.update_of_ne (by rintro ⟨⟩), Function.update_self] at hjailed
    exact absurd hjailed (by decide)
  · rw [Function.update_self] at hc
    exact absurd rfl hc

/-- In a fresh module nobody stands. -/
theorem enrolled_fresh (hpos : 0 < m.minSelfStake) : Enrolled m V fun _ => 0 := by
  refine ⟨fun a _ hs => ?_, fun a _ hc => absurd rfl hc, fun a ha => ?_⟩
  · exact absurd hpos (not_lt.mpr hs.2)
  · cases ha

/-- What one call preserves. -/
theorem Enrolled.step {D : Finset Address} {S : Books} (h : Enrolled m V S.words)
    (hmin : m.minSelfStake < 2 ^ 256) {op : StakeOp} (hop : op.By V D)
    (hlen : ((S.words .len).setWidth 64 : U64).toNat + 1 < 2 ^ 64) :
    Enrolled m V (op.next m S).2.words := by
  have hplain : ∀ r, (S.plain r).2.words = r.2 := by
    intro r
    unfold Books.plain
    split <;> rfl
  have hdeposit : ∀ x r, (S.deposit x r).2.words = r.2 := by
    intro x r
    unfold Books.deposit
    split <;> rfl
  have hpayment : ∀ a r, (S.payment a r).2.words = r.2 := by
    intro a r
    unfold Books.payment
    split
    · rfl
    · split <;> rfl
  cases op with
  | bond a amount =>
      rw [StakeOp.next, hdeposit]
      exact h.bond hmin hop hlen amount
  | unbond a amount now =>
      rw [StakeOp.next, hplain]
      exact h.unbond hmin hop amount now
  | withdraw a now =>
      rw [StakeOp.next, hpayment]
      exact h.congr (sameList_released S.words id id now _ _)
  | delegate v d amount =>
      rw [StakeOp.next, hdeposit]
      exact h.congr (sameList_delegated S.words v d amount)
  | undelegate v d amount now =>
      rw [StakeOp.next, hplain]
      exact h.congr (sameList_undelegated m S.words v d amount now)
  | withdrawDelegation v d now =>
      rw [StakeOp.next, hpayment]
      exact h.congr (sameList_released S.words id id now _ _)
  | slash v => exact h.slash v S.escrow

/-- What a history preserves. -/
theorem Enrolled.history {D : Finset Address} {S : Books} {ops : List StakeOp}
    (h : Enrolled m V S.words) (hmin : m.minSelfStake < 2 ^ 256) (hops : ∀ op ∈ ops, op.By V D)
    (hlen : ((S.words .len).setWidth 64 : U64).toNat + ops.length < 2 ^ 64) :
    Enrolled m V (settleBooks m ops S).2.words ∧
      (((settleBooks m ops S).2.words .len).setWidth 64 : U64).toNat ≤
        ((S.words .len).setWidth 64 : U64).toNat + ops.length := by
  induction ops generalizing S with
  | nil => exact ⟨h, le_rfl⟩
  | cons op ops ih =>
      rw [List.length_cons] at hlen ⊢
      have hnext := toNat_len_next m S op
      obtain ⟨hend, hle⟩ := ih (h.step hmin (hops op List.mem_cons_self) (by omega))
        (fun o ho => hops o (List.mem_cons_of_mem _ ho)) (by omega)
      exact ⟨hend, hle.trans (by omega)⟩

end Enrolled

/-! ## The active set of an enrolled list -/

section Active

open Consensus

variable {m : StakingModule} {V D : Finset Address} {n : ℕ} {B : Words} {L : Ledger}

/-- The candidate for an account. -/
def candidateOf (B : Words) (a : Address) : Candidate :=
  ⟨a, B (.self a) + weiOf B a (B (.delTot a))⟩

theorem before_iff (c d : Candidate) :
    c.before d = true ↔ d.votingPower.toNat < c.votingPower.toNat ∨
      c.votingPower.toNat = d.votingPower.toNat ∧ c.address.toNat ≤ d.address.toNat := by
  unfold Candidate.before
  by_cases heq : c.votingPower = d.votingPower
  · rw [if_pos heq, decide_eq_true_iff, BitVec.le_def, heq]
    omega
  · have hne : c.votingPower.toNat ≠ d.votingPower.toNat :=
      fun h => heq (BitVec.eq_of_toNat_eq h)
    rw [if_neg heq, decide_eq_true_iff, BitVec.lt_def]
    omega

/-- The sum of own and delegated stake of every standing account fits into a word. -/
def PowersFit (m : StakingModule) (V : Finset Address) (B : Words) : Prop :=
  ∀ a ∈ V, Standing m B a → power B a < 2 ^ 256

theorem toNat_votingPower (hfit : PowersFit m V B) {a : Address} (ha : a ∈ V)
    (hs : Standing m B a) : (candidateOf B a).votingPower.toNat = power B a := by
  have := hfit a ha hs
  unfold power at this
  rw [candidateOf, toNat_add_of_lt this, power]

theorem delegatedOf_eq (hword : ∀ k ∈ stakeKeys V D n, word L k.slot = B k) {a : Address}
    (ha : a ∈ V) : delegatedOf L a = weiOf B a (B (.delTot a)) := by
  have htot : word L (delTotSlot a) = B (.delTot a) := hword (.delTot a) ha
  have hrate : word L (delRateSlot a) = B (.delRate a) := hword (.delRate a) ha
  rw [delegatedOf, rateOf, htot, hrate, weiOf, rate]

/-- The entry of an enrolled account counts just if the account stands. -/
theorem eligibleOf_eq (hword : ∀ k ∈ stakeKeys V D n, word L k.slot = B k)
    (hmin : m.minSelfStake < 2 ^ 256) (hpos : 0 < m.minSelfStake) (hzero : 0 ∉ V)
    (henrolled : Enrolled m V B) (hfit : PowersFit m V B) {i : U64} (hi : i.toNat < n) {a : Address}
    (hentry : (B (.idx i)).setWidth 160 = a) (ha : a ∈ V) :
    eligibleOf L (BitVec.ofNat 256 m.minSelfStake) i =
      if Standing m B a then some (candidateOf B a) else none := by
  have hmin' : (BitVec.ofNat 256 m.minSelfStake).toNat = m.minSelfStake := by
    rw [BitVec.toNat_ofNat, Nat.mod_eq_of_lt hmin]
  have hidx : word L (idxSlot i) = B (.idx i) := hword (.idx i) hi
  have hcand : word L (candSlot a) = B (.cand a) := hword (.cand a) ha
  have hjailed : word L (jailedSlot a) = B (.jailed a) := hword (.jailed a) ha
  have hself : word L (selfSlot a) = B (.self a) := hword (.self a) ha
  unfold eligibleOf
  dsimp only
  rw [hidx, hentry, hcand, hjailed, hself, delegatedOf_eq hword ha]
  by_cases hs : Standing m B a
  · have hpower : B (.self a) + weiOf B a (B (.delTot a)) ≠ 0 := by
      intro h
      have hnat : (B (.self a) + weiOf B a (B (.delTot a))).toNat = power B a :=
        toNat_votingPower hfit ha hs
      rw [h] at hnat
      have hself_pos := hs.2
      unfold power at hnat
      have hz : (0 : U256).toNat = 0 := rfl
      omega
    rw [if_pos hs, if_neg, if_neg hpower]
    · rfl
    · rintro (h | h | h | h)
      · exact hzero (h ▸ ha)
      · exact henrolled.flag a ha hs h
      · exact h hs.1
      · rw [BitVec.lt_def, hmin'] at h
        have := hs.2
        omega
  · rw [if_neg hs, if_pos]
    by_contra hno
    simp only [not_or, not_not] at hno
    refine hs ⟨hno.2.2.1, ?_⟩
    rw [BitVec.lt_def, hmin'] at hno
    omega

/-- The eligible entries are the entries of the standing accounts. -/
theorem candidatesOf_eq (hword : ∀ k ∈ stakeKeys V D n, word L k.slot = B k)
    (hmin : m.minSelfStake < 2 ^ 256) (hpos : 0 < m.minSelfStake) (hzero : 0 ∉ V)
    (henrolled : Enrolled m V B) (hfit : PowersFit m V B)
    (hlen : ((B .len).setWidth 64 : U64).toNat ≤ n) :
    candidatesOf L (BitVec.ofNat 256 m.minSelfStake) ((B .len).setWidth 64 : U64).toNat 0 =
      ((roster B).filter (Standing m B)).map (candidateOf B) := by
  have hfrom : ∀ k j, j + k = ((B .len).setWidth 64 : U64).toNat →
      candidatesOf L (BitVec.ofNat 256 m.minSelfStake) k (BitVec.ofNat 64 j) =
        (((List.range' j k).map fun i => (B (.idx (BitVec.ofNat 64 i))).setWidth 160).filter
          (Standing m B)).map (candidateOf B) := by
    intro k
    induction k with
    | zero => exact fun _ _ => rfl
    | succ k ih =>
        intro j hj
        have hj64 : (BitVec.ofNat 64 j).toNat = j := by
          rw [BitVec.toNat_ofNat, Nat.mod_eq_of_lt (by omega)]
        have hmem : (B (.idx (BitVec.ofNat 64 j))).setWidth 160 ∈ V := by
          refine henrolled.known _ (List.mem_map.mpr ⟨j, ?_, rfl⟩)
          exact List.mem_range.mpr (by omega)
        have hhead := eligibleOf_eq hword hmin hpos hzero henrolled hfit
          (i := BitVec.ofNat 64 j) (by omega) rfl hmem
        have hstep : BitVec.ofNat 64 j + 1 = BitVec.ofNat 64 (j + 1) := BitVec.ofNat_add_ofNat ..
        unfold candidatesOf
        rw [hhead, hstep, ih (j + 1) (by omega), List.range'_succ, List.map_cons]
        by_cases hs : Standing m B ((B (.idx (BitVec.ofNat 64 j))).setWidth 160)
        · rw [if_pos hs, List.filter_cons_of_pos (by simpa using hs), List.map_cons]
          rfl
        · rw [if_neg hs, List.filter_cons_of_neg (by simpa using hs)]
          rfl
  have hall := hfrom _ 0 (Nat.zero_add _)
  rwa [← List.range_eq_range'] at hall

/-- The addresses of the active set: the entries of the standing accounts, in order, up to the cap. -/
theorem addresses_activeOf (hword : ∀ k ∈ stakeKeys V D n, word L k.slot = B k)
    (hmin : m.minSelfStake < 2 ^ 256) (hpos : 0 < m.minSelfStake) (hzero : 0 ∉ V)
    (henrolled : Enrolled m V B) (hfit : PowersFit m V B)
    (hlen : ((B .len).setWidth 64 : U64).toNat ≤ n) :
    (activeOf m L).map Candidate.address =
      (((roster B).filter (Standing m B)).mergeSort fun a b => decide (Ahead B a b)).take
        m.activeCap.toNat := by
  have hlenword : word L lenSlot = B .len := hword .len trivial
  have horder : ∀ a ∈ (roster B).filter (Standing m B), ∀ b ∈ (roster B).filter (Standing m B),
      decide (Ahead B a b) = (candidateOf B a).before (candidateOf B b) := by
    intro a ha b hb
    obtain ⟨ha, hsa⟩ := List.mem_filter.mp ha
    obtain ⟨hb, hsb⟩ := List.mem_filter.mp hb
    have hpa := toNat_votingPower hfit (henrolled.known a ha) (by simpa using hsa)
    have hpb := toNat_votingPower hfit (henrolled.known b hb) (by simpa using hsb)
    rw [Bool.eq_iff_iff, decide_eq_true_iff, before_iff, hpa, hpb]
    rfl
  unfold activeOf
  rw [hlenword, candidatesOf_eq hword hmin hpos hzero henrolled hfit hlen,
    ← List.map_mergeSort horder, List.map_take, List.map_map]
  have hid : Candidate.address ∘ candidateOf B = id := rfl
  rw [hid, List.map_id]

/-- After any history from a fresh module the active set lists the first accounts of the ranking, up
to the cap, exactly if those before the last place are in the list of candidates once. -/
theorem activeSet_ranking_iff (m : StakingModule) (V D : Finset Address) (ops : List StakeOp)
    (s : StateDB) (hmin : m.minSelfStake < 2 ^ 256) (hpos : 0 < m.minSelfStake) (hzero : 0 ∉ V)
    (hops : ∀ op ∈ ops, op.By V D) (hcount : ops.length < 2 ^ 64)
    (hinj : Set.InjOn Key.slot (stakeKeys V D ops.length))
    (hfresh : ∀ k ∈ stakeKeys V D ops.length, wordsOf s.view k = 0)
    (hstanding : stakingModuleAddr ∉ s.suicides) :
    let B := (settleBooks m ops ⟨fun _ => 0, s.view.balance stakingModuleAddr⟩).2.words
    PowersFit m V B →
    ∃ outcomes t active u, (stakeHistory m ops).run Op.exec s = .ok (outcomes, t) ∧
      (∀ k ∈ stakeKeys V D ops.length, wordsOf t.view k = B k) ∧
      (activeSet m).run Op.exec t = .ok (active, u) ∧
      (active.map Candidate.address = (ranking m V B).take m.activeCap.toNat ↔
        ∀ a ∈ (ranking m V B).take (m.activeCap.toNat - 1), (roster B).count a = 1) := by
  intro B hfit
  have hshown : Books.Shown (stakeKeys V D ops.length)
      ⟨fun _ => 0, s.view.balance stakingModuleAddr⟩ s.view := ⟨hfresh, rfl, hstanding⟩
  have hlen : ((0 : U256).setWidth 64 : U64).toNat + ops.length = ops.length := Nat.zero_add _
  obtain ⟨outcomes, L, hrun, -, hL⟩ := total_stakeHistory hmin hinj hops hlen.le s.view hshown
  obtain ⟨t, hexec, rfl⟩ := StateProgram.run_of_view hrun
  obtain ⟨hend, hle⟩ := (enrolled_fresh (V := V) hpos).history (S := ⟨fun _ => 0, s.view.balance stakingModuleAddr⟩) hmin hops
    (by rw [hlen]; exact hcount)
  rw [hlen] at hle
  have hword : ∀ k ∈ stakeKeys V D ops.length, word t.view k.slot = B k := hL.word
  obtain ⟨u, hactive, -⟩ := StateProgram.run_of_view (run_activeSet_eq hmin t.view)
  refine ⟨outcomes, t, _, u, hexec, hword, hactive, ?_⟩
  rw [addresses_activeOf hword hmin hpos hzero hend hfit hle]
  -- both lists are sorted and have the standing accounts as their members
  have hsorted := List.pairwise_mergeSort' (Ahead B) ((roster B).filter (Standing m B))
  have hmem : ∀ a, a ∈ ((roster B).filter (Standing m B)).mergeSort (fun a b => decide (Ahead B a b)) ↔
      a ∈ ranking m V B := by
    intro a
    rw [List.mem_mergeSort, List.mem_filter, mem_ranking, decide_eq_true_iff]
    refine and_congr_left fun hs => ⟨hend.known a, fun ha => ?_⟩
    exact hend.entry a ha (hend.flag a ha hs)
  rw [List.take_eq_take_iff_count Ahead.antisymm (pairwise_ranking m V B) (nodup_ranking m V B)
    hsorted hmem]
  refine forall₂_congr fun a ha => ?_
  have hs : Standing m B a := (mem_ranking.mp (List.mem_of_mem_take ha)).2
  rw [(List.mergeSort_perm _ _).count_eq, List.count_filter (by simpa using hs)]

/-! ### One account that comes back -/

theorem powersFit_nine {m : StakingModule} {B : Words} (h : power B 9 < 2 ^ 256) :
    PowersFit m {9} B := by
  intro a ha _
  obtain rfl := Finset.mem_singleton.mp ha
  exact h

/-- An account that bonds the default minimum is the ranking. -/
theorem sole_account_ranked :
    ∃ outcomes t active u, (stakeHistory (newStakingModule defaultStakingConfig)
        [.bond 9 minStake]).run Op.exec (StateDB.new ∅) = .ok (outcomes, t) ∧
      (activeSet (newStakingModule defaultStakingConfig)).run Op.exec t = .ok (active, u) ∧
      active.map Candidate.address = (ranking (newStakingModule defaultStakingConfig) {9}
        (settleBooks (newStakingModule defaultStakingConfig) [.bond 9 minStake]
          ⟨fun _ => 0, (StateDB.new ∅).view.balance stakingModuleAddr⟩).2.words).take 100 := by
  have hranked := activeSet_ranking_iff (newStakingModule defaultStakingConfig) {9} {7}
    [.bond 9 minStake] (StateDB.new ∅) (by decide) (by decide) (by decide) (by simp [StakeOp.By])
    (by decide) (soloKeys_injOn (by decide)) (fun _ _ => rfl) List.not_mem_nil
    (powersFit_nine (by decide))
  obtain ⟨outcomes, t, active, u, hrun, -, hactive, hiff⟩ := hranked
  refine ⟨outcomes, t, active, u, hrun, hactive, hiff.mpr fun a ha => ?_⟩
  obtain rfl := Finset.mem_singleton.mp (mem_ranking.mp (List.mem_of_mem_take ha)).1
  decide

/-- The account takes one unit out, which drops it from the candidates, and puts it back. -/
def rebonding : List StakeOp :=
  [.bond 9 minStake, .unbond 9 1 0, .bond 9 1]

theorem rebonding_listed_twice :
    ∃ outcomes t active u, (stakeHistory (newStakingModule defaultStakingConfig) rebonding).run
        Op.exec (StateDB.new ∅) = .ok (outcomes, t) ∧
      (activeSet (newStakingModule defaultStakingConfig)).run Op.exec t = .ok (active, u) ∧
      active.map Candidate.address = [9, 9] := by
  have hshown : Books.Shown (stakeKeys {9} {7} 3) ⟨fun _ => 0, 0⟩ (StateDB.new ∅).view :=
    ⟨fun _ _ => rfl, rfl, List.not_mem_nil⟩
  have hby : ∀ op ∈ rebonding, op.By {9} {7} := by simp [rebonding, StakeOp.By]
  obtain ⟨outcomes, L, hrun, -, hL⟩ := total_stakeHistory (m := newStakingModule defaultStakingConfig)
    (by decide) (soloKeys_injOn (by decide)) hby (by decide) _ hshown
  obtain ⟨t, hexec, rfl⟩ := StateProgram.run_of_view hrun
  have hstart : Enrolled (newStakingModule defaultStakingConfig) {9} fun _ => 0 :=
    enrolled_fresh (by decide)
  obtain ⟨hend, hle⟩ := hstart.history (S := ⟨fun _ => 0, 0⟩) (by decide) hby (by decide)
  obtain ⟨u, hactive, -⟩ := StateProgram.run_of_view
    (run_activeSet_eq (m := newStakingModule defaultStakingConfig) (by decide) t.view)
  refine ⟨outcomes, t, _, u, hexec, hactive, ?_⟩
  rw [addresses_activeOf hL.word (by decide) (by decide) (by decide) hend
    (powersFit_nine (by decide)) hle]
  have hentries : (roster (settleBooks (newStakingModule defaultStakingConfig) rebonding
      ⟨fun _ => 0, 0⟩).2.words).filter (Standing (newStakingModule defaultStakingConfig)
        (settleBooks (newStakingModule defaultStakingConfig) rebonding ⟨fun _ => 0, 0⟩).2.words) =
      [9, 9] := by
    decide
  rw [hentries, List.mergeSort_of_pairwise (by decide)]
  rfl

end Active

end Dew.Staking
