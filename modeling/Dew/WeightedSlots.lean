/-
# Slots of given weights

Consecutive blocks of slots, one block for each entry of a list of weights: `slotOf` finds the block
of a slot. Every block is as long as its weight, and so is its share of any window of consecutive
numbers that is as long as all blocks together (`card_window`).
-/
import Mathlib.Algebra.BigOperators.Group.List.Basic
import Mathlib.Data.Nat.Periodic

namespace WeightedSlots

/-- The block of a slot, if there is one. -/
def slotOf : List ℕ → ℕ → Option ℕ
  | [], _ => none
  | w :: ws, x => if x < w then some 0 else (slotOf ws (x - w)).map (· + 1)

theorem slotOf_isSome_iff {ws : List ℕ} {x : ℕ} : (slotOf ws x).isSome ↔ x < ws.sum := by
  induction ws generalizing x with
  | nil => simp [slotOf]
  | cons w ws ih =>
      rw [slotOf, List.sum_cons]
      split
      · rename_i h
        exact iff_of_true rfl (by omega)
      · rename_i h
        rw [Option.isSome_map, ih]
        omega

/-- The slots of a block are as many as its weight. -/
theorem count_slotOf {ws : List ℕ} {i : ℕ} (hi : i < ws.length) :
    Nat.count (fun x => slotOf ws x = some i) ws.sum = ws[i] := by
  induction ws generalizing i with
  | nil => cases hi
  | cons w ws ih =>
      rw [List.sum_cons, Nat.count_add]
      cases i with
      | zero =>
          have hfirst : Nat.count (fun x => slotOf (w :: ws) x = some 0) w = w :=
            Nat.count_of_forall fun x hx => by rw [slotOf, if_pos hx]
          have hrest : Nat.count (fun k => slotOf (w :: ws) (w + k) = some 0) ws.sum = 0 := by
            refine Nat.count_of_forall_not fun k _ => ?_
            rw [slotOf, if_neg (by omega)]
            simp
          rw [hfirst, hrest]
          rfl
      | succ i =>
          have hfirst : Nat.count (fun x => slotOf (w :: ws) x = some (i + 1)) w = 0 := by
            refine Nat.count_of_forall_not fun x hx => ?_
            rw [slotOf, if_pos hx]
            simp
          have hrest : (fun k => slotOf (w :: ws) (w + k) = some (i + 1)) =
              fun k => slotOf ws k = some i := by
            funext k
            rw [slotOf, if_neg (by omega), Nat.add_sub_cancel_left]
            simp
          have hi' : i < ws.length := Nat.lt_of_succ_lt_succ hi
          rw [hfirst, Nat.zero_add]
          simp only [hrest]
          exact ih hi'

/-- In a window as long as all blocks together, the numbers that fall into a block are as many as
its weight. -/
theorem card_window {ws : List ℕ} {i : ℕ} (hi : i < ws.length) (s : ℕ) :
    ((Finset.Ico s (s + ws.sum)).filter fun x => slotOf ws (x % ws.sum) = some i).card = ws[i] := by
  have hperiodic : Function.Periodic (fun x => slotOf ws (x % ws.sum) = some i) ws.sum := by
    intro x
    simp only [Nat.add_mod_right]
  rw [Nat.filter_Ico_card_eq_of_periodic s ws.sum _ hperiodic, ← count_slotOf hi,
    Nat.count_eq_card_filter_range, Nat.count_eq_card_filter_range]
  refine congrArg Finset.card (Finset.filter_congr fun x hx => ?_)
  rw [Nat.mod_eq_of_lt (Finset.mem_range.mp hx)]

end WeightedSlots
