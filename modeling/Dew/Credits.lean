/-
# Balances that wrap around

A finite family of fixed-width balances under debits and credits whose arithmetic is modular. The
unbounded total of the family is tracked exactly: a list of credits raises it by what it pays, less
`2 ^ w` for every credit that wraps around (`total_creditAll`), and a covered debit lowers it by
what it takes (`total_debit`).
-/
import Mathlib.Algebra.Order.BigOperators.Group.Finset
import Mathlib.Algebra.Ring.Nat
import Mathlib.Data.Fintype.BigOperators

namespace Credits

variable {A : Type} {w : ℕ}

/-- What a list of credits pays. -/
def amount (cs : List (A × BitVec w)) : ℕ :=
  (cs.map fun c => c.2.toNat).sum

/-- The credits of a list that pay something. -/
def nonzero (cs : List (A × BitVec w)) : List (A × BitVec w) :=
  cs.filter fun c => c.2 ≠ 0

/-- The accounts a list of credits pays to. -/
def payees (cs : List (A × BitVec w)) : List A :=
  cs.map Prod.fst

theorem nonzero_append (cs ds : List (A × BitVec w)) :
    nonzero (cs ++ ds) = nonzero cs ++ nonzero ds :=
  List.filter_append ..

theorem amount_nonzero (cs : List (A × BitVec w)) : amount (nonzero cs) = amount cs := by
  induction cs with
  | nil => rfl
  | cons c cs ih =>
      have hcons : nonzero (c :: cs) = nonzero [c] ++ nonzero cs := nonzero_append [c] cs
      have hhead : amount (nonzero [c]) = c.2.toNat := by
        by_cases h : c.2 = 0#w <;> simp [nonzero, amount, h]
      have hsum : amount (c :: cs) = c.2.toNat + amount cs := List.sum_cons
      rw [hcons, amount, List.map_append, List.sum_append, ← amount, ← amount, hhead, ih, hsum]

theorem payees_append (cs ds : List (A × BitVec w)) :
    payees (cs ++ ds) = payees cs ++ payees ds :=
  List.map_append

theorem amount_append (cs ds : List (A × BitVec w)) :
    amount (cs ++ ds) = amount cs + amount ds := by
  simp [amount]

variable [DecidableEq A]

/-- Add to one balance. -/
def credit (b : A → BitVec w) (c : A × BitVec w) : A → BitVec w :=
  Function.update b c.1 (b c.1 + c.2)

def creditAll (b : A → BitVec w) (cs : List (A × BitVec w)) : A → BitVec w :=
  cs.foldl credit b

/-- Take from one balance. -/
def debit (b : A → BitVec w) (a : A) (x : BitVec w) : A → BitVec w :=
  Function.update b a (b a - x)

/-- How many credits of a list wrap around, when they are paid in order. -/
def wraps : (A → BitVec w) → List (A × BitVec w) → ℕ
  | _, [] => 0
  | b, c :: cs => (if 2 ^ w ≤ (b c.1).toNat + c.2.toNat then 1 else 0) + wraps (credit b c) cs

@[simp] theorem creditAll_nil (b : A → BitVec w) : creditAll b [] = b :=
  rfl

@[simp] theorem creditAll_cons (b : A → BitVec w) (c : A × BitVec w) (cs : List (A × BitVec w)) :
    creditAll b (c :: cs) = creditAll (credit b c) cs :=
  rfl

theorem creditAll_append (b : A → BitVec w) (cs ds : List (A × BitVec w)) :
    creditAll b (cs ++ ds) = creditAll (creditAll b cs) ds :=
  List.foldl_append

/-- A list of credits leaves the balances it does not pay to alone. -/
theorem creditAll_of_not_payee {cs : List (A × BitVec w)} {a : A} (h : a ∉ payees cs)
    (b : A → BitVec w) : creditAll b cs a = b a := by
  induction cs generalizing b with
  | nil => rfl
  | cons c cs ih =>
      rw [payees, List.map_cons, List.mem_cons, not_or] at h
      rw [creditAll_cons, ih h.2, credit, Function.update_of_ne h.1]

/-- What a list of credits pays to one account. -/
def received (cs : List (A × BitVec w)) (a : A) : ℕ :=
  amount (cs.filter fun c => c.1 = a)

/-- A balance after credits, modulo `2 ^ w`. -/
theorem toNat_creditAll (b : A → BitVec w) (cs : List (A × BitVec w)) (a : A) :
    (creditAll b cs a).toNat = ((b a).toNat + received cs a) % 2 ^ w := by
  induction cs generalizing b with
  | nil =>
      rw [creditAll_nil]
      exact (Nat.mod_eq_of_lt (b a).isLt).symm
  | cons c cs ih =>
      rw [creditAll_cons, ih, credit]
      by_cases ha : a = c.1
      · subst ha
        have hsum : received (c :: cs) c.1 = c.2.toNat + received cs c.1 := by
          simp [received, amount]
        rw [hsum, Function.update_self, BitVec.toNat_add, Nat.mod_add_mod, Nat.add_assoc]
      · have hsum : received (c :: cs) a = received cs a := by
          simp [received, amount, Ne.symm ha]
        rw [hsum, Function.update_of_ne ha]

section Total

variable [Fintype A]

/-- The unbounded sum of the balances. -/
def total (b : A → BitVec w) : ℕ :=
  ∑ a, (b a).toNat

/-- Replacing one balance changes the total by the difference. -/
theorem total_update (b : A → BitVec w) (a : A) (x : BitVec w) :
    total (Function.update b a x) + (b a).toNat = total b + x.toNat := by
  unfold total
  rw [← Finset.add_sum_erase _ _ (Finset.mem_univ a),
    ← Finset.add_sum_erase (Finset.univ : Finset A) (fun i => (b i).toNat) (Finset.mem_univ a),
    Function.update_self]
  have hrest : ∑ i ∈ Finset.univ.erase a, (Function.update b a x i).toNat =
      ∑ i ∈ Finset.univ.erase a, (b i).toNat := by
    refine Finset.sum_congr rfl fun i hi => ?_
    rw [Function.update_of_ne (Finset.ne_of_mem_erase hi)]
  rw [hrest]
  omega

omit [DecidableEq A] in
theorem le_total (b : A → BitVec w) (a : A) : (b a).toNat ≤ total b :=
  Finset.single_le_sum (f := fun i => (b i).toNat) (fun _ _ => Nat.zero_le _) (Finset.mem_univ a)

theorem total_debit (b : A → BitVec w) {a : A} {x : BitVec w} (h : x ≤ b a) :
    total (debit b a x) + x.toNat = total b := by
  have hup := total_update b a (b a - x)
  have hle := le_total b a
  rw [BitVec.toNat_sub_of_le h] at hup
  have hx : x.toNat ≤ (b a).toNat := h
  unfold debit
  omega

theorem total_credit (b : A → BitVec w) (c : A × BitVec w) :
    total (credit b c) + (if 2 ^ w ≤ (b c.1).toNat + c.2.toNat then 2 ^ w else 0) =
      total b + c.2.toNat := by
  have hup := total_update b c.1 (b c.1 + c.2)
  have hle := le_total b c.1
  have hb := (b c.1).isLt
  have hc := c.2.isLt
  rw [BitVec.toNat_add] at hup
  unfold credit
  split
  · rename_i hwrap
    rw [Nat.mod_eq_sub_mod hwrap, Nat.mod_eq_of_lt (by omega)] at hup
    omega
  · rename_i hfits
    rw [Nat.mod_eq_of_lt (by omega)] at hup
    omega

/-- Credits raise the total by what they pay, less `2 ^ w` for each that wraps around. -/
theorem total_creditAll (b : A → BitVec w) (cs : List (A × BitVec w)) :
    total (creditAll b cs) + 2 ^ w * wraps b cs = total b + amount cs := by
  induction cs generalizing b with
  | nil => rfl
  | cons c cs ih =>
      have hrest := ih (credit b c)
      have hfirst := total_credit b c
      have hamount : amount (c :: cs) = c.2.toNat + amount cs := List.sum_cons
      rw [creditAll_cons, wraps, hamount, Nat.mul_add]
      split at hfirst
      · rename_i hwrap
        rw [if_pos hwrap, Nat.mul_one]
        omega
      · rename_i hfits
        rw [if_neg hfits, Nat.mul_zero]
        omega

/-- A covered debit and the credits it was computed for modulo `2 ^ w`: the total grows by the
carries of the debit, less those of the credits. -/
theorem total_debit_creditAll {b : A → BitVec w} {a : A} {x : BitVec w}
    {cs : List (A × BitVec w)} (hcovered : x ≤ b a) (hx : x.toNat = amount cs % 2 ^ w) :
    total (creditAll (debit b a x) cs) + 2 ^ w * wraps (debit b a x) cs =
      total b + 2 ^ w * (amount cs / 2 ^ w) := by
  have hcredit := total_creditAll (debit b a x) cs
  have hdebit := total_debit b hcovered
  have hsplit := Nat.div_add_mod (amount cs) (2 ^ w)
  omega

omit [DecidableEq A] in
theorem total_mono {b b' : A → BitVec w} (h : ∀ a, (b a).toNat ≤ (b' a).toNat) :
    total b ≤ total b' :=
  Finset.sum_le_sum fun a _ => h a

omit [DecidableEq A] in
/-- Balances that only grew have the same total only if they are the same. -/
theorem total_eq_iff_of_le {b b' : A → BitVec w} (h : ∀ a, (b a).toNat ≤ (b' a).toNat) :
    total b = total b' ↔ b = b' := by
  unfold total
  rw [Finset.sum_eq_sum_iff_of_le fun a _ => h a]
  constructor
  · intro heq
    funext a
    exact BitVec.eq_of_toNat_eq (heq a (Finset.mem_univ a))
  · rintro rfl a -
    rfl

/-- The total is determined by the accounts that may hold something. -/
theorem total_eq_sum_of_support {b : A → BitVec w} {l : List A} (hl : l.Nodup)
    (h : ∀ a ∉ l, b a = 0) : total b = (l.map fun a => (b a).toNat).sum := by
  have hsub : total b = ∑ a ∈ l.toFinset, (b a).toNat := by
    refine (Finset.sum_subset (Finset.subset_univ _) fun a _ ha => ?_).symm
    rw [h a (by simpa using ha)]
    simp
  rw [hsub, List.sum_toFinset _ hl]

end Total

end Credits
