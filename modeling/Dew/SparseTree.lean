/-
# Sparse Merkle trees

A tree of height `h` has `2 ^ h` places, found by the first `h` bits of a path; most of them are
empty. The root of a list of leaves is defined from the top down: the leaves are split by the bit
of the current height, and a place without a leaf is hashed as one fixed message.

The root does not depend on the order of the leaves (`root_perm`). Where the hash function has no
collision among the messages of two trees, equal roots give equal leaf messages at every place
(`Scheme.binding`); only a leaf whose message is that of an empty place cannot be seen
(`message_filter_visible`).
-/
import Mathlib.Data.Set.Function
import Mathlib.Data.List.Perm.Basic

/-- How a tree is hashed: the bit of a leaf's path that tells the two children of a node of height
`h + 1` apart, and the messages of leaves, of empty places and of inner nodes. -/
structure SparseTree.Scheme (L M D : Type) where
  bit : ℕ → L → Bool
  leaf : L → M
  empty : M
  node : D → D → M
  hash : M → D

namespace SparseTree.Scheme

variable {L M D : Type} (T : Scheme L M D)

/-- The message at the top of the tree of height `h` over the leaves `S`. -/
def message : ℕ → List L → M
  | 0, [] => T.empty
  | 0, l :: _ => T.leaf l
  | h + 1, S =>
    T.node (T.hash (message h (S.filter fun l => !T.bit h l)))
      (T.hash (message h (S.filter (T.bit h))))

/-- The root of the tree of height `h` over the leaves `S`. -/
def root (h : ℕ) (S : List L) : D :=
  T.hash (T.message h S)

/-- All messages that are hashed for the tree. -/
def messages : ℕ → List L → Set M
  | 0, S => {T.message 0 S}
  | h + 1, S =>
    insert (T.message (h + 1) S)
      (messages h (S.filter fun l => !T.bit h l) ∪ messages h (S.filter (T.bit h)))

theorem root_succ (h : ℕ) (S : List L) :
    T.root (h + 1) S = T.hash (T.node (T.root h (S.filter fun l => !T.bit h l))
      (T.root h (S.filter (T.bit h)))) :=
  rfl

theorem message_mem (h : ℕ) (S : List L) : T.message h S ∈ T.messages h S := by
  cases h with
  | zero => exact Set.mem_singleton _
  | succ h => exact Set.mem_insert _ _

/-! ## Different places -/

/-- The leaves are at different places of a tree of height `h`. -/
def Apart (h : ℕ) (S : List L) : Prop :=
  S.Pairwise fun l l' => ∃ i < h, T.bit i l ≠ T.bit i l'

variable {T}

theorem Apart.filter {h : ℕ} {S : List L} (hS : T.Apart (h + 1) S) {p : L → Bool}
    (hp : ∀ l l', p l → p l' → T.bit h l = T.bit h l') : T.Apart h (S.filter p) := by
  refine (List.Pairwise.filter p hS).imp_of_mem ?_
  rintro l l' hl hl' ⟨i, hi, hne⟩
  refine ⟨i, ?_, hne⟩
  rcases Nat.lt_succ_iff_lt_or_eq.mp hi with hlt | rfl
  · exact hlt
  · exact absurd (hp l l' (List.mem_filter.mp hl).2 (List.mem_filter.mp hl').2) hne

theorem Apart.left {h : ℕ} {S : List L} (hS : T.Apart (h + 1) S) :
    T.Apart h (S.filter fun l => !T.bit h l) := by
  apply hS.filter
  intro l l' hl hl'
  rw [Bool.not_eq_true'] at hl hl'
  rw [hl, hl']

theorem Apart.right {h : ℕ} {S : List L} (hS : T.Apart (h + 1) S) :
    T.Apart h (S.filter (T.bit h)) := by
  apply hS.filter
  intro l l' hl hl'
  rw [hl, hl']

/-- A single place holds at most one leaf. -/
theorem Apart.zero {S : List L} (hS : T.Apart 0 S) : S = [] ∨ ∃ l, S = [l] := by
  rcases S with _ | ⟨l, _ | ⟨l', S⟩⟩
  · exact .inl rfl
  · exact .inr ⟨l, rfl⟩
  · obtain ⟨i, hi, -⟩ := List.rel_of_pairwise_cons hS (List.mem_cons_self (a := l'))
    exact absurd hi i.not_lt_zero

/-- The order of the leaves does not matter. -/
theorem message_perm {h : ℕ} {S S' : List L} (hS : T.Apart h S) (hperm : S.Perm S') :
    T.message h S = T.message h S' := by
  induction h generalizing S S' with
  | zero =>
      rcases hS.zero with rfl | ⟨l, rfl⟩
      · rw [hperm.symm.eq_nil]
      · rw [List.perm_singleton.mp hperm.symm]
  | succ h ih =>
      unfold message
      rw [ih hS.left (hperm.filter _), ih hS.right (hperm.filter _)]

theorem root_perm {h : ℕ} {S S' : List L} (hS : T.Apart h S) (hperm : S.Perm S') :
    T.root h S = T.root h S' := by
  rw [root, root, message_perm hS hperm]

/-! ## What the root shows -/

/-- A leaf whose message is that of an empty place does not show. -/
theorem message_filter_visible [DecidableEq M] {h : ℕ} {S : List L} (hS : T.Apart h S) :
    T.message h (S.filter fun l => T.leaf l ≠ T.empty) = T.message h S := by
  induction h generalizing S with
  | zero =>
      rcases hS.zero with rfl | ⟨l, rfl⟩
      · rfl
      · by_cases hl : T.leaf l = T.empty
        · simp [message, hl]
        · simp [message, hl]
  | succ h ih =>
      unfold message
      rw [List.filter_comm (T.bit h), List.filter_comm (fun l => !T.bit h l), ih hS.left,
        ih hS.right]

theorem messages_left_subset (h : ℕ) (S : List L) :
    T.messages h (S.filter fun l => !T.bit h l) ⊆ T.messages (h + 1) S :=
  Set.subset_union_left.trans (Set.subset_insert _ _)

theorem messages_right_subset (h : ℕ) (S : List L) :
    T.messages h (S.filter (T.bit h)) ⊆ T.messages (h + 1) S :=
  Set.subset_union_right.trans (Set.subset_insert _ _)

/-- Equal roots without collisions: every leaf that shows has a leaf with the same message at the
same place of the other tree. -/
theorem binding (hnode : Function.Injective2 T.node) {U : Set M} (hinj : Set.InjOn T.hash U)
    {h : ℕ} {S S' : List L} (hS : T.messages h S ⊆ U) (hS' : T.messages h S' ⊆ U)
    (hapart : T.Apart h S) (heq : T.root h S = T.root h S') {l : L} (hl : l ∈ S)
    (hvisible : T.leaf l ≠ T.empty) :
    ∃ l' ∈ S', (∀ i < h, T.bit i l' = T.bit i l) ∧ T.leaf l' = T.leaf l := by
  induction h generalizing S S' with
  | zero =>
      have hmessage : T.message 0 S = T.message 0 S' :=
        hinj (hS (T.message_mem 0 S)) (hS' (T.message_mem 0 S')) heq
      rcases hapart.zero with rfl | ⟨l₀, rfl⟩
      · cases hl
      rw [List.mem_singleton] at hl
      subst hl
      rcases S' with _ | ⟨l', S'⟩
      · exact absurd hmessage hvisible
      · refine ⟨l', List.mem_cons_self, ?_, hmessage.symm⟩
        intro i hi
        exact absurd hi i.not_lt_zero
  | succ h ih =>
      -- equal node messages have equal children, and the leaf is below one of them
      have hmessage : T.message (h + 1) S = T.message (h + 1) S' :=
        hinj (hS (T.message_mem _ S)) (hS' (T.message_mem _ S')) heq
      obtain ⟨hleft, hright⟩ := hnode hmessage
      cases hbit : T.bit h l with
      | false =>
          obtain ⟨l', hl', hbits, hleaf⟩ := ih ((messages_left_subset h S).trans hS)
            ((messages_left_subset h S').trans hS') hapart.left hleft
            (List.mem_filter.mpr ⟨hl, by rw [hbit]; rfl⟩)
          obtain ⟨hmem, hbit'⟩ := List.mem_filter.mp hl'
          rw [Bool.not_eq_true'] at hbit'
          refine ⟨l', hmem, ?_, hleaf⟩
          intro i hi
          rcases Nat.lt_succ_iff_lt_or_eq.mp hi with hlt | rfl
          · exact hbits i hlt
          · rw [hbit', hbit]
      | true =>
          obtain ⟨l', hl', hbits, hleaf⟩ := ih ((messages_right_subset h S).trans hS)
            ((messages_right_subset h S').trans hS') hapart.right hright
            (List.mem_filter.mpr ⟨hl, hbit⟩)
          obtain ⟨hmem, hbit'⟩ := List.mem_filter.mp hl'
          refine ⟨l', hmem, ?_, hleaf⟩
          intro i hi
          rcases Nat.lt_succ_iff_lt_or_eq.mp hi with hlt | rfl
          · exact hbits i hlt
          · rw [hbit', hbit]

end SparseTree.Scheme
