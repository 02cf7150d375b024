/-
# Finite maps with loops over them

Finite maps are Mathlib's association lists, used at a constant value type. Here are the closed
forms of a lookup after an insertion or a deletion, and of the loops programs run over such maps:
assigning one value to every key that passes a test, and applying a list of writes of which the
last one to a key wins.
-/
import Mathlib.Data.List.AList

/-- A finite map from `K` to `V`. -/
abbrev GoMap (K V : Type) := AList (fun _ : K => V)

namespace GoMap

variable {K V : Type} [DecidableEq K]

/-- The value at `k`, if there is one. -/
def get? (m : GoMap K V) (k : K) : Option V :=
  AList.lookup k m

/-- `m[k] = v` -/
def set (m : GoMap K V) (k : K) (v : V) : GoMap K V :=
  AList.insert k v m

/-- `delete(m, k)` -/
def delete (m : GoMap K V) (k : K) : GoMap K V :=
  AList.erase k m

@[simp] theorem get?_empty (k : K) : get? (∅ : GoMap K V) k = none :=
  AList.lookup_empty k

theorem get?_set (m : GoMap K V) (k k' : K) (v : V) :
    (m.set k v).get? k' = if k' = k then some v else m.get? k' := by
  split
  · rename_i h
    subst h
    exact AList.lookup_insert m
  · rename_i h
    exact AList.lookup_insert_ne h

theorem get?_delete (m : GoMap K V) (k k' : K) :
    (m.delete k).get? k' = if k' = k then none else m.get? k' := by
  split
  · rename_i h
    subst h
    exact AList.lookup_erase k' m
  · rename_i h
    exact AList.lookup_erase_ne h

theorem isSome_get? (m : GoMap K V) (k : K) : (m.get? k).isSome ↔ k ∈ m.keys :=
  AList.lookup_isSome.trans AList.mem_keys

theorem get?_eq_some_iff {m : GoMap K V} {k : K} {v : V} :
    m.get? k = some v ↔ ⟨k, v⟩ ∈ m.entries :=
  AList.mem_lookup_iff

/-! ## Sizes and values -/

/-- The entries of a map, in the order in which it keeps them. -/
def pairs (m : GoMap K V) : List (K × V) :=
  m.entries.map fun e => (e.1, e.2)

/-- `len(m)` -/
def len (m : GoMap K V) : ℕ :=
  m.entries.length

theorem mem_pairs {m : GoMap K V} {e : K × V} : e ∈ m.pairs ↔ m.get? e.1 = some e.2 := by
  rw [get?_eq_some_iff, pairs, List.mem_map]
  constructor
  · rintro ⟨⟨k, v⟩, hmem, rfl⟩
    exact hmem
  · intro hmem
    exact ⟨⟨e.1, e.2⟩, hmem, rfl⟩

/-- The values of a map. -/
def values (m : GoMap K V) : List V :=
  m.entries.map Sigma.snd

theorem mem_values {m : GoMap K V} {v : V} : v ∈ m.values ↔ ∃ k, m.get? k = some v := by
  simp [values, get?_eq_some_iff]

omit [DecidableEq K] in
theorem length_values (m : GoMap K V) : m.values.length = m.len :=
  List.length_map _

/-- Values that name their keys. -/
theorem map_values {m : GoMap K V} {f : V → K} (h : ∀ k v, m.get? k = some v → f v = k) :
    m.values.map f = m.keys := by
  rw [values, List.map_map]
  refine List.map_congr_left fun e he => ?_
  obtain ⟨k, v⟩ := e
  exact h k v (get?_eq_some_iff.mpr he)

theorem len_set_of_none {m : GoMap K V} {k : K} (h : m.get? k = none) (v : V) :
    (m.set k v).len = m.len + 1 := by
  have hk : k ∉ m := AList.lookup_eq_none.mp h
  rw [len, set, AList.entries_insert_of_notMem hk, List.length_cons, len]

theorem len_delete_of_some {m : GoMap K V} {k : K} {v : V} (h : m.get? k = some v) :
    (m.delete k).len + 1 = m.len := by
  have hk : k ∈ m.entries.keys := List.mem_keys_of_mem (get?_eq_some_iff.mp h)
  have hlen := List.length_erase_add_one (AList.mem_keys.mp hk)
  rw [← AList.keys_erase] at hlen
  simpa [AList.keys, List.keys, len, delete] using hlen

theorem entries_eq_nil_iff {m : GoMap K V} : m.entries = [] ↔ ∀ k, m.get? k = none := by
  constructor
  · intro h k
    cases hk : m.get? k with
    | none => rfl
    | some v =>
        have hmem := get?_eq_some_iff.mp hk
        rw [h] at hmem
        cases hmem
  · intro h
    rw [List.eq_nil_iff_forall_not_mem]
    rintro ⟨k, v⟩ hmem
    have hk := h k
    rw [get?_eq_some_iff.mpr hmem] at hk
    cases hk

/-! ## Loops -/

/-- `for k := range m { if p(k) { m[k] = v } }` -/
def assignWhere (p : K → Bool) (v : V) (m : GoMap K V) : GoMap K V :=
  m.keys.foldl (fun m k => if p k then m.set k v else m) m

theorem get?_foldl_assign (p : K → Bool) (v : V) (ks : List K) (m : GoMap K V) (k : K) :
    (ks.foldl (fun m k => if p k then m.set k v else m) m).get? k =
      if k ∈ ks ∧ p k then some v else m.get? k := by
  induction ks generalizing m with
  | nil => simp
  | cons x ks ih =>
      rw [List.foldl_cons, ih]
      by_cases hk : k ∈ ks ∧ p k
      · simp [hk]
      · rw [if_neg hk]
        by_cases hkx : k = x
        · subst hkx
          cases p k <;> simp [get?_set]
        · cases p x <;> simp [hkx, hk, get?_set]

theorem get?_assignWhere (p : K → Bool) (v : V) (m : GoMap K V) (k : K) :
    (assignWhere p v m).get? k =
      if (m.get? k).isSome ∧ p k then some v else m.get? k := by
  rw [assignWhere, get?_foldl_assign]
  simp only [isSome_get?]

/-- One write of a batch: a new value for the key, or its deletion. -/
structure Write (K V : Type) where
  key : K
  value : Option V
deriving DecidableEq, Repr

def Write.apply (m : GoMap K V) (w : Write K V) : GoMap K V :=
  match w.value with
  | some v => m.set w.key v
  | none => m.delete w.key

theorem Write.get?_apply (m : GoMap K V) (w : Write K V) (k : K) :
    (w.apply m).get? k = if k = w.key then w.value else m.get? k := by
  unfold Write.apply
  split
  · rename_i v h
    rw [get?_set, h]
  · rename_i h
    rw [get?_delete, h]

def applyWrites (ws : List (Write K V)) (m : GoMap K V) : GoMap K V :=
  ws.foldl Write.apply m

/-- When all writes to `k` carry the same value, that value is what `k` holds afterwards. -/
theorem get?_applyWrites_of_agree {ws : List (Write K V)} {k : K} {v : Option V}
    (h : ∀ w ∈ ws, w.key = k → w.value = v) (m : GoMap K V) :
    (applyWrites ws m).get? k = if ∃ w ∈ ws, w.key = k then v else m.get? k := by
  induction ws generalizing m with
  | nil => simp [applyWrites]
  | cons w ws ih =>
      have hws : ∀ w' ∈ ws, w'.key = k → w'.value = v :=
        fun w' hw' => h w' (List.mem_cons_of_mem w hw')
      have hstep := ih hws (w.apply m)
      unfold applyWrites at hstep ⊢
      rw [List.foldl_cons, hstep, Write.get?_apply]
      by_cases hlater : ∃ w' ∈ ws, w'.key = k
      · rw [if_pos hlater, if_pos]
        obtain ⟨w', hw', hk⟩ := hlater
        exact ⟨w', List.mem_cons_of_mem w hw', hk⟩
      · rw [if_neg hlater]
        by_cases hwk : k = w.key
        · rw [if_pos hwk, if_pos ⟨w, List.mem_cons_self, hwk.symm⟩]
          exact h w List.mem_cons_self hwk.symm
        · rw [if_neg hwk, if_neg]
          rintro ⟨w', hw', hk⟩
          rcases List.mem_cons.mp hw' with rfl | hw'
          · exact hwk hk.symm
          · exact hlater ⟨w', hw', hk⟩

/-! ## Sorted keys -/

theorem perm_of_get?_eq {m m' : GoMap K V} (h : ∀ k, m.get? k = m'.get? k) :
    m.entries.Perm m'.entries := by
  rw [List.perm_ext_iff_of_nodup m.nodupKeys.nodup m'.nodupKeys.nodup]
  rintro ⟨k, v⟩
  rw [← get?_eq_some_iff, ← get?_eq_some_iff, h]

section Sorted

variable [LE K] [DecidableLE K]

/-- The map with its entries in the order of their keys. -/
def sortKeys (m : GoMap K V) : GoMap K V where
  entries := m.entries.mergeSort fun e e' => decide (e.1 ≤ e'.1)
  nodupKeys := (List.perm_nodupKeys (List.mergeSort_perm _ _)).mpr m.nodupKeys

omit [DecidableEq K] in
@[simp] theorem sortKeys_empty : (∅ : GoMap K V).sortKeys = ∅ :=
  AList.ext List.mergeSort_nil

@[simp] theorem get?_sortKeys (m : GoMap K V) (k : K) : m.sortKeys.get? k = m.get? k :=
  AList.perm_lookup (List.mergeSort_perm _ _)

omit [DecidableEq K] in
theorem pairwise_sortKeys [Std.IsLinearOrder K] (m : GoMap K V) :
    m.sortKeys.entries.Pairwise fun e e' => e.1 ≤ e'.1 := by
  have htrans : ∀ a b c : (_ : K) × V, decide (a.1 ≤ b.1) = true → decide (b.1 ≤ c.1) = true →
      decide (a.1 ≤ c.1) = true := by
    simpa using fun a b c => Std.le_trans
  have htotal : ∀ a b : (_ : K) × V, (decide (a.1 ≤ b.1) || decide (b.1 ≤ a.1)) = true := by
    simpa using fun a b => Std.le_total
  exact (List.pairwise_mergeSort htrans htotal m.entries).imp fun h => of_decide_eq_true h

/-- Maps with the same values at all keys are equal once they are sorted. -/
theorem sortKeys_congr [Std.IsLinearOrder K] {m m' : GoMap K V}
    (h : ∀ k, m.get? k = m'.get? k) : m.sortKeys = m'.sortKeys := by
  have hperm : m.sortKeys.entries.Perm m'.sortKeys.entries :=
    perm_of_get?_eq fun k => by rw [get?_sortKeys, get?_sortKeys, h]
  refine AList.ext (hperm.eq_of_pairwise ?_ m.pairwise_sortKeys m'.pairwise_sortKeys)
  rintro ⟨k, v⟩ ⟨k', v'⟩ hmem hmem' hle hle'
  obtain rfl : k = k' := Std.le_antisymm hle hle'
  have hv := get?_eq_some_iff.mpr (hperm.mem_iff.mp hmem)
  rw [get?_eq_some_iff.mpr hmem'] at hv
  rw [Option.some.inj hv]

end Sorted

end GoMap
