/-
# Prefix scans

`PebbleDB.IteratePrefix`: the keys with a given prefix are visited by a scan over a half-open range,
from the prefix to the bound that `prefixUpperBound` computes. The bound is the prefix with its last
byte below `0xff` incremented and what follows it cut off; a prefix without such a byte has no bound,
and the scan runs to the end of the database. Pebble itself is taken as documented: an iterator over
a range visits the rows of the range in the order of their keys.
-/
import Dew.ByteOrder
import Dew.Database

open Bytes

namespace Dew

/-! ## The bound -/

/-- The loop of `prefixUpperBound` over the indexes below `i`, downwards. -/
def incrementBelow (up : Bytes) : ℕ → Option Bytes
  | 0 => none
  | i + 1 =>
    let x := up.getD i 0
    if x ≠ 0xff then some ((up.set i (x + 1)).take (i + 1)) else incrementBelow up i

/-- `prefixUpperBound`; nil is `none`. -/
def prefixUpperBound (p : Bytes) : Option Bytes :=
  if p.length = 0 then none else incrementBelow p p.length

/-- The loop passes over bytes `0xff`. -/
theorem incrementBelow_append_ones (start : Bytes) (m : ℕ) (rest : Bytes) :
    incrementBelow (start ++ List.replicate m 0xff ++ rest) (start.length + m) =
      incrementBelow (start ++ List.replicate m 0xff ++ rest) start.length := by
  induction m generalizing rest with
  | zero => rfl
  | succ m ih =>
      have hbyte : (start ++ List.replicate (m + 1) 0xff ++ rest).getD (start.length + m) 0 =
          0xff := by
        simp [List.getD_eq_getElem?_getD, List.getElem?_append]
      have hsplit : start ++ List.replicate (m + 1) 0xff ++ rest =
          start ++ List.replicate m 0xff ++ (0xff :: rest) := by
        simp [List.replicate_succ']
      rw [← Nat.add_assoc, incrementBelow, hbyte, hsplit]
      simpa using ih (0xff :: rest)

/-- The loop stops at the last byte that is not `0xff`. -/
theorem incrementBelow_eq {x : UInt8} (hx : x ≠ 0xff) (start rest : Bytes) :
    incrementBelow (start ++ x :: rest) (start.length + 1) = some (start ++ [x + 1]) := by
  have hbyte : (start ++ x :: rest).getD start.length 0 = x := by simp
  rw [incrementBelow, hbyte]
  simp [hx, List.take_append]

/-- A string is all `0xff`, or has a last byte that is not. -/
theorem ones_or_last (p : Bytes) : p = List.replicate p.length 0xff ∨
    ∃ start x m, x ≠ 0xff ∧ p = start ++ x :: List.replicate m 0xff := by
  induction p with
  | nil => exact Or.inl rfl
  | cons y p ih =>
      rcases ih with hones | ⟨start, x, m, hx, rfl⟩
      · by_cases hy : y = 0xff
        · left
          rw [List.length_cons, List.replicate_succ, hy, ← hones]
        · exact Or.inr ⟨[], y, p.length, hy, by rw [List.nil_append, ← hones]⟩
      · exact Or.inr ⟨y :: start, x, m, hx, rfl⟩

theorem prefixUpperBound_ones (m : ℕ) : prefixUpperBound (List.replicate m 0xff) = none := by
  have hloop := incrementBelow_append_ones [] m []
  simp only [List.nil_append, List.append_nil, List.length_nil, Nat.zero_add] at hloop
  rw [prefixUpperBound, List.length_replicate, hloop]
  split <;> rfl

theorem prefixUpperBound_eq {x : UInt8} (hx : x ≠ 0xff) (start : Bytes) (m : ℕ) :
    prefixUpperBound (start ++ x :: List.replicate m 0xff) = some (start ++ [x + 1]) := by
  have hloop := incrementBelow_append_ones (start ++ [x]) m []
  simp only [List.append_assoc, List.singleton_append, List.append_nil, List.length_append,
    List.length_singleton] at hloop
  rw [prefixUpperBound, if_neg (by simp)]
  simp only [List.length_append, List.length_cons, List.length_replicate]
  rw [show start.length + (m + 1) = start.length + 1 + m by omega, hloop]
  exact incrementBelow_eq hx start _

/-! ## The scan -/

/-- The range of an iterator; a bound that is nil is no bound. -/
structure IterOptions where
  lowerBound : Bytes
  upperBound : Option Bytes

def IterOptions.Contains (o : IterOptions) (k : Bytes) : Prop :=
  o.lowerBound ≤ k ∧ ∀ u ∈ o.upperBound, k < u

instance (o : IterOptions) (k : Bytes) : Decidable (o.Contains k) :=
  inferInstanceAs (Decidable (_ ∧ _))

/-- The rows that an iterator visits, in the order of their keys. -/
def Database.iterate (db : Database) (o : IterOptions) : List (Bytes × Bytes) :=
  db.sortKeys.pairs.filter fun e => o.Contains e.1

/-- `PebbleDB`: the rows, unless it has been closed. -/
structure PebbleDB where
  rows : Database
  closed : Bool

/-- What a scan can fail with: the closed database, or an error of the visiting function. -/
inductive ScanError (ε : Type) where
  | closed
  | visit (err : ε)

/-- `IteratePrefix`; `fn` carries what it changes as a state, its first error ends the scan. -/
def PebbleDB.iteratePrefix {σ ε : Type} (db : PebbleDB) (p : Bytes)
    (fn : σ → Bytes → Bytes → Except ε σ) (s : σ) : Except (ScanError ε) σ :=
  if db.closed then .error .closed
  else
    ((db.rows.iterate ⟨p, prefixUpperBound p⟩).foldlM (fun s e => fn s e.1 e.2) s).mapError .visit

theorem contains_prefixUpperBound (p k : Bytes) :
    (⟨p, prefixUpperBound p⟩ : IterOptions).Contains k ↔ p <+: k := by
  rcases ones_or_last p with hones | ⟨start, x, m, hx, rfl⟩
  · rw [hones, IterOptions.Contains, prefixUpperBound_ones]
    simp [ ones_le_iff_prefix]
  · rw [IterOptions.Contains, prefixUpperBound_eq hx]
    simpa using between_iff_prefix hx start m k

/-- The rows that the scan visits. -/
def Database.withPrefix (db : Database) (p : Bytes) : List (Bytes × Bytes) :=
  db.iterate ⟨p, prefixUpperBound p⟩

theorem mem_withPrefix {db : Database} {p : Bytes} {e : Bytes × Bytes} :
    e ∈ db.withPrefix p ↔ db.get? e.1 = some e.2 ∧ p <+: e.1 := by
  rw [Database.withPrefix, Database.iterate, List.mem_filter, GoMap.mem_pairs, GoMap.get?_sortKeys,
    decide_eq_true_eq, contains_prefixUpperBound]

theorem pairwise_withPrefix (db : Database) (p : Bytes) :
    (db.withPrefix p).Pairwise fun e e' => e.1 < e'.1 := by
  refine List.Pairwise.filter _ (List.pairwise_map.mpr ?_)
  refine (db.pairwise_sortKeys.and db.sortKeys.nodupKeys.pairwise_ne).imp ?_
  rintro e e' ⟨hle, hne⟩
  exact Std.lt_of_le_of_ne hle hne

/-- The bound of a prefix closes the range of the keys that start with it, and a scan visits these,
once each and in order. -/
theorem prefixUpperBound_scan (p : Bytes) :
    (∀ u, prefixUpperBound p = some u → ∀ k, p ≤ k ∧ k < u ↔ p <+: k) ∧
    (prefixUpperBound p = none → (∀ x ∈ p, x = 0xff) ∧ ∀ k, p ≤ k ↔ p <+: k) ∧
    ∀ (σ ε : Type) (db : Database) (fn : σ → Bytes → Bytes → Except ε σ) (s : σ),
      ∃ visited : List (Bytes × Bytes),
        PebbleDB.iteratePrefix ⟨db, false⟩ p fn s =
          (visited.foldlM (fun s e => fn s e.1 e.2) s).mapError ScanError.visit ∧
        visited.Pairwise (fun e e' => e.1 < e'.1) ∧
        ∀ k v, (k, v) ∈ visited ↔ db.get? k = some v ∧ p <+: k := by
  refine ⟨?_, ?_, ?_⟩
  · intro u hu k
    rw [← contains_prefixUpperBound p k, IterOptions.Contains, hu]
    simp
  · intro hnone
    refine ⟨?_, ?_⟩
    · rcases ones_or_last p with hones | ⟨start, x, m, hx, rfl⟩
      · rw [hones]
        exact fun x hx => List.eq_of_mem_replicate hx
      · rw [prefixUpperBound_eq hx] at hnone
        cases hnone
    · intro k
      rw [← contains_prefixUpperBound p k, IterOptions.Contains, hnone]
      simp
  · intro σ ε db fn s
    exact ⟨db.withPrefix p, rfl, pairwise_withPrefix db p, fun k v => mem_withPrefix⟩

-- the bound is shortened at trailing `0xff`
example : prefixUpperBound [0x4c, 0x01, 0xff, 0xff] = some [0x4c, 0x02] := by decide

end Dew
