/-
# Undo logs

A log of entries, newest first, each of which undoes one change of a value. `unwind` undoes the
entries above an index. Marks are indices one may return to, and `Safe` says that a property holds
at each of them: it survives changes that log how to undo them (`Safe.append`), taking a mark
(`Safe.mark`), and returning to one (`Safe.revert`).
-/
import Mathlib.Tactic.Common
import Mathlib.Data.List.Basic

namespace UndoLog

variable {V E : Type} (undo : V → E → V)

/-- The value after the entries above `index` are undone. -/
def unwind (log : List E) (index : ℕ) (v : V) : V :=
  (log.take (log.length - index)).foldl undo v

@[simp] theorem unwind_length (log : List E) (v : V) : unwind undo log log.length v = v := by
  simp [unwind]

/-- Entries added on top are undone first. -/
theorem unwind_append (new : List E) {log : List E} {index : ℕ} (h : index ≤ log.length) (v : V) :
    unwind undo (new ++ log) index v = unwind undo log index (new.foldl undo v) := by
  have hlen : (new ++ log).length - index = new.length + (log.length - index) := by
    rw [List.length_append]
    omega
  rw [unwind, hlen, List.take_length_add_append, List.foldl_append, unwind]

/-- Returning to `j` and then to the older `i` is returning to `i`. -/
theorem unwind_unwind {log : List E} {i j : ℕ} (hij : i ≤ j) (hj : j ≤ log.length) (v : V) :
    unwind undo (log.drop (log.length - j)) i (unwind undo log j v) = unwind undo log i v := by
  have hsplit := List.take_append_drop (log.length - j) log
  have hle : i ≤ (log.drop (log.length - j)).length := by
    rw [List.length_drop]
    omega
  have happ := unwind_append undo (log.take (log.length - j)) hle v
  rw [hsplit] at happ
  exact happ.symm

variable {undo} {I : V → Prop} {log new : List E} {marks : List ℕ} {v v' : V}

/-- The property `I` holds at every mark, and the marks are in the log, newest first. -/
structure Safe (undo : V → E → V) (I : V → Prop) (log : List E) (marks : List ℕ) (v : V) :
    Prop where
  le : ∀ m ∈ marks, m ≤ log.length
  sorted : marks.Pairwise (· ≥ ·)
  back : ∀ m ∈ marks, I (unwind undo log m v)

theorem safe_nil (v : V) : Safe undo I log [] v :=
  ⟨by simp, .nil, by simp⟩

/-- A change that logs how to undo it keeps what the marks lead back to. -/
theorem Safe.append (hs : Safe undo I log marks v) (hundo : new.foldl undo v' = v) :
    Safe undo I (new ++ log) marks v' where
  le m hm := by
    have := hs.le m hm
    rw [List.length_append]
    omega
  sorted := hs.sorted
  back m hm := by
    rw [unwind_append undo new (hs.le m hm), hundo]
    exact hs.back m hm

theorem Safe.mark (hs : Safe undo I log marks v) (hv : I v) :
    Safe undo I log (log.length :: marks) v where
  le m hm := by
    rcases List.mem_cons.mp hm with rfl | hm
    · exact Nat.le_refl _
    · exact hs.le m hm
  sorted := List.pairwise_cons.mpr ⟨hs.le, hs.sorted⟩
  back m hm := by
    rcases List.mem_cons.mp hm with rfl | hm
    · rwa [unwind_length]
    · exact hs.back m hm

/-- Returning to a mark makes the property hold, and keeps the older marks. -/
theorem Safe.revert {newer older : List ℕ} {m : ℕ}
    (hs : Safe undo I log (newer ++ m :: older) v) :
    I (unwind undo log m v) ∧
      Safe undo I (log.drop (log.length - m)) older (unwind undo log m v) := by
  have hm : m ≤ log.length := hs.le m (by simp)
  have hmem : ∀ i ∈ older, i ∈ newer ++ m :: older := fun i hi => by simp [hi]
  have hle : ∀ i ∈ older, i ≤ m :=
    (List.pairwise_cons.mp (List.pairwise_append.mp hs.sorted).2.1).1
  refine ⟨hs.back m (by simp), fun i hi => ?_, ?_, fun i hi => ?_⟩
  · have := hle i hi
    rw [List.length_drop]
    omega
  · exact (List.pairwise_cons.mp (List.pairwise_append.mp hs.sorted).2.1).2
  · rw [unwind_unwind undo (hle i hi) hm]
    exact hs.back i (hmem i hi)

end UndoLog
