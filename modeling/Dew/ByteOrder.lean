/-
# Byte strings in lexicographic order

The order in which ordered stores keep their keys. The strings that start with `p` are an interval:
they run from `p` to the string that is one higher in its last byte below `0xff`
(`between_iff_prefix`), and without an end if there is no such byte (`ones_le_iff_prefix`).
Fixed-width numbers are ordered as their big-endian strings (`beBytes_lt_beBytes_iff`), and keys
made of parts of fixed width part by part (`append_lt_append_iff`).
-/
import Dew.Bytes

namespace Bytes

/-! ## Strings with a given start -/

/-- No string is above a run of `0xff` but those that start with it. -/
theorem ones_le_iff_prefix (m : ℕ) (k : Bytes) :
    List.replicate m 0xff ≤ k ↔ List.replicate m 0xff <+: k := by
  induction m generalizing k with
  | zero => simp
  | succ m ih =>
      rw [List.replicate_succ]
      cases k with
      | nil => simp
      | cons y k =>
          have htop : ¬(0xff : UInt8) < y := by
            rw [UInt8.lt_iff_toNat_lt, not_lt]
            exact Nat.lt_succ_iff.mp y.toNat_lt
          rw [List.cons_le_cons_iff, List.cons_prefix_cons, ih]
          simp only [htop, false_or]

/-- The strings that start with `start ++ x :: 0xff …` are those from it up to `start ++ [x + 1]`. -/
theorem between_iff_prefix {x : UInt8} (hx : x ≠ 0xff) (start : Bytes) (m : ℕ) (k : Bytes) :
    (start ++ x :: List.replicate m 0xff ≤ k ∧ k < start ++ [x + 1]) ↔
      start ++ x :: List.replicate m 0xff <+: k := by
  induction start generalizing k with
  | nil =>
      rw [List.nil_append, List.nil_append]
      cases k with
      | nil => simp
      | cons y k =>
          have hsucc : (x + 1).toNat = x.toNat + 1 := by
            have hlt := x.toNat_lt
            have hne : x.toNat ≠ 255 := fun h => hx (UInt8.toNat_inj.mp h)
            rw [UInt8.toNat_add]
            exact Nat.mod_eq_of_lt (by change x.toNat + 1 < 256; omega)
          -- a first byte above `x` is at least `x + 1`, and nothing is below `[]`
          have hbelow : y :: k < [x + 1] ↔ y.toNat ≤ x.toNat := by
            rw [List.cons_lt_cons_iff, UInt8.lt_iff_toNat_lt, hsucc, Nat.lt_succ_iff]
            exact or_iff_left fun h => List.not_lt_nil k h.2
          rw [List.cons_le_cons_iff, hbelow, List.cons_prefix_cons, ones_le_iff_prefix,
            UInt8.lt_iff_toNat_lt, ← UInt8.toNat_inj]
          constructor
          · rintro ⟨hlt | h, hle⟩
            · omega
            · exact h
          · intro h
            exact ⟨Or.inr h, by omega⟩
  | cons a start ih =>
      rw [List.cons_append, List.cons_append]
      cases k with
      | nil => simp
      | cons y k =>
          rw [List.cons_le_cons_iff, List.cons_lt_cons_iff, List.cons_prefix_cons, ← ih k]
          constructor
          · rintro ⟨hlt | ⟨rfl, hle⟩, hlt' | ⟨heq, hlt'⟩⟩
            · exact absurd hlt' (UInt8.lt_asymm hlt)
            · exact absurd (heq ▸ hlt) (UInt8.lt_irrefl a)
            · exact absurd hlt' (UInt8.lt_irrefl a)
            · exact ⟨rfl, hle, hlt'⟩
          · rintro ⟨rfl, hle, hlt⟩
            exact ⟨Or.inr ⟨rfl, hle⟩, Or.inr ⟨rfl, hlt⟩⟩

/-! ## Keys of fixed width -/

theorem append_lt_append_iff {a a' : Bytes} (hlen : a.length = a'.length) (b b' : Bytes) :
    a ++ b < a' ++ b' ↔ a < a' ∨ a = a' ∧ b < b' := by
  induction a generalizing a' with
  | nil =>
      obtain rfl := List.length_eq_zero_iff.mp hlen.symm
      simp
  | cons x a ih =>
      cases a' with
      | nil => cases hlen
      | cons y a' =>
          rw [List.cons_append, List.cons_append, List.cons_lt_cons_iff, List.cons_lt_cons_iff,
            ih (Nat.succ.inj hlen), List.cons.injEq]
          tauto

theorem lt_iff_ofBytes_lt {b c : Bytes} (hlen : b.length = c.length) :
    b < c ↔ ofBytes b < ofBytes c := by
  induction b generalizing c with
  | nil =>
      obtain rfl := List.length_eq_zero_iff.mp hlen.symm
      simp
  | cons x b ih =>
      cases c with
      | nil => cases hlen
      | cons y c =>
          have hlen' : b.length = c.length := Nat.succ.inj hlen
          have hb := ofBytes_lt b
          have hc := ofBytes_lt c
          rw [List.cons_lt_cons_iff, ih hlen', ofBytes_cons, ofBytes_cons, hlen',
            UInt8.lt_iff_toNat_lt, ← UInt8.toNat_inj]
          rw [hlen'] at hb
          rcases lt_trichotomy x.toNat y.toNat with hlt | heq | hgt
          · have hstep : (x.toNat + 1) * 256 ^ c.length ≤ y.toNat * 256 ^ c.length :=
              Nat.mul_le_mul_right _ hlt
            rw [Nat.add_mul] at hstep
            simp only [hlt, true_or, true_iff]
            omega
          · simp [heq]
          · have hstep : (y.toNat + 1) * 256 ^ c.length ≤ x.toNat * 256 ^ c.length :=
              Nat.mul_le_mul_right _ hgt
            rw [Nat.add_mul] at hstep
            constructor
            · rintro (hlt | ⟨heq, -⟩) <;> omega
            · intro hlt
              omega

theorem beBytes_lt_beBytes_iff {w m n : ℕ} (hm : m < 256 ^ w) (hn : n < 256 ^ w) :
    beBytes w m < beBytes w n ↔ m < n := by
  rw [lt_iff_ofBytes_lt (by simp), ofBytes_beBytes_of_lt hm, ofBytes_beBytes_of_lt hn]

end Bytes
