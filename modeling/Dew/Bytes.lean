/-
# Byte strings

Big-endian byte strings over `List UInt8`: the number a string spells (`ofBytes`), the
fixed-width string of a number (`beBytes`) and its shortest string (`minBytes`), with the
round trips between them. Nothing here is specific to one program.
-/
import Mathlib.Data.Nat.Log
import Mathlib.Tactic.Positivity
import Mathlib.Tactic.Ring

/-- A byte string. -/
abbrev Bytes := List UInt8

namespace Bytes

/-- The number a big-endian byte string spells. -/
def ofBytes (b : Bytes) : ℕ :=
  b.foldl (fun acc x => acc * 256 + x.toNat) 0

/-- The `w` low-order bytes of `n`, most significant first. -/
def beBytes : ℕ → ℕ → Bytes
  | 0, _ => []
  | w + 1, n => UInt8.ofNat (n >>> (8 * w)) :: beBytes w n

/-- The number of bytes `n` needs without leading zeros. -/
def byteLen (n : ℕ) : ℕ :=
  if n = 0 then 0 else Nat.log2 n / 8 + 1

/-- The shortest big-endian string of `n`; the empty string for `0`. -/
def minBytes (n : ℕ) : Bytes :=
  beBytes (byteLen n) n

/-! ## Fixed-width strings -/

@[simp] theorem length_beBytes (w n : ℕ) : (beBytes w n).length = w := by
  induction w with
  | zero => rfl
  | succ w ih => simp [beBytes, ih]

/-- Reading a string whose accumulator starts at `acc`. -/
theorem foldl_ofBytes (b : Bytes) (acc : ℕ) :
    b.foldl (fun acc x => acc * 256 + x.toNat) acc = acc * 256 ^ b.length + ofBytes b := by
  induction b generalizing acc with
  | nil => simp [ofBytes]
  | cons x b ih =>
      simp only [ofBytes, List.foldl_cons, List.length_cons]
      rw [ih, ih (0 * 256 + x.toNat), pow_succ]
      ring

theorem ofBytes_cons (x : UInt8) (b : Bytes) :
    ofBytes (x :: b) = x.toNat * 256 ^ b.length + ofBytes b := by
  rw [← foldl_ofBytes]
  simp [ofBytes]

theorem ofBytes_lt (b : Bytes) : ofBytes b < 256 ^ b.length := by
  induction b with
  | nil => simp [ofBytes]
  | cons x b ih =>
      have hx : x.toNat < 256 := x.toNat_lt
      rw [ofBytes_cons, List.length_cons, pow_succ]
      calc x.toNat * 256 ^ b.length + ofBytes b
          < x.toNat * 256 ^ b.length + 256 ^ b.length := by omega
        _ = (x.toNat + 1) * 256 ^ b.length := by ring
        _ ≤ 256 * 256 ^ b.length := Nat.mul_le_mul_right _ hx
        _ = 256 ^ b.length * 256 := by ring

/-- The fixed-width string of `n` reads back as `n` reduced to the width. -/
theorem ofBytes_beBytes (w n : ℕ) : ofBytes (beBytes w n) = n % 256 ^ w := by
  induction w with
  | zero => simp [beBytes, ofBytes, Nat.mod_one]
  | succ w ih =>
      have hshift : n >>> (8 * w) = n / 256 ^ w := by
        rw [Nat.shiftRight_eq_div_pow, pow_mul]
        norm_num
      have hmod : n % 256 ^ (w + 1) = n % 256 ^ w + 256 ^ w * (n / 256 ^ w % 256) := by
        rw [pow_succ, Nat.mod_mul]
      rw [beBytes, ofBytes_cons, ih, length_beBytes, hshift, UInt8.toNat_ofNat', hmod]
      norm_num
      ring

theorem ofBytes_beBytes_of_lt {w n : ℕ} (h : n < 256 ^ w) : ofBytes (beBytes w n) = n := by
  rw [ofBytes_beBytes, Nat.mod_eq_of_lt h]

/-- Numbers that fit the width are told apart by their strings. -/
theorem beBytes_injective {w m n : ℕ} (hm : m < 256 ^ w) (hn : n < 256 ^ w)
    (h : beBytes w m = beBytes w n) : m = n := by
  rw [← ofBytes_beBytes_of_lt hm, h, ofBytes_beBytes_of_lt hn]

theorem ofBytes_append_singleton (b : Bytes) (x : UInt8) :
    ofBytes (b ++ [x]) = ofBytes b * 256 + x.toNat := by
  simp [ofBytes]

/-- Strings of one length are told apart by the numbers they spell. -/
theorem ofBytes_injective {b c : Bytes} (hlen : b.length = c.length) (h : ofBytes b = ofBytes c) :
    b = c := by
  induction b generalizing c with
  | nil => exact (List.length_eq_zero_iff.mp hlen.symm).symm
  | cons x b ih =>
      cases c with
      | nil => cases hlen
      | cons y c =>
          rw [List.length_cons, List.length_cons, Nat.add_right_cancel_iff] at hlen
          have hb := ofBytes_lt b
          have hc := ofBytes_lt c
          rw [ofBytes_cons, ofBytes_cons, hlen] at h
          rw [hlen] at hb
          have hpos : 0 < 256 ^ c.length := Nat.pow_pos (by decide)
          have hhead : x.toNat = y.toNat := by
            have hdiv := congrArg (· / 256 ^ c.length) h
            simpa [Nat.mul_add_div hpos, Nat.mul_comm _ (256 ^ c.length), Nat.div_eq_of_lt hb,
              Nat.div_eq_of_lt hc] using hdiv
          rw [hhead] at h
          rw [UInt8.toNat_inj.mp hhead, ih hlen (by omega)]

theorem beBytes_ofBytes {b : Bytes} {w : ℕ} (h : b.length = w) : beBytes w (ofBytes b) = b := by
  refine ofBytes_injective (by rw [length_beBytes, h]) ?_
  exact ofBytes_beBytes_of_lt (h ▸ ofBytes_lt b)

/-! ## Shortest strings -/

theorem lt_pow_byteLen (n : ℕ) : n < 256 ^ byteLen n := by
  unfold byteLen
  split
  · rename_i h
    simp [h]
  · rename_i h
    have hlog : n < 2 ^ (Nat.log2 n + 1) := Nat.lt_log2_self
    have hexp : Nat.log2 n + 1 ≤ 8 * (Nat.log2 n / 8 + 1) := by omega
    calc n < 2 ^ (Nat.log2 n + 1) := hlog
      _ ≤ 2 ^ (8 * (Nat.log2 n / 8 + 1)) := Nat.pow_le_pow_right (by norm_num) hexp
      _ = 256 ^ (Nat.log2 n / 8 + 1) := by rw [pow_mul]; norm_num

@[simp] theorem ofBytes_minBytes (n : ℕ) : ofBytes (minBytes n) = n :=
  ofBytes_beBytes_of_lt (lt_pow_byteLen n)

theorem byteLen_le {n w : ℕ} (h : n < 256 ^ w) : byteLen n ≤ w := by
  unfold byteLen
  split
  · omega
  · rename_i hn
    have hpow : 2 ^ Nat.log2 n < 2 ^ (8 * w) := by
      calc 2 ^ Nat.log2 n ≤ n := Nat.log2_self_le hn
        _ < 256 ^ w := h
        _ = 2 ^ (8 * w) := by rw [pow_mul]; norm_num
    have := (Nat.pow_lt_pow_iff_right (by norm_num : 1 < 2)).mp hpow
    omega

theorem length_minBytes_le {n w : ℕ} (h : n < 256 ^ w) : (minBytes n).length ≤ w := by
  rw [minBytes, length_beBytes]
  exact byteLen_le h

/-- The shortest string has no leading zero byte. -/
theorem head_minBytes_ne_zero (n : ℕ) : (minBytes n).head? ≠ some 0 := by
  unfold minBytes byteLen
  split
  · simp [beBytes]
  · rename_i hn
    rw [beBytes, List.head?_cons]
    intro h
    have htop : (UInt8.ofNat (n >>> (8 * (Nat.log2 n / 8)))).toNat = 0 := by
      rw [Option.some.inj h]
      rfl
    rw [UInt8.toNat_ofNat', Nat.shiftRight_eq_div_pow] at htop
    have hle : 2 ^ (8 * (Nat.log2 n / 8)) ≤ n :=
      le_trans (Nat.pow_le_pow_right (by norm_num) (by omega)) (Nat.log2_self_le hn)
    have hlt : n < 2 ^ (8 * (Nat.log2 n / 8)) * 256 := by
      have : n < 2 ^ (Nat.log2 n + 1) := Nat.lt_log2_self
      refine lt_of_lt_of_le this ?_
      rw [show (256 : ℕ) = 2 ^ 8 from rfl, ← pow_add]
      exact Nat.pow_le_pow_right (by norm_num) (by omega)
    have hpos : 0 < n / 2 ^ (8 * (Nat.log2 n / 8)) := Nat.div_pos hle (by positivity)
    have hsmall : n / 2 ^ (8 * (Nat.log2 n / 8)) < 256 := Nat.div_lt_of_lt_mul hlt
    omega

theorem lt_pow_of_byteLen_le {n w : ℕ} (h : byteLen n ≤ w) : n < 256 ^ w :=
  lt_of_lt_of_le (lt_pow_byteLen n) (Nat.pow_le_pow_right (by norm_num) h)

/-- Leading zero bytes do not change the number. -/
theorem ofBytes_replicate_append (k : ℕ) (b : Bytes) :
    ofBytes (List.replicate k 0 ++ b) = ofBytes b := by
  induction k with
  | zero => rfl
  | succ k ih =>
      rw [List.replicate_succ, List.cons_append, ofBytes_cons, ih]
      simp

/-- The fixed-width string is the shortest one behind zero bytes. -/
theorem replicate_append_minBytes {n w : ℕ} (h : n < 256 ^ w) :
    List.replicate (w - byteLen n) 0 ++ minBytes n = beBytes w n := by
  have hle := byteLen_le h
  refine ofBytes_injective ?_ ?_
  · simp only [List.length_append, List.length_replicate, minBytes, length_beBytes]
    omega
  · rw [ofBytes_replicate_append, ofBytes_minBytes, ofBytes_beBytes_of_lt h]

/-- Without a leading zero byte, the number a string spells needs all of its bytes. -/
theorem byteLen_ofBytes {s : Bytes} (h : s.head? ≠ some 0) : byteLen (ofBytes s) = s.length := by
  refine le_antisymm (byteLen_le (ofBytes_lt s)) ?_
  cases s with
  | nil => exact Nat.zero_le _
  | cons x s =>
      have hx : x.toNat ≠ 0 := by
        intro h0
        refine h ?_
        rw [List.head?_cons, show x = 0 from UInt8.toNat_inj.mp h0]
      by_contra hlt
      have hle : byteLen (ofBytes (x :: s)) ≤ s.length := by
        rw [List.length_cons] at hlt
        omega
      have hsmall : ofBytes (x :: s) < 256 ^ s.length := lt_pow_of_byteLen_le hle
      rw [ofBytes_cons] at hsmall
      have hbig : 1 * 256 ^ s.length ≤ x.toNat * 256 ^ s.length :=
        Nat.mul_le_mul_right _ (Nat.one_le_iff_ne_zero.mpr hx)
      omega

theorem minBytes_ofBytes {s : Bytes} (h : s.head? ≠ some 0) : minBytes (ofBytes s) = s := by
  rw [minBytes, byteLen_ofBytes h]
  exact beBytes_ofBytes rfl

end Bytes
