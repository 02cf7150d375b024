/-
# Recursive length prefix encoding

Strings, integers and flat lists in the RLP wire format, with the strict reader: a length
that is not the shortest possible, a single byte below `0x80` behind a header and an integer
with leading zeros are all refused. The main facts are the round trips `split_encodeString`,
`decodeUint_encodeUint` and `split_encodeList`, each in front of arbitrary further bytes.
-/
import Dew.Bytes

open Bytes

namespace Rlp

/-- What a value in the wire format is: a byte string, or a list of values. -/
inductive Kind where
  | string
  | list
deriving DecidableEq, Repr

/-! ## Writing -/

/-- What the first header byte adds to its offset for a payload of `n` bytes. -/
def lengthCode (n : ℕ) : ℕ :=
  if n < 56 then n else 55 + byteLen n

/-- The length bytes after the first header byte; none for a short payload. -/
def lengthBytes (n : ℕ) : Bytes :=
  if n < 56 then [] else minBytes n

/-- A payload behind its header; `offset` is `0x80` for strings and `0xc0` for lists. -/
def withHeader (offset : ℕ) (payload : Bytes) : Bytes :=
  UInt8.ofNat (offset + lengthCode payload.length) :: (lengthBytes payload.length ++ payload)

def encodeString : Bytes → Bytes
  | [b] => if b < 0x80 then [b] else withHeader 0x80 [b]
  | s => withHeader 0x80 s

/-- Integers are the strings of their shortest bytes. -/
def encodeUint (n : ℕ) : Bytes :=
  encodeString (minBytes n)

/-- A list of values that are already encoded. -/
def encodeList (items : List Bytes) : Bytes :=
  withHeader 0xc0 items.flatten

/-! ## Reading -/

/-- The first `n` bytes and the rest, when there are that many. -/
def takeExact (n : ℕ) (b : Bytes) : Option (Bytes × Bytes) :=
  if n ≤ b.length then some (b.take n, b.drop n) else none

/-- The payload behind a first header byte of offset distance `code`. -/
def splitPayload (code : ℕ) (b : Bytes) : Option (Bytes × Bytes) :=
  if code < 56 then takeExact code b
  else do
    let (len, b) ← takeExact (code - 55) b
    if len.head? = some 0 ∨ ofBytes len < 56 then none
    else takeExact (ofBytes len) b

/-- The first value of `b`: its kind, its payload and the bytes after it. -/
def split : Bytes → Option (Kind × Bytes × Bytes)
  | [] => none
  | t :: b =>
    if t < 0x80 then some (.string, [t], b)
    else if t < 0xc0 then do
      let (s, rest) ← splitPayload (t.toNat - 0x80) b
      match s with
      | [c] => if c < 0x80 then none else some (.string, [c], rest)
      | s => some (.string, s, rest)
    else do
      let (s, rest) ← splitPayload (t.toNat - 0xc0) b
      some (.list, s, rest)

def decodeString (b : Bytes) : Option (Bytes × Bytes) :=
  match split b with
  | some (.string, s, rest) => some (s, rest)
  | _ => none

/-- An integer of any size. -/
def decodeNat (b : Bytes) : Option (ℕ × Bytes) := do
  let (s, rest) ← decodeString b
  if s.head? = some 0 then none else some (ofBytes s, rest)

/-- An integer of at most `w` bytes. -/
def decodeUint (w : ℕ) (b : Bytes) : Option (ℕ × Bytes) := do
  let (s, rest) ← decodeString b
  if s.head? = some 0 ∨ w < s.length then none else some (ofBytes s, rest)

/-- A string read as an integer of any size. -/
def natOf (s : Bytes) : Option ℕ :=
  if s.head? = some 0 then none else some (ofBytes s)

/-- A string read as an integer of at most `w` bytes. -/
def uintOf (w : ℕ) (s : Bytes) : Option ℕ :=
  if s.head? = some 0 ∨ w < s.length then none else some (ofBytes s)

/-- The payload of a list that fills `b` completely. -/
def decodeList (b : Bytes) : Option Bytes :=
  match split b with
  | some (.list, s, []) => some s
  | _ => none

/-- The strings of a list payload; `n` bounds their number. -/
def decodeStringsUpTo : ℕ → Bytes → Option (List Bytes)
  | _, [] => some []
  | 0, _ => none
  | n + 1, b => do
    let (s, rest) ← decodeString b
    let ss ← decodeStringsUpTo n rest
    some (s :: ss)

/-- A list of strings that fills `b` completely. -/
def decodeStringList (b : Bytes) : Option (List Bytes) := do
  let payload ← decodeList b
  decodeStringsUpTo payload.length payload

/-- A list of strings, and the bytes after it. -/
def decodeStrings (b : Bytes) : Option (List Bytes × Bytes) :=
  match split b with
  | some (.list, s, rest) => do
    let ss ← decodeStringsUpTo s.length s
    some (ss, rest)
  | _ => none

/-! ## Round trips -/

theorem takeExact_append {n : ℕ} {s : Bytes} (h : s.length = n) (rest : Bytes) :
    takeExact n (s ++ rest) = some (s, rest) := by
  subst h
  simp [takeExact]

theorem lengthCode_lt {n : ℕ} (h : n < 256 ^ 8) : lengthCode n < 64 := by
  have := byteLen_le h
  unfold lengthCode
  split <;> omega

/-- A payload is found again behind its length bytes. -/
theorem splitPayload_append {s : Bytes} (hs : s.length < 256 ^ 8) (rest : Bytes) :
    splitPayload (lengthCode s.length) (lengthBytes s.length ++ s ++ rest) = some (s, rest) := by
  unfold splitPayload lengthCode lengthBytes
  by_cases hlen : s.length < 56
  · simp only [hlen, if_true, List.nil_append]
    exact takeExact_append rfl rest
  · have hcode : ¬ 55 + byteLen s.length < 56 := by
      have : 0 < byteLen s.length := by
        unfold byteLen
        split <;> omega
      omega
    have htake : takeExact (55 + byteLen s.length - 55) (minBytes s.length ++ (s ++ rest)) =
        some (minBytes s.length, s ++ rest) :=
      takeExact_append (by simp [minBytes]) _
    simp only [hlen, hcode, if_false, List.append_assoc, htake, Option.bind_eq_bind,
      Option.bind_some, ofBytes_minBytes, head_minBytes_ne_zero, or_self]
    exact takeExact_append rfl rest

/-- The first header byte determines the offset distance it was made from. -/
theorem toNat_headerByte {o c : ℕ} (h : o + c < 256) :
    (UInt8.ofNat (o + c)).toNat = o + c := by
  rw [UInt8.toNat_ofNat']
  exact Nat.mod_eq_of_lt h

/-- A string behind a header is found again, unless it is a single byte below `0x80`. -/
theorem split_withHeader_string {s : Bytes} (hs : s.length < 256 ^ 8)
    (hbyte : ∀ c, s = [c] → ¬ c < 0x80) (rest : Bytes) :
    split (withHeader 0x80 s ++ rest) = some (.string, s, rest) := by
  have hcode := lengthCode_lt hs
  have hnat := toNat_headerByte (o := 0x80) (c := lengthCode s.length) (by omega)
  have hlow : ¬ UInt8.ofNat (0x80 + lengthCode s.length) < 0x80 := by
    rw [UInt8.lt_iff_toNat_lt, hnat]
    simp
  have hhigh : UInt8.ofNat (0x80 + lengthCode s.length) < 0xc0 := by
    rw [UInt8.lt_iff_toNat_lt, hnat]
    show 0x80 + lengthCode s.length < 192
    omega
  simp only [withHeader, List.cons_append, split, hlow, hhigh, if_true, if_false, hnat,
    Nat.add_sub_cancel_left, splitPayload_append hs, Option.bind_eq_bind, Option.bind_some]
  rcases s with _ | ⟨c, _ | ⟨d, t⟩⟩
  · rfl
  · exact if_neg (hbyte c rfl)
  · rfl

theorem split_encodeString {s : Bytes} (hs : s.length < 256 ^ 8) (rest : Bytes) :
    split (encodeString s ++ rest) = some (.string, s, rest) := by
  unfold encodeString
  split
  · rename_i b
    split
    · rename_i hb
      simp [split, hb]
    · rename_i hb
      refine split_withHeader_string hs ?_ rest
      intro c hc
      obtain rfl : b = c := by simpa using hc
      exact hb
  · rename_i hne
    exact split_withHeader_string hs (fun c hc => absurd hc (hne c)) rest

theorem decodeString_encodeString {s : Bytes} (hs : s.length < 256 ^ 8) (rest : Bytes) :
    decodeString (encodeString s ++ rest) = some (s, rest) := by
  simp [decodeString, split_encodeString hs]

theorem decodeNat_encodeUint {n : ℕ} (h : n < 256 ^ (256 ^ 8 - 1)) (rest : Bytes) :
    decodeNat (encodeUint n ++ rest) = some (n, rest) := by
  have hlen : (minBytes n).length < 256 ^ 8 :=
    lt_of_le_of_lt (length_minBytes_le h) (by norm_num)
  simp [decodeNat, encodeUint, decodeString_encodeString hlen, head_minBytes_ne_zero]

theorem decodeUint_encodeUint {n w : ℕ} (hw : w < 256 ^ 8) (h : n < 256 ^ w) (rest : Bytes) :
    decodeUint w (encodeUint n ++ rest) = some (n, rest) := by
  have hle := length_minBytes_le h
  have hlen : (minBytes n).length < 256 ^ 8 := lt_of_le_of_lt hle hw
  simp [decodeUint, encodeUint, decodeString_encodeString hlen, head_minBytes_ne_zero, hle]

theorem split_encodeList {items : List Bytes} (h : items.flatten.length < 256 ^ 8)
    (rest : Bytes) :
    split (encodeList items ++ rest) = some (.list, items.flatten, rest) := by
  have hcode := lengthCode_lt h
  have hnat := toNat_headerByte (o := 0xc0) (c := lengthCode items.flatten.length)
    (by omega)
  have hlow : ¬ UInt8.ofNat (0xc0 + lengthCode items.flatten.length) < 0x80 := by
    rw [UInt8.lt_iff_toNat_lt, hnat]
    show ¬ 0xc0 + lengthCode items.flatten.length < 128
    omega
  have hhigh : ¬ UInt8.ofNat (0xc0 + lengthCode items.flatten.length) < 0xc0 := by
    rw [UInt8.lt_iff_toNat_lt, hnat]
    simp
  simp only [encodeList, withHeader, List.cons_append, split, hlow, hhigh, if_false, hnat,
    Nat.add_sub_cancel_left, splitPayload_append h, Option.bind_eq_bind, Option.bind_some]

theorem decodeList_encodeList {items : List Bytes} (h : items.flatten.length < 256 ^ 8) :
    decodeList (encodeList items) = some items.flatten := by
  have := split_encodeList h []
  rw [List.append_nil] at this
  simp [decodeList, this]

@[simp] theorem natOf_minBytes (n : ℕ) : natOf (minBytes n) = some n := by
  simp [natOf, head_minBytes_ne_zero]

theorem uintOf_minBytes {n w : ℕ} (h : n < 256 ^ w) : uintOf w (minBytes n) = some n := by
  have hle := length_minBytes_le h
  simp [uintOf, head_minBytes_ne_zero, hle]

theorem encodeString_ne_nil (s : Bytes) : encodeString s ≠ [] := by
  unfold encodeString
  split
  · split <;> simp [withHeader]
  · simp [withHeader]

theorem decodeStringsUpTo_map {ss : List Bytes} (hs : ∀ s ∈ ss, s.length < 256 ^ 8) {n : ℕ}
    (hn : ss.length ≤ n) : decodeStringsUpTo n (ss.map encodeString).flatten = some ss := by
  induction ss generalizing n with
  | nil =>
      cases n with
      | zero => rfl
      | succ n => rfl
  | cons s ss ih =>
      have hss := ih (fun t ht => hs t (List.mem_cons_of_mem s ht)) (n := n - 1)
        (by simp only [List.length_cons] at hn; omega)
      obtain ⟨m, rfl⟩ : ∃ m, n = m + 1 :=
        ⟨n - 1, by simp only [List.length_cons] at hn; omega⟩
      have hread := decodeString_encodeString (hs s List.mem_cons_self)
        (ss.map encodeString).flatten
      rw [List.map_cons, List.flatten_cons]
      obtain ⟨c, rest, hcons⟩ := List.exists_cons_of_ne_nil
        (List.append_ne_nil_of_left_ne_nil (encodeString_ne_nil s) (ss.map encodeString).flatten)
      rw [hcons] at hread ⊢
      simp only [decodeStringsUpTo, hread, Option.bind_eq_bind, Option.bind_some]
      rw [Nat.add_sub_cancel] at hss
      rw [hss]
      rfl

/-- Every string of a list adds a byte at least. -/
theorem length_le_flatten_map (ss : List Bytes) :
    ss.length ≤ (ss.map encodeString).flatten.length := by
  induction ss with
  | nil => simp
  | cons s ss ih =>
      have := List.length_pos_of_ne_nil (encodeString_ne_nil s)
      simp only [List.length_cons, List.map_cons, List.flatten_cons, List.length_append]
      omega

theorem length_le_encodeString (s : Bytes) : s.length ≤ (encodeString s).length := by
  unfold encodeString withHeader
  split
  · split
    · exact le_rfl
    · simp
  · simp
    omega

theorem length_lt_of_flatten_lt {ss : List Bytes} {n : ℕ}
    (h : (ss.map encodeString).flatten.length < n) : ∀ s ∈ ss, s.length < n := by
  intro s hs
  have hle : (encodeString s).length ≤ (ss.map encodeString).flatten.length :=
    (List.sublist_flatten_of_mem (List.mem_map_of_mem hs)).length_le
  exact lt_of_le_of_lt ((length_le_encodeString s).trans hle) h

/-- Lists of strings read back as they were written. -/
theorem decodeStringList_encodeList {ss : List Bytes}
    (h : (ss.map encodeString).flatten.length < 256 ^ 8) :
    decodeStringList (encodeList (ss.map encodeString)) = some ss := by
  simp only [decodeStringList, decodeList_encodeList h, Option.bind_eq_bind, Option.bind_some]
  exact decodeStringsUpTo_map (length_lt_of_flatten_lt h) (length_le_flatten_map ss)

/-- A list of strings is determined by its encoding. -/
theorem encodeList_map_inj {xs ys : List Bytes} (hxs : (xs.map encodeString).flatten.length < 256 ^ 8)
    (hys : (ys.map encodeString).flatten.length < 256 ^ 8)
    (h : encodeList (xs.map encodeString) = encodeList (ys.map encodeString)) : xs = ys := by
  have hread := decodeStringList_encodeList hxs
  rw [h, decodeStringList_encodeList hys] at hread
  exact (Option.some.inj hread).symm

theorem length_encodeString_le {s : Bytes} (h : s.length < 56) :
    (encodeString s).length ≤ s.length + 1 := by
  unfold encodeString
  split
  · split
    · simp
    · simp [withHeader, lengthBytes]
  · simp [withHeader, lengthBytes, h]

/-- A header has at most nine bytes. -/
theorem length_withHeader_le_add_nine (o : ℕ) {s : Bytes} (h : s.length < 256 ^ 8) :
    (withHeader o s).length ≤ s.length + 9 := by
  have hbytes := length_minBytes_le h
  simp only [withHeader, lengthBytes, List.length_cons, List.length_append]
  split
  · simp
  · omega

theorem length_encodeString_le_add_nine {s : Bytes} (h : s.length < 256 ^ 8) :
    (encodeString s).length ≤ s.length + 9 := by
  have hheader := length_withHeader_le_add_nine 0x80 h
  unfold encodeString
  split
  · split
    · simp
    · exact hheader
  · exact hheader

end Rlp
