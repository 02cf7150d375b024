/-
# What the strict RLP reader accepts

Every reader accepts exactly the encodings: it finds a value and a rest just if the bytes are the
encoding of that value followed by the rest (`Reads`). Hence no two byte strings read as the same
value. The readers of lists and of records are built from those of their parts, and `Reads` is
kept on the way.
-/
import Dew.Rlp

open Bytes

namespace Rlp

/-! ## Payloads -/

theorem takeExact_eq_some_iff {n : ℕ} {b s rest : Bytes} :
    takeExact n b = some (s, rest) ↔ s.length = n ∧ b = s ++ rest := by
  constructor
  · intro h
    unfold takeExact at h
    split at h
    · rename_i hn
      obtain ⟨rfl, rfl⟩ := Prod.mk.inj (Option.some.inj h)
      exact ⟨List.length_take_of_le hn, (List.take_append_drop n b).symm⟩
    · cases h
  · rintro ⟨hs, rfl⟩
    exact takeExact_append hs rest

/-- Length bytes without a leading zero that spell at least 56 are those of the length. -/
theorem splitPayload_sound {code : ℕ} (hcode : code < 64) {b s rest : Bytes}
    (h : splitPayload code b = some (s, rest)) :
    s.length < 256 ^ 8 ∧ code = lengthCode s.length ∧ b = lengthBytes s.length ++ s ++ rest := by
  unfold splitPayload at h
  split at h
  · rename_i hshort
    obtain ⟨rfl, rfl⟩ := takeExact_eq_some_iff.mp h
    have hlt : s.length < 256 ^ 8 := by omega
    exact ⟨hlt, by simp [lengthCode, hshort], by simp [lengthBytes, hshort]⟩
  · rename_i hlong
    obtain ⟨⟨len, tail⟩, hlen, hnext⟩ := Option.bind_eq_some_iff.mp h
    obtain ⟨hcount, rfl⟩ := takeExact_eq_some_iff.mp hlen
    simp only at hnext
    split at hnext
    · cases hnext
    rename_i hcanon
    rw [not_or] at hcanon
    obtain ⟨hs, rfl⟩ := takeExact_eq_some_iff.mp hnext
    have hbytes : byteLen s.length = code - 55 := by
      rw [hs, byteLen_ofBytes hcanon.1, hcount]
    have hlt : s.length < 256 ^ 8 := by
      rw [hs]
      exact lt_of_lt_of_le (ofBytes_lt len) (Nat.pow_le_pow_right (by norm_num) (by omega))
    have hbig : ¬ s.length < 56 := by
      rw [hs]
      exact hcanon.2
    refine ⟨hlt, ?_, ?_⟩
    · rw [lengthCode, if_neg hbig]
      omega
    · rw [lengthBytes, if_neg hbig, hs, minBytes_ofBytes hcanon.1, List.append_assoc]

/-- The first header byte is the offset and the code of the length. -/
theorem headerByte_eq {t : UInt8} {o c : ℕ} (h : o ≤ t.toNat) (hc : t.toNat - o = c) :
    UInt8.ofNat (o + c) = t := by
  rw [← hc, Nat.add_sub_cancel' h, UInt8.ofNat_toNat]

/-- A payload as a value of either kind. -/
def encodeAs : Kind → Bytes → Bytes
  | .string, s => encodeString s
  | .list, s => withHeader 0xc0 s

/-- What `split` finds is a value at the front of the bytes. -/
theorem split_sound {b s rest : Bytes} {k : Kind} (h : split b = some (k, s, rest)) :
    s.length < 256 ^ 8 ∧ b = encodeAs k s ++ rest := by
  cases b with
  | nil => cases h
  | cons t b =>
      have ht : t.toNat < 256 := t.toNat_lt
      simp only [split] at h
      split at h
      · rename_i hlow
        obtain ⟨rfl, rfl, rfl⟩ : Kind.string = k ∧ [t] = s ∧ b = rest := by simpa using h
        simp [encodeAs, encodeString, hlow]
      · rename_i hlow
        have hlow' : 0x80 ≤ t.toNat := by
          rw [UInt8.lt_iff_toNat_lt] at hlow
          exact not_lt.mp hlow
        split at h
        · rename_i hhigh
          have hhigh' : t.toNat < 0xc0 := UInt8.lt_iff_toNat_lt.mp hhigh
          obtain ⟨⟨p, tail⟩, hp, hnext⟩ := Option.bind_eq_some_iff.mp h
          obtain ⟨hlt, hcode, rfl⟩ := splitPayload_sound (by omega) hp
          have hheader : t :: (lengthBytes p.length ++ p ++ tail) = withHeader 0x80 p ++ tail := by
            rw [withHeader, headerByte_eq hlow' hcode, List.cons_append]
          rcases p with _ | ⟨c, _ | ⟨d, p⟩⟩
          · obtain ⟨rfl, rfl, rfl⟩ : Kind.string = k ∧ [] = s ∧ tail = rest := by simpa using hnext
            exact ⟨hlt, hheader⟩
          · simp only at hnext
            split at hnext
            · cases hnext
            · rename_i hc
              obtain ⟨rfl, rfl, rfl⟩ : Kind.string = k ∧ [c] = s ∧ tail = rest := by simpa using hnext
              refine ⟨hlt, ?_⟩
              rw [hheader, encodeAs, encodeString, if_neg hc]
          · obtain ⟨rfl, rfl, rfl⟩ : Kind.string = k ∧ c :: d :: p = s ∧ tail = rest := by
              simpa using hnext
            exact ⟨hlt, hheader⟩
        · rename_i hhigh
          have hhigh' : 0xc0 ≤ t.toNat := by
            rw [UInt8.lt_iff_toNat_lt] at hhigh
            exact not_lt.mp hhigh
          obtain ⟨⟨p, tail⟩, hp, hnext⟩ := Option.bind_eq_some_iff.mp h
          obtain ⟨hlt, hcode, rfl⟩ := splitPayload_sound (by omega) hp
          obtain ⟨rfl, rfl, rfl⟩ : Kind.list = k ∧ p = s ∧ tail = rest := by simpa using hnext
          refine ⟨hlt, ?_⟩
          rw [encodeAs, withHeader, headerByte_eq hhigh' hcode, List.cons_append]

theorem split_eq_string_iff {b s rest : Bytes} :
    split b = some (.string, s, rest) ↔ s.length < 256 ^ 8 ∧ b = encodeString s ++ rest := by
  constructor
  · exact split_sound
  · rintro ⟨hs, rfl⟩
    exact split_encodeString hs rest

theorem split_eq_list_iff {b s rest : Bytes} :
    split b = some (.list, s, rest) ↔ s.length < 256 ^ 8 ∧ b = withHeader 0xc0 s ++ rest := by
  constructor
  · exact split_sound
  · rintro ⟨hs, rfl⟩
    have h : split (encodeList [s] ++ rest) = _ := split_encodeList (by simpa using hs) rest
    simpa [encodeList] using h

/-! ## Readers -/

/-- The reader accepts exactly the encodings of the `good` values, as long as they are short enough
for a header. -/
structure Reads {α : Type} (read : Bytes → Option (α × Bytes)) (enc : α → Bytes)
    (good : α → Prop) : Prop where
  sound : ∀ b a rest, read b = some (a, rest) → good a ∧ b = enc a ++ rest
  complete : ∀ a rest, good a → (enc a).length < 256 ^ 8 → read (enc a ++ rest) = some (a, rest)

theorem reads_decodeString : Reads decodeString encodeString fun _ => True where
  sound := by
    intro b s rest h
    unfold decodeString at h
    split at h
    · rename_i s' rest' hsplit
      obtain ⟨rfl, rfl⟩ := Prod.mk.inj (Option.some.inj h)
      exact ⟨trivial, (split_eq_string_iff.mp hsplit).2⟩
    · cases h
  complete := by
    intro s rest _ hlen
    exact decodeString_encodeString (lt_of_le_of_lt (length_le_encodeString s) hlen) rest

theorem reads_decodeNat : Reads decodeNat encodeUint fun _ => True where
  sound := by
    intro b n rest h
    obtain ⟨⟨s, tail⟩, hs, hnext⟩ := Option.bind_eq_some_iff.mp h
    obtain ⟨-, rfl⟩ := reads_decodeString.sound b s tail hs
    simp only at hnext
    split at hnext
    · cases hnext
    · rename_i hhead
      obtain ⟨rfl, rfl⟩ := Prod.mk.inj (Option.some.inj hnext)
      rw [encodeUint, minBytes_ofBytes hhead]
      exact ⟨trivial, rfl⟩
  complete := by
    intro n rest _ hlen
    have hread := reads_decodeString.complete (minBytes n) rest trivial hlen
    simp [decodeNat, encodeUint, hread, head_minBytes_ne_zero]

theorem reads_decodeUint {w : ℕ} (hw : w < 256 ^ 8) :
    Reads (decodeUint w) encodeUint fun n => n < 256 ^ w where
  sound := by
    intro b n rest h
    obtain ⟨⟨s, tail⟩, hs, hnext⟩ := Option.bind_eq_some_iff.mp h
    obtain ⟨-, rfl⟩ := reads_decodeString.sound b s tail hs
    simp only at hnext
    split at hnext
    · cases hnext
    · rename_i hcanon
      rw [not_or, not_lt] at hcanon
      obtain ⟨rfl, rfl⟩ := Prod.mk.inj (Option.some.inj hnext)
      rw [encodeUint, minBytes_ofBytes hcanon.1]
      exact ⟨lt_of_lt_of_le (ofBytes_lt s) (Nat.pow_le_pow_right (by norm_num) hcanon.2), rfl⟩
  complete := fun _ rest hn _ => decodeUint_encodeUint hw hn rest

theorem decodeList_eq_some_iff {b s : Bytes} :
    decodeList b = some s ↔ s.length < 256 ^ 8 ∧ b = withHeader 0xc0 s := by
  have hsplit : split b = some (.list, s, []) ↔ _ := split_eq_list_iff
  rw [List.append_nil] at hsplit
  rw [← hsplit]
  unfold decodeList
  split
  · rename_i heq
    simp [heq]
  · rename_i hne
    constructor
    · intro h
      cases h
    · intro h
      exact absurd h (hne s)

theorem length_le_withHeader (o : ℕ) (s : Bytes) : s.length ≤ (withHeader o s).length := by
  rw [withHeader, List.length_cons, List.length_append]
  omega

/-- A list is at least as long as each of its items. -/
theorem length_le_encodeList {items : List Bytes} {s : Bytes} (h : s ∈ items) :
    s.length ≤ (encodeList items).length :=
  (List.sublist_flatten_of_mem h).length_le.trans (length_le_withHeader 0xc0 items.flatten)

/-- The length with the header tells the length without it. -/
theorem withHeader_injective (o : ℕ) : Function.Injective (withHeader o) := by
  intro s s' h
  have hmono : ∀ m n, m < n → (lengthBytes m).length + m < (lengthBytes n).length + n := by
    intro m n hmn
    have hle : (lengthBytes m).length ≤ (lengthBytes n).length := by
      have hbyte : byteLen m ≤ byteLen n := byteLen_le (hmn.trans (lt_pow_byteLen n))
      unfold lengthBytes
      by_cases hm : m < 56
      · simp [hm]
      · simpa [hm, show ¬ n < 56 by omega, minBytes] using hbyte
    omega
  obtain ⟨-, htail⟩ := List.cons_eq_cons.mp h
  have hlen : s.length = s'.length := by
    have htotal := congrArg List.length htail
    rw [List.length_append, List.length_append] at htotal
    rcases lt_trichotomy s.length s'.length with hlt | heq | hgt
    · exact absurd htotal (hmono _ _ hlt).ne
    · exact heq
    · exact absurd htotal (hmono _ _ hgt).ne'
  rw [hlen] at htail
  exact List.append_cancel_left htail

/-! ## Lists and records -/

section Lists

variable {α β : Type}

/-- The values of a list payload; `n` bounds their number. -/
def decodeAllUpTo (read : Bytes → Option (α × Bytes)) : ℕ → Bytes → Option (List α)
  | _, [] => some []
  | 0, _ => none
  | n + 1, b => do
    let (a, rest) ← read b
    let as ← decodeAllUpTo read n rest
    some (a :: as)

/-- A list of values, and the bytes after it. -/
def decodeListOf (read : Bytes → Option (α × Bytes)) (b : Bytes) : Option (List α × Bytes) :=
  match split b with
  | some (.list, s, rest) => do
    let as ← decodeAllUpTo read s.length s
    some (as, rest)
  | _ => none

/-- A value that fills the bytes completely. -/
def decodeBytes (read : Bytes → Option (α × Bytes)) (b : Bytes) : Option α :=
  match read b with
  | some (a, []) => some a
  | _ => none

/-- A list whose payload is exactly what `fields` reads, and the bytes after it. -/
def decodeRecord (fields : Bytes → Option (α × Bytes)) (b : Bytes) : Option (α × Bytes) :=
  match split b with
  | some (.list, s, rest) => (decodeBytes fields s).map fun a => (a, rest)
  | _ => none

/-- One value after another. -/
def decodePair (first : Bytes → Option (α × Bytes)) (second : Bytes → Option (β × Bytes))
    (b : Bytes) : Option ((α × β) × Bytes) := do
  let (x, b) ← first b
  let (y, b) ← second b
  some ((x, y), b)

/-- A value in another form. -/
def decodeAs (f : α → β) (read : Bytes → Option (α × Bytes)) (b : Bytes) : Option (β × Bytes) :=
  (read b).map (Prod.map f id)

variable {read : Bytes → Option (α × Bytes)} {enc : α → Bytes} {good : α → Prop}

theorem Reads.congr (h : Reads read enc good) {enc' : α → Bytes} {good' : α → Prop}
    (henc : ∀ a, enc a = enc' a) (hgood : ∀ a, good a ↔ good' a) : Reads read enc' good' := by
  obtain rfl : enc = enc' := funext henc
  obtain rfl : good = good' := funext fun a => propext (hgood a)
  exact h

theorem Reads.of_bind (h : Reads read enc good) {f : α × Bytes → Option β} {b : Bytes} {c : β}
    (hbind : (read b >>= f) = some c) :
    ∃ a rest, (good a ∧ b = enc a ++ rest) ∧ f (a, rest) = some c := by
  obtain ⟨⟨a, rest⟩, hread, hf⟩ := Option.bind_eq_some_iff.mp hbind
  exact ⟨a, rest, h.sound b a rest hread, hf⟩

theorem Reads.bind_enc (h : Reads read enc good) {f : α × Bytes → Option β} {a : α}
    (ha : good a) (hlen : (enc a).length < 256 ^ 8) (rest : Bytes) :
    (read (enc a ++ rest) >>= f) = f (a, rest) := by
  rw [h.complete a rest ha hlen]
  rfl

theorem Reads.decodeBytes (h : Reads read enc good) {b : Bytes} {a : α}
    (hread : decodeBytes read b = some a) : good a ∧ b = enc a := by
  unfold Rlp.decodeBytes at hread
  split at hread
  · rename_i a' hsome
    obtain rfl := Option.some.inj hread
    obtain ⟨ha, rfl⟩ := h.sound b a' [] hsome
    exact ⟨ha, List.append_nil _⟩
  · cases hread

theorem Reads.decodeBytes_enc (h : Reads read enc good) {a : α} (ha : good a)
    (hlen : (enc a).length < 256 ^ 8) : Rlp.decodeBytes read (enc a) = some a := by
  have hread := h.complete a [] ha hlen
  rw [List.append_nil] at hread
  rw [Rlp.decodeBytes, hread]

theorem Reads.pair {second : Bytes → Option (β × Bytes)} {enc' : β → Bytes} {good' : β → Prop}
    (h : Reads read enc good) (h' : Reads second enc' good') :
    Reads (decodePair read second) (fun x => enc x.1 ++ enc' x.2)
      fun x => good x.1 ∧ good' x.2 where
  sound := by
    rintro b ⟨x, y⟩ rest hread
    obtain ⟨x', tail, ⟨hx, rfl⟩, hnext⟩ := h.of_bind hread
    obtain ⟨y', tail, ⟨hy, rfl⟩, heq⟩ := h'.of_bind hnext
    obtain ⟨⟨rfl, rfl⟩, rfl⟩ := by simpa using heq
    exact ⟨⟨hx, hy⟩, (List.append_assoc _ _ _).symm⟩
  complete := by
    rintro ⟨x, y⟩ rest ⟨hx, hy⟩ hlen
    simp only [List.length_append] at hlen
    simp only [decodePair, List.append_assoc]
    rw [h.bind_enc (a := x) hx (by omega), h'.bind_enc (a := y) hy (by omega)]

theorem Reads.as (h : Reads read enc good) {f : α → β} {g : β → α}
    (hgf : ∀ a, good a → g (f a) = a) :
    Reads (decodeAs f read) (fun y => enc (g y)) fun y => good (g y) ∧ f (g y) = y where
  sound := by
    intro b y rest hread
    obtain ⟨⟨a, tail⟩, ha, heq⟩ := Option.map_eq_some_iff.mp hread
    obtain ⟨rfl, rfl⟩ := Prod.mk.inj heq
    obtain ⟨hgood, rfl⟩ := h.sound b a tail ha
    rw [hgf a hgood]
    exact ⟨⟨hgood, rfl⟩, rfl⟩
  complete := by
    rintro y rest ⟨hgood, hfg⟩ hlen
    simp [decodeAs, h.complete (g y) rest hgood hlen, hfg]

theorem Reads.record_payload (h : Reads read enc good) {b : Bytes} {a : α} {rest : Bytes} :
    decodeRecord read b = some (a, rest) ↔
      (good a ∧ (enc a).length < 256 ^ 8) ∧ b = withHeader 0xc0 (enc a) ++ rest := by
  constructor
  · intro hread
    unfold decodeRecord at hread
    split at hread
    · rename_i s tail hsplit
      obtain ⟨hlen, rfl⟩ := split_eq_list_iff.mp hsplit
      obtain ⟨a', hfields, heq⟩ := Option.map_eq_some_iff.mp hread
      obtain ⟨rfl, rfl⟩ := Prod.mk.inj heq
      obtain ⟨hgood, rfl⟩ := h.decodeBytes hfields
      exact ⟨⟨hgood, hlen⟩, rfl⟩
    · cases hread
  · rintro ⟨⟨hgood, hlen⟩, rfl⟩
    simp only [decodeRecord, split_eq_list_iff.mpr ⟨hlen, rfl⟩, h.decodeBytes_enc hgood hlen,
      Option.map_some]

theorem Reads.record (h : Reads read enc good) :
    Reads (decodeRecord read) (fun a => withHeader 0xc0 (enc a)) good where
  sound := by
    intro b a rest hread
    obtain ⟨⟨hgood, -⟩, hb⟩ := h.record_payload.mp hread
    exact ⟨hgood, hb⟩
  complete := by
    intro a rest hgood hlen
    have hlen' := lt_of_le_of_lt (length_le_withHeader 0xc0 (enc a)) hlen
    exact h.record_payload.mpr ⟨⟨hgood, hlen'⟩, rfl⟩

/-- The bytes of a record, exactly. -/
theorem Reads.decodeBytes_record (h : Reads read enc good) {b : Bytes} {a : α} :
    Rlp.decodeBytes (decodeRecord read) b = some a ↔
      (good a ∧ (enc a).length < 256 ^ 8) ∧ b = withHeader 0xc0 (enc a) := by
  have hiff : decodeRecord read b = some (a, []) ↔ _ := h.record_payload
  rw [List.append_nil] at hiff
  rw [← hiff]
  unfold Rlp.decodeBytes
  split
  · rename_i a' hsome
    simp [hsome]
  · rename_i hne
    constructor
    · intro hread
      cases hread
    · intro hread
      exact absurd hread (hne a)

/-- A record reads back from the list of its encoded fields. -/
theorem Reads.decodeBytes_encodeList {items : α → List Bytes}
    (h : Reads read (fun a => (items a).flatten) good) {a : α} (ha : good a)
    (hlen : (encodeList (items a)).length < 256 ^ 8) :
    Rlp.decodeBytes (decodeRecord read) (encodeList (items a)) = some a :=
  h.decodeBytes_record.mpr
    ⟨⟨ha, lt_of_le_of_lt (length_le_withHeader 0xc0 (items a).flatten) hlen⟩, rfl⟩

theorem Reads.allUpTo (h : Reads read enc good) {n : ℕ} {b : Bytes} {as : List α}
    (hread : decodeAllUpTo read n b = some as) :
    (∀ a ∈ as, good a) ∧ b = (as.map enc).flatten := by
  induction n generalizing b as with
  | zero =>
      cases b with
      | nil => cases hread; simp
      | cons x b => cases hread
  | succ n ih =>
      cases b with
      | nil => cases hread; simp
      | cons x b =>
          simp only [decodeAllUpTo] at hread
          obtain ⟨a, rest, ⟨ha, hb⟩, hnext⟩ := h.of_bind hread
          obtain ⟨tail, htail, heq⟩ := Option.bind_eq_some_iff.mp hnext
          obtain ⟨hgood, rfl⟩ := ih htail
          obtain rfl : a :: tail = as := by simpa using heq
          exact ⟨by simpa using ⟨ha, hgood⟩, by simpa using hb⟩

theorem Reads.allUpTo_enc (h : Reads read enc good) (hne : ∀ a, enc a ≠ []) {as : List α} {n : ℕ}
    (hn : as.length ≤ n) (hgood : ∀ a ∈ as, good a)
    (hlen : (as.map enc).flatten.length < 256 ^ 8) :
    decodeAllUpTo read n (as.map enc).flatten = some as := by
  induction as generalizing n with
  | nil => cases n <;> rfl
  | cons a as ih =>
      obtain ⟨m, rfl⟩ : ∃ m, n = m + 1 := ⟨n - 1, by simp only [List.length_cons] at hn; omega⟩
      rw [List.map_cons, List.flatten_cons, List.length_append] at hlen
      have htail := ih (n := m) (by simpa using hn)
        (fun c hc => hgood c (List.mem_cons_of_mem a hc)) (by omega)
      have hread := h.complete a (as.map enc).flatten (hgood a List.mem_cons_self) (by omega)
      rw [List.map_cons, List.flatten_cons]
      obtain ⟨c, rest, hcons⟩ := List.exists_cons_of_ne_nil
        (List.append_ne_nil_of_left_ne_nil (hne a) (as.map enc).flatten)
      rw [hcons] at hread ⊢
      simp only [decodeAllUpTo, hread, Option.bind_eq_bind, Option.bind_some, htail]

/-- Every value of a list adds a byte at least. -/
theorem length_le_flatten (hne : ∀ a, enc a ≠ []) (as : List α) :
    as.length ≤ (as.map enc).flatten.length := by
  induction as with
  | nil => simp
  | cons a as ih =>
      have := List.length_pos_of_ne_nil (hne a)
      simp only [List.length_cons, List.map_cons, List.flatten_cons, List.length_append]
      omega

theorem Reads.listOf (h : Reads read enc good) (hne : ∀ a, enc a ≠ []) :
    Reads (decodeListOf read) (fun as => encodeList (as.map enc)) fun as => ∀ a ∈ as, good a where
  sound := by
    intro b as rest hread
    unfold decodeListOf at hread
    split at hread
    · rename_i s tail hsplit
      obtain ⟨-, rfl⟩ := split_eq_list_iff.mp hsplit
      obtain ⟨xs, hxs, heq⟩ := Option.bind_eq_some_iff.mp hread
      obtain ⟨hgood, rfl⟩ := h.allUpTo hxs
      obtain ⟨rfl, rfl⟩ := Prod.mk.inj (Option.some.inj heq)
      exact ⟨hgood, rfl⟩
    · cases hread
  complete := by
    intro as rest hgood hlen
    have hlen' := lt_of_le_of_lt (length_le_withHeader 0xc0 (as.map enc).flatten) hlen
    have hall := h.allUpTo_enc hne (length_le_flatten hne as) hgood hlen'
    simp only [decodeListOf, split_encodeList hlen', hall, Option.bind_eq_bind, Option.bind_some]

end Lists

theorem decodeStringsUpTo_eq : decodeStringsUpTo = decodeAllUpTo decodeString := by
  funext n b
  induction n generalizing b with
  | zero => cases b <;> rfl
  | succ n ih =>
      cases b with
      | nil => rfl
      | cons x b => simp only [decodeStringsUpTo, decodeAllUpTo, ih]

theorem reads_decodeStrings :
    Reads decodeStrings (fun ss => encodeList (ss.map encodeString)) fun _ => True := by
  have heq : decodeStrings = decodeListOf decodeString := by
    unfold decodeStrings
    exact decodeStringsUpTo_eq ▸ rfl
  rw [heq]
  exact (reads_decodeString.listOf encodeString_ne_nil).congr (fun _ => rfl) (by simp)

end Rlp
