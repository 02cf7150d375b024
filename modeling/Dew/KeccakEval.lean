/-
# Evaluating Keccak-256

The permutation once more, over any type of lanes with the four operations it uses and with the
lanes held in a record instead of a list. A map of lanes that respects the operations is respected
by the permutation, so a digest can be computed with natural numbers (`keccak256_eq_evalBlocks`, and
`keccak256_eq_evalNat` for a message of one block), which the kernel does at once. Digests of digests
are computed from lane to lane (`evalPairs`).
-/
import Dew.Keccak

open Bytes

namespace Keccak

/-- The operations on lanes that the permutation uses. -/
structure Ops (α : Type) where
  xor : α → α → α
  and : α → α → α
  not : α → α
  rotl : α → ℕ → α

/-- Five lanes of a row. -/
@[ext] structure Plane (α : Type) where
  l0 : α
  l1 : α
  l2 : α
  l3 : α
  l4 : α

/-- The five rows. -/
@[ext] structure State (α : Type) where
  p0 : Plane α
  p1 : Plane α
  p2 : Plane α
  p3 : Plane α
  p4 : Plane α

section Permutation

variable {α β : Type} (o : Ops α)

def Plane.map (f : α → β) (p : Plane α) : Plane β :=
  ⟨f p.l0, f p.l1, f p.l2, f p.l3, f p.l4⟩

def Plane.toList (p : Plane α) : List α :=
  [p.l0, p.l1, p.l2, p.l3, p.l4]

def Plane.add (p q : Plane α) : Plane α :=
  ⟨o.xor p.l0 q.l0, o.xor p.l1 q.l1, o.xor p.l2 q.l2, o.xor p.l3 q.l3, o.xor p.l4 q.l4⟩

/-- What `theta` adds to every row, from the column parities. -/
def Plane.spread (c : Plane α) : Plane α :=
  ⟨o.xor c.l4 (o.rotl c.l1 1), o.xor c.l0 (o.rotl c.l2 1), o.xor c.l1 (o.rotl c.l3 1),
    o.xor c.l2 (o.rotl c.l4 1), o.xor c.l3 (o.rotl c.l0 1)⟩

def Plane.chi (b : Plane α) : Plane α :=
  ⟨o.xor b.l0 (o.and (o.not b.l1) b.l2), o.xor b.l1 (o.and (o.not b.l2) b.l3),
    o.xor b.l2 (o.and (o.not b.l3) b.l4), o.xor b.l3 (o.and (o.not b.l4) b.l0),
    o.xor b.l4 (o.and (o.not b.l0) b.l1)⟩

namespace State

def map (f : α → β) (s : State α) : State β :=
  ⟨s.p0.map f, s.p1.map f, s.p2.map f, s.p3.map f, s.p4.map f⟩

def toList (s : State α) : List α :=
  s.p0.toList ++ s.p1.toList ++ s.p2.toList ++ s.p3.toList ++ s.p4.toList

/-- The state with given lanes. -/
def ofLanes (f : ℕ → α) : State α :=
  ⟨⟨f 0, f 1, f 2, f 3, f 4⟩, ⟨f 5, f 6, f 7, f 8, f 9⟩, ⟨f 10, f 11, f 12, f 13, f 14⟩,
    ⟨f 15, f 16, f 17, f 18, f 19⟩, ⟨f 20, f 21, f 22, f 23, f 24⟩⟩

def theta (s : State α) : State α :=
  let c := Plane.add o (Plane.add o (Plane.add o (Plane.add o s.p0 s.p1) s.p2) s.p3) s.p4
  let d := c.spread o
  ⟨s.p0.add o d, s.p1.add o d, s.p2.add o d, s.p3.add o d, s.p4.add o d⟩

def rhoPi (s : State α) : State α :=
  ⟨⟨o.rotl s.p0.l0 0, o.rotl s.p1.l1 44, o.rotl s.p2.l2 43, o.rotl s.p3.l3 21, o.rotl s.p4.l4 14⟩,
    ⟨o.rotl s.p0.l3 28, o.rotl s.p1.l4 20, o.rotl s.p2.l0 3, o.rotl s.p3.l1 45, o.rotl s.p4.l2 61⟩,
    ⟨o.rotl s.p0.l1 1, o.rotl s.p1.l2 6, o.rotl s.p2.l3 25, o.rotl s.p3.l4 8, o.rotl s.p4.l0 18⟩,
    ⟨o.rotl s.p0.l4 27, o.rotl s.p1.l0 36, o.rotl s.p2.l1 10, o.rotl s.p3.l2 15, o.rotl s.p4.l3 56⟩,
    ⟨o.rotl s.p0.l2 62, o.rotl s.p1.l3 55, o.rotl s.p2.l4 39, o.rotl s.p3.l0 41, o.rotl s.p4.l1 2⟩⟩

def chi (s : State α) : State α :=
  ⟨s.p0.chi o, s.p1.chi o, s.p2.chi o, s.p3.chi o, s.p4.chi o⟩

def iota (rc : α) (s : State α) : State α :=
  { s with p0 := { s.p0 with l0 := o.xor s.p0.l0 rc } }

def round (s : State α) (rc : α) : State α :=
  (((s.theta o).rhoPi o).chi o).iota o rc

def permute (rcs : List α) (s : State α) : State α :=
  rcs.foldl (round o) s

def add (s t : State α) : State α :=
  ⟨s.p0.add o t.p0, s.p1.add o t.p1, s.p2.add o t.p2, s.p3.add o t.p3, s.p4.add o t.p4⟩

end State

/-- A map of lanes that respects the operations on the rotations in use. -/
structure Ops.Respects (o : Ops α) (o' : Ops β) (f : α → β) : Prop where
  xor : ∀ a b, f (o.xor a b) = o'.xor (f a) (f b)
  and : ∀ a b, f (o.and a b) = o'.and (f a) (f b)
  not : ∀ a, f (o.not a) = o'.not (f a)
  rotl : ∀ a r, r < 64 → f (o.rotl a r) = o'.rotl (f a) r

theorem State.map_round {o : Ops α} {o' : Ops β} {f : α → β} (h : o.Respects o' f) (s : State α)
    (rc : α) : (s.round o rc).map f = (s.map f).round o' (f rc) := by
  simp only [State.round, State.theta, State.rhoPi, State.chi, State.iota, State.map, Plane.map,
    Plane.add, Plane.spread, Plane.chi, h.xor, h.and, h.not, h.rotl _ _ (by decide : 0 < 64),
    h.rotl _ _ (by decide : 1 < 64), h.rotl _ _ (by decide : 2 < 64),
    h.rotl _ _ (by decide : 3 < 64), h.rotl _ _ (by decide : 6 < 64),
    h.rotl _ _ (by decide : 8 < 64), h.rotl _ _ (by decide : 10 < 64),
    h.rotl _ _ (by decide : 14 < 64), h.rotl _ _ (by decide : 15 < 64),
    h.rotl _ _ (by decide : 18 < 64), h.rotl _ _ (by decide : 20 < 64),
    h.rotl _ _ (by decide : 21 < 64), h.rotl _ _ (by decide : 25 < 64),
    h.rotl _ _ (by decide : 27 < 64), h.rotl _ _ (by decide : 28 < 64),
    h.rotl _ _ (by decide : 36 < 64), h.rotl _ _ (by decide : 39 < 64),
    h.rotl _ _ (by decide : 41 < 64), h.rotl _ _ (by decide : 43 < 64),
    h.rotl _ _ (by decide : 44 < 64), h.rotl _ _ (by decide : 45 < 64),
    h.rotl _ _ (by decide : 55 < 64), h.rotl _ _ (by decide : 56 < 64),
    h.rotl _ _ (by decide : 61 < 64), h.rotl _ _ (by decide : 62 < 64)]

theorem State.map_add {o : Ops α} {o' : Ops β} {f : α → β} (h : o.Respects o' f) (s t : State α) :
    (s.add o t).map f = (s.map f).add o' (t.map f) := by
  simp only [State.add, State.map, Plane.add, Plane.map, h.xor]

theorem State.map_permute {o : Ops α} {o' : Ops β} {f : α → β} (h : o.Respects o' f)
    (rcs : List α) (s : State α) :
    (s.permute o rcs).map f = (s.map f).permute o' (rcs.map f) := by
  induction rcs generalizing s with
  | nil => rfl
  | cons rc rcs ih =>
      show ((s.round o rc).permute o rcs).map f = ((s.map f).round o' (f rc)).permute o' (rcs.map f)
      rw [ih, State.map_round h]

end Permutation

/-! ## The two instances -/

def laneOps : Ops Lane where
  xor a b := a ^^^ b
  and a b := a &&& b
  not a := ~~~a
  rotl a r := a.rotateLeft r

def natOps : Ops ℕ where
  xor := Nat.xor
  and := Nat.land
  not a := Nat.sub 0xffffffffffffffff a
  rotl a r := Nat.lor (Nat.mod (Nat.shiftLeft a r) 0x10000000000000000) (Nat.shiftRight a (Nat.sub 64 r))

theorem respects_toNat : laneOps.Respects natOps BitVec.toNat where
  xor a b := BitVec.toNat_xor ..
  and a b := BitVec.toNat_and ..
  not a := by
    show (~~~a).toNat = 2 ^ 64 - 1 - a.toNat
    exact BitVec.toNat_not
  rotl a r hr := by
    show (a.rotateLeft r).toNat = (a.toNat <<< r) % 2 ^ 64 ||| a.toNat >>> (64 - r)
    rw [BitVec.toNat_rotateLeft, Nat.mod_eq_of_lt hr]

theorem permute_toList (s : State Lane) :
    permute s.toList = (s.permute laneOps roundConstants).toList := by
  have hround : ∀ (s : State Lane) (rc : Lane),
      iota rc (chi (rhoPi (theta s.toList))) = (s.round laneOps rc).toList := fun _ _ => rfl
  have hfold : ∀ (rcs : List Lane) (s : State Lane),
      rcs.foldl (fun a rc => iota rc (chi (rhoPi (theta a)))) s.toList =
        (s.permute laneOps rcs).toList := by
    intro rcs
    induction rcs with
    | nil => exact fun _ => rfl
    | cons rc rcs ih =>
        intro s
        rw [List.foldl_cons, hround, ih]
        rfl
  exact hfold roundConstants s

/-! ## The sponge with numbers -/

/-- The lanes of a block, as numbers. -/
def blockLane (b : Bytes) (i : ℕ) : ℕ :=
  ofBytes ((b.drop (8 * i)).take 8).reverse

theorem blockLane_lt (b : Bytes) (i : ℕ) : blockLane b i < 2 ^ 64 := by
  have hlt := ofBytes_lt ((b.drop (8 * i)).take 8).reverse
  refine lt_of_lt_of_le hlt ?_
  have hlen : ((b.drop (8 * i)).take 8).reverse.length ≤ 8 := by
    rw [List.length_reverse, List.length_take]
    exact Nat.min_le_left _ _
  exact (Nat.pow_le_pow_right (by decide) hlen).trans (by decide)

/-- The round constants as numbers. -/
def roundConstantsNat : List ℕ :=
  roundConstants.map BitVec.toNat

/-- `absorb` with numbers. -/
def absorbNat (s : State ℕ) (b : Bytes) : State ℕ :=
  (s.add natOps (.ofLanes (blockLane b))).permute natOps roundConstantsNat

theorem absorb_toList (s : State Lane) (b : Bytes) :
    ∃ t : State Lane, absorb s.toList b = t.toList ∧
      t.map BitVec.toNat = absorbNat (s.map BitVec.toNat) b := by
  let m : State Lane := State.ofLanes fun i => BitVec.ofNat 64 (blockLane b i)
  have hm : m.map BitVec.toNat = State.ofLanes (blockLane b) := by
    simp only [m, State.map, State.ofLanes, Plane.map, BitVec.toNat_ofNat,
      Nat.mod_eq_of_lt (blockLane_lt b _)]
  have hzip : List.zipWith (· ^^^ ·) s.toList (blockLanes b) = (s.add laneOps m).toList := rfl
  refine ⟨(s.add laneOps m).permute laneOps roundConstants, ?_, ?_⟩
  · rw [absorb, hzip, permute_toList]
  · rw [State.map_permute respects_toNat, State.map_add respects_toNat, hm]
    rfl

/-- The digest that a state yields. -/
def digestNat (s : State ℕ) : ℕ :=
  ofBytes ([s.p0.l0, s.p0.l1, s.p0.l2, s.p0.l3].flatMap fun l => (beBytes 8 l).reverse)

/-- The digest of a message, computed with numbers. -/
def evalBlocks (b : Bytes) : ℕ :=
  digestNat ((blocks (b.length / 136 + 1) (b ++ padding b.length)).foldl absorbNat
    (.ofLanes fun _ => 0))

theorem keccak256_eq_evalBlocks (b : Bytes) : keccak256 b = BitVec.ofNat 256 (evalBlocks b) := by
  have hfold : ∀ (bs : List Bytes) (s : State Lane), ∃ t : State Lane,
      bs.foldl absorb s.toList = t.toList ∧
        t.map BitVec.toNat = bs.foldl absorbNat (s.map BitVec.toNat) := by
    intro bs
    induction bs with
    | nil => exact fun s => ⟨s, rfl, rfl⟩
    | cons c bs ih =>
        intro s
        obtain ⟨t, ht, hmap⟩ := absorb_toList s c
        obtain ⟨u, hu, humap⟩ := ih t
        exact ⟨u, by rw [List.foldl_cons, ht, hu], by rw [List.foldl_cons, ← hmap, humap]⟩
  obtain ⟨t, ht, hmap⟩ := hfold (blocks (b.length / 136 + 1) (b ++ padding b.length))
    (.ofLanes fun _ => 0)
  have hstart : (State.ofLanes fun _ => (0 : Lane)).map BitVec.toNat = .ofLanes fun _ => 0 := rfl
  rw [hstart] at hmap
  rw [evalBlocks, ← hmap]
  show BitVec.ofNat 256 (ofBytes ((((blocks (b.length / 136 + 1) (b ++ padding b.length)).foldl absorb
    (State.ofLanes fun _ => (0 : Lane)).toList).take 4).flatMap laneBytes)) = _
  rw [ht]
  rfl

/-! ## Messages of one block -/

/-- The lanes of a padded message, as numbers. -/
def messageLane (b : Bytes) (i : ℕ) : ℕ :=
  Bytes.ofBytes (((b ++ padding b.length).drop (8 * i)).take 8).reverse

/-- The digest of a message shorter than a block, computed with numbers. -/
def evalNat (b : Bytes) : ℕ :=
  let s := (State.ofLanes (messageLane b)).permute natOps roundConstantsNat
  Bytes.ofBytes ([s.p0.l0, s.p0.l1, s.p0.l2, s.p0.l3].flatMap fun l => (Bytes.beBytes 8 l).reverse)

theorem length_padding (n : ℕ) : (padding n).length = 136 - n % 136 := by
  have hlt : n % 136 < 136 := Nat.mod_lt _ (by decide)
  unfold padding
  generalize hk : 136 - n % 136 = k
  match k, hk with
  | 0, hk => omega
  | 1, _ => rfl
  | k + 2, _ =>
      show (0x01 :: (List.replicate (k + 2 - 2) 0 ++ [0x80]) : Bytes).length = k + 2
      simp

/-- The one block of a short message. -/
theorem blocks_of_short {b : Bytes} (hb : b.length < 136) :
    blocks (b.length / 136 + 1) (b ++ padding b.length) = [b ++ padding b.length] := by
  have hlen : (b ++ padding b.length).length = 136 := by
    rw [List.length_append, length_padding, Nat.mod_eq_of_lt hb]
    omega
  rw [Nat.div_eq_of_lt hb]
  show [(b ++ padding b.length).take 136] = _
  rw [List.take_of_length_le hlen.le]

/-- The digest of a message shorter than a block. -/
theorem keccak256_eq_evalNat {b : Bytes} (hb : b.length < 136) :
    keccak256 b = BitVec.ofNat 256 (evalNat b) := by
  have hzero : ∀ s : State ℕ, (State.ofLanes fun _ => 0).add natOps s = s := by
    intro s
    have hxor : ∀ n, natOps.xor 0 n = n := Nat.zero_xor
    simp only [State.add, State.ofLanes, Plane.add, hxor]
  rw [keccak256_eq_evalBlocks, evalBlocks, blocks_of_short hb, List.foldl_cons, List.foldl_nil,
    absorbNat, hzero]
  rfl

theorem keccak256_nil : keccak256 [] =
    0xc5d2460186f7233c927e7db2dcc703c0e500b653ca82273b7bfad8045d85a470#256 := by
  rw [keccak256_eq_evalNat (by decide)]
  decide +kernel

/-! ## Digests of digests -/

/-- The bytes of a digest, from the first four lanes of a state. -/
def laneDigest (a b c d : ℕ) : Bytes :=
  [a, b, c, d].flatMap fun l => (beBytes 8 l).reverse

/-- The block of the message `0x01` with a digest written twice. -/
def pairLanes (a b c d : ℕ) : State ℕ :=
  let join x y := y % 2 ^ 56 * 256 + x / 2 ^ 56 % 256
  ⟨⟨a % 2 ^ 56 * 256 + 1, join a b, join b c, join c d, join d a⟩,
    ⟨join a b, join b c, join c d, 256 + d / 2 ^ 56 % 256, 0⟩, ⟨0, 0, 0, 0, 0⟩,
    ⟨0, 2 ^ 63, 0, 0, 0⟩, ⟨0, 0, 0, 0, 0⟩⟩

/-- The lanes of a block that is given by its words of eight bytes. -/
theorem blockLane_flatten {words : List Bytes} (h : ∀ w ∈ words, w.length = 8) (i : ℕ) :
    blockLane words.flatten i = ofBytes (words.getD i []).reverse := by
  induction words generalizing i with
  | nil => simp [blockLane]
  | cons w words ih =>
      have hw : w.length = 8 := h w List.mem_cons_self
      cases i with
      | zero =>
          rw [blockLane, List.flatten_cons, Nat.mul_zero, List.drop_zero, ← hw, List.take_left]
          rfl
      | succ i =>
          have hdrop : (w ++ words.flatten).drop (8 * (i + 1)) = words.flatten.drop (8 * i) := by
            rw [Nat.mul_succ, Nat.add_comm, ← hw, List.drop_length_add_append]
          rw [blockLane, List.flatten_cons, hdrop]
          exact ih (fun w hw => h w (List.mem_cons_of_mem _ hw)) i

theorem length_laneDigest (a b c d : ℕ) : (laneDigest a b c d).length = 32 := rfl

/-- The padded message of `pairLanes` in words of eight bytes. -/
def pairWords (a b c d : ℕ) : List Bytes :=
  let word x y := UInt8.ofNat (x >>> 56) :: (beBytes 7 y).reverse
  [1 :: (beBytes 7 a).reverse, word a b, word b c, word c d, word d a, word a b, word b c, word c d,
    [UInt8.ofNat (d >>> 56), 1, 0, 0, 0, 0, 0, 0]] ++
  List.replicate 7 (List.replicate 8 0) ++ [[0, 0, 0, 0, 0, 0, 0, 0x80]]

theorem pairWords_flatten (a b c d : ℕ) :
    0x01 :: (laneDigest a b c d ++ laneDigest a b c d) ++ padding 65 =
      (pairWords a b c d).flatten := by
  have hsplit : ∀ n, (beBytes 8 n).reverse = (beBytes 7 n).reverse ++ [UInt8.ofNat (n >>> 56)] := by
    intro n
    rw [beBytes, List.reverse_cons]
  have hpad : padding 65 = [1, 0, 0, 0, 0, 0, 0] ++ (List.replicate 7 (List.replicate 8 0)).flatten ++
      [0, 0, 0, 0, 0, 0, 0, 0x80] := by
    decide
  rw [hpad]
  simp only [pairWords, laneDigest, List.flatMap_cons, List.flatMap_nil, hsplit, List.flatten_append,
    List.flatten_cons, List.flatten_nil, List.append_assoc, List.cons_append, List.nil_append,
    List.append_nil]

theorem messageLane_pair (a b c d : ℕ) :
    State.ofLanes (messageLane (0x01 :: (laneDigest a b c d ++ laneDigest a b c d))) =
      pairLanes a b c d := by
  have hlength : ∀ w ∈ pairWords a b c d, w.length = 8 := by
    simp [pairWords]
  have hjoin : ∀ (x : UInt8) (n : ℕ), ofBytes (x :: (beBytes 7 n).reverse).reverse =
      n % 2 ^ 56 * 256 + x.toNat := by
    intro x n
    rw [List.reverse_cons, List.reverse_reverse, ofBytes_append_singleton, ofBytes_beBytes,
      show 256 ^ 7 = 2 ^ 56 by norm_num]
  have hhigh : ∀ n : ℕ, (UInt8.ofNat (n >>> 56)).toNat = n / 2 ^ 56 % 256 := by
    intro n
    rw [UInt8.toNat_ofNat', Nat.shiftRight_eq_div_pow]
  have hlast : ofBytes [UInt8.ofNat (d >>> 56), 1, 0, 0, 0, 0, 0, 0].reverse =
      256 + d / 2 ^ 56 % 256 := by
    rw [← hhigh]
    simp [ofBytes]
  have hlane : ∀ i, messageLane (0x01 :: (laneDigest a b c d ++ laneDigest a b c d)) i =
      ofBytes ((pairWords a b c d).getD i []).reverse := by
    intro i
    rw [← blockLane_flatten hlength, ← pairWords_flatten]
    rfl
  have hword : ∀ x y : ℕ, ofBytes (UInt8.ofNat (x >>> 56) :: (beBytes 7 y).reverse).reverse =
      y % 2 ^ 56 * 256 + x / 2 ^ 56 % 256 := by
    intro x y
    rw [hjoin, hhigh]
  have hfirst : ofBytes (1 :: (beBytes 7 a).reverse).reverse = a % 2 ^ 56 * 256 + 1 := hjoin 1 a
  have hzero : ofBytes ([0, 0, 0, 0, 0, 0, 0, 0] : Bytes).reverse = 0 := by decide
  have hend : ofBytes ([0, 0, 0, 0, 0, 0, 0, 0x80] : Bytes).reverse = 2 ^ 63 := by decide
  have hnone : ofBytes ([] : Bytes).reverse = 0 := rfl
  unfold State.ofLanes pairLanes
  simp only [hlane]
  simp only [pairWords, List.replicate, List.cons_append, List.nil_append, List.getD_cons_zero,
    List.getD_cons_succ, List.getD_nil, hfirst, hword, hlast, hzero, hend, hnone]

/-- The value of a function at a number that is evaluated first. -/
def force {β : Type} (n : ℕ) (k : ℕ → β) : β :=
  match n with
  | 0 => k 0
  | m + 1 => k (m + 1)

theorem force_eq {β : Type} (n : ℕ) (k : ℕ → β) : force n k = k n := by
  cases n <;> rfl

/-- The digest after a number of steps, each of which takes the digest of `0x01` and the last digest
written twice. The lanes are evaluated before the next step, so that the terms stay small. -/
def evalPairs : ℕ → ℕ → ℕ → ℕ → ℕ → ℕ
  | 0, a, b, c, d => ofBytes (laneDigest a b c d)
  | k + 1, a, b, c, d =>
    let s := (pairLanes a b c d).permute natOps roundConstantsNat
    force s.p0.l0 fun a => force s.p0.l1 fun b => force s.p0.l2 fun c => force s.p0.l3 fun d =>
      evalPairs k a b c d

theorem evalNat_pair (a b c d : ℕ) :
    evalNat (0x01 :: (laneDigest a b c d ++ laneDigest a b c d)) = evalPairs 1 a b c d := by
  rw [evalNat, messageLane_pair]
  simp only [evalPairs, force_eq]
  rfl

end Keccak
