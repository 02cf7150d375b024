/-
# Requests for a range of blocks

A peer asks for the blocks of the heights `From` to `To`, and the host replies with at most
`MaxBlocksPerRequest` of them. The length of the range, its clamped end and the counter of the loop
are 64-bit numbers and wrap around: a range that ends at the last height is never left by the
comparison of the counter with the end, and the range of all heights has length zero.

`answers_iff` says exactly which requests are answered as they should be.
-/
import Dew.Gossip
import Dew.Loops

open Bytes

namespace Dew.P2P

/-! ## Messages -/

/-- `GetBlocks` -/
structure GetBlocks where
  from_ : U64
  to_ : U64
deriving DecidableEq, Repr

/-- `BlockPayload` -/
structure BlockPayload where
  number : U64
  hash : Hash
  raw : Bytes
deriving DecidableEq, Repr

/-- `GetBlocks.Encode` -/
def GetBlocks.encode (m : GetBlocks) : Bytes :=
  Rlp.encodeList [Rlp.encodeUint m.from_.toNat, Rlp.encodeUint m.to_.toNat]

/-- `DecodeGetBlocks` -/
def decodeGetBlocks (b : Bytes) : Option GetBlocks := do
  let b ← Rlp.decodeList b
  let (from_, b) ← Rlp.decodeUint 8 b
  let (to_, b) ← Rlp.decodeUint 8 b
  if b = [] then some ⟨BitVec.ofNat 64 from_, BitVec.ofNat 64 to_⟩ else none

theorem GetBlocks.length_encode_lt (m : GetBlocks) : m.encode.length < 2 ^ 64 := by
  have hfrom := length_encodeUint_le (w := 8) (by omega) m.from_.isLt
  have hto := length_encodeUint_le (w := 8) (by omega) m.to_.isLt
  have hflat : [Rlp.encodeUint m.from_.toNat, Rlp.encodeUint m.to_.toNat].flatten.length < 19 := by
    simp only [List.flatten_cons, List.flatten_nil, List.append_nil, List.length_append]
    omega
  have hle := Rlp.length_withHeader_le_add_nine 0xc0 (hflat.trans (by decide))
  exact lt_of_le_of_lt hle (by omega)

/-- Requests read back as they were written. -/
theorem decodeGetBlocks_encode (m : GetBlocks) : decodeGetBlocks m.encode = some m := by
  have hu := Rlp.reads_decodeUint (w := 8) (by decide)
  obtain ⟨hlist, hitem⟩ := decodeList_of_length m.length_encode_lt
  simp only [List.mem_cons, List.not_mem_nil, or_false, forall_eq_or_imp, forall_eq] at hitem
  simp only [decodeGetBlocks, GetBlocks.encode, hlist, Option.bind_eq_bind, Option.bind_some,
    List.flatten_cons, List.flatten_nil]
  simp only [← Option.bind_eq_bind, hu.bind_enc m.from_.isLt hitem.1, hu.bind_enc m.to_.isLt hitem.2]
  simp

/-! ## The handler -/

/-- `ChainBackend.BlockByNumber`: the bytes and the hash of the canonical block of a height. -/
abbrev BlockByNumber := U64 → Option (Bytes × Hash)

inductive GetBlocksError where
  | rlp
  | range
deriving DecidableEq, Repr

def GetBlocksError.text : GetBlocksError → String
  | rlp => "rlp: "
  | range => "p2p: invalid block range"

/-- One round of the loop of `handleGetBlocks`, with the counter and the blocks found so far. -/
def collectRound (chain : BlockByNumber) (last : U64) (s : U64 × List BlockPayload) :
    (U64 × List BlockPayload) ⊕ List BlockPayload :=
  if s.1 ≤ last then
    match chain s.1 with
    | none => .inr s.2
    | some (raw, hash) => .inl (s.1 + 1, s.2 ++ [⟨s.1, hash, raw⟩])
  else .inr s.2

/-- The end of the range after it has been cut to `MaxBlocksPerRequest` heights. -/
def GetBlocks.cut (req : GetBlocks) (max : U64) : U64 :=
  if max < req.to_ - req.from_ + 1 then req.from_ + max - 1 else req.to_

/-- `handleGetBlocks`, if its loop is left within `rounds` rounds: an error, or the blocks that are
sent back. -/
def handleGetBlocks (chain : BlockByNumber) (max : U64) (payload : Bytes) (rounds : ℕ) :
    Option (Except GetBlocksError (List BlockPayload)) :=
  match decodeGetBlocks payload with
  | none => some (.error .rlp)
  | some req =>
    if req.to_ < req.from_ then some (.error .range)
    else
      (Loops.within (collectRound chain (req.cut max)) rounds (req.from_, [])).map Except.ok

/-! ## What the loop collects -/

/-- The canonical block of a height, as it is sent. -/
def blockAt (chain : BlockByNumber) (n : U64) : Option BlockPayload :=
  (chain n).map fun block => ⟨n, block.2, block.1⟩

/-- The blocks of the `k` heights from `n` on, which wrap around. -/
def blocksFrom (chain : BlockByNumber) (n : U64) : ℕ → List BlockPayload
  | 0 => []
  | k + 1 => blocksFrom chain n k ++ (blockAt chain (n + BitVec.ofNat 64 k)).toList

/-- The loop does not stop at the counter `n + k`. -/
def GoesOn (chain : BlockByNumber) (n last : U64) (k : ℕ) : Prop :=
  n + BitVec.ofNat 64 k ≤ last ∧ (blockAt chain (n + BitVec.ofNat 64 k)).isSome

section Collected

variable {chain : BlockByNumber} {n last : U64}

theorem collectRound_of_goesOn {k : ℕ} (h : GoesOn chain n last k) :
    collectRound chain last (n + BitVec.ofNat 64 k, blocksFrom chain n k) =
      .inl (n + BitVec.ofNat 64 (k + 1), blocksFrom chain n (k + 1)) := by
  obtain ⟨hle, hblock⟩ := h
  obtain ⟨block, hblock⟩ := Option.isSome_iff_exists.mp hblock
  obtain ⟨⟨raw, hash⟩, hchain, rfl⟩ := Option.map_eq_some_iff.mp hblock
  have hnext : n + BitVec.ofNat 64 k + 1 = n + BitVec.ofNat 64 (k + 1) := by
    rw [BitVec.ofNat_add, BitVec.add_assoc]
    rfl
  rw [collectRound, if_pos hle, hchain, blocksFrom, hblock, ← hnext]
  rfl

theorem collectRound_of_not_goesOn {k : ℕ} (h : ¬GoesOn chain n last k) :
    collectRound chain last (n + BitVec.ofNat 64 k, blocksFrom chain n k) =
      .inr (blocksFrom chain n k) := by
  unfold collectRound
  split
  · rename_i hle
    have hnone : chain (n + BitVec.ofNat 64 k) = none := by
      by_contra hsome
      exact h ⟨hle, by simpa [blockAt] using Option.isSome_iff_ne_none.mpr hsome⟩
    rw [hnone]
  · rfl

/-- The loop ends at the first counter where it does not go on, and never if there is none. -/
theorem within_collectRound_iff {blocks : List BlockPayload} :
    (∃ rounds, Loops.within (collectRound chain last) rounds (n, []) = some blocks) ↔
      ∃ k, (∀ j < k, GoesOn chain n last j) ∧ ¬GoesOn chain n last k ∧
        blocks = blocksFrom chain n k := by
  have hgo : ∀ k, GoesOn chain n last k →
      collectRound chain last ((fun k => (n + BitVec.ofNat 64 k, blocksFrom chain n k)) k) =
        .inl ((fun k => (n + BitVec.ofNat 64 k, blocksFrom chain n k)) (k + 1)) :=
    fun _ h => collectRound_of_goesOn h
  have hiff := Loops.within_eq_some_iff (b := blocks) hgo fun _ h => collectRound_of_not_goesOn h
  simpa [blocksFrom] using hiff

theorem length_blocksFrom {k : ℕ} (h : ∀ j < k, GoesOn chain n last j) :
    (blocksFrom chain n k).length = k := by
  induction k with
  | zero => rfl
  | succ k ih =>
      obtain ⟨block, hblock⟩ := Option.isSome_iff_exists.mp (h k (Nat.lt_succ_self k)).2
      have hk := ih fun j hj => h j (Nat.lt_succ_of_lt hj)
      simp [blocksFrom, hblock, hk]

theorem getElem?_blocksFrom {k : ℕ} (h : ∀ j < k, GoesOn chain n last j) {i : ℕ} (hi : i < k) :
    (blocksFrom chain n k)[i]? = blockAt chain (n + BitVec.ofNat 64 i) := by
  induction k with
  | zero => omega
  | succ k ih =>
      have hprev : ∀ j < k, GoesOn chain n last j := fun j hj => h j (Nat.lt_succ_of_lt hj)
      have hlen := length_blocksFrom hprev
      rw [blocksFrom]
      by_cases hik : i < k
      · rw [List.getElem?_append_left (by omega), ih hprev hik]
      · obtain rfl : i = k := by omega
        obtain ⟨block, hblock⟩ := Option.isSome_iff_exists.mp (h i (Nat.lt_succ_self i)).2
        rw [List.getElem?_append_right (by omega), hblock]
        simp [hlen]

end Collected

/-! ## Which requests are answered as they should be -/

/-- What a reply has to be: at most `max` blocks, the canonical ones at the heights from `From` on,
none after `To`, and none left out that fits. -/
structure RangeReply (chain : BlockByNumber) (max : U64) (req : GetBlocks)
    (blocks : List BlockPayload) : Prop where
  bounded : blocks.length ≤ max.toNat
  inRange : req.from_.toNat + blocks.length ≤ req.to_.toNat + 1
  canonical : ∀ i < blocks.length,
    blocks[i]? = blockAt chain (BitVec.ofNat 64 (req.from_.toNat + i))
  full : blocks.length = max.toNat ∨ req.from_.toNat + blocks.length = req.to_.toNat + 1 ∨
    blockAt chain (BitVec.ofNat 64 (req.from_.toNat + blocks.length)) = none

/-- The handler comes to an end. It refuses the request if the range is empty, and sends the right
blocks otherwise. -/
def Answers (chain : BlockByNumber) (max : U64) (req : GetBlocks) : Prop :=
  ∃ rounds answer, handleGetBlocks chain max req.encode rounds = some answer ∧
    if req.to_ < req.from_ then answer = .error .range
    else ∃ blocks, answer = .ok blocks ∧ RangeReply chain max req blocks

/-- The range ends at the last height, and the loop does not stop where it should: either the range
starts at height 0, so that its length wraps around to zero and it is not cut, and there are more
blocks than `max`; or it has at most `max` heights, all of them have blocks, and the counter wraps
around to height 0, which has one too. -/
def Overruns (chain : BlockByNumber) (max : U64) (req : GetBlocks) : Prop :=
  req.to_ = BitVec.allOnes 64 ∧
    if req.from_ = 0 then ∀ n ≤ max, (chain n).isSome
    else 2 ^ 64 ≤ req.from_.toNat + max.toNat ∧ (∀ n ≥ req.from_, (chain n).isSome) ∧
      (chain 0).isSome

theorem add_ofNat_eq (n : U64) (k : ℕ) : n + BitVec.ofNat 64 k = BitVec.ofNat 64 (n.toNat + k) := by
  rw [BitVec.ofNat_add, BitVec.ofNat_toNat, BitVec.setWidth_eq]

theorem toNat_add_ofNat {n : U64} {k : ℕ} (h : n.toNat + k < 2 ^ 64) :
    (n + BitVec.ofNat 64 k).toNat = n.toNat + k := by
  rw [add_ofNat_eq, BitVec.toNat_ofNat, Nat.mod_eq_of_lt h]

theorem goesOn_allOnes_iff {chain : BlockByNumber} {n : U64} {k : ℕ} :
    GoesOn chain n (BitVec.allOnes 64) k ↔ (chain (n + BitVec.ofNat 64 k)).isSome := by
  have hle : n + BitVec.ofNat 64 k ≤ BitVec.allOnes 64 := by
    rw [BitVec.le_def, BitVec.toNat_allOnes]
    have hlt := (n + BitVec.ofNat 64 k).isLt
    omega
  rw [GoesOn, and_iff_right hle, blockAt, Option.isSome_map]

/-- The end of a range that is not empty is the smaller of the two bounds, unless both lie at or
after the last height. -/
theorem GetBlocks.cut_cases {req : GetBlocks} {max : U64} (hmax : 1 ≤ max.toNat)
    (hrange : ¬req.to_ < req.from_) :
    (req.cut max = BitVec.allOnes 64 ∧ req.to_ = BitVec.allOnes 64 ∧
        (req.from_ ≠ 0 → 2 ^ 64 ≤ req.from_.toNat + max.toNat)) ∨
      ((req.cut max).toNat + 1 < 2 ^ 64 ∧
        (req.cut max).toNat + 1 = min (req.to_.toNat + 1) (req.from_.toNat + max.toNat) ∧
        (req.to_ = BitVec.allOnes 64 →
          req.from_ ≠ 0 ∧ req.from_.toNat + max.toNat < 2 ^ 64)) := by
  rw [BitVec.lt_def] at hrange
  have hto := req.to_.isLt
  have hones : req.to_ = BitVec.allOnes 64 ↔ req.to_.toNat = 2 ^ 64 - 1 := by
    rw [← BitVec.toNat_inj, BitVec.toNat_allOnes]
  have hzero : req.from_ = 0 ↔ req.from_.toNat = 0 := by
    rw [← BitVec.toNat_inj]
    rfl
  by_cases hall : req.from_.toNat = 0 ∧ req.to_.toNat = 2 ^ 64 - 1
  · -- the length of the range wraps around to zero
    have hcut : req.cut max = req.to_ := by
      refine if_neg ?_
      rw [hzero.mpr hall.1, hones.mpr hall.2]
      simp
    rw [hcut]
    exact .inl ⟨hones.mpr hall.2, hones.mpr hall.2, fun hne => absurd (hzero.mpr hall.1) hne⟩
  · have hlen : (req.to_ - req.from_ + 1).toNat = req.to_.toNat - req.from_.toNat + 1 := by
      bv_omega
    by_cases hmore : max.toNat < req.to_.toNat - req.from_.toNat + 1
    · have hcut : req.cut max = req.from_ + max - 1 :=
        if_pos (by rwa [BitVec.lt_def, hlen])
      have hcutNat : (req.cut max).toNat = req.from_.toNat + max.toNat - 1 := by
        rw [hcut]
        bv_omega
      refine .inr ⟨by omega, by omega, fun hlast => ?_⟩
      rw [hones] at hlast
      exact ⟨fun hfrom => hall ⟨hzero.mp hfrom, hlast⟩, by omega⟩
    · have hcut : req.cut max = req.to_ := if_neg (by rwa [BitVec.lt_def, hlen])
      rw [hcut]
      by_cases hlast : req.to_.toNat = 2 ^ 64 - 1
      · exact .inl ⟨hones.mpr hlast, hones.mpr hlast, fun _ => by omega⟩
      · exact .inr ⟨by omega, by omega, fun h => absurd (hones.mp h) hlast⟩

/-- A request is answered exactly when the first counter where the loop stops gives the right
reply. -/
theorem answers_iff_exists {chain : BlockByNumber} {max : U64} {req : GetBlocks}
    (hrange : ¬req.to_ < req.from_) :
    Answers chain max req ↔
      ∃ k, (∀ j < k, GoesOn chain req.from_ (req.cut max) j) ∧
        ¬GoesOn chain req.from_ (req.cut max) k ∧
        RangeReply chain max req (blocksFrom chain req.from_ k) := by
  have hhandle : ∀ rounds, handleGetBlocks chain max req.encode rounds =
      (Loops.within (collectRound chain (req.cut max)) rounds (req.from_, [])).map Except.ok := by
    intro rounds
    rw [handleGetBlocks, decodeGetBlocks_encode]
    exact if_neg hrange
  constructor
  · rintro ⟨rounds, answer, hanswer, hreply⟩
    rw [if_neg hrange] at hreply
    obtain ⟨blocks, rfl, hreply⟩ := hreply
    rw [hhandle] at hanswer
    obtain ⟨blocks', hwithin, heq⟩ := Option.map_eq_some_iff.mp hanswer
    obtain rfl := Except.ok.inj heq
    obtain ⟨k, hpast, hstop, rfl⟩ := within_collectRound_iff.mp ⟨rounds, hwithin⟩
    exact ⟨k, hpast, hstop, hreply⟩
  · rintro ⟨k, hpast, hstop, hreply⟩
    obtain ⟨rounds, hwithin⟩ := within_collectRound_iff.mpr ⟨k, hpast, hstop, rfl⟩
    refine ⟨rounds, .ok (blocksFrom chain req.from_ k), ?_, ?_⟩
    · rw [hhandle, hwithin, Option.map_some]
    · rw [if_neg hrange]
      exact ⟨_, rfl, hreply⟩

/-- The blocks up to the counter where the loop stops are the right reply if there are not too many
of them. -/
theorem rangeReply_blocksFrom {chain : BlockByNumber} {max last : U64} {req : GetBlocks} {k : ℕ}
    (hpast : ∀ j < k, GoesOn chain req.from_ last j) (hmax : k ≤ max.toNat)
    (hto : req.from_.toNat + k ≤ req.to_.toNat + 1)
    (hfull : k = max.toNat ∨ req.from_.toNat + k = req.to_.toNat + 1 ∨
      blockAt chain (req.from_ + BitVec.ofNat 64 k) = none) :
    RangeReply chain max req (blocksFrom chain req.from_ k) := by
  have hlen := length_blocksFrom hpast
  refine ⟨by rwa [hlen], by rwa [hlen], ?_, ?_⟩
  · intro i hi
    rw [hlen] at hi
    rw [getElem?_blocksFrom hpast hi, add_ofNat_eq]
  · rw [hlen, ← add_ofNat_eq]
    exact hfull

/-- A range whose end is before the last height is answered. -/
theorem answers_of_cut_lt {chain : BlockByNumber} {max : U64} {req : GetBlocks}
    (hrange : ¬req.to_ < req.from_) (hlt : (req.cut max).toNat + 1 < 2 ^ 64)
    (hcut : (req.cut max).toNat + 1 = min (req.to_.toNat + 1) (req.from_.toNat + max.toNat)) :
    Answers chain max req := by
  rw [BitVec.lt_def] at hrange
  have hfrom : req.from_.toNat ≤ (req.cut max).toNat + 1 := by omega
  have hend : ¬GoesOn chain req.from_ (req.cut max)
      ((req.cut max).toNat + 1 - req.from_.toNat) := by
    rintro ⟨hle, -⟩
    rw [BitVec.le_def, toNat_add_ofNat (by omega)] at hle
    omega
  obtain ⟨k, hk, hpast, hstop⟩ := Loops.exists_first hend
  refine (answers_iff_exists (by rwa [BitVec.lt_def])).mpr ⟨k, hpast, hstop, ?_⟩
  refine rangeReply_blocksFrom hpast (by omega) (by omega) ?_
  -- the loop stops because of the bounds or because the block is missing
  by_cases hblock : blockAt chain (req.from_ + BitVec.ofNat 64 k) = none
  · exact .inr (.inr hblock)
  · have hpastEnd : ¬req.from_ + BitVec.ofNat 64 k ≤ req.cut max :=
      fun hle => hstop ⟨hle, Option.isSome_iff_ne_none.mpr hblock⟩
    rw [BitVec.le_def, toNat_add_ofNat (by omega)] at hpastEnd
    omega

/-- A range that is not cut before the last height is answered exactly when the chain ends in
time. -/
theorem answers_iff_of_allOnes {chain : BlockByNumber} {max : U64} {req : GetBlocks}
    (hrange : ¬req.to_ < req.from_) (hcut : req.cut max = BitVec.allOnes 64)
    (hto : req.to_ = BitVec.allOnes 64) :
    Answers chain max req ↔ ∃ k ≤ max.toNat, req.from_.toNat + k ≤ 2 ^ 64 ∧
      chain (req.from_ + BitVec.ofNat 64 k) = none := by
  have htoNat : req.to_.toNat + 1 = 2 ^ 64 := by
    rw [hto, BitVec.toNat_allOnes]
    norm_num
  rw [answers_iff_exists hrange, hcut]
  constructor
  · rintro ⟨k, hpast, hstop, hreply⟩
    have hlen := length_blocksFrom hpast
    have hbounded := hreply.bounded
    have hin := hreply.inRange
    rw [hlen] at hbounded hin
    rw [goesOn_allOnes_iff, Option.not_isSome_iff_eq_none] at hstop
    exact ⟨k, hbounded, by omega, hstop⟩
  · rintro ⟨k, hk, hin, hnone⟩
    have hend : ¬GoesOn chain req.from_ (BitVec.allOnes 64) k := by
      rw [goesOn_allOnes_iff, hnone]
      exact Bool.false_ne_true
    obtain ⟨i, hik, hpast, hstop⟩ := Loops.exists_first hend
    refine ⟨i, hpast, hstop, rangeReply_blocksFrom hpast (by omega) (by omega) ?_⟩
    rw [goesOn_allOnes_iff, Option.not_isSome_iff_eq_none] at hstop
    exact .inr (.inr (by rw [blockAt, hstop, Option.map_none]))

theorem overruns_iff_of_allOnes {chain : BlockByNumber} {max : U64} {req : GetBlocks}
    (hto : req.to_ = BitVec.allOnes 64)
    (hmax : req.from_ ≠ 0 → 2 ^ 64 ≤ req.from_.toNat + max.toNat) :
    Overruns chain max req ↔ ∀ k ≤ max.toNat, req.from_.toNat + k ≤ 2 ^ 64 →
      (chain (req.from_ + BitVec.ofNat 64 k)).isSome := by
  rw [Overruns, and_iff_right hto]
  split
  · rename_i hfrom
    replace hfrom : req.from_ = 0#64 := hfrom
    simp only [hfrom, BitVec.zero_add, BitVec.toNat_zero, Nat.zero_add]
    constructor
    · intro h k hk _
      refine h _ ?_
      rw [BitVec.le_def, BitVec.toNat_ofNat]
      exact (Nat.mod_le _ _).trans hk
    · intro h n hn
      have hk := h n.toNat hn n.isLt.le
      rwa [BitVec.ofNat_toNat, BitVec.setWidth_eq] at hk
  · rename_i hfrom
    have hfit := hmax hfrom
    constructor
    · rintro ⟨-, hafter, hzero⟩ k hk hin
      by_cases hwrap : req.from_.toNat + k = 2 ^ 64
      · rwa [add_ofNat_eq, hwrap]
      · refine hafter _ ?_
        rw [ge_iff_le, BitVec.le_def, toNat_add_ofNat (by omega)]
        omega
    · intro h
      refine ⟨hfit, fun n hn => ?_, ?_⟩
      · rw [ge_iff_le, BitVec.le_def] at hn
        have hlt := n.isLt
        have hk := h (n.toNat - req.from_.toNat) (by omega) (by omega)
        rwa [add_ofNat_eq, Nat.add_sub_cancel' hn, BitVec.ofNat_toNat, BitVec.setWidth_eq] at hk
      · have hlt := req.from_.isLt
        have hk := h (2 ^ 64 - req.from_.toNat) (by omega) (by omega)
        rwa [add_ofNat_eq, Nat.add_sub_cancel' hlt.le] at hk

/-- Every request is answered as it should be, except those that overrun the end of the range. -/
theorem answers_iff (chain : BlockByNumber) (max : U64) (req : GetBlocks) (hmax : 1 ≤ max.toNat) :
    Answers chain max req ↔ ¬Overruns chain max req := by
  by_cases hrange : req.to_ < req.from_
  · have hnot : ¬Overruns chain max req := by
      rintro ⟨hto, -⟩
      rw [hto, BitVec.lt_def, BitVec.toNat_allOnes] at hrange
      have hlt := req.from_.isLt
      omega
    refine iff_of_true ⟨0, .error .range, ?_, ?_⟩ hnot
    · rw [handleGetBlocks, decodeGetBlocks_encode]
      exact if_pos hrange
    · rw [if_pos hrange]
  · rcases GetBlocks.cut_cases hmax hrange with ⟨hcut, hto, hfit⟩ | ⟨hlt, hcut, hearly⟩
    · rw [answers_iff_of_allOnes hrange hcut hto, overruns_iff_of_allOnes hto hfit]
      push Not
      simp only [Option.not_isSome_iff_eq_none]
    · refine iff_of_true (answers_of_cut_lt hrange hlt hcut) ?_
      rintro ⟨hto, hrest⟩
      obtain ⟨hfrom, hfit⟩ := hearly hto
      rw [if_neg hfrom] at hrest
      omega

/-- A chain of three blocks. -/
def threeBlocks : BlockByNumber := fun n =>
  if n.toNat < 3 then some ([UInt8.ofNat n.toNat], BitVec.ofNat 256 (7 + n.toNat)) else none

/-- A request that asks for more heights than there are. -/
theorem answers_pastHead :
    1 ≤ (100 : U64).toNat ∧ Answers threeBlocks 100 ⟨1, 9⟩ := by
  refine ⟨by decide, (answers_iff threeBlocks 100 ⟨1, 9⟩ (by decide)).mpr ?_⟩
  rintro ⟨hto, -⟩
  exact absurd hto (by decide)

/-- The request for all heights gets three blocks where two are allowed. -/
theorem allHeights_overrun :
    handleGetBlocks threeBlocks 2 (GetBlocks.encode ⟨0, BitVec.allOnes 64⟩) 4 =
        some (.ok [⟨0, 7, [0]⟩, ⟨1, 8, [1]⟩, ⟨2, 9, [2]⟩]) ∧
      ¬Answers threeBlocks 2 ⟨0, BitVec.allOnes 64⟩ := by
  constructor
  · rw [handleGetBlocks, decodeGetBlocks_encode]
    decide
  · rw [answers_iff_of_allOnes (by decide) (by decide) rfl]
    rintro ⟨k, hk, -, hnone⟩
    have hpresent : ∀ k ≤ 2, threeBlocks (0 + BitVec.ofNat 64 k) ≠ none := by decide
    exact hpresent k hk hnone

end Dew.P2P
