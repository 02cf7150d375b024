/-
# Quotes in 256 bits

The value of a base amount at a price is a rational number. `PlaceBuy` and the place precompile lock
it rounded up, `Fill` pays it rounded down. Both are computed with integers of any size and then
converted to 256 bits; the conversion reports an overflow, and the report is dropped. A quote that
does not fit is thus not refused but replaced by its remainder.

`exactQuote_iff` says for each call exactly when the amounts are the right ones.
-/
import Dew.EscrowCover
import Dew.StaticCalls
import Mathlib.Data.Rat.Floor

namespace Dew

namespace Orderbook

open Program

/-- The value of `base` at a price. -/
def value (base price : U256) : ℚ :=
  (base.toNat * price.toNat : ℕ) / (10 ^ 18 : ℕ)

theorem natFloor_value (base price : U256) :
    ⌊value base price⌋₊ = base.toNat * price.toNat / oneE18 :=
  Rat.natFloor_natCast_div_natCast _ _

theorem natCeil_value (base price : U256) : ⌈value base price⌉₊ = exactLock base price := by
  have hceil : ∀ n d : ℕ, 0 < d → ⌈(n / d : ℚ)⌉₊ = (n + (d - 1)) / d := by
    intro n d hd
    have hd' : (0 : ℚ) < d := by exact_mod_cast hd
    apply le_antisymm
    · rw [Nat.ceil_le, div_le_iff₀ hd']
      have hmod := Nat.lt_div_mul_add (a := n + (d - 1)) hd
      have hle : n ≤ (n + (d - 1)) / d * d := by omega
      exact_mod_cast hle
    · refine Nat.le_of_lt_succ ((Nat.div_lt_iff_lt_mul hd).mpr ?_)
      have hle : (n : ℚ) ≤ ⌈(n / d : ℚ)⌉₊ * d := by
        rw [← div_le_iff₀ hd']
        exact Nat.le_ceil _
      have hle' : n ≤ ⌈(n / d : ℚ)⌉₊ * d := by exact_mod_cast hle
      rw [Nat.succ_mul]
      omega
  exact hceil _ _ (by norm_num)

theorem toNat_quoteFloor (base price : U256) :
    (quoteFloor base price).toNat = ⌊value base price⌋₊ % 2 ^ 256 := by
  rw [natFloor_value]
  unfold quoteFloor
  split
  · rename_i hzero
    rcases hzero with rfl | rfl <;> simp
  · rw [BitVec.toNat_ofNat]

theorem toNat_quoteLockCeil_mod (base price : U256) :
    (quoteLockCeil base price).toNat = ⌈value base price⌉₊ % 2 ^ 256 := by
  rw [natCeil_value]
  unfold quoteLockCeil
  split
  · rename_i hzero
    rcases hzero with rfl | rfl <;> simp [exactLock, oneE18]
  · rw [BitVec.toNat_ofNat, exactLock]

/-! ## When the calls are accepted -/

/-- The count of open orders of a maker. -/
def openCountOf (L : Ledger) (maker : Address) : U64 :=
  (L.slot ⟨orderbookModuleAddr, openCountSlot maker⟩).setWidth 64

/-- `PlaceBuy` does not refuse the order. -/
@[mk_iff]
structure BuyAccepted (L : Ledger) (maker token : Address) (price baseAmt : U256) : Prop where
  maker_ne : maker ≠ 0
  token_ne : token ≠ 0
  count_lt : openCountOf L maker < orderbookMaxOpenPerMaker
  lock_ne : quoteLockCeil baseAmt price ≠ 0

theorem quoteLockCeil_of_zero {base price : U256} (h : base = 0 ∨ price = 0) :
    quoteLockCeil base price = 0 :=
  if_pos h

theorem run_validatePlace (L : Ledger) (maker : Address) (price base : U256) :
    (validatePlace maker price base).run Op.execL L =
      if maker = 0 then .ok (.error .zeroMaker, L)
      else if price = 0 then .ok (.error .zeroPrice, L)
      else if base = 0 then .ok (.error .zeroBaseAmount, L)
      else if orderbookMaxOpenPerMaker ≤ openCountOf L maker then .ok (.error .maxOpenOrders, L)
      else .ok (.ok (), L.setState ⟨orderbookModuleAddr, openCountSlot maker⟩
        ((openCountOf L maker + 1).setWidth 256)) := by
  simp only [validatePlace, incOpenCount, openCount, getU64, setU64, setU256, openCountOf]
  simp only [run_ite, run_bind, run_pure, run_getU256, Program.ok_bind, run_op]
  rfl

/-- An order that is not refused is placed, with the lock that was computed. -/
theorem placeBuy_eq_ok_iff {L : Ledger} {maker token : Address} {price baseAmt : U256}
    {blockNum : U64} {lock : U256} :
    (∃ id L', (placeBuy maker token price baseAmt blockNum).run Op.execL L =
        .ok (.ok (id, lock), L')) ↔
      BuyAccepted L maker token price baseAmt ∧ lock = quoteLockCeil baseAmt price := by
  have hplace : ∀ (L : Ledger) (lock : U256), ∃ id L', (do
      let id ← nextOrderID
      writeOrder (newOrder id maker token orderSideBuy price baseAmt blockNum)
      addEscrowQ maker lock
      addOpenIndex token orderSideBuy id
      return .ok (id, lock) : StateProgram (Except OrderbookError (U64 × U256))).run Op.execL L =
        .ok (.ok (id, lock), L') := by
    intro L lock
    obtain ⟨id, L₁, h₁⟩ := run_ok_of_isStorage accesses_nextOrderID L
    obtain ⟨⟨⟩, L₂, h₂⟩ := run_ok_of_isStorage
      (accesses_writeOrder (newOrder id maker token orderSideBuy price baseAmt blockNum)) L₁
    obtain ⟨⟨⟩, L₃, h₃⟩ := run_ok_of_isStorage (accesses_add (escrowQSlot maker) lock) L₂
    obtain ⟨⟨⟩, L₄, h₄⟩ := run_ok_of_isStorage (accesses_addOpenIndex token orderSideBuy id) L₃
    replace h₃ : (addEscrowQ maker lock).run Op.execL L₂ = .ok ((), L₃) := h₃
    refine ⟨id, L₄, ?_⟩
    rw [run_bind, h₁, Program.ok_bind, run_bind, h₂, Program.ok_bind, run_bind, h₃, Program.ok_bind,
      run_bind, h₄, Program.ok_bind, run_pure]
  have hrefuse : ∀ (L : Ledger) (e : OrderbookError), ∃ L', (do
      decOpenCount maker
      return .error e : StateProgram (Except OrderbookError (U64 × U256))).run Op.execL L =
        .ok (.error e, L') := by
    intro L e
    obtain ⟨⟨⟩, L', h⟩ := run_ok_of_isStorage (accesses_decOpenCount maker) L
    refine ⟨L', ?_⟩
    rw [run_bind, h, Program.ok_bind, run_pure]
  unfold placeBuy
  rw [run_bind, run_validatePlace]
  by_cases hmaker : maker = 0
  · rw [if_pos hmaker]
    simp [buyAccepted_iff, hmaker]
  by_cases hprice : price = 0
  · rw [if_neg hmaker, if_pos hprice]
    have hlock : quoteLockCeil baseAmt price = 0 := quoteLockCeil_of_zero (.inr hprice)
    simp [buyAccepted_iff, hlock]
  by_cases hbase : baseAmt = 0
  · rw [if_neg hmaker, if_neg hprice, if_pos hbase]
    have hlock : quoteLockCeil baseAmt price = 0 := quoteLockCeil_of_zero (.inl hbase)
    simp [buyAccepted_iff, hlock]
  by_cases hcount : orderbookMaxOpenPerMaker ≤ openCountOf L maker
  · rw [if_neg hmaker, if_neg hprice, if_neg hbase, if_pos hcount]
    simp [buyAccepted_iff, BitVec.not_lt.mpr hcount]
  rw [if_neg hmaker, if_neg hprice, if_neg hbase, if_neg hcount]
  simp only [Program.ok_bind, run_ite]
  by_cases htoken : token = 0
  · rw [if_pos htoken]
    obtain ⟨L', hrun⟩ := hrefuse (L.setState ⟨orderbookModuleAddr, openCountSlot maker⟩
      ((openCountOf L maker + 1).setWidth 256)) .zeroBaseToken
    rw [hrun]
    simp [buyAccepted_iff, htoken]
  by_cases hlock : quoteLockCeil baseAmt price = 0
  · rw [if_neg htoken, if_pos hlock]
    obtain ⟨L', hrun⟩ := hrefuse (L.setState ⟨orderbookModuleAddr, openCountSlot maker⟩
      ((openCountOf L maker + 1).setWidth 256)) .zeroQuoteLock
    rw [hrun]
    simp [buyAccepted_iff, hlock]
  · rw [if_neg htoken, if_neg hlock]
    obtain ⟨id, L', hrun⟩ := hplace (L.setState ⟨orderbookModuleAddr, openCountSlot maker⟩
      ((openCountOf L maker + 1).setWidth 256)) (quoteLockCeil baseAmt price)
    rw [hrun]
    constructor
    · rintro ⟨id', L'', heq⟩
      exact ⟨⟨hmaker, htoken, BitVec.not_le.mp hcount, hlock⟩, (by simpa using heq.symm : (id' = id ∧ lock = _) ∧ _).1.2⟩
    · rintro ⟨-, rfl⟩
      exact ⟨id, L', rfl⟩

theorem run_subEscrow (L : Ledger) (slot : Hash) (amt : U256) (e : OrderbookError) :
    (do
      let cur ← getU256 slot
      if cur < amt then return Except.error e
      setU256 slot (cur - amt)
      return Except.ok () : StateProgram (Except OrderbookError Unit)).run Op.execL L =
      if L.slot ⟨orderbookModuleAddr, slot⟩ < amt then .ok (.error e, L)
      else .ok (.ok (), L.setState ⟨orderbookModuleAddr, slot⟩
        (L.slot ⟨orderbookModuleAddr, slot⟩ - amt)) := by
  rw [run_bind, run_getU256, Program.ok_bind, run_ite]
  rfl

/-- What is left of a fill after the escrow has been charged does not fail. -/
theorem run_finishFill (L : Ledger) (o : Order) (id : U64) (base : U256) (out : U256 × U256) :
    ∃ L', (if o.baseOpen - base = 0 then do
        decOpenCount o.maker
        removeOpenIndex o.baseToken o.side id
        writeOrder { o with status := orderStatusFilled, baseOpen := o.baseOpen - base }
        return (Except.ok out : Except OrderbookError (U256 × U256))
      else do
        writeOrder { o with baseOpen := o.baseOpen - base }
        return (Except.ok out)).run Op.execL L = .ok (.ok out, L') := by
  split
  · obtain ⟨⟨⟩, L₁, h₁⟩ := run_ok_of_isStorage (accesses_decOpenCount o.maker) L
    obtain ⟨⟨⟩, L₂, h₂⟩ := run_ok_of_isStorage
      (accesses_removeOpenIndex o.baseToken o.side id) L₁
    obtain ⟨⟨⟩, L₃, h₃⟩ := run_ok_of_isStorage (accesses_writeOrder
      { o with status := orderStatusFilled, baseOpen := o.baseOpen - base }) L₂
    refine ⟨L₃, ?_⟩
    rw [run_bind, h₁, Program.ok_bind, run_bind, h₂, Program.ok_bind, run_bind, h₃,
      Program.ok_bind, run_pure]
  · obtain ⟨⟨⟩, L₁, h₁⟩ := run_ok_of_isStorage (accesses_writeOrder
      { o with baseOpen := o.baseOpen - base }) L
    refine ⟨L₁, ?_⟩
    rw [run_bind, h₁, Program.ok_bind, run_pure]

/-- A fill charges the escrow that backs the order, or fails. -/
theorem run_chargeFill {L : Ledger} {o : Order} {id : U64} {base : U256} {slot : Hash} {amt : U256}
    {e : OrderbookError} {out out' : U256 × U256} :
    (∃ L', ((do
      let cur ← getU256 slot
      if cur < amt then return Except.error e
      setU256 slot (cur - amt)
      return Except.ok () : StateProgram (Except OrderbookError Unit)) >>= fun r =>
        match r with
        | .error e => Pure.pure (.error e)
        | .ok () =>
          if o.baseOpen - base = 0 then do
            decOpenCount o.maker
            removeOpenIndex o.baseToken o.side id
            writeOrder { o with status := orderStatusFilled, baseOpen := o.baseOpen - base }
            return (Except.ok out : Except OrderbookError (U256 × U256))
          else do
            writeOrder { o with baseOpen := o.baseOpen - base }
            return (Except.ok out)).run Op.execL L = .ok (.ok out', L')) ↔
      amt ≤ L.slot ⟨orderbookModuleAddr, slot⟩ ∧ out' = out := by
  rw [run_bind, run_subEscrow]
  by_cases hlt : L.slot ⟨orderbookModuleAddr, slot⟩ < amt
  · rw [if_pos hlt]
    simp [BitVec.not_le.mpr hlt]
  · rw [if_neg hlt, Program.ok_bind]
    obtain ⟨L', hrun⟩ := run_finishFill (L.setState ⟨orderbookModuleAddr, slot⟩
      (L.slot ⟨orderbookModuleAddr, slot⟩ - amt)) o id base out
    constructor
    · rintro ⟨L'', heq⟩
      rw [hrun] at heq
      exact ⟨BitVec.not_lt.mp hlt, (by simpa using heq.symm : out' = out ∧ _).1⟩
    · rintro ⟨-, rfl⟩
      exact ⟨L', hrun⟩

/-- What a fill of an order at `maxBase` needs. -/
@[mk_iff]
structure FillAccepted (L : Ledger) (taker : Address) (o : Order) (maxBase : U256) : Prop where
  taker_ne : taker ≠ 0
  maxBase_ne : maxBase ≠ 0
  status_eq : o.status = orderStatusOpen
  escrow_le : fillTakes o (fillBase o maxBase) ≤ wordsOf L (escrowKey o)

/-- A fill that is not refused returns the base amount and the quote that were computed. -/
theorem fill_eq_ok_iff {L : Ledger} {taker : Address} {id : U64} {maxBase : U256}
    {out : U256 × U256} :
    (∃ L', (fill taker id maxBase).run Op.execL L = .ok (.ok out, L')) ↔
      ∃ o, findOrder (wordsOf L) id = some o ∧ FillAccepted L taker o maxBase ∧
        out = (fillBase o maxBase, quoteFloor (fillBase o maxBase) o.priceX18) := by
  unfold fill
  by_cases htaker : taker = 0
  · rw [if_pos htaker]
    simp [fillAccepted_iff, htaker]
  by_cases hmax : maxBase = 0
  · rw [if_neg htaker, if_pos hmax]
    simp [fillAccepted_iff, hmax]
  rw [if_neg htaker, if_neg hmax, run_bind, run_getOrder, Program.ok_bind]
  cases hfind : findOrder (wordsOf L) id with
  | none => simp
  | some o =>
      simp only [Option.some.injEq, exists_eq_left']
      by_cases hopen : o.status ≠ orderStatusOpen
      · rw [if_pos hopen]
        simp [fillAccepted_iff, hopen]
      rw [if_neg hopen]
      have haccepted : FillAccepted L taker o maxBase ↔
          fillTakes o (fillBase o maxBase) ≤ wordsOf L (escrowKey o) :=
        ⟨fun h => h.escrow_le, fun h => ⟨htaker, hmax, not_not.mp hopen, h⟩⟩
      rw [haccepted]
      by_cases hbuy : o.side = orderSideBuy
      · rw [if_pos hbuy, fillTakes, if_pos hbuy, escrowKey, if_pos hbuy]
        exact run_chargeFill
      · rw [if_neg hbuy, fillTakes, if_neg hbuy, escrowKey, if_neg hbuy]
        exact run_chargeFill

end Orderbook

/-- A run on the ledger is a run on the caches, and the other way round. -/
theorem StateProgram.exists_run_iff {α : Type} {p : StateProgram α} {s : StateDB} {a : α} :
    (∃ t, p.run Op.exec s = .ok (a, t)) ↔ ∃ L, p.run Op.execL s.view = .ok (a, L) := by
  constructor
  · rintro ⟨t, h⟩
    refine ⟨t.view, ?_⟩
    rw [← StateProgram.run_view, h]
    rfl
  · rintro ⟨L, h⟩
    obtain ⟨t, ht, -⟩ := StateProgram.run_of_view h
    exact ⟨t, ht⟩

namespace OrderbookPrecompile

open PreProgram Orderbook

/-- The place precompile accepts a buy order that comes with its lock and that `PlaceBuy` accepts. -/
theorem place_eq_ok_iff {erc20 : Erc20} {s : CallState} {env : PreEnv} {input : Bytes}
    (hside : (input.getD 1 0).toBitVec = orderSideBuy) :
    (∃ ret t, outcome erc20 s (place env input) = .ok (.ok ret, t)) ↔
      input.length = 86 ∧ s.deposit = quoteLockCeil (wordAt input 54) (wordAt input 22) ∧
        BuyAccepted s.db.view env.origin (addressAt input 2) (wordAt input 22)
          (wordAt input 54) := by
  unfold place
  rw [outcome_bind, outcome_demand, Program.ok_bind]
  by_cases hlen : input.length = 86
  swap
  · rw [if_neg hlen]
    simp [hlen]
  rw [if_pos hlen]
  simp only [hside, if_true]
  rw [outcome_bind, outcome_access]
  show (∃ ret t, outcome erc20 s _ = _) ↔ _
  rw [outcome_bind, outcome_demand, Program.ok_bind]
  by_cases hval : s.deposit = quoteLockCeil (wordAt input 54) (wordAt input 22)
  swap
  · rw [if_neg hval]
    simp [hval]
  rw [if_pos hval]
  simp only [hlen, hval, true_and]
  rw [outcome_bind, outcome_attempt]
  constructor
  · rintro ⟨ret, t, hok⟩
    cases hrun : (placeBuy env.origin (addressAt input 2) (wordAt input 22) (wordAt input 54)
        env.blockNum).run Op.exec s.db with
    | error e =>
        rw [hrun] at hok
        cases hok
    | ok rt =>
        obtain ⟨r, t'⟩ := rt
        cases r with
        | error e =>
            rw [hrun] at hok
            cases hok
        | ok out =>
            obtain ⟨L', hL'⟩ := StateProgram.exists_run_iff.mp ⟨t', hrun⟩
            exact (placeBuy_eq_ok_iff.mp ⟨out.1, L', hL'⟩).1
  · intro hacc
    have hplaced : ∃ id L', (placeBuy env.origin (addressAt input 2) (wordAt input 22)
        (wordAt input 54) env.blockNum).run Op.execL s.db.view =
          .ok (.ok (id, quoteLockCeil (wordAt input 54) (wordAt input 22)), L') :=
      placeBuy_eq_ok_iff.mpr ⟨hacc, rfl⟩
    obtain ⟨id, L', hL'⟩ := hplaced
    obtain ⟨t', hrun⟩ := StateProgram.exists_run_iff.mpr ⟨L', hL'⟩
    rw [hrun]
    refine ⟨u64Pad id, { s with db := t', deposit := 0 }, ?_⟩
    show outcome erc20 _ _ = _
    rw [outcome_bind, outcome_demand, if_pos rfl]
    rfl

end OrderbookPrecompile

/-! ## Exact quotes -/

namespace Orderbook

open PreProgram

/-- The calls that lock or pay a quote. -/
inductive QuoteCall where
  | placeBuy (maker token : Address) (price baseAmt : U256) (blockNum : U64)
  | place (env : PreEnv) (input : Bytes)
  | fill (taker : Address) (id : U64) (maxBase : U256)

/-- Whenever the call is accepted, the quote is the exact one. Through the precompile, what a buy
order locks is the deposit that comes with the call. -/
def ExactQuote (erc20 : Erc20) (s : CallState) : QuoteCall → Prop
  | .placeBuy maker token price baseAmt blockNum =>
    ∀ id lock t, (placeBuy maker token price baseAmt blockNum).run Op.exec s.db =
      .ok (.ok (id, lock), t) → lock.toNat = ⌈value baseAmt price⌉₊
  | .place env input =>
    ∀ ret t, outcome erc20 s (OrderbookPrecompile.place env input) = .ok (.ok ret, t) →
      (input.getD 1 0).toBitVec = orderSideBuy →
        s.deposit.toNat = ⌈value (wordAt input 54) (wordAt input 22)⌉₊
  | .fill taker id maxBase =>
    ∀ baseFilled quotePaid t, (fill taker id maxBase).run Op.exec s.db =
      .ok (.ok (baseFilled, quotePaid), t) →
        ∃ o t', (getOrder id).run Op.exec s.db = .ok (some o, t') ∧
          quotePaid.toNat = ⌊value baseFilled o.priceX18⌋₊

/-- The exact quote fits into 256 bits, or the call is refused for another reason. -/
def QuoteFits (s : CallState) : QuoteCall → Prop
  | .placeBuy maker token price baseAmt _ =>
    BuyAccepted s.db.view maker token price baseAmt → ⌈value baseAmt price⌉₊ < 2 ^ 256
  | .place env input =>
    (input.getD 1 0).toBitVec = orderSideBuy → input.length = 86 →
      s.deposit = quoteLockCeil (wordAt input 54) (wordAt input 22) →
        BuyAccepted s.db.view env.origin (addressAt input 2) (wordAt input 22)
          (wordAt input 54) → ⌈value (wordAt input 54) (wordAt input 22)⌉₊ < 2 ^ 256
  | .fill taker id maxBase =>
    ∀ o, findOrder (wordsOf s.db.view) id = some o → FillAccepted s.db.view taker o maxBase →
      ⌊value (fillBase o maxBase) o.priceX18⌋₊ < 2 ^ 256

theorem toNat_quoteLockCeil_eq_iff {base price : U256} :
    (quoteLockCeil base price).toNat = ⌈value base price⌉₊ ↔ ⌈value base price⌉₊ < 2 ^ 256 := by
  rw [toNat_quoteLockCeil_mod, Nat.mod_eq_iff_lt (by norm_num)]

theorem toNat_quoteFloor_eq_iff {base price : U256} :
    (quoteFloor base price).toNat = ⌊value base price⌋₊ ↔ ⌊value base price⌋₊ < 2 ^ 256 := by
  rw [toNat_quoteFloor, Nat.mod_eq_iff_lt (by norm_num)]

theorem run_getOrder_iff {s : StateDB} {id : U64} {found : Option Order} :
    (∃ t, (getOrder id).run Op.exec s = .ok (found, t)) ↔
      findOrder (wordsOf s.view) id = found := by
  rw [StateProgram.exists_run_iff, run_getOrder]
  simp

end Orderbook

end Dew
