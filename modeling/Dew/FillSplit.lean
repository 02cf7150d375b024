/-
# Orders filled in parts

An order may be filled by many takers, a part at a time. Each part is paid with its own value rounded
down, so the parts together pay less than the whole would; how much less is bounded by their number.
What rounding leaves of the lock of a filled buy order stays in the maker's escrow account.

The calls of a history are first described on the words of the book (`Moves`), and a history is a
chain of such moves (`Chain`). Then one order is followed through the chain (`Follows`).
-/
import Dew.QuoteExact
import Mathlib.Data.BitVec

namespace Dew

namespace Orderbook

open Program

/-! ## Sums of rounded parts -/

section Rounding

variable {d : ℕ}

theorem sum_div_le (p : ℕ) (parts : List ℕ) :
    (parts.map fun f => f * p / d).sum ≤ parts.sum * p / d := by
  induction parts with
  | nil => simp
  | cons f parts ih =>
      simp only [List.map_cons, List.sum_cons, Nat.add_mul]
      calc f * p / d + (parts.map fun f => f * p / d).sum
          ≤ f * p / d + parts.sum * p / d := Nat.add_le_add_left ih _
        _ ≤ (f * p + parts.sum * p) / d := Nat.div_add_div_le_add_div

theorem div_add_le (a b : ℕ) (hd : 0 < d) : (a + b) / d ≤ a / d + b / d + 1 := by
  rw [Nat.add_div hd]
  split <;> omega

/-- Each part but one costs at most one unit. -/
theorem div_sum_lt (hd : 0 < d) (p : ℕ) (parts : List ℕ) (hparts : parts ≠ []) :
    parts.sum * p / d < (parts.map fun f => f * p / d).sum + parts.length := by
  induction parts with
  | nil => exact absurd rfl hparts
  | cons f parts ih =>
      simp only [List.map_cons, List.sum_cons, List.length_cons, Nat.add_mul]
      have hsplit := div_add_le (f * p) (parts.sum * p) hd
      by_cases hnil : parts = []
      · subst hnil
        simp
      · have hrest := ih hnil
        omega

end Rounding

/-! ## Calls with their replies -/

/-- What a call returns. -/
inductive Reply where
  | placed (id : U64) (lock : U256)
  | cancelled (refund : Refund)
  | filled (base quote : U256)
  | failed (e : OrderbookError)
deriving DecidableEq, Repr

/-- The call of an operation, with its reply. -/
def BookOp.call : BookOp → StateProgram Reply
  | .placeBuy m t price base blockNum => do
    match ← Orderbook.placeBuy m t price base blockNum with
    | .error e => return .failed e
    | .ok (id, lock) => return .placed id lock
  | .placeSell m t price base blockNum => do
    match ← Orderbook.placeSell m t price base blockNum with
    | .error e => return .failed e
    | .ok id => return .placed id 0
  | .cancel actor id => do
    match ← Orderbook.cancel actor id with
    | .error e => return .failed e
    | .ok refund => return .cancelled refund
  | .fill taker id maxBase => do
    match ← Orderbook.fill taker id maxBase with
    | .error e => return .failed e
    | .ok (base, quote) => return .filled base quote

/-- A call of a history, with the quote escrow of an account before and after it. -/
structure Event where
  op : BookOp
  reply : Reply
  before : U256
  after : U256
deriving DecidableEq, Repr

/-- A sequence of calls, observed on the quote escrow of `m`. -/
def trace (m : Address) : List BookOp → StateProgram (List Event)
  | [] => return []
  | op :: ops => do
    let before ← escrowQuote m
    let reply ← op.call
    let after ← escrowQuote m
    let events ← trace m ops
    return ⟨op, reply, before, after⟩ :: events

/-! ## What a call does to the book -/

/-- The identifiers in use are counted, and the orders name participants and a price. -/
structure Orderly (A : Set Address) (n : ℕ) (B : Words) : Prop where
  next : (B .nextID).toNat ≤ n
  order : ∀ id o, findOrder B id = some o →
    o.maker ∈ A ∧ o.baseToken ∈ A ∧ o.side.toNat < 2 ∧ o.priceX18 ≠ 0

theorem Orderly.wellFormed {A : Set Address} {N n : ℕ} {B : Words} (h : Orderly A n B)
    (hn : n ≤ N) : WellFormed A N B where
  next := h.next.trans hn
  order id o hfind := by
    obtain ⟨hm, ht, hs, -⟩ := h.order id o hfind
    exact ⟨hm, ht, hs⟩

/-- The order that a placement asks for, on the book `B`, and what it adds to the escrow. -/
def BookOp.asks (B : Words) : BookOp → Option (Order × U256)
  | .placeBuy m t price base blockNum =>
    some (buyOrder B m t price base blockNum, quoteLockCeil base price)
  | .placeSell m t price base blockNum => some (sellOrder B m t price base blockNum, base)
  | _ => none

/-- The lock that a placement reports. -/
def lockOf (o : Order) : U256 :=
  if o.side = orderSideBuy then quoteLockCeil o.baseOrig o.priceX18 else 0

theorem lockOf_buyOrder (B : Words) (m t : Address) (price base : U256) (blockNum : U64) :
    lockOf (buyOrder B m t price base blockNum) = quoteLockCeil base price :=
  if_pos rfl

theorem lockOf_sellOrder (B : Words) (m t : Address) (price base : U256) (blockNum : U64) :
    lockOf (sellOrder B m t price base blockNum) = 0 :=
  if_neg (by decide : orderSideSell ≠ orderSideBuy)

/-- What a call replies and the book it leaves. -/
inductive Moves (B : Words) (op : BookOp) : Reply → Words → Prop
  | failed (e : OrderbookError) : Moves B op (.failed e) B
  | placed {o : Order} {amt : U256} (hasks : op.asks B = some (o, amt)) (hprice : o.priceX18 ≠ 0)
      (hbase : o.baseOrig ≠ 0) (hlock : o.side = orderSideBuy → amt ≠ 0) :
      Moves B op (.placed o.id (lockOf o)) (placed B o amt)
  | cancelled {actor : Address} {id : U64} {o : Order} {take : ℕ} {refund : Refund} {B' : Words}
      (hop : op = .cancel actor id) (hid : o.id = id) (hopen : o.status = orderStatusOpen)
      (hrep : Replaces B B' o (cancelledOrder o) take) : Moves B op (.cancelled refund) B'
  | filled {taker : Address} {id : U64} {maxBase : U256} {o : Order} {B' : Words}
      (hop : op = .fill taker id maxBase) (hid : o.id = id) (hopen : o.status = orderStatusOpen)
      (hrep : Replaces B B' o (filledOrder o (fillBase o maxBase))
        (fillTakes o (fillBase o maxBase)).toNat) :
      Moves B op (.filled (fillBase o maxBase) (quoteFloor (fillBase o maxBase) o.priceX18)) B'

section Step

variable {A : Set Address} {N n : ℕ} {B : Words} {bal : Address → U256}

theorem moves_cancel (hB : Orderly A n B) (actor : Address) (id : U64) :
    match cancelled B actor id with
    | (.error e, B') => Moves B (.cancel actor id) (.failed e) B'
    | (.ok refund, B') => Moves B (.cancel actor id) (.cancelled refund) B' := by
  unfold cancelled
  cases hfind : findOrder B id with
  | none => exact .failed _
  | some o =>
      simp only
      by_cases hstatus : o.status ≠ orderStatusOpen
      · rw [if_pos hstatus]
        exact .failed _
      by_cases hmaker : o.maker ≠ actor
      · rw [if_neg hstatus, if_pos hmaker]
        exact .failed _
      rw [if_neg hstatus, if_neg hmaker]
      have hpriced := (hB.order id o hfind).2.2.2
      by_cases hbuy : o.side = orderSideBuy
      · have hkey : escrowKey o = .escrowQ o.maker := if_pos hbuy
        simp only [released, if_pos hbuy]
        have hle : (if B (.escrowQ o.maker) < quoteLockCeil o.baseOpen o.priceX18 then
            B (.escrowQ o.maker) else quoteLockCeil o.baseOpen o.priceX18) ≤ B (escrowKey o) := by
          rw [hkey]
          split
          · exact BitVec.le_refl _
          · rename_i hcap
            exact BitVec.not_lt.mp hcap
        have hrep := replaces_put (cancelledOrder o) _ hfind rfl rfl rfl rfl rfl hpriced hle
        rw [hkey] at hrep
        exact .cancelled rfl (findOrder_id hfind) (not_not.mp hstatus) hrep
      · have hkey : escrowKey o = .escrowB o.maker o.baseToken := if_neg hbuy
        by_cases hshort : B (.escrowB o.maker o.baseToken) < o.baseOpen
        · simp only [released, if_neg hbuy, if_pos hshort]
          exact .failed _
        · simp only [released, if_neg hbuy, if_neg hshort]
          have hle : o.baseOpen ≤ B (escrowKey o) := by
            rw [hkey]
            exact BitVec.not_lt.mp hshort
          have hrep := replaces_put (cancelledOrder o) _ hfind rfl rfl rfl rfl rfl hpriced hle
          rw [hkey] at hrep
          exact .cancelled rfl (findOrder_id hfind) (not_not.mp hstatus) hrep

theorem filledOrder_fields (o : Order) (base : U256) :
    (filledOrder o base).id = o.id ∧ (filledOrder o base).maker = o.maker ∧
      (filledOrder o base).baseToken = o.baseToken ∧ (filledOrder o base).side = o.side ∧
      (filledOrder o base).priceX18 = o.priceX18 ∧
      (filledOrder o base).baseOrig = o.baseOrig ∧
      (filledOrder o base).baseOpen = o.baseOpen - base := by
  unfold filledOrder
  split <;> exact ⟨rfl, rfl, rfl, rfl, rfl, rfl, rfl⟩

theorem moves_fill (hB : Orderly A n B) (taker : Address) (id : U64) (maxBase : U256) :
    match filled B taker id maxBase with
    | (.error e, B') => Moves B (.fill taker id maxBase) (.failed e) B'
    | (.ok out, B') => Moves B (.fill taker id maxBase) (.filled out.1 out.2) B' := by
  unfold filled
  by_cases htaker : taker = 0
  · rw [if_pos htaker]
    exact .failed _
  by_cases hmax : maxBase = 0
  · rw [if_neg htaker, if_pos hmax]
    exact .failed _
  rw [if_neg htaker, if_neg hmax]
  cases hfind : findOrder B id with
  | none => exact .failed _
  | some o =>
      simp only
      by_cases hstatus : o.status ≠ orderStatusOpen
      · rw [if_pos hstatus]
        exact .failed _
      by_cases hshort : B (escrowKey o) < fillTakes o (fillBase o maxBase)
      · rw [if_neg hstatus, if_pos hshort]
        exact .failed _
      rw [if_neg hstatus, if_neg hshort]
      obtain ⟨hid, hmaker, htoken, hside, hprice, -, -⟩ := filledOrder_fields o (fillBase o maxBase)
      refine .filled rfl (findOrder_id hfind) (not_not.mp hstatus) ?_
      exact replaces_put _ _ hfind hid hmaker htoken hside hprice (hB.order id o hfind).2.2.2
        (BitVec.not_lt.mp hshort)

/-- A call moves the book. -/
theorem BookOp.total_call (hinj : Set.InjOn Key.slot (Key.within A N)) (hN : N < 2 ^ 64)
    (op : BookOp) (hparties : ∀ a ∈ op.parties, a ∈ A) (hn : n + op.placements ≤ N)
    (hB : Orderly A n B) :
    Total Op.execL (Shows A N n B bal) op.call fun r L =>
      ∃ B', Moves B op r B' ∧ Shows A N (n + op.placements) B' bal L := by
  cases op with
  | placeBuy m t price base blockNum =>
      have hnext : (B .nextID).toNat < N := lt_of_le_of_lt hB.next hn
      intro L hL
      obtain ⟨r, L', hrun, hpost⟩ := total_placeBuy hinj (hparties m (by simp [parties]))
        (hparties t (by simp [parties])) hnext hn hN price base blockNum L hL
      rcases hpost with ⟨e, rfl, -, hL'⟩ | ⟨rfl, hprice, hbase, hL'⟩
      · refine ⟨.failed e, L', ?_, B, .failed e, hL'.mono (Nat.le_succ n)⟩
        rw [BookOp.call, run_bind, hrun, Program.ok_bind, run_pure]
      · have hlock := (placeBuy_eq_ok_iff.mp ⟨_, L', hrun⟩).1.lock_ne
        have hmoves : Moves B (.placeBuy m t price base blockNum) (.placed (nextOf B) _) _ :=
          .placed (o := buyOrder B m t price base blockNum) rfl hprice hbase fun _ => hlock
        rw [lockOf_buyOrder] at hmoves
        refine ⟨_, L', ?_, _, hmoves, hL'⟩
        rw [BookOp.call, run_bind, hrun, Program.ok_bind, run_pure]
  | placeSell m t price base blockNum =>
      have hnext : (B .nextID).toNat < N := lt_of_le_of_lt hB.next hn
      intro L hL
      obtain ⟨r, L', hrun, hpost⟩ := total_placeSell hinj (hparties m (by simp [parties]))
        (hparties t (by simp [parties])) hnext hn hN price base blockNum L hL
      rcases hpost with ⟨e, rfl, -, hL'⟩ | ⟨rfl, hprice, hbase, hL'⟩
      · refine ⟨.failed e, L', ?_, B, .failed e, hL'.mono (Nat.le_succ n)⟩
        rw [BookOp.call, run_bind, hrun, Program.ok_bind, run_pure]
      · have hmoves : Moves B (.placeSell m t price base blockNum) (.placed (nextOf B) _) _ :=
          .placed (o := sellOrder B m t price base blockNum) rfl hprice hbase fun h =>
            absurd h (by decide : orderSideSell ≠ orderSideBuy)
        rw [lockOf_sellOrder] at hmoves
        refine ⟨_, L', ?_, _, hmoves, hL'⟩
        rw [BookOp.call, run_bind, hrun, Program.ok_bind, run_pure]
  | cancel actor id =>
      intro L hL
      obtain ⟨r, L', hrun, rfl, hL'⟩ := total_cancel hinj (hB.wellFormed hn) hn actor id L hL
      have hmoves := moves_cancel hB actor id
      rcases hres : cancelled B actor id with ⟨e | refund, B'⟩
      · rw [hres] at hrun hmoves hL'
        refine ⟨.failed e, L', ?_, B', hmoves, hL'⟩
        rw [BookOp.call, run_bind, hrun, Program.ok_bind, run_pure]
      · rw [hres] at hrun hmoves hL'
        refine ⟨.cancelled refund, L', ?_, B', hmoves, hL'⟩
        rw [BookOp.call, run_bind, hrun, Program.ok_bind, run_pure]
  | fill taker id maxBase =>
      intro L hL
      obtain ⟨r, L', hrun, rfl, hL'⟩ := total_fill hinj (hB.wellFormed hn) hn taker id maxBase L hL
      have hmoves := moves_fill hB taker id maxBase
      rcases hres : filled B taker id maxBase with ⟨e | out, B'⟩
      · rw [hres] at hrun hmoves hL'
        refine ⟨.failed e, L', ?_, B', hmoves, hL'⟩
        rw [BookOp.call, run_bind, hrun, Program.ok_bind, run_pure]
      · rw [hres] at hrun hmoves hL'
        refine ⟨.filled out.1 out.2, L', ?_, B', hmoves, hL'⟩
        rw [BookOp.call, run_bind, hrun, Program.ok_bind, run_pure]

theorem Replaces.orderly {B' : Words} {o o' : Order} {take : ℕ} (h : Replaces B B' o o' take)
    (hB : Orderly A n B) : Orderly A n B' where
  next := by
    rw [h.next]
    exact hB.next
  order := by
    intro id x hfind
    by_cases hid : id = o.id
    · subst hid
      rw [h.found'] at hfind
      obtain rfl := Option.some.inj hfind
      rw [h.maker, h.token, h.side, h.price]
      exact hB.order o.id o h.found
    · rw [h.other id hid] at hfind
      exact hB.order id x hfind

/-- A placement asks for an order under the next identifier. -/
theorem BookOp.asks_id {op : BookOp} {o : Order} {amt : U256} (h : op.asks B = some (o, amt)) :
    o.id = nextOf B ∧ o.side.toNat < 2 ∧ o.status = orderStatusOpen ∧ o.baseOpen = o.baseOrig ∧
      op.placements = 1 ∧ o.maker ∈ op.parties ∧ o.baseToken ∈ op.parties ∧
      (o.side = orderSideBuy → amt = lockOf o) := by
  cases op with
  | placeBuy m t price base blockNum =>
      obtain ⟨rfl, rfl⟩ := Prod.mk.inj (Option.some.inj h)
      refine ⟨rfl, Nat.zero_lt_two, rfl, rfl, rfl, ?_, ?_, fun _ => (lockOf_buyOrder ..).symm⟩
      · exact List.mem_cons_self
      · exact List.mem_cons_of_mem _ List.mem_cons_self
  | placeSell m t price base blockNum =>
      obtain ⟨rfl, rfl⟩ := Prod.mk.inj (Option.some.inj h)
      refine ⟨rfl, Nat.one_lt_two, rfl, rfl, rfl, ?_, ?_, fun hbuy => ?_⟩
      · exact List.mem_cons_self
      · exact List.mem_cons_of_mem _ List.mem_cons_self
      · exact absurd hbuy (by decide : orderSideSell ≠ orderSideBuy)
  | cancel actor id => cases h
  | fill taker id maxBase => cases h

theorem Moves.orderly {op : BookOp} {r : Reply} {B' : Words} (h : Moves B op r B')
    (hN : N < 2 ^ 64) (hn : n + op.placements ≤ N) (hparties : ∀ a ∈ op.parties, a ∈ A)
    (hB : Orderly A n B) : Orderly A (n + op.placements) B' := by
  have hmono : ∀ {B : Words}, Orderly A n B → Orderly A (n + op.placements) B :=
    fun h => ⟨h.next.trans (Nat.le_add_right _ _), h.order⟩
  cases h with
  | failed e => exact hmono hB
  | placed hasks hprice hbase hlock =>
      rename_i o amt
      obtain ⟨hid, hside, -, -, hone, hmaker, htoken, -⟩ := BookOp.asks_id hasks
      have hnext : (B .nextID).toNat < N := by
        have := hB.next
        omega
      have hnext' : (Orderbook.placed B o amt .nextID).toNat = (nextOf B).toNat := by
        rw [Orderbook.placed, Function.update_of_ne (escrowKey_ne_nextID o).symm,
          putOrder_of_not_order _ _ (by rintro _ _ ⟨⟩), Function.update_self, hid,
          BitVec.toNat_setWidth]
        exact Nat.mod_eq_of_lt ((nextOf B).isLt.trans (by norm_num))
      constructor
      · rw [hnext', toNat_nextOf hnext hN]
        have := hB.next
        omega
      · intro id x hfind
        rw [findOrder_placed amt hid hprice hnext hN] at hfind
        split at hfind
        · obtain rfl := Option.some.inj hfind
          exact ⟨hparties _ hmaker, hparties _ htoken, hside, hprice⟩
        · exact hB.order id x hfind
  | cancelled hop hid hopen hrep => exact hmono (hrep.orderly hB)
  | filled hop hid hopen hrep => exact hmono (hrep.orderly hB)

end Step

/-! ## Histories as chains of moves -/

/-- The moves of a history, with the quote escrow of `m` around each of them. -/
inductive Chain (A : Set Address) (N : ℕ) (m : Address) : ℕ → Words → List Event → ℕ → Words → Prop
  | nil (n : ℕ) (B : Words) : Chain A N m n B [] n B
  | cons {n n' : ℕ} {B B' B'' : Words} {e : Event} {es : List Event}
      (hB : Orderly A n B) (hparties : ∀ a ∈ e.op.parties, a ∈ A) (hn : n + e.op.placements ≤ N)
      (hmoves : Moves B e.op e.reply B') (hbefore : e.before = B (.escrowQ m))
      (hafter : e.after = B' (.escrowQ m)) (hrest : Chain A N m (n + e.op.placements) B' es n' B'') :
      Chain A N m n B (e :: es) n' B''

theorem Chain.append {A : Set Address} {N n n' : ℕ} {m : Address} {B B' : Words}
    {es es' : List Event} (h : Chain A N m n B (es ++ es') n' B') :
    ∃ n₁ B₁, Chain A N m n₁ B₁ es' n' B' := by
  induction es generalizing n B with
  | nil => exact ⟨n, B, h⟩
  | cons e es ih =>
      cases h with
      | cons hB hparties hn hmoves hbefore hafter hrest => exact ih hrest

/-- A history runs through, and is a chain of moves. -/
theorem trace_chain {A : Set Address} {N n : ℕ} {m : Address} {B : Words} {bal : Address → U256}
    (hinj : Set.InjOn Key.slot (Key.within A N)) (hN : N < 2 ^ 64) (hm : m ∈ A) (ops : List BookOp)
    (hparties : ∀ op ∈ ops, ∀ a ∈ op.parties, a ∈ A) (hn : n + placements ops ≤ N)
    (hB : Orderly A n B) :
    Total Op.execL (Shows A N n B bal) (trace m ops) fun es _ =>
      ∃ n' B', Chain A N m n B es n' B' := by
  induction ops generalizing n B with
  | nil => exact Total.pure fun _ _ => ⟨n, B, .nil n B⟩
  | cons op ops ih =>
      have hcount : placements (op :: ops) = op.placements + placements ops := by
        simp [placements]
      rw [hcount] at hn
      have hq : Key.escrowQ m ∈ Key.within A N := hm
      apply (load hq rfl).bind
      intro before
      apply Total.assume
      rintro rfl
      apply (op.total_call hinj hN (hparties op List.mem_cons_self) (by omega) hB).bind
      intro reply
      apply Total.fix
      intro B'
      apply Total.assume
      intro hmoves
      apply (load hq rfl).bind
      intro after
      apply Total.assume
      rintro rfl
      have hB' := hmoves.orderly hN (by omega) (hparties op List.mem_cons_self) hB
      apply (ih (fun op' h => hparties op' (List.mem_cons_of_mem _ h)) (by omega) hB').bind
      intro es
      refine Total.pure ?_
      rintro L ⟨n', B'', hchain⟩
      exact ⟨n', B'', .cons hB (hparties op List.mem_cons_self) (by simp only; omega) hmoves rfl rfl
        hchain⟩

/-! ## One order through a history -/

/-- The base and the quote of a fill of the order `id`. -/
def Event.fill? (id : U64) (e : Event) : Option (U256 × U256) :=
  match e.op, e.reply with
  | .fill _ id' _, .filled base quote => if id' = id then some (base, quote) else none
  | _, _ => none

/-- The fills of an order. -/
def fillsOf (id : U64) (es : List Event) : List (U256 × U256) :=
  es.filterMap (Event.fill? id)

/-- The call has placed, filled or cancelled the order `id`. -/
def Event.concerns (id : U64) (e : Event) : Bool :=
  match e.op, e.reply with
  | .fill _ id' _, .filled _ _ => id' = id
  | .cancel _ id', .cancelled _ => id' = id
  | _, .placed id' _ => id' = id
  | _, _ => false

/-- What the calls on the order `id` have left in the quote escrow. -/
def share (id : U64) (es : List Event) : U256 :=
  ((es.filter (Event.concerns id)).map fun e => e.after - e.before).sum

/-- The base that was filled. -/
def totalBase (fs : List (U256 × U256)) : ℕ :=
  (fs.map fun f => f.1.toNat).sum

/-- The quote that was paid. -/
def totalQuote (fs : List (U256 × U256)) : ℕ :=
  (fs.map fun f => f.2.toNat).sum

/-- How far an order of `base` is filled when `filled` has been filled. -/
inductive Stage (base filled : ℕ) (o : Order) : Prop
  | isOpen (hstatus : o.status = orderStatusOpen) (hne : o.baseOpen ≠ 0)
      (hsum : filled + o.baseOpen.toNat = base)
  | isFilled (hstatus : o.status = orderStatusFilled) (hsum : filled = base)
  | isCancelled (hstatus : o.status = orderStatusCancelled) (hlt : filled < base)

/-- The book holds the order `p` as it is after the fills `fs`, and `sh` of the quote escrow of `m`
is left to it. -/
structure Follows (m : Address) (p : Order) (B : Words) (fs : List (U256 × U256)) (sh : U256) :
    Prop where
  order : ∃ o, findOrder B p.id = some o ∧ o.maker = p.maker ∧ o.side = p.side ∧
    o.priceX18 = p.priceX18 ∧ Stage p.baseOrig.toNat (totalBase fs) o ∧
    (p.side = orderSideBuy → p.maker = m → o.status ≠ orderStatusCancelled →
      sh + (fs.map Prod.snd).sum = lockOf p)
  paid : ∀ f ∈ fs, f.2.toNat = f.1.toNat * p.priceX18.toNat / oneE18

theorem Stage.le {base filled : ℕ} {o : Order} (h : Stage base filled o) : filled ≤ base := by
  cases h <;> omega

section Follow

variable {A : Set Address} {N n : ℕ} {m : Address} {p : Order} {B B' : Words}
  {fs : List (U256 × U256)} {sh : U256}

/-- A move that leaves the order alone. -/
theorem Follows.of_find (h : Follows m p B fs sh) (hfind : findOrder B' p.id = findOrder B p.id) :
    Follows m p B' fs sh := by
  refine ⟨?_, h.paid⟩
  rw [hfind]
  exact h.order

theorem fill?_failed (id : U64) (op : BookOp) (e : OrderbookError) (x y : U256) :
    Event.fill? id ⟨op, .failed e, x, y⟩ = none ∧ Event.concerns id ⟨op, .failed e, x, y⟩ = false := by
  cases op <;> exact ⟨rfl, rfl⟩

theorem totalBase_append (fs : List (U256 × U256)) (base quote : U256) :
    totalBase (fs ++ [(base, quote)]) = totalBase fs + base.toNat := by
  simp [totalBase]

/-- A fill of the order. -/
theorem Follows.fill (h : Follows m p B fs sh)
    (hfit : p.baseOrig.toNat * p.priceX18.toNat / oneE18 < 2 ^ 256) {o : Order} {maxBase : U256}
    (hid : o.id = p.id) (hopen : o.status = orderStatusOpen)
    (hrep : Replaces B B' o (filledOrder o (fillBase o maxBase))
      (fillTakes o (fillBase o maxBase)).toNat) :
    Follows m p B'
      (fs ++ [(fillBase o maxBase, quoteFloor (fillBase o maxBase) o.priceX18)])
      (sh + (B' (.escrowQ m) - B (.escrowQ m))) := by
  obtain ⟨⟨x, hfind, hmaker, hside, hprice, hstage, hshare⟩, hpaid⟩ := h
  have hfound := hrep.found
  rw [hid, hfind] at hfound
  obtain rfl := Option.some.inj hfound
  have hle := fillBase_le x maxBase
  have hsub : (x.baseOpen - fillBase x maxBase).toNat =
      x.baseOpen.toNat - (fillBase x maxBase).toNat :=
    BitVec.toNat_sub_of_le (BitVec.le_def.mpr hle)
  have hopenSum : x.baseOpen ≠ 0 ∧
      totalBase fs + x.baseOpen.toNat = p.baseOrig.toNat := by
    cases hstage with
    | isOpen hstatus hne hsum => exact ⟨hne, hsum⟩
    | isFilled hstatus hsum => exact absurd (hopen.symm.trans hstatus) (by decide)
    | isCancelled hstatus hlt => exact absurd (hopen.symm.trans hstatus) (by decide)
  have hexact : (quoteFloor (fillBase x maxBase) x.priceX18).toNat =
      (fillBase x maxBase).toNat * p.priceX18.toNat / oneE18 := by
    rw [toNat_quoteFloor, natFloor_value, hprice]
    refine Nat.mod_eq_of_lt (lt_of_le_of_lt (Nat.div_le_div_right ?_) hfit)
    exact Nat.mul_le_mul_right _ (by omega)
  obtain ⟨-, hmaker', -, hside', hprice', -, hbaseOpen'⟩ :=
    filledOrder_fields x (fillBase x maxBase)
  refine ⟨⟨filledOrder x (fillBase x maxBase), ?_, hmaker'.trans hmaker, hside'.trans hside,
    hprice'.trans hprice, ?_, ?_⟩, ?_⟩
  · rw [← hid]
    exact hrep.found'
  · rw [totalBase_append]
    by_cases hzero : x.baseOpen - fillBase x maxBase = 0
    · refine .isFilled (by rw [filledOrder, if_pos hzero]) ?_
      rw [hzero] at hsub
      have hnone : (0 : U256).toNat = 0 := rfl
      omega
    · refine .isOpen (by rw [filledOrder, if_neg hzero]; exact hopen) (by rwa [hbaseOpen']) ?_
      rw [hbaseOpen', hsub]
      omega
  · intro hbuy hm _
    have hkey : escrowKey x = .escrowQ m := by
      rw [escrowKey, if_pos (hside.trans hbuy), hmaker, hm]
    have htakes : fillTakes x (fillBase x maxBase) =
        quoteFloor (fillBase x maxBase) x.priceX18 := if_pos (hside.trans hbuy)
    have haccount := hrep.account
    rw [hkey, htakes] at haccount
    have hsum : B (.escrowQ m) =
        B' (.escrowQ m) + quoteFloor (fillBase x maxBase) x.priceX18 := by
      apply BitVec.eq_of_toNat_eq
      rw [BitVec.toNat_add, haccount]
      exact (Nat.mod_eq_of_lt (B (.escrowQ m)).isLt).symm
    rw [← hshare hbuy hm (by rw [hopen]; decide), hsum]
    simp only [List.map_append, List.map_cons, List.map_nil, List.sum_append, List.sum_cons,
      List.sum_nil]
    grind
  · intro f hf
    rcases List.mem_append.mp hf with hf | hf
    · exact hpaid f hf
    · obtain rfl := List.mem_singleton.mp hf
      exact hexact

/-- A cancellation of the order. -/
theorem Follows.cancel (h : Follows m p B fs sh) {o : Order} {take : ℕ} (hid : o.id = p.id)
    (hopen : o.status = orderStatusOpen) (hrep : Replaces B B' o (cancelledOrder o) take)
    (sh' : U256) : Follows m p B' fs sh' := by
  obtain ⟨⟨x, hfind, hmaker, hside, hprice, hstage, -⟩, hpaid⟩ := h
  have hfound := hrep.found
  rw [hid, hfind] at hfound
  obtain rfl := Option.some.inj hfound
  refine ⟨⟨cancelledOrder x, ?_, hmaker, hside, hprice, ?_, ?_⟩, hpaid⟩
  · rw [← hid]
    exact hrep.found'
  · cases hstage with
    | isOpen hstatus hne hsum =>
        have hpos : x.baseOpen.toNat ≠ 0 := fun h0 => hne (BitVec.eq_of_toNat_eq h0)
        exact .isCancelled rfl (by omega)
    | isFilled hstatus hsum => exact absurd (hopen.symm.trans hstatus) (by decide)
    | isCancelled hstatus hlt => exact absurd (hopen.symm.trans hstatus) (by decide)
  · intro _ _ hnot
    exact absurd rfl hnot

/-- What one call does to the order that is followed. -/
theorem Follows.step (h : Follows m p B fs sh)
    (hfit : p.baseOrig.toNat * p.priceX18.toNat / oneE18 < 2 ^ 256) (hN : N < 2 ^ 64)
    (hB : Orderly A n B) {e : Event} (hn : n + e.op.placements ≤ N)
    (hmoves : Moves B e.op e.reply B') (hbefore : e.before = B (.escrowQ m))
    (hafter : e.after = B' (.escrowQ m)) :
    Follows m p B' (fs ++ (Event.fill? p.id e).toList)
      (sh + if e.concerns p.id then e.after - e.before else 0) := by
  obtain ⟨op, reply, before, after⟩ := e
  simp only at hn hmoves hbefore hafter ⊢
  subst hbefore hafter
  cases hmoves with
  | failed err =>
      obtain ⟨hfill, hconcerns⟩ := fill?_failed p.id op err (B (.escrowQ m)) (B (.escrowQ m))
      rw [hfill, hconcerns]
      simpa using h
  | placed hasks hprice hbase hlock =>
      rename_i o amt
      obtain ⟨hid, -, -, -, hone, -, -, -⟩ := BookOp.asks_id hasks
      have hnext : (B .nextID).toNat < N := by
        have := hB.next
        omega
      have hne : p.id ≠ o.id := by
        obtain ⟨x, hfind, -⟩ := h.order
        obtain ⟨-, -, hle⟩ := findOrder_eq_some hfind
        have hmod : ((B .nextID).setWidth 64).toNat ≤ (B .nextID).toNat := by
          rw [BitVec.toNat_setWidth]
          exact Nat.mod_le _ _
        intro heq
        have hbound := toNat_nextOf (B := B) hnext hN
        rw [heq, hid] at hle
        omega
      have hfill : ∀ x y, Event.fill? p.id ⟨op, .placed o.id (lockOf o), x, y⟩ = none := by
        intro x y
        cases op <;> rfl
      have hconcerns : ∀ x y,
          Event.concerns p.id ⟨op, .placed o.id (lockOf o), x, y⟩ = false := by
        intro x y
        cases op <;> simp [Event.concerns, Ne.symm hne]
      rw [hfill, hconcerns]
      have hfind := findOrder_placed amt hid hprice hnext hN p.id
      rw [if_neg hne] at hfind
      simpa using h.of_find hfind
  | cancelled hop hid hopen hrep =>
      rename_i actor id o take refund
      subst hop hid
      have hfill : ∀ x y, Event.fill? p.id ⟨.cancel actor o.id, .cancelled refund, x, y⟩ = none :=
        fun _ _ => rfl
      rw [hfill, Option.toList_none, List.append_nil]
      by_cases hid : o.id = p.id
      · exact h.cancel hid hopen hrep _
      · have hconcerns : ∀ x y,
            Event.concerns p.id ⟨.cancel actor o.id, .cancelled refund, x, y⟩ = false := by
          intro x y
          simp [Event.concerns, hid]
        rw [hconcerns]
        simpa using h.of_find (hrep.other p.id (Ne.symm hid))
  | filled hop hid hopen hrep =>
      rename_i taker id maxBase o
      subst hop hid
      by_cases hid : o.id = p.id
      · simp only [Event.fill?, Event.concerns, if_pos hid, decide_eq_true hid, if_true,
          Option.toList_some]
        exact h.fill hfit hid hopen hrep
      · simp only [Event.fill?, Event.concerns, if_neg hid, decide_eq_false hid, Option.toList_none,
          List.append_nil]
        simpa using h.of_find (hrep.other p.id (Ne.symm hid))

/-- What a history does to the order that is followed. -/
theorem Follows.chain (h : Follows m p B fs sh)
    (hfit : p.baseOrig.toNat * p.priceX18.toNat / oneE18 < 2 ^ 256) (hN : N < 2 ^ 64)
    {es : List Event} {n' : ℕ} (hchain : Chain A N m n B es n' B') :
    Follows m p B' (fs ++ fillsOf p.id es) (sh + share p.id es) := by
  induction hchain generalizing fs sh with
  | nil n B => simpa [fillsOf, share] using h
  | cons hB hparties hn hmoves hbefore hafter hrest ih =>
      rename_i e es
      have hstep := ih (h.step hfit hN hB hn hmoves hbefore hafter)
      have hfills : fillsOf p.id (e :: es) = (Event.fill? p.id e).toList ++ fillsOf p.id es := by
        unfold fillsOf
        rw [List.filterMap_cons]
        cases Event.fill? p.id e <;> rfl
      have hshare : share p.id (e :: es) =
          (if e.concerns p.id then e.after - e.before else 0) + share p.id es := by
        unfold share
        rw [List.filter_cons]
        split
        · rw [List.map_cons, List.sum_cons]
        · exact (BitVec.zero_add _).symm
      rw [hfills, hshare, ← List.append_assoc, ← BitVec.add_assoc]
      exact hstep

/-- The order right after it was placed. -/
theorem follows_placed {op : BookOp} {o : Order} {amt : U256} (hasks : op.asks B = some (o, amt))
    (hprice : o.priceX18 ≠ 0) (hbase : o.baseOrig ≠ 0) (hnext : (B .nextID).toNat < N)
    (hN : N < 2 ^ 64) :
    Follows m o (placed B o amt) [] (placed B o amt (.escrowQ m) - B (.escrowQ m)) := by
  obtain ⟨hid, -, hstatus, hopen, -, -, -, hlock⟩ := BookOp.asks_id hasks
  refine ⟨⟨o, ?_, rfl, rfl, rfl, ?_, ?_⟩, by simp⟩
  · rw [findOrder_placed amt hid hprice hnext hN, if_pos rfl]
  · exact .isOpen hstatus (by rwa [hopen]) (by rw [hopen]; simp [totalBase])
  · intro hbuy hm _
    have hkey : escrowKey o = .escrowQ m := by
      rw [escrowKey, if_pos hbuy, hm]
    rw [← hkey, placed_account, ← hlock hbuy]
    simp only [List.map_nil, List.sum_nil]
    grind

theorem Follows.totalQuote_eq (h : Follows m p B fs sh) :
    totalQuote fs = ((fs.map fun f => f.1.toNat).map fun b => b * p.priceX18.toNat / oneE18).sum := by
  rw [totalQuote, List.map_map]
  exact congrArg List.sum (List.map_congr_left h.paid)

theorem Follows.totalQuote_le (h : Follows m p B fs sh) :
    totalQuote fs ≤ totalBase fs * p.priceX18.toNat / oneE18 := by
  rw [h.totalQuote_eq]
  exact sum_div_le _ _

theorem Follows.lt_totalQuote (h : Follows m p B fs sh) (hfs : fs ≠ []) :
    totalBase fs * p.priceX18.toNat / oneE18 < totalQuote fs + fs.length := by
  have hlt := div_sum_lt (by decide : 0 < oneE18) p.priceX18.toNat
    (fs.map fun f => f.1.toNat) (by simpa using hfs)
  rw [← h.totalQuote_eq, List.length_map] at hlt
  exact hlt

theorem Follows.totalBase_le (h : Follows m p B fs sh) : totalBase fs ≤ p.baseOrig.toNat := by
  obtain ⟨o, -, -, -, -, hstage, -⟩ := h.order
  exact hstage.le

theorem toNat_sum_snd (fs : List (U256 × U256)) :
    (fs.map Prod.snd).sum.toNat = totalQuote fs % 2 ^ 256 := by
  induction fs with
  | nil => rfl
  | cons f fs ih =>
      rw [List.map_cons, List.sum_cons, BitVec.toNat_add, ih]
      simp [totalQuote, Nat.add_mod]

/-- What rounding leaves of the lock of a buy order that is filled. -/
theorem Follows.share_eq (h : Follows m p B fs sh) (hbuy : p.side = orderSideBuy)
    (hm : p.maker = m) (hlock : (lockOf p).toNat = exactLock p.baseOrig p.priceX18)
    (hfull : totalBase fs = p.baseOrig.toNat) :
    sh.toNat + totalQuote fs = exactLock p.baseOrig p.priceX18 := by
  have hle := h.totalQuote_le
  have hceil : p.baseOrig.toNat * p.priceX18.toNat / oneE18 ≤ exactLock p.baseOrig p.priceX18 :=
    Nat.div_le_div_right (Nat.le_add_right _ _)
  rw [hfull] at hle
  obtain ⟨o, -, -, -, -, hstage, hshare⟩ := h.order
  have hstatus : o.status ≠ orderStatusCancelled := by
    cases hstage with
    | isOpen hstatus => rw [hstatus]; decide
    | isFilled hstatus => rw [hstatus]; decide
    | isCancelled hstatus hlt => omega
  have hsum := congrArg BitVec.toNat (hshare hbuy hm hstatus)
  have hlt := (lockOf p).isLt
  rw [BitVec.toNat_add, toNat_sum_snd, hlock] at hsum
  have hsh := sh.isLt
  rw [Nat.mod_eq_of_lt (by omega : totalQuote fs < 2 ^ 256)] at hsum
  omega

end Follow

/-! ## The bounds -/

/-- An order as it is asked for. -/
structure Placement where
  buys : Bool
  maker : Address
  token : Address
  price : U256
  base : U256
  blockNum : U64

def Placement.op (p : Placement) : BookOp :=
  if p.buys then .placeBuy p.maker p.token p.price p.base p.blockNum
  else .placeSell p.maker p.token p.price p.base p.blockNum

theorem Placement.asks_op {p : Placement} {B : Words} {o : Order} {amt : U256}
    (h : p.op.asks B = some (o, amt)) :
    o.maker = p.maker ∧ o.priceX18 = p.price ∧ o.baseOrig = p.base ∧
      (p.buys = true → o.side = orderSideBuy) := by
  unfold Placement.op at h
  split at h
  · obtain ⟨rfl, rfl⟩ := Prod.mk.inj (Option.some.inj h)
    exact ⟨rfl, rfl, rfl, fun _ => rfl⟩
  · rename_i hsell
    obtain ⟨rfl, rfl⟩ := Prod.mk.inj (Option.some.inj h)
    exact ⟨rfl, rfl, rfl, fun hbuys => absurd hbuys hsell⟩

theorem exactLock_le (base price : U256) :
    exactLock base price ≤ base.toNat * price.toNat / oneE18 + 1 := by
  have hle := div_add_le (base.toNat * price.toNat) (oneE18 - 1) (by decide : 0 < oneE18)
  rwa [Nat.div_eq_of_lt (by decide : oneE18 - 1 < oneE18), Nat.add_zero] at hle

/-- The lock of an accepted buy order is exact if the value of the order fits. -/
theorem toNat_lockOf {o : Order} (hbuy : o.side = orderSideBuy) (hne : lockOf o ≠ 0)
    (hfit : o.baseOrig.toNat * o.priceX18.toNat / oneE18 < 2 ^ 256) :
    (lockOf o).toNat = exactLock o.baseOrig o.priceX18 := by
  rw [lockOf, if_pos hbuy] at hne ⊢
  have hmod := toNat_quoteLockCeil_mod o.baseOrig o.priceX18
  rw [natCeil_value] at hmod
  have hceil := exactLock_le o.baseOrig o.priceX18
  have hpos : (quoteLockCeil o.baseOrig o.priceX18).toNat ≠ 0 :=
    fun h0 => hne (BitVec.eq_of_toNat_eq h0)
  rw [hmod]
  refine Nat.mod_eq_of_lt (lt_of_le_of_ne (by omega) fun heq => hpos ?_)
  rw [hmod, heq, Nat.mod_self]

theorem orderly_zero (A : Set Address) : Orderly A 0 fun _ => 0 where
  next := by simp
  order id o h := by
    rw [findOrder_of_next_zero rfl] at h
    cases h

/-- An order is placed in a history that starts on a fresh module, and then filled in `k` parts.
The parts are within its size, and what they pay is within `k - 1` below the value of what was
filled, rounded down. If it is a buy order and filled, then what is left of its lock is between 0
and `k`. -/
theorem split_fills (A : Set Address) (ops : List BookOp) (s t : StateDB) (p : Placement)
    (hparties : ∀ op ∈ ops, ∀ a ∈ op.parties, a ∈ A) (hmaker : p.maker ∈ A)
    (hcount : placements ops < 2 ^ 64)
    (hinj : Set.InjOn Key.slot (Key.within A (placements ops)))
    (hfresh : ∀ k ∈ Key.within A (placements ops),
      s.slotOf ⟨orderbookModuleAddr, k.slot⟩ = 0)
    (pre post : List Event) (e : Event) (id : U64) (lock : U256)
    (hrun : (trace p.maker ops).run Op.exec s = .ok (pre ++ e :: post, t))
    (hop : e.op = p.op) (hreply : e.reply = .placed id lock)
    (hfit : p.base.toNat * p.price.toNat / oneE18 < 2 ^ 256) (k : ℕ)
    (hk : k = (fillsOf id post).length) (hfills : 1 ≤ k) :
    totalBase (fillsOf id post) ≤ p.base.toNat ∧
      (totalBase (fillsOf id post) * p.price.toNat / oneE18 : ℕ) - ((k : ℤ) - 1) ≤
        totalQuote (fillsOf id post) ∧
      totalQuote (fillsOf id post) ≤ totalBase (fillsOf id post) * p.price.toNat / oneE18 ∧
      (p.buys = true → totalBase (fillsOf id post) = p.base.toNat →
        ((share id (e :: post)).toNat : ℤ) =
            exactLock p.base p.price - totalQuote (fillsOf id post) ∧
          (exactLock p.base p.price : ℤ) - totalQuote (fillsOf id post) ≤ k) := by
  -- the history as a chain of moves
  obtain ⟨es, L, hrunL, n', B', hchain⟩ := trace_chain hinj hcount hmaker ops hparties
    (Nat.zero_add _).le (orderly_zero A) s.view (shows_fresh hfresh)
  have hes : es = pre ++ e :: post := by
    have hview := StateProgram.run_view (trace p.maker ops) s
    rw [hrun, hrunL] at hview
    exact (congrArg Prod.fst (Except.ok.inj hview)).symm
  subst hes
  obtain ⟨n₁, B₁, hchain⟩ := hchain.append
  -- the placement, and the order that is followed from there
  cases hchain with
  | cons hB hpar hn hmoves hbefore hafter hrest =>
      rename_i B₂
      rw [hreply, hop] at hmoves
      generalize hr : Reply.placed id lock = r at hmoves
      cases hmoves with
      | failed err => cases hr
      | cancelled => cases hr
      | filled => cases hr
      | placed hasks hprice hbase hlock =>
          rename_i o amt
          obtain ⟨rfl, rfl⟩ := Reply.placed.inj hr
          obtain ⟨hm, hp, hb, hside⟩ := Placement.asks_op hasks
          obtain ⟨-, -, -, -, hone, -, -, hamt⟩ := BookOp.asks_id hasks
          have hnext : (B₁ .nextID).toNat < placements ops := by
            have hle := hB.next
            rw [hop, hone] at hn
            omega
          have hstart := follows_placed (m := p.maker) hasks hprice hbase hnext hcount
          have hfit' : o.baseOrig.toNat * o.priceX18.toNat / oneE18 < 2 ^ 256 := by rwa [hb, hp]
          have hfollows := hstart.chain hfit' hcount hrest
          rw [List.nil_append] at hfollows
          have hshare : share o.id (e :: post) =
              placed B₁ o amt (.escrowQ p.maker) - B₁ (.escrowQ p.maker) + share o.id post := by
            have hconcerns : e.concerns o.id = true := by
              rw [Event.concerns, hreply]
              cases e.op <;> simp
            rw [share, List.filter_cons, if_pos hconcerns, List.map_cons, List.sum_cons, hbefore,
              hafter]
            rfl
          have hne : fillsOf o.id post ≠ [] := by
            rintro hnil
            rw [hnil] at hk
            simp at hk
            omega
          have hlower := hfollows.lt_totalQuote hne
          have hupper := hfollows.totalQuote_le
          have hsize := hfollows.totalBase_le
          rw [hp] at hlower hupper
          rw [hb] at hsize
          refine ⟨hsize, by omega, hupper, fun hbuys hfull => ?_⟩
          have hbuy := hside hbuys
          have hleft := hfollows.share_eq hbuy hm
            (toNat_lockOf hbuy (by rw [← hamt hbuy]; exact hlock hbuy) hfit') (by rw [hfull, hb])
          rw [← hshare, hb, hp] at hleft
          -- rounding up costs one unit more than rounding down, at most
          have hceil : exactLock p.base p.price ≤ p.base.toNat * p.price.toNat / oneE18 + 1 :=
            exactLock_le p.base p.price
          rw [hfull] at hlower
          exact ⟨by omega, by omega⟩

/-! ### A history with two fills -/

/-- The trace of a call whose effect on the book is known. -/
theorem trace_cons_of_run {A : Set Address} {N n n' : ℕ} {m : Address} {B B' : Words}
    {bal : Address → U256} {L L' : Ledger} {op : BookOp} {reply : Reply} (hm : m ∈ A)
    (hL : Shows A N n B bal L) (hL' : Shows A N n' B' bal L')
    (hop : op.call.run Op.execL L = .ok (reply, L')) {ops : List BookOp} {es : List Event}
    {L'' : Ledger} (hrest : (trace m ops).run Op.execL L' = .ok (es, L'')) :
    (trace m (op :: ops)).run Op.execL L =
      .ok (⟨op, reply, B (.escrowQ m), B' (.escrowQ m)⟩ :: es, L'') := by
  have hq : Key.escrowQ m ∈ Key.within A N := hm
  have hread : ∀ {n : ℕ} {B : Words} {L : Ledger}, Shows A N n B bal L →
      (escrowQuote m).run Op.execL L = .ok (B (.escrowQ m), L) := by
    intro n B L h
    rw [escrowQuote, run_getU256]
    exact congrArg (fun v : U256 => Except.ok (v, L)) (h.word _ hq rfl)
  rw [trace, run_bind, hread hL, Program.ok_bind, run_bind, hop, Program.ok_bind, run_bind,
    hread hL', Program.ok_bind, run_bind, hrest, Program.ok_bind, run_pure]

/-- A buy order for 3 at the price 1.5 that is filled in two parts. -/
def twoFills : List BookOp :=
  [.placeBuy 7 7 1500000000000000000 3 0, .fill 9 1 1, .fill 9 1 2]

/-- The book after the order was placed. -/
def twoFillsPlaced : Words :=
  placed (fun _ => 0) (buyOrder (fun _ => 0) 7 7 1500000000000000000 3 0) 5

theorem twoFills_placed :
    ∃ L, (BookOp.placeBuy 7 7 1500000000000000000 3 0).call.run Op.execL (StateDB.new ∅).view =
        .ok (.placed 1 5, L) ∧
      Shows {7} 1 1 twoFillsPlaced (StateDB.new ∅).view.balance L := by
  have hlock : quoteLockCeil 3 1500000000000000000 = 5 := by decide
  have hcount : openCountOf (StateDB.new ∅).view 7 = 0 := rfl
  have hacc : BuyAccepted (StateDB.new ∅).view 7 7 1500000000000000000 3 :=
    ⟨by decide, by decide, by rw [hcount]; decide, by rw [hlock]; decide⟩
  have hplaced : ∃ id L, (placeBuy 7 7 1500000000000000000 3 0).run Op.execL
      (StateDB.new ∅).view = .ok (.ok (id, 5), L) :=
    placeBuy_eq_ok_iff.mpr ⟨hacc, hlock.symm⟩
  obtain ⟨id, L, hrun⟩ := hplaced
  have hfresh : ∀ k ∈ Key.within {7} 1,
      (StateDB.new ∅).slotOf ⟨orderbookModuleAddr, k.slot⟩ = 0 := fun _ _ => rfl
  obtain ⟨r, L', hrun', hpost⟩ := total_placeBuy soleKeys_injOn (Set.mem_singleton 7)
    (Set.mem_singleton 7) (by decide) Nat.zero_lt_one (by norm_num) 1500000000000000000 3 0 _
    (shows_fresh hfresh)
  rw [hrun] at hrun'
  obtain ⟨rfl, rfl⟩ := Prod.mk.inj (Except.ok.inj hrun')
  rcases hpost with ⟨e, herr, -⟩ | ⟨hok, -, -, hL⟩
  · cases herr
  · obtain ⟨rfl, -⟩ := Prod.mk.inj (Except.ok.inj hok)
    rw [hlock] at hL
    refine ⟨L, ?_, hL⟩
    rw [BookOp.call, run_bind, hrun, Program.ok_bind, run_pure]
    rfl

/-- A fill whose effect on the book is known. -/
theorem call_fill {A : Set Address} {N n : ℕ} {B B' : Words} {bal : Address → U256} {L : Ledger}
    (hinj : Set.InjOn Key.slot (Key.within A N)) (hN : N < 2 ^ 64) (hn : n ≤ N)
    (hB : Orderly A n B) (hL : Shows A N n B bal L) {taker : Address} {id : U64}
    {maxBase base quote : U256} (hfilled : filled B taker id maxBase = (.ok (base, quote), B')) :
    Orderly A n B' ∧ ∃ L', (BookOp.fill taker id maxBase).call.run Op.execL L =
      .ok (.filled base quote, L') ∧ Shows A N n B' bal L' := by
  obtain ⟨r, L', hrun, rfl, hL'⟩ := total_fill hinj (hB.wellFormed hn) hn taker id maxBase L hL
  have hmoves := moves_fill hB taker id maxBase
  rw [hfilled] at hrun hmoves hL'
  refine ⟨hmoves.orderly hN hn (by simp [BookOp.parties]) hB, L', ?_, hL'⟩
  rw [BookOp.call, run_bind, hrun, Program.ok_bind, run_pure]

/-- The book after one and after two fills. -/
def twoFillsHalf : Words := (filled twoFillsPlaced 9 1 1).2
def twoFillsDone : Words := (filled twoFillsHalf 9 1 2).2

def twoFillsEvent : Event :=
  ⟨.placeBuy 7 7 1500000000000000000 3 0, .placed 1 5, 0, 5⟩

def twoFillsEvents : List Event :=
  [⟨.fill 9 1 1, .filled 1 1, 5, 4⟩, ⟨.fill 9 1 2, .filled 2 3, 4, 1⟩]

theorem twoFills_trace :
    ∃ t, (trace 7 twoFills).run Op.exec (StateDB.new ∅) =
      .ok ([] ++ twoFillsEvent :: twoFillsEvents, t) := by
  have hN : 1 < 2 ^ 64 := by norm_num
  obtain ⟨L₁, hrun₁, hL₁⟩ := twoFills_placed
  have hasks : (BookOp.placeBuy 7 7 1500000000000000000 3 0).asks (fun _ => 0) =
      some (buyOrder (fun _ => 0) 7 7 1500000000000000000 3 0, 5) :=
    congrArg some (Prod.ext rfl (by decide : quoteLockCeil 3 1500000000000000000 = 5))
  have hplaced : Orderly {7} 1 twoFillsPlaced := by
    have hmoves : Moves (fun _ => 0) (.placeBuy 7 7 1500000000000000000 3 0)
        (.placed 1 (lockOf (buyOrder (fun _ => 0) 7 7 1500000000000000000 3 0))) twoFillsPlaced :=
      .placed hasks (by decide) (by decide) fun _ => by decide
    exact hmoves.orderly hN le_rfl (by simp [BookOp.parties]) (orderly_zero {7})
  have hfill₁ : filled twoFillsPlaced 9 1 1 = (.ok (1, 1), twoFillsHalf) :=
    Prod.ext (by decide) rfl
  obtain ⟨hhalf, L₂, hrun₂, hL₂⟩ := call_fill soleKeys_injOn hN le_rfl hplaced hL₁ hfill₁
  have hfill₂ : filled twoFillsHalf 9 1 2 = (.ok (2, 3), twoFillsDone) :=
    Prod.ext (by decide) rfl
  obtain ⟨-, L₃, hrun₃, hL₃⟩ := call_fill soleKeys_injOn hN le_rfl hhalf hL₂ hfill₂
  have hmem : (7 : Address) ∈ ({7} : Set Address) := Set.mem_singleton 7
  have hfresh : Shows {7} 1 0 (fun _ => 0) (StateDB.new ∅).view.balance (StateDB.new ∅).view :=
    shows_fresh fun _ _ => rfl
  have hnil : (trace 7 []).run Op.execL L₃ = .ok ([], L₃) := rfl
  have hrest₃ := trace_cons_of_run hmem hL₂ hL₃ hrun₃ hnil
  have hrest₂ := trace_cons_of_run hmem hL₁ hL₂ hrun₂ hrest₃
  have hall := trace_cons_of_run hmem hfresh hL₁ hrun₁ hrest₂
  have hwords : twoFillsPlaced (.escrowQ 7) = 5 ∧ twoFillsHalf (.escrowQ 7) = 4 ∧
      twoFillsDone (.escrowQ 7) = 1 := by decide
  rw [hwords.1, hwords.2.1, hwords.2.2] at hall
  obtain ⟨t, ht, -⟩ := StateProgram.run_of_view hall
  exact ⟨t, ht⟩

theorem twoFills_split :
    ∃ t, (trace 7 twoFills).run Op.exec (StateDB.new ∅) =
        .ok ([] ++ twoFillsEvent :: twoFillsEvents, t) ∧
      totalBase (fillsOf 1 twoFillsEvents) = 3 ∧ totalQuote (fillsOf 1 twoFillsEvents) = 4 ∧
      (share 1 (twoFillsEvent :: twoFillsEvents)).toNat = 1 ∧
      totalQuote (fillsOf 1 twoFillsEvents) ≤
        totalBase (fillsOf 1 twoFillsEvents) * (1500000000000000000 : U256).toNat / oneE18 := by
  obtain ⟨t, ht⟩ := twoFills_trace
  have hsplit := split_fills {7} twoFills (StateDB.new ∅) t
    ⟨true, 7, 7, 1500000000000000000, 3, 0⟩ (by simp [twoFills, BookOp.parties])
    (Set.mem_singleton 7) (by decide) soleKeys_injOn (fun _ _ => rfl) [] twoFillsEvents
    twoFillsEvent 1 5 ht rfl rfl (by decide) 2 rfl (by decide)
  exact ⟨t, ht, by decide, by decide, by decide, hsplit.2.2.1⟩

end Orderbook

end Dew
