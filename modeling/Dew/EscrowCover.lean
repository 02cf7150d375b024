/-
# Escrow covers the open orders

One escrow account of a maker backs all of the maker's orders on a side. Over every history of
placements, cancellations and fills whose exact amounts do not overflow, the account covers what
its open orders are due: a partial fill takes a rounded-down amount from a rounded-up lock, and
what is left still covers the rest of the order. Identifiers are 64-bit, so a history has fewer than
`2 ^ 64` placements.
-/
import Dew.OrderbookSpec
import Mathlib.Algebra.Order.BigOperators.Group.Finset
import Mathlib.Data.FinEnum

namespace Dew

namespace Orderbook

open Program

/-! ## What an order is due -/

/-- The value of `base` at a price, rounded up, without wrap-around. -/
def exactLock (base price : U256) : ℕ :=
  (base.toNat * price.toNat + (oneE18 - 1)) / oneE18

/-- What the escrow must hold for an order. -/
def due (o : Order) : ℕ :=
  if o.status = orderStatusOpen then
    if o.side = orderSideBuy then exactLock o.baseOpen o.priceX18 else o.baseOpen.toNat
  else 0

/-- What the escrow account `k` must hold for the order under an identifier. -/
def dueAt (B : Words) (k : Key) (id : U64) : ℕ :=
  match findOrder B id with
  | some o => if escrowKey o = k then due o else 0
  | none => 0

/-- What the escrow account `k` must hold. -/
def owed (B : Words) (k : Key) : ℕ :=
  ∑ id : U64, dueAt B k id

theorem toNat_quoteLockCeil {base price : U256} (h : exactLock base price < 2 ^ 256) :
    (quoteLockCeil base price).toNat = exactLock base price := by
  unfold quoteLockCeil
  split
  · rename_i hzero
    rcases hzero with h0 | h0 <;> simp [exactLock, h0, oneE18]
  · rw [BitVec.toNat_ofNat]
    exact Nat.mod_eq_of_lt h

/-- A sum that changes at one place. -/
theorem sum_of_eq_off {f g : U64 → ℕ} {i : U64} (h : ∀ j, j ≠ i → g j = f j) :
    ∑ j, g j + f i = ∑ j, f j + g i := by
  have hf := Finset.add_sum_erase Finset.univ f (Finset.mem_univ i)
  have hg := Finset.add_sum_erase Finset.univ g (Finset.mem_univ i)
  have hoff : ∑ j ∈ Finset.univ.erase i, g j = ∑ j ∈ Finset.univ.erase i, f j :=
    Finset.sum_congr rfl fun j hj => h j (Finset.ne_of_mem_erase hj)
  omega

theorem dueAt_le_owed (B : Words) (k : Key) (id : U64) : dueAt B k id ≤ owed B k :=
  Finset.single_le_sum (f := dueAt B k) (fun _ _ => Nat.zero_le _) (Finset.mem_univ id)

/-- The part of a lock that a partial fill leaves is covered by what it does not take. -/
theorem exactLock_split {base part : ℕ} (price : ℕ) (h : part ≤ base) :
    ((base - part) * price + (oneE18 - 1)) / oneE18 + part * price / oneE18 ≤
      (base * price + (oneE18 - 1)) / oneE18 := by
  have hsplit : base * price = (base - part) * price + part * price := by
    rw [← Nat.add_mul, Nat.sub_add_cancel h]
  rw [hsplit]
  have hadd := Nat.div_add_div_le_add_div (x := (base - part) * price + (oneE18 - 1))
    (y := part * price) (z := oneE18)
  have hcomm : (base - part) * price + part * price + (oneE18 - 1) =
      (base - part) * price + (oneE18 - 1) + part * price := by omega
  rw [hcomm]
  exact hadd

/-! ## The invariant -/

/-- The book is covered: every escrow account holds what it must, an account for base exactly that,
and no account exceeds what was locked. -/
structure Covered (A : Set Address) (N n gq gb : ℕ) (B : Words) : Prop where
  next : (B .nextID).toNat ≤ n
  order : ∀ id o, findOrder B id = some o →
    o.maker ∈ A ∧ o.baseToken ∈ A ∧ o.side.toNat < 2 ∧ o.priceX18 ≠ 0
  quote : ∀ m, owed B (.escrowQ m) ≤ (B (.escrowQ m)).toNat
  base : ∀ m t, owed B (.escrowB m t) = (B (.escrowB m t)).toNat
  quoteLe : ∀ m, (B (.escrowQ m)).toNat ≤ gq
  baseLe : ∀ m t, (B (.escrowB m t)).toNat ≤ gb

theorem Covered.wellFormed {A : Set Address} {N n gq gb : ℕ} {B : Words}
    (h : Covered A N n gq gb B) (hn : n ≤ N) : WellFormed A N B where
  next := h.next.trans hn
  order id o hfind := by
    obtain ⟨hm, ht, hs, -⟩ := h.order id o hfind
    exact ⟨hm, ht, hs⟩

/-! ## How a step changes what is owed -/

theorem findOrder_congr {B B' : Words} (hnext : B' .nextID = B .nextID) {id : U64}
    (horder : orderAt B' id = orderAt B id) : findOrder B' id = findOrder B id := by
  unfold findOrder
  rw [hnext, horder]

/-- An order was replaced by one with the same escrow account, and `take` was taken from it. -/
structure Replaces (B B' : Words) (o o' : Order) (take : ℕ) : Prop where
  found : findOrder B o.id = some o
  found' : findOrder B' o.id = some o'
  other : ∀ id, id ≠ o.id → findOrder B' id = findOrder B id
  next : B' .nextID = B .nextID
  key : escrowKey o' = escrowKey o
  maker : o'.maker = o.maker
  token : o'.baseToken = o.baseToken
  side : o'.side = o.side
  price : o'.priceX18 = o.priceX18
  account : (B' (escrowKey o)).toNat + take = (B (escrowKey o)).toNat
  rest : ∀ k, k ≠ escrowKey o → (∃ m, k = .escrowQ m) ∨ (∃ m t, k = .escrowB m t) → B' k = B k

theorem Replaces.owed_eq {B B' : Words} {o o' : Order} {take : ℕ} (h : Replaces B B' o o' take) :
    owed B' (escrowKey o) + due o = owed B (escrowKey o) + due o' := by
  have hsum := sum_of_eq_off (f := dueAt B (escrowKey o)) (g := dueAt B' (escrowKey o)) (i := o.id)
    fun j hj => by rw [dueAt, dueAt, h.other j hj]
  have hold : dueAt B (escrowKey o) o.id = due o := by
    simp [dueAt, h.found]
  have hnew : dueAt B' (escrowKey o) o.id = due o' := by
    simp [dueAt, h.found', h.key]
  rw [hold, hnew] at hsum
  exact hsum

theorem Replaces.owed_other {B B' : Words} {o o' : Order} {take : ℕ} (h : Replaces B B' o o' take)
    {k : Key} (hk : k ≠ escrowKey o) : owed B' k = owed B k := by
  apply Finset.sum_congr rfl
  intro id _
  by_cases hid : id = o.id
  · subst hid
    simp [dueAt, h.found, h.found', h.key, Ne.symm hk]
  · rw [dueAt, dueAt, h.other id hid]

/-- The book stays covered when an order is replaced and no more is taken than its due falls by;
from an account for base exactly as much. -/
theorem Covered.replace {A : Set Address} {N n gq gb : ℕ} {B B' : Words} {o o' : Order} {take : ℕ}
    (hB : Covered A N n gq gb B) (h : Replaces B B' o o' take) (hle : due o' + take ≤ due o)
    (heq : o.side ≠ orderSideBuy → due o' + take = due o) : Covered A N n gq gb B' where
  next := by rw [h.next]; exact hB.next
  order id p hfind := by
    by_cases hid : id = o.id
    · subst hid
      rw [h.found'] at hfind
      obtain rfl := Option.some.inj hfind
      rw [h.maker, h.token, h.side, h.price]
      exact hB.order o.id o h.found
    · rw [h.other id hid] at hfind
      exact hB.order id p hfind
  quote m := by
    by_cases hk : Key.escrowQ m = escrowKey o
    · have hquote := hB.quote m
      have howed := h.owed_eq
      have haccount := h.account
      rw [← hk] at howed haccount
      omega
    · rw [h.owed_other hk, h.rest _ hk (.inl ⟨m, rfl⟩)]
      exact hB.quote m
  base m t := by
    by_cases hk : Key.escrowB m t = escrowKey o
    · have hbase := hB.base m t
      have howed := h.owed_eq
      have haccount := h.account
      have hside : o.side ≠ orderSideBuy := by
        intro hbuy
        rw [escrowKey, if_pos hbuy] at hk
        cases hk
      have hexact := heq hside
      rw [← hk] at howed haccount
      omega
    · rw [h.owed_other hk, h.rest _ hk (.inr ⟨m, t, rfl⟩)]
      exact hB.base m t
  quoteLe m := by
    by_cases hk : Key.escrowQ m = escrowKey o
    · have haccount := h.account
      have hquote := hB.quoteLe m
      rw [← hk] at haccount
      omega
    · rw [h.rest _ hk (.inl ⟨m, rfl⟩)]
      exact hB.quoteLe m
  baseLe m t := by
    by_cases hk : Key.escrowB m t = escrowKey o
    · have haccount := h.account
      have hbase := hB.baseLe m t
      rw [← hk] at haccount
      omega
    · rw [h.rest _ hk (.inr ⟨m, t, rfl⟩)]
      exact hB.baseLe m t

/-- An open order of a covered book is due no more than its escrow account holds. -/
theorem Covered.due_le {A : Set Address} {N n gq gb : ℕ} {B : Words} (hB : Covered A N n gq gb B)
    {id : U64} {o : Order} (hfind : findOrder B id = some o) : due o ≤ (B (escrowKey o)).toNat := by
  have hat : dueAt B (escrowKey o) id = due o := by
    simp [dueAt, hfind]
  have hle := dueAt_le_owed B (escrowKey o) id
  rw [hat] at hle
  by_cases hbuy : o.side = orderSideBuy
  · have hkey : escrowKey o = .escrowQ o.maker := if_pos hbuy
    rw [hkey] at hle ⊢
    exact hle.trans (hB.quote _)
  · have hkey : escrowKey o = .escrowB o.maker o.baseToken := if_neg hbuy
    rw [hkey] at hle ⊢
    exact hle.trans (hB.base _ _).le

/-! ## The methods keep the book covered -/

theorem findOrder_placed {N : ℕ} {B : Words} {o : Order} (amt : U256) (hid : o.id = nextOf B)
    (hprice : o.priceX18 ≠ 0) (hnext : (B .nextID).toNat < N) (hN : N < 2 ^ 64) (id : U64) :
    findOrder (placed B o amt) id = if id = o.id then some o else findOrder B id := by
  have hbound := toNat_nextOf (B := B) hnext hN
  have hnext' : placed B o amt .nextID = o.id.setWidth 256 := by
    rw [placed, Function.update_of_ne (escrowKey_ne_nextID o).symm,
      putOrder_of_not_order _ _ (by rintro _ _ ⟨⟩), Function.update_self]
  have hcount : ((placed B o amt .nextID).setWidth 64) = nextOf B := by
    rw [hnext', hid]
    simp
  have horder : orderAt (placed B o amt) id =
      orderAt (putOrder (Function.update B .nextID (o.id.setWidth 256)) o) id :=
    orderAt_update_of_not_order _ (escrowKey_ne_order o) _ _
  have hold : ((B .nextID).setWidth 64).toNat = (B .nextID).toNat := by
    rw [BitVec.toNat_setWidth]
    exact Nat.mod_eq_of_lt (by omega)
  by_cases h : id = o.id
  · have hassigned : ¬(id = 0 ∨ nextOf B < id) := by
      rw [h, hid]
      rintro (h0 | h0)
      · rw [h0] at hbound
        simp at hbound
      · exact absurd h0 (BitVec.lt_irrefl _)
    have hblank : ¬IsBlank o := fun hb => hprice hb.2.2.1
    rw [findOrder, hcount, if_neg hassigned, if_pos h, horder, h, orderAt_putOrder_self,
      if_neg hblank]
  · have hiff : (id = 0 ∨ nextOf B < id) ↔ (id = 0 ∨ (B .nextID).setWidth 64 < id) := by
      have hne : id.toNat ≠ (nextOf B).toNat := by
        intro heq
        exact h ((BitVec.eq_of_toNat_eq heq).trans hid.symm)
      have hlt : nextOf B < id ↔ (B .nextID).setWidth 64 < id := by
        rw [BitVec.lt_def, BitVec.lt_def, hold, hbound]
        omega
      rw [hlt]
    have horder' : orderAt (placed B o amt) id = orderAt B id := by
      rw [horder, orderAt_putOrder_of_ne _ h, orderAt_update_of_not_order _ (by rintro _ _ ⟨⟩)]
    rw [if_neg h, findOrder, findOrder, hcount, horder']
    simp only [hiff]

theorem placed_account (B : Words) (o : Order) (amt : U256) :
    placed B o amt (escrowKey o) = B (escrowKey o) + amt := by
  rw [placed, Function.update_self]

theorem placed_other (B : Words) (o : Order) (amt : U256) {k : Key} (hk : k ≠ escrowKey o)
    (hescrow : (∃ m, k = .escrowQ m) ∨ (∃ m t, k = .escrowB m t)) : placed B o amt k = B k := by
  have hne : k ≠ .nextID ∧ ∀ id f, k ≠ .order id f := by
    rcases hescrow with ⟨m, rfl⟩ | ⟨m, t, rfl⟩
    · exact ⟨by rintro ⟨⟩, by rintro _ _ ⟨⟩⟩
    · exact ⟨by rintro ⟨⟩, by rintro _ _ ⟨⟩⟩
  rw [placed, Function.update_of_ne hk, putOrder_of_not_order _ _ hne.2, Function.update_of_ne hne.1]

/-- A new order adds its due to its account. -/
theorem owed_placed {B : Words} {o : Order} {amt : U256}
    (hfind : ∀ id, findOrder (placed B o amt) id = if id = o.id then some o else findOrder B id)
    (hnew : findOrder B o.id = none) (k : Key) :
    owed (placed B o amt) k = owed B k + if escrowKey o = k then due o else 0 := by
  have hsum := sum_of_eq_off (f := dueAt B k) (g := dueAt (placed B o amt) k) (i := o.id)
    fun j hj => by rw [dueAt, dueAt, hfind j, if_neg hj]
  have hat : dueAt B k o.id = 0 := by simp [dueAt, hnew]
  have hat' : dueAt (placed B o amt) k o.id = if escrowKey o = k then due o else 0 := by
    simp [dueAt, hfind]
  rw [hat, hat', Nat.add_zero] at hsum
  exact hsum

/-- The book stays covered when an open order is placed and its due is added to its account. -/
theorem Covered.place {A : Set Address} {N n gq gb gq' gb' : ℕ} {B : Words} {o : Order} {amt : U256}
    (hB : Covered A N n gq gb B) (hid : o.id = nextOf B) (hprice : o.priceX18 ≠ 0)
    (hm : o.maker ∈ A) (ht : o.baseToken ∈ A) (hside : o.side.toNat < 2) (hn : n < N)
    (hN : N < 2 ^ 64) (hdue : due o = amt.toNat)
    (hquote : gq + (if o.side = orderSideBuy then amt.toNat else 0) ≤ gq')
    (hbase : gb + (if o.side = orderSideBuy then 0 else amt.toNat) ≤ gb')
    (hq : gq' < 2 ^ 256) (hb : gb' < 2 ^ 256) : Covered A N (n + 1) gq' gb' (placed B o amt) := by
  have hnext : (B .nextID).toNat < N := by
    have := hB.next
    omega
  have hfind := findOrder_placed amt hid hprice hnext hN
  have hbound := toNat_nextOf (B := B) hnext hN
  have hnew : findOrder B o.id = none := by
    unfold findOrder
    rw [if_pos]
    right
    rw [hid, BitVec.lt_def, hbound, BitVec.toNat_setWidth]
    exact Nat.lt_succ_of_le (Nat.mod_le _ _)
  have howed : owed (placed B o amt) (escrowKey o) = owed B (escrowKey o) + due o := by
    rw [owed_placed hfind hnew, if_pos rfl]
  have hother : ∀ k, k ≠ escrowKey o → owed (placed B o amt) k = owed B k := by
    intro k hk
    rw [owed_placed hfind hnew, if_neg hk.symm, Nat.add_zero]
  -- the account does not wrap around
  have hsum : (placed B o amt (escrowKey o)).toNat = (B (escrowKey o)).toNat + amt.toNat := by
    rw [placed_account, BitVec.toNat_add]
    apply Nat.mod_eq_of_lt
    by_cases hbuy : o.side = orderSideBuy
    · rw [escrowKey, if_pos hbuy]
      rw [if_pos hbuy] at hquote
      have := hB.quoteLe o.maker
      omega
    · rw [escrowKey, if_neg hbuy]
      rw [if_neg hbuy] at hbase
      have := hB.baseLe o.maker o.baseToken
      omega
  refine ⟨?_, ?_, ?_, ?_, ?_, ?_⟩
  · rw [placed, Function.update_of_ne (escrowKey_ne_nextID o).symm,
      putOrder_of_not_order _ _ (by rintro _ _ ⟨⟩), Function.update_self, BitVec.toNat_setWidth, hid]
    refine (Nat.mod_le _ _).trans ?_
    rw [hbound]
    have := hB.next
    omega
  · intro id p hp
    rw [hfind id] at hp
    split at hp
    · obtain rfl := Option.some.inj hp
      exact ⟨hm, ht, hside, hprice⟩
    · exact hB.order id p hp
  · intro m
    by_cases hk : Key.escrowQ m = escrowKey o
    · have := hB.quote m
      rw [hk] at this ⊢
      omega
    · rw [hother _ hk, placed_other B o amt hk (.inl ⟨m, rfl⟩)]
      exact hB.quote m
  · intro m t
    by_cases hk : Key.escrowB m t = escrowKey o
    · have := hB.base m t
      rw [hk] at this ⊢
      omega
    · rw [hother _ hk, placed_other B o amt hk (.inr ⟨m, t, rfl⟩)]
      exact hB.base m t
  · intro m
    by_cases hk : Key.escrowQ m = escrowKey o
    · have := hB.quoteLe m
      have hbuy : o.side = orderSideBuy := by
        by_contra hne
        rw [escrowKey, if_neg hne] at hk
        cases hk
      rw [if_pos hbuy] at hquote
      rw [hk] at this ⊢
      omega
    · rw [placed_other B o amt hk (.inl ⟨m, rfl⟩)]
      have := hB.quoteLe m
      omega
  · intro m t
    by_cases hk : Key.escrowB m t = escrowKey o
    · have := hB.baseLe m t
      have hsell : o.side ≠ orderSideBuy := by
        intro hbuy
        rw [escrowKey, if_pos hbuy] at hk
        cases hk
      rw [if_neg hsell] at hbase
      rw [hk] at this ⊢
      omega
    · rw [placed_other B o amt hk (.inr ⟨m, t, rfl⟩)]
      have := hB.baseLe m t
      omega

/-- A found order is rewritten and its escrow account lowered. -/
theorem replaces_put {B : Words} {o : Order} (o' : Order) (take : U256) {id : U64}
    (hfind : findOrder B id = some o) (hid' : o'.id = o.id) (hmaker : o'.maker = o.maker)
    (htoken : o'.baseToken = o.baseToken) (hside : o'.side = o.side)
    (hprice : o'.priceX18 = o.priceX18) (hpriced : o.priceX18 ≠ 0) (hle : take ≤ B (escrowKey o)) :
    Replaces B (putOrder (Function.update B (escrowKey o) (B (escrowKey o) - take)) o') o o'
      take.toNat := by
  have hid := findOrder_id hfind
  have hassigned : ¬(id = 0 ∨ (B .nextID).setWidth 64 < id) := by
    intro h
    rw [findOrder, if_pos h] at hfind
    cases hfind
  let B' := Function.update B (escrowKey o) (B (escrowKey o) - take)
  have hnext : putOrder B' o' .nextID = B .nextID := by
    rw [putOrder_of_not_order _ _ (by rintro _ _ ⟨⟩)]
    exact Function.update_of_ne (escrowKey_ne_nextID o).symm _ _
  have hkey : escrowKey o' = escrowKey o := by
    rw [escrowKey, escrowKey, hside, hmaker, htoken]
  refine ⟨?_, ?_, ?_, hnext, hkey, hmaker, htoken, hside, hprice, ?_, ?_⟩
  · rw [hid]
    exact hfind
  · have hblank : ¬IsBlank o' := fun hb => hpriced (hprice ▸ hb.2.2.1)
    rw [← hid', findOrder, hnext, hid', hid, if_neg hassigned, ← hid, ← hid',
      orderAt_putOrder_self, if_neg hblank]
  · intro j hj
    apply findOrder_congr hnext
    rw [orderAt_putOrder_of_ne _ (by rw [hid']; exact hj),
      orderAt_update_of_not_order _ (escrowKey_ne_order o)]
  · rw [putOrder_of_not_order _ _ (escrowKey_ne_order o), Function.update_self, BitVec.toNat_sub]
    have hle' := BitVec.le_def.mp hle
    have hlt := (B (escrowKey o)).isLt
    have hlt' := take.isLt
    omega
  · intro k hk hescrow
    have hne : ∀ id f, k ≠ .order id f := by
      rcases hescrow with ⟨m, rfl⟩ | ⟨m, t, rfl⟩
      · rintro _ _ ⟨⟩
      · rintro _ _ ⟨⟩
    rw [putOrder_of_not_order _ _ hne, Function.update_of_ne hk]

theorem due_cancelledOrder (o : Order) : due (cancelledOrder o) = 0 := by
  rw [due, if_neg]
  exact (by decide : orderStatusCancelled ≠ orderStatusOpen)

/-- `Cancel` keeps the book covered, is never short of escrow, and gives back what the order is
due. -/
theorem Covered.cancel {A : Set Address} {N n gq gb : ℕ} {B : Words} (hB : Covered A N n gq gb B)
    (actor : Address) (id : U64) :
    Covered A N n gq gb (cancelled B actor id).2 ∧
      (cancelled B actor id).1 ≠ .error .escrowQuoteUnderflow ∧
      (cancelled B actor id).1 ≠ .error .escrowBaseUnderflow := by
  unfold cancelled
  cases hfind : findOrder B id with
  | none => exact ⟨hB, by rintro ⟨⟩, by rintro ⟨⟩⟩
  | some o =>
      simp only
      split
      · exact ⟨hB, by rintro ⟨⟩, by rintro ⟨⟩⟩
      rename_i hstatus
      have hopen : o.status = orderStatusOpen := not_not.mp hstatus
      split
      · exact ⟨hB, by rintro ⟨⟩, by rintro ⟨⟩⟩
      obtain ⟨-, -, -, hpriced⟩ := hB.order id o hfind
      have hdue := hB.due_le hfind
      by_cases hbuy : o.side = orderSideBuy
      · have hkey : escrowKey o = .escrowQ o.maker := if_pos hbuy
        have hexact : due o = exactLock o.baseOpen o.priceX18 := by
          rw [due, if_pos hopen, if_pos hbuy]
        have hlock : (quoteLockCeil o.baseOpen o.priceX18).toNat =
            exactLock o.baseOpen o.priceX18 := toNat_quoteLockCeil (by
          have := (B (escrowKey o)).isLt
          omega)
        have hcap : ¬B (.escrowQ o.maker) < quoteLockCeil o.baseOpen o.priceX18 := by
          rw [BitVec.lt_def, hlock, ← hkey]
          omega
        simp only [released, if_pos hbuy, if_neg hcap]
        have hrep := replaces_put (cancelledOrder o)
          (quoteLockCeil o.baseOpen o.priceX18) hfind rfl rfl rfl rfl rfl hpriced (by
            rw [hkey]
            exact BitVec.not_lt.mp hcap)
        have hcover := hB.replace hrep (by rw [due_cancelledOrder]; omega)
          (fun h => absurd hbuy h)
        rw [hkey] at hcover
        exact ⟨hcover, by rintro ⟨⟩, by rintro ⟨⟩⟩
      · have hkey : escrowKey o = .escrowB o.maker o.baseToken := if_neg hbuy
        have hexact : due o = o.baseOpen.toNat := by
          rw [due, if_pos hopen, if_neg hbuy]
        have henough : ¬B (.escrowB o.maker o.baseToken) < o.baseOpen := by
          rw [BitVec.lt_def, ← hkey]
          omega
        simp only [released, if_neg hbuy, if_neg henough]
        have hrep := replaces_put (cancelledOrder o) o.baseOpen hfind rfl rfl rfl
          rfl rfl hpriced (by
            rw [hkey]
            exact BitVec.not_lt.mp henough)
        have hcover := hB.replace hrep (by rw [due_cancelledOrder]; omega)
          (fun _ => by rw [due_cancelledOrder]; omega)
        rw [hkey] at hcover
        exact ⟨hcover, by rintro ⟨⟩, by rintro ⟨⟩⟩

theorem fillBase_le (o : Order) (maxBase : U256) : (fillBase o maxBase).toNat ≤ o.baseOpen.toNat := by
  unfold fillBase
  split
  · exact le_rfl
  · exact BitVec.le_def.mp (BitVec.not_lt.mp ‹_›)

/-- What a fill takes and what the rest of the order is due are within what it was due. -/
theorem due_filledOrder {o : Order} (hopen : o.status = orderStatusOpen) {base : U256}
    (hle : base.toNat ≤ o.baseOpen.toNat) :
    due (filledOrder o base) + (fillTakes o base).toNat ≤ due o ∧
      (o.side ≠ orderSideBuy → due (filledOrder o base) + (fillTakes o base).toNat = due o) := by
  have hsub : (o.baseOpen - base).toNat = o.baseOpen.toNat - base.toNat := by
    rw [BitVec.toNat_sub]
    have := o.baseOpen.isLt
    have := base.isLt
    omega
  have hrest : due (filledOrder o base) =
      if o.side = orderSideBuy then exactLock (o.baseOpen - base) o.priceX18
      else o.baseOpen.toNat - base.toNat := by
    unfold filledOrder
    split
    · rename_i hzero
      have hnil : due { o with status := orderStatusFilled, baseOpen := o.baseOpen - base } = 0 :=
        if_neg (by decide : orderStatusFilled ≠ orderStatusOpen)
      rw [hnil, hzero, ← hsub, hzero]
      split <;> simp [exactLock, oneE18]
    · rw [← hsub]
      exact if_pos hopen
  rw [hrest]
  by_cases hbuy : o.side = orderSideBuy
  · have hdue : due o = exactLock o.baseOpen o.priceX18 := by
      rw [due, if_pos hopen, if_pos hbuy]
    have hsplit := exactLock_split o.priceX18.toNat hle
    have hfloor : (quoteFloor base o.priceX18).toNat ≤ base.toNat * o.priceX18.toNat / oneE18 := by
      unfold quoteFloor
      split
      · simp
      · rw [BitVec.toNat_ofNat]
        exact Nat.mod_le _ _
    rw [if_pos hbuy, fillTakes, if_pos hbuy, hdue]
    refine ⟨?_, fun h => absurd hbuy h⟩
    unfold exactLock
    rw [hsub]
    omega
  · have hdue : due o = o.baseOpen.toNat := by
      rw [due, if_pos hopen, if_neg hbuy]
    rw [if_neg hbuy, fillTakes, if_neg hbuy, hdue]
    exact ⟨by omega, fun _ => by omega⟩

/-- `Fill` keeps the book covered and is never short of escrow. -/
theorem Covered.fill {A : Set Address} {N n gq gb : ℕ} {B : Words} (hB : Covered A N n gq gb B)
    (taker : Address) (id : U64) (maxBase : U256) :
    Covered A N n gq gb (filled B taker id maxBase).2 ∧
      (filled B taker id maxBase).1 ≠ .error .escrowQuoteUnderflow ∧
      (filled B taker id maxBase).1 ≠ .error .escrowBaseUnderflow := by
  unfold filled
  split
  · exact ⟨hB, by rintro ⟨⟩, by rintro ⟨⟩⟩
  split
  · exact ⟨hB, by rintro ⟨⟩, by rintro ⟨⟩⟩
  cases hfind : findOrder B id with
  | none => exact ⟨hB, by rintro ⟨⟩, by rintro ⟨⟩⟩
  | some o =>
      simp only
      split
      · exact ⟨hB, by rintro ⟨⟩, by rintro ⟨⟩⟩
      rename_i hstatus
      have hopen : o.status = orderStatusOpen := not_not.mp hstatus
      obtain ⟨-, -, -, hpriced⟩ := hB.order id o hfind
      have hdue := hB.due_le hfind
      obtain ⟨hrest, hexact⟩ := due_filledOrder hopen (fillBase_le o maxBase)
      have henough : ¬B (escrowKey o) < fillTakes o (fillBase o maxBase) := by
        rw [BitVec.lt_def]
        omega
      rw [if_neg henough]
      have hrep := replaces_put (filledOrder o (fillBase o maxBase))
        (fillTakes o (fillBase o maxBase)) hfind (by unfold filledOrder; split <;> rfl)
        (by unfold filledOrder; split <;> rfl) (by unfold filledOrder; split <;> rfl)
        (by unfold filledOrder; split <;> rfl) (by unfold filledOrder; split <;> rfl) hpriced
        (BitVec.not_lt.mp henough)
      exact ⟨hB.replace hrep hrest hexact, by rintro ⟨⟩, by rintro ⟨⟩⟩

/-! ## Histories -/

/-- One call of a method of the module. -/
inductive BookOp where
  | placeBuy (maker token : Address) (price base : U256) (blockNum : U64)
  | placeSell (maker token : Address) (price base : U256) (blockNum : U64)
  | cancel (actor : Address) (id : U64)
  | fill (taker : Address) (id : U64) (maxBase : U256)
deriving DecidableEq, Repr

/-- The outcome of a call, without the value returned. -/
abbrev Outcome := Except OrderbookError Unit

namespace BookOp

def program : BookOp → StateProgram Outcome
  | placeBuy m t price base blockNum => do
    let r ← Orderbook.placeBuy m t price base blockNum
    return r.map fun _ => ()
  | placeSell m t price base blockNum => do
    let r ← Orderbook.placeSell m t price base blockNum
    return r.map fun _ => ()
  | cancel actor id => do
    let r ← Orderbook.cancel actor id
    return r.map fun _ => ()
  | fill taker id maxBase => do
    let r ← Orderbook.fill taker id maxBase
    return r.map fun _ => ()

/-- The accounts that a call gives a part in the book. -/
def parties : BookOp → List Address
  | placeBuy m t _ _ _ | placeSell m t _ _ _ => [m, t]
  | cancel _ _ | fill _ _ _ => []

/-- How many orders a call places, at most. -/
def placements : BookOp → ℕ
  | placeBuy _ _ _ _ _ | placeSell _ _ _ _ _ => 1
  | cancel _ _ | fill _ _ _ => 0

/-- The exact lock of an accepted buy order. -/
def locks : BookOp → Outcome → ℕ
  | placeBuy _ _ price base _, .ok _ => exactLock base price
  | _, _ => 0

/-- The base amount of an accepted sell order. -/
def bases : BookOp → Outcome → ℕ
  | placeSell _ _ _ base _, .ok _ => base.toNat
  | _, _ => 0

end BookOp

/-- A sequence of calls, with their outcomes. -/
def history : List BookOp → StateProgram (List Outcome)
  | [] => return []
  | op :: ops => do
    let r ← op.program
    let rs ← history ops
    return r :: rs

def placements (ops : List BookOp) : ℕ :=
  (ops.map BookOp.placements).sum

/-- What the accepted buy orders of a history lock. -/
def totalLocks (ops : List BookOp) (outs : List Outcome) : ℕ :=
  (List.zipWith BookOp.locks ops outs).sum

/-- What the accepted sell orders of a history offer. -/
def totalBases (ops : List BookOp) (outs : List Outcome) : ℕ :=
  (List.zipWith BookOp.bases ops outs).sum

theorem Shows.mono {A : Set Address} {N n n' : ℕ} {B : Words} {bal : Address → U256} {L : Ledger}
    (h : Shows A N n B bal L) (hn : n ≤ n') : Shows A N n' B bal L :=
  { h with len := fun t ht side hside => (h.len t ht side hside).trans hn }

theorem Covered.mono {A : Set Address} {N n n' gq gb : ℕ} {B : Words}
    (h : Covered A N n gq gb B) (hn : n ≤ n') : Covered A N n' gq gb B :=
  { h with next := h.next.trans hn }

theorem due_buyOrder (B : Words) (m t : Address) (price base : U256) (blockNum : U64) :
    due (buyOrder B m t price base blockNum) = exactLock base price := by
  simp [due, buyOrder, newOrder]

theorem due_sellOrder (B : Words) (m t : Address) (price base : U256) (blockNum : U64) :
    due (sellOrder B m t price base blockNum) = base.toNat := by
  simp [due, sellOrder, newOrder, orderSideSell, orderSideBuy]

/-- The outcome of a call, the book it leaves, and that the call was not short of escrow. -/
def Keeps (A : Set Address) (N n gq gb : ℕ) (bal : Address → U256) (op : BookOp) (r : Outcome)
    (L : Ledger) : Prop :=
  gq + op.locks r < 2 ^ 256 → gb + op.bases r < 2 ^ 256 →
    r ≠ .error .escrowQuoteUnderflow ∧ r ≠ .error .escrowBaseUnderflow ∧
    ∃ B', Shows A N (n + op.placements) B' bal L ∧
      Covered A N (n + op.placements) (gq + op.locks r) (gb + op.bases r) B'

section Step

variable {A : Set Address} {N n gq gb : ℕ} {B : Words} {bal : Address → U256}
  (hinj : Set.InjOn Key.slot (Key.within A N)) (hN : N < 2 ^ 64)

/-- A refused placement leaves the book as it was. -/
theorem keeps_of_placeError (hB : Covered A N n gq gb B) {op : BookOp} {e : OrderbookError}
    (he : isPlaceError e = true) {L : Ledger} (hL : Shows A N n B bal L)
    (hlocks : op.locks (.error e) = 0) (hbases : op.bases (.error e) = 0) :
    Keeps A N n gq gb bal op (.error e) L := by
  intro _ _
  refine ⟨?_, ?_, B, hL.mono (Nat.le_add_right _ _), ?_⟩
  · rintro ⟨⟩
    cases he
  · rintro ⟨⟩
    cases he
  · rw [hlocks, hbases]
    exact hB.mono (Nat.le_add_right _ _)

include hinj

theorem keeps_placeBuy (hN : N < 2 ^ 64) {m t : Address} (hm : m ∈ A) (ht : t ∈ A) (hn : n < N)
    (hB : Covered A N n gq gb B) (price base : U256) (blockNum : U64) :
    Total Op.execL (Shows A N n B bal) (BookOp.placeBuy m t price base blockNum).program
      (Keeps A N n gq gb bal (.placeBuy m t price base blockNum)) := by
  have hnext : (B .nextID).toNat < N := lt_of_le_of_lt hB.next hn
  apply (total_placeBuy hinj hm ht hnext hn hN price base blockNum).bind
  intro r
  refine Total.pure fun L hL => ?_
  rcases hL with ⟨e, rfl, he, hL⟩ | ⟨rfl, hprice, hbase, hL⟩
  · exact keeps_of_placeError hB he hL rfl rfl
  · intro hq hb
    have hlt : exactLock base price < 2 ^ 256 := lt_of_le_of_lt (Nat.le_add_left _ gq) hq
    have hlock := toNat_quoteLockCeil hlt
    refine ⟨by rintro ⟨⟩, by rintro ⟨⟩, _, hL, ?_⟩
    refine hB.place rfl hprice hm ht (Nat.zero_lt_two) hn hN ?_ ?_ ?_ hq hb
    · rw [due_buyOrder, hlock]
    · rw [if_pos (show (buyOrder B m t price base blockNum).side = orderSideBuy from rfl), hlock]
      exact le_rfl
    · rw [if_pos (show (buyOrder B m t price base blockNum).side = orderSideBuy from rfl)]
      exact le_rfl

theorem keeps_placeSell (hN : N < 2 ^ 64) {m t : Address} (hm : m ∈ A) (ht : t ∈ A) (hn : n < N)
    (hB : Covered A N n gq gb B) (price base : U256) (blockNum : U64) :
    Total Op.execL (Shows A N n B bal) (BookOp.placeSell m t price base blockNum).program
      (Keeps A N n gq gb bal (.placeSell m t price base blockNum)) := by
  have hnext : (B .nextID).toNat < N := lt_of_le_of_lt hB.next hn
  have hsell : (sellOrder B m t price base blockNum).side ≠ orderSideBuy :=
    (by decide : orderSideSell ≠ orderSideBuy)
  apply (total_placeSell hinj hm ht hnext hn hN price base blockNum).bind
  intro r
  refine Total.pure fun L hL => ?_
  rcases hL with ⟨e, rfl, he, hL⟩ | ⟨rfl, hprice, hbase, hL⟩
  · exact keeps_of_placeError hB he hL rfl rfl
  · intro hq hb
    refine ⟨by rintro ⟨⟩, by rintro ⟨⟩, _, hL, ?_⟩
    refine hB.place rfl hprice hm ht (Nat.one_lt_two) hn hN ?_ ?_ ?_ hq hb
    · rw [due_sellOrder]
    · rw [if_neg hsell]
      exact le_rfl
    · rw [if_neg hsell]
      exact le_rfl

theorem keeps_cancel (hn : n ≤ N) (hB : Covered A N n gq gb B) (actor : Address) (id : U64) :
    Total Op.execL (Shows A N n B bal) (BookOp.cancel actor id).program
      (Keeps A N n gq gb bal (.cancel actor id)) := by
  apply (total_cancel hinj (hB.wellFormed hn) hn actor id).bind
  intro r
  refine Total.pure fun L hL => ?_
  obtain ⟨rfl, hL⟩ := hL
  intro _ _
  obtain ⟨hcover, hquote, hbase⟩ := hB.cancel actor id
  refine ⟨?_, ?_, _, hL, hcover⟩
  · intro h
    apply hquote
    cases hres : (cancelled B actor id).1 with
    | error e => rw [hres] at h; cases h; rfl
    | ok v => rw [hres] at h; cases h
  · intro h
    apply hbase
    cases hres : (cancelled B actor id).1 with
    | error e => rw [hres] at h; cases h; rfl
    | ok v => rw [hres] at h; cases h

theorem keeps_fill (hn : n ≤ N) (hB : Covered A N n gq gb B) (taker : Address) (id : U64)
    (maxBase : U256) :
    Total Op.execL (Shows A N n B bal) (BookOp.fill taker id maxBase).program
      (Keeps A N n gq gb bal (.fill taker id maxBase)) := by
  apply (total_fill hinj (hB.wellFormed hn) hn taker id maxBase).bind
  intro r
  refine Total.pure fun L hL => ?_
  obtain ⟨rfl, hL⟩ := hL
  intro _ _
  obtain ⟨hcover, hquote, hbase⟩ := hB.fill taker id maxBase
  refine ⟨?_, ?_, _, hL, hcover⟩
  · intro h
    apply hquote
    cases hres : (filled B taker id maxBase).1 with
    | error e => rw [hres] at h; cases h; rfl
    | ok v => rw [hres] at h; cases h
  · intro h
    apply hbase
    cases hres : (filled B taker id maxBase).1 with
    | error e => rw [hres] at h; cases h; rfl
    | ok v => rw [hres] at h; cases h

/-- One call keeps the book covered, while the exact amounts do not overflow. -/
theorem BookOp.keeps (hN : N < 2 ^ 64) (op : BookOp) (hparties : ∀ a ∈ op.parties, a ∈ A)
    (hn : n + op.placements ≤ N) (hB : Covered A N n gq gb B) :
    Total Op.execL (Shows A N n B bal) op.program (Keeps A N n gq gb bal op) := by
  cases op with
  | placeBuy m t price base blockNum =>
      exact keeps_placeBuy hinj hN (hparties m (by simp [parties])) (hparties t (by simp [parties]))
        hn hB price base blockNum
  | placeSell m t price base blockNum =>
      exact keeps_placeSell hinj hN (hparties m (by simp [parties])) (hparties t (by simp [parties]))
        hn hB price base blockNum
  | cancel actor id => exact keeps_cancel hinj hn hB actor id
  | fill taker id maxBase => exact keeps_fill hinj hn hB taker id maxBase

end Step

/-! ## What a ledger shows of the book -/

/-- The words of the orderbook in a ledger. -/
def wordsOf (L : Ledger) : Words := fun k =>
  L.slot ⟨orderbookModuleAddr, k.slot⟩

@[simp] theorem run_getU256 (L : Ledger) (slot : Hash) :
    (getU256 slot).run Op.execL L = .ok (L.slot ⟨orderbookModuleAddr, slot⟩, L) := by
  rw [getU256, Program.run_op]
  rfl

theorem slot_nextID (L : Ledger) :
    L.slot ⟨orderbookModuleAddr, nextIDSlot⟩ = wordsOf L .nextID := rfl

theorem slot_order (L : Ledger) (id : U64) (field : UInt8) :
    L.slot ⟨orderbookModuleAddr, orderSlot id field⟩ = wordsOf L (.order id field) := rfl

/-- `GetOrder` returns the order that the words of the ledger show. -/
theorem run_getOrder (L : Ledger) (id : U64) :
    (getOrder id).run Op.execL L = .ok (findOrder (wordsOf L) id, L) := by
  unfold findOrder getOrder
  by_cases hzero : id = 0
  · rw [if_pos hzero, if_pos (Or.inl hzero)]
    rfl
  rw [if_neg hzero]
  simp only [getU64, Program.run_bind, Program.run_ite, Program.run_pure, run_getU256,
    Program.ok_bind, slot_nextID, slot_order]
  by_cases hnext : (wordsOf L .nextID).setWidth 64 < id
  · rw [if_pos hnext, if_pos (Or.inr hnext)]
  rw [if_neg hnext, if_neg (not_or.mpr ⟨hzero, hnext⟩)]
  by_cases hblank : IsBlank (orderAt (wordsOf L) id)
  · rw [if_pos hblank]
    exact if_pos hblank
  · rw [if_neg hblank]
    exact if_neg hblank

/-- The exact locks of a maker's open buy orders. -/
def openBuyLocks (B : Words) (m : Address) : ℕ :=
  ∑ id : U64, match findOrder B id with
    | some o =>
      if o.maker = m ∧ o.side = orderSideBuy ∧ o.status = orderStatusOpen then
        exactLock o.baseOpen o.priceX18
      else 0
    | none => 0

/-- The open base amount of a maker's open sell orders of a token. -/
def openSellBase (B : Words) (m t : Address) : ℕ :=
  ∑ id : U64, match findOrder B id with
    | some o =>
      if o.maker = m ∧ o.baseToken = t ∧ o.side = orderSideSell ∧ o.status = orderStatusOpen then
        o.baseOpen.toNat
      else 0
    | none => 0

/-- The escrow accounts of the participants cover their open orders: quote escrow at least what the
open buy orders lock, base escrow exactly what the open sell orders offer, and no single buy order
locks more than the account holds. -/
structure EscrowCovers (A : Set Address) (B : Words) : Prop where
  quote : ∀ m ∈ A, openBuyLocks B m ≤ (B (.escrowQ m)).toNat
  base : ∀ m ∈ A, ∀ t ∈ A, (B (.escrowB m t)).toNat = openSellBase B m t
  cap : ∀ id o, findOrder B id = some o → o.status = orderStatusOpen → o.side = orderSideBuy →
    quoteLockCeil o.baseOpen o.priceX18 ≤ B (.escrowQ o.maker)

theorem side_eq {side : U8} (h : side.toNat < 2) : side = orderSideBuy ∨ side = orderSideSell := by
  have hcases : side.toNat = 0 ∨ side.toNat = 1 := by omega
  rcases hcases with h0 | h1
  · exact .inl (BitVec.eq_of_toNat_eq h0)
  · exact .inr (BitVec.eq_of_toNat_eq h1)

theorem openBuyLocks_eq (B : Words) (m : Address) : openBuyLocks B m = owed B (.escrowQ m) := by
  apply Finset.sum_congr rfl
  intro id _
  unfold dueAt
  cases findOrder B id with
  | none => rfl
  | some o =>
      by_cases hbuy : o.side = orderSideBuy
      · by_cases hm : o.maker = m
        · by_cases hopen : o.status = orderStatusOpen <;>
            simp [escrowKey, due, hbuy, hm, hopen]
        · simp [escrowKey, hbuy, hm]
      · simp [escrowKey, hbuy]

theorem openSellBase_eq {A : Set Address} {N n gq gb : ℕ} {B : Words} (hB : Covered A N n gq gb B)
    (m t : Address) : openSellBase B m t = owed B (.escrowB m t) := by
  apply Finset.sum_congr rfl
  intro id _
  unfold dueAt
  cases hfind : findOrder B id with
  | none => rfl
  | some o =>
      obtain ⟨-, -, hside, -⟩ := hB.order id o hfind
      rcases side_eq hside with hbuy | hsell
      · have hne : orderSideBuy ≠ orderSideSell := by decide
        simp [escrowKey, hbuy, hne]
      · have hne : orderSideSell ≠ orderSideBuy := by decide
        by_cases hm : o.maker = m
        · by_cases ht : o.baseToken = t
          · by_cases hopen : o.status = orderStatusOpen <;>
              simp [escrowKey, due, hsell, hne, hm, ht, hopen]
          · simp [escrowKey, hsell, hne, hm, ht]
        · simp [escrowKey, hsell, hne, hm]

theorem Covered.escrowCovers {A : Set Address} {N n gq gb : ℕ} {B : Words}
    (hB : Covered A N n gq gb B) : EscrowCovers A B where
  quote m _ := by
    rw [openBuyLocks_eq]
    exact hB.quote m
  base m _ t _ := by
    rw [openSellBase_eq hB]
    exact (hB.base m t).symm
  cap id o hfind hopen hbuy := by
    have hdue := hB.due_le hfind
    have hkey : escrowKey o = .escrowQ o.maker := if_pos hbuy
    have hexact : due o = exactLock o.baseOpen o.priceX18 := by
      rw [due, if_pos hopen, if_pos hbuy]
    rw [hkey, hexact] at hdue
    rw [BitVec.le_def, toNat_quoteLockCeil (lt_of_le_of_lt hdue (B (.escrowQ o.maker)).isLt)]
    exact hdue

/-- The ledger shows the orders of the book. -/
theorem Shows.findOrder_eq {A : Set Address} {N n : ℕ} {B : Words} {bal : Address → U256}
    {L : Ledger} (h : Shows A N n B bal L) (hN : (B .nextID).toNat ≤ N) (id : U64) :
    findOrder (wordsOf L) id = findOrder B id := by
  have hnext : wordsOf L .nextID = B .nextID := h.word .nextID trivial rfl
  unfold findOrder
  rw [hnext]
  by_cases hassigned : id = 0 ∨ (B .nextID).setWidth 64 < id
  · rw [if_pos hassigned, if_pos hassigned]
  · have hid : 1 ≤ id.toNat ∧ id.toNat ≤ N := by
      rw [not_or, BitVec.not_lt, BitVec.le_def, BitVec.toNat_setWidth] at hassigned
      have hpos : id.toNat ≠ 0 := fun h0 => hassigned.1 (BitVec.eq_of_toNat_eq h0)
      have hmod := Nat.mod_le (B .nextID).toNat (2 ^ 64)
      omega
    have hfield : ∀ f : UInt8, f.toNat < 5 → wordsOf L (.order id f) = B (.order id f) :=
      fun f hf => h.word (.order id f) ⟨hid.1, hid.2, hf⟩ rfl
    have horder : orderAt (wordsOf L) id = orderAt B id := by
      unfold orderAt
      rw [hfield 0 (by decide), hfield 1 (by decide), hfield 2 (by decide), hfield 3 (by decide),
        hfield 4 (by decide)]
    rw [horder]

theorem EscrowCovers.of_shows {A : Set Address} {N n : ℕ} {B : Words} {bal : Address → U256}
    {L : Ledger} (hB : EscrowCovers A B) (h : Shows A N n B bal L) (hN : (B .nextID).toNat ≤ N)
    (horder : ∀ id o, findOrder B id = some o → o.maker ∈ A) : EscrowCovers A (wordsOf L) := by
  have hfind := h.findOrder_eq hN
  have hquote : ∀ m ∈ A, wordsOf L (.escrowQ m) = B (.escrowQ m) :=
    fun m hm => h.word (.escrowQ m) hm rfl
  refine ⟨?_, ?_, ?_⟩
  · intro m hm
    rw [hquote m hm]
    simp only [openBuyLocks, hfind]
    exact hB.quote m hm
  · intro m hm t ht
    have hbase : wordsOf L (.escrowB m t) = B (.escrowB m t) :=
      h.word (.escrowB m t) ⟨hm, ht⟩ rfl
    rw [hbase]
    simp only [openSellBase, hfind]
    exact hB.base m hm t ht
  · intro id o ho hopen hbuy
    rw [hfind] at ho
    rw [hquote o.maker (horder id o ho)]
    exact hB.cap id o ho hopen hbuy

/-! ## Every history -/

section Storage

/-- Storage accesses are all that the methods of the module make. -/
abbrev Accesses {α : Type} (p : StateProgram α) : Prop :=
  p.Calls Op.IsStorage

@[simp] theorem accesses_getU256 (slot : Hash) : Accesses (getU256 slot) := by
  simp [Accesses, getU256, Op.IsStorage]

@[simp] theorem accesses_setU256 (slot : Hash) (v : U256) : Accesses (setU256 slot v) := by
  simp [Accesses, setU256, Op.IsStorage]

@[simp] theorem accesses_getU64 (slot : Hash) : Accesses (getU64 slot) :=
  Calls.bind (accesses_getU256 slot) fun _ => trivial

@[simp] theorem accesses_setU64 (slot : Hash) (v : U64) : Accesses (setU64 slot v) :=
  accesses_setU256 slot _

theorem accesses_nextOrderID : Accesses nextOrderID :=
  Calls.bind (accesses_getU64 _) fun _ => Calls.bind (accesses_setU64 _ _) fun _ => trivial

theorem accesses_incOpenCount (m : Address) : Accesses (incOpenCount m) := by
  refine Calls.bind (accesses_getU64 _) fun c => ?_
  split
  · trivial
  · exact Calls.bind (accesses_setU64 _ _) fun _ => trivial

theorem accesses_decOpenCount (m : Address) : Accesses (decOpenCount m) := by
  refine Calls.bind (accesses_getU64 _) fun c => ?_
  split
  · trivial
  · exact accesses_setU64 _ _

theorem accesses_add (slot : Hash) (amt : U256) : Accesses (do
    let cur ← getU256 slot
    setU256 slot (cur + amt)) :=
  Calls.bind (accesses_getU256 slot) fun _ => accesses_setU256 _ _

theorem accesses_sub (slot : Hash) (amt : U256) (e : OrderbookError) : Accesses (do
    let cur ← getU256 slot
    if cur < amt then return Except.error e
    setU256 slot (cur - amt)
    return Except.ok () : StateProgram (Except OrderbookError Unit)) := by
  refine Calls.bind (accesses_getU256 slot) fun cur => ?_
  split
  · trivial
  · exact Calls.bind (accesses_setU256 _ _) fun _ => trivial

theorem accesses_writeOrder (o : Order) : Accesses (writeOrder o) := by
  refine Calls.bind (accesses_setU256 _ _) fun _ => ?_
  refine Calls.bind (accesses_setU256 _ _) fun _ => ?_
  refine Calls.bind (accesses_setU256 _ _) fun _ => ?_
  refine Calls.bind (accesses_setU256 _ _) fun _ => ?_
  exact accesses_setU256 _ _

theorem accesses_getOrder (id : U64) : Accesses (getOrder id) := by
  unfold getOrder
  split
  · trivial
  refine Calls.bind (accesses_getU64 _) fun next => ?_
  split
  · trivial
  refine Calls.bind (accesses_getU256 _) fun _ => ?_
  refine Calls.bind (accesses_getU256 _) fun _ => ?_
  refine Calls.bind (accesses_getU256 _) fun _ => ?_
  refine Calls.bind (accesses_getU256 _) fun _ => ?_
  refine Calls.bind (accesses_getU256 _) fun _ => ?_
  split <;> trivial

theorem accesses_addOpenIndex (t : Address) (side : U8) (id : U64) :
    Accesses (addOpenIndex t side id) :=
  Calls.bind (accesses_getU64 _) fun _ => Calls.bind (accesses_setU64 _ _) fun _ =>
    accesses_setU64 _ _

theorem accesses_removeOpenFrom (t : Address) (side : U8) (id n : U64) (fuel : ℕ) (i : U64) :
    Accesses (removeOpenFrom t side id n fuel i) := by
  induction fuel generalizing i with
  | zero => trivial
  | succ fuel ih =>
      refine Calls.bind (accesses_getU64 _) fun at' => ?_
      split
      · have hclose : Accesses (do
            setU64 (openAtSlot t side (n - 1)) 0
            setU64 (openLenSlot t side) (n - 1)) :=
          Calls.bind (accesses_setU64 _ _) fun _ => accesses_setU64 _ _
        split
        · exact Calls.bind (accesses_getU256 _) fun _ =>
            Calls.bind (accesses_setU256 _ _) fun _ => hclose
        · exact hclose
      · exact ih (i + 1)

theorem accesses_removeOpenIndex (t : Address) (side : U8) (id : U64) :
    Accesses (removeOpenIndex t side id) :=
  Calls.bind (accesses_getU64 _) fun _ => accesses_removeOpenFrom ..

theorem accesses_validatePlace (m : Address) (price base : U256) :
    Accesses (validatePlace m price base) := by
  unfold validatePlace
  split
  · trivial
  split
  · trivial
  split
  · trivial
  exact accesses_incOpenCount m

theorem accesses_placeBuy (m t : Address) (price base : U256) (blockNum : U64) :
    Accesses (placeBuy m t price base blockNum) := by
  refine Calls.bind (accesses_validatePlace m price base) fun r => ?_
  cases r with
  | error e => trivial
  | ok u =>
      have hrefuse : ∀ e, Accesses (do
          decOpenCount m
          return Except.error e : StateProgram (Except OrderbookError (U64 × U256))) := fun e =>
        Calls.bind (accesses_decOpenCount m) fun _ => trivial
      simp only
      split
      · exact hrefuse _
      split
      · exact hrefuse _
      refine Calls.bind accesses_nextOrderID fun id => ?_
      refine Calls.bind (accesses_writeOrder _) fun _ => ?_
      refine Calls.bind (accesses_add _ _) fun _ => ?_
      exact Calls.bind (accesses_addOpenIndex _ _ _) fun _ => trivial

theorem accesses_placeSell (m t : Address) (price base : U256) (blockNum : U64) :
    Accesses (placeSell m t price base blockNum) := by
  refine Calls.bind (accesses_validatePlace m price base) fun r => ?_
  cases r with
  | error e => trivial
  | ok u =>
      simp only
      split
      · exact Calls.bind (accesses_decOpenCount m) fun _ => trivial
      refine Calls.bind accesses_nextOrderID fun id => ?_
      refine Calls.bind (accesses_writeOrder _) fun _ => ?_
      refine Calls.bind (accesses_add _ _) fun _ => ?_
      exact Calls.bind (accesses_addOpenIndex _ _ _) fun _ => trivial

theorem accesses_releaseEscrow (o : Order) : Accesses (releaseEscrow o) := by
  unfold releaseEscrow
  split
  · refine Calls.bind (accesses_getU256 _) fun esc => ?_
    refine Calls.bind (accesses_sub _ _ _) fun r => ?_
    cases r <;> trivial
  · refine Calls.bind (accesses_sub _ _ _) fun r => ?_
    cases r <;> trivial

theorem accesses_cancel (actor : Address) (id : U64) : Accesses (cancel actor id) := by
  refine Calls.bind (accesses_getOrder id) fun found => ?_
  cases found with
  | none => trivial
  | some o =>
      simp only
      split
      · trivial
      split
      · trivial
      refine Calls.bind (accesses_releaseEscrow o) fun r => ?_
      cases r with
      | error e => trivial
      | ok refund =>
          refine Calls.bind (accesses_writeOrder _) fun _ => ?_
          refine Calls.bind (accesses_decOpenCount _) fun _ => ?_
          exact Calls.bind (accesses_removeOpenIndex _ _ _) fun _ => trivial

theorem accesses_finishFill (o : Order) (id : U64) (base : U256) (out : U256 × U256) :
    Accesses (if o.baseOpen - base = 0 then do
        decOpenCount o.maker
        removeOpenIndex o.baseToken o.side id
        writeOrder { o with status := orderStatusFilled, baseOpen := o.baseOpen - base }
        return (Except.ok out : Except OrderbookError (U256 × U256))
      else do
        writeOrder { o with baseOpen := o.baseOpen - base }
        return (Except.ok out)) := by
  split
  · refine Calls.bind (accesses_decOpenCount _) fun _ => ?_
    refine Calls.bind (accesses_removeOpenIndex _ _ _) fun _ => ?_
    exact Calls.bind (accesses_writeOrder _) fun _ => trivial
  · exact Calls.bind (accesses_writeOrder _) fun _ => trivial

theorem accesses_fill (taker : Address) (id : U64) (maxBase : U256) :
    Accesses (fill taker id maxBase) := by
  unfold fill
  split
  · trivial
  split
  · trivial
  refine Calls.bind (accesses_getOrder id) fun found => ?_
  cases found with
  | none => trivial
  | some o =>
      simp only
      split
      · trivial
      split
      · refine Calls.bind (accesses_sub _ _ _) fun r => ?_
        cases r with
        | error e => trivial
        | ok u => exact accesses_finishFill o id _ _
      · refine Calls.bind (accesses_sub _ _ _) fun r => ?_
        cases r with
        | error e => trivial
        | ok u => exact accesses_finishFill o id _ _

theorem BookOp.accesses (op : BookOp) : Accesses op.program := by
  cases op with
  | placeBuy m t price base blockNum =>
      exact Calls.bind (accesses_placeBuy ..) fun _ => trivial
  | placeSell m t price base blockNum =>
      exact Calls.bind (accesses_placeSell ..) fun _ => trivial
  | cancel actor id => exact Calls.bind (accesses_cancel ..) fun _ => trivial
  | fill taker id maxBase => exact Calls.bind (accesses_fill ..) fun _ => trivial

theorem accesses_history (ops : List BookOp) : Accesses (history ops) := by
  induction ops with
  | nil => trivial
  | cons op ops ih => exact Calls.bind op.accesses fun _ => Calls.bind ih fun _ => trivial

end Storage

/-- A history keeps a covered book covered, while the exact amounts do not overflow. -/
theorem history_covered {A : Set Address} {N n gq gb : ℕ} {B : Words} {bal : Address → U256}
    (hinj : Set.InjOn Key.slot (Key.within A N)) (hN : N < 2 ^ 64) (ops : List BookOp)
    (hparties : ∀ op ∈ ops, ∀ a ∈ op.parties, a ∈ A) (hn : n + placements ops ≤ N)
    (hB : Covered A N n gq gb B) {L L' : Ledger} (hL : Shows A N n B bal L) {outs : List Outcome}
    (hrun : (history ops).run Op.execL L = .ok (outs, L'))
    (hq : gq + totalLocks ops outs < 2 ^ 256) (hb : gb + totalBases ops outs < 2 ^ 256) :
    (∀ r ∈ outs, r ≠ .error .escrowQuoteUnderflow ∧ r ≠ .error .escrowBaseUnderflow) ∧
      ∃ n' gq' gb' B', n' ≤ N ∧ Shows A N n' B' bal L' ∧ Covered A N n' gq' gb' B' := by
  -- the invariant is carried from the front: the first call, then the rest of the history
  induction ops generalizing n gq gb B L outs with
  | nil =>
      obtain ⟨rfl, rfl⟩ : outs = [] ∧ L' = L := by
        cases hrun
        exact ⟨rfl, rfl⟩
      exact ⟨by simp, n, gq, gb, B, by simpa [placements] using hn, hL, hB⟩
  | cons op ops ih =>
      have hcount : placements (op :: ops) = op.placements + placements ops := by
        simp [placements]
      rw [hcount] at hn
      obtain ⟨r, L₁, hop, hkeeps⟩ :=
        op.keeps hinj hN (hparties op (by simp)) (by omega) hB L hL
      obtain ⟨rs, L₂, hrest⟩ := run_ok_of_isStorage (accesses_history ops) L₁
      have hall : (history (op :: ops)).run Op.execL L = .ok (r :: rs, L₂) := by
        simp only [history, Program.run_bind, hop, hrest, Program.ok_bind, Program.run_pure]
      rw [hall] at hrun
      obtain ⟨rfl, rfl⟩ : r :: rs = outs ∧ L₂ = L' := by
        cases hrun
        exact ⟨rfl, rfl⟩
      have hlocks : totalLocks (op :: ops) (r :: rs) = op.locks r + totalLocks ops rs := by
        simp [totalLocks]
      have hbases : totalBases (op :: ops) (r :: rs) = op.bases r + totalBases ops rs := by
        simp [totalBases]
      rw [hlocks] at hq
      rw [hbases] at hb
      obtain ⟨hquote, hbase, B', hL₁, hB'⟩ := hkeeps (by omega) (by omega)
      obtain ⟨houts, hfinal⟩ := ih (fun op' hop' => hparties op' (List.mem_cons_of_mem _ hop'))
        (by omega) hB' hL₁ hrest (by omega) (by omega)
      refine ⟨?_, hfinal⟩
      intro r' hr'
      rcases List.mem_cons.mp hr' with rfl | hr'
      · exact ⟨hquote, hbase⟩
      · exact houts r' hr'

theorem findOrder_of_next_zero {B : Words} (h : B .nextID = 0) (id : U64) :
    findOrder B id = none := by
  unfold findOrder
  rw [h, if_pos]
  by_cases hid : id = 0
  · exact .inl hid
  · right
    rw [BitVec.lt_def]
    have : id.toNat ≠ 0 := fun h => hid (BitVec.eq_of_toNat_eq h)
    simpa using Nat.pos_of_ne_zero this

/-- An empty book is covered. -/
theorem covered_zero (A : Set Address) (N : ℕ) : Covered A N 0 0 0 fun _ => 0 := by
  have hnone : ∀ id, findOrder (fun _ => 0) id = none := findOrder_of_next_zero rfl
  have howed : ∀ k, owed (fun _ => 0) k = 0 := by
    intro k
    apply Finset.sum_eq_zero
    intro id _
    rw [dueAt, hnone]
  refine ⟨?_, ?_, ?_, ?_, ?_, ?_⟩
  · simp
  · intro id o h
    rw [hnone] at h
    cases h
  · intro m
    rw [howed]
    exact Nat.zero_le _
  · intro m t
    rw [howed]
    rfl
  · intro m
    simp
  · intro m t
    simp

theorem shows_fresh {A : Set Address} {N : ℕ} {s : StateDB}
    (hfresh : ∀ k ∈ Key.within A N, s.slotOf ⟨orderbookModuleAddr, k.slot⟩ = 0) :
    Shows A N 0 (fun _ => 0) s.view.balance s.view := by
  refine ⟨fun k hk _ => hfresh k hk, ?_, rfl⟩
  intro t ht side hside
  have hzero := hfresh (.openLen t side) ⟨ht, hside⟩
  rw [show s.view.slot ⟨orderbookModuleAddr, openLenSlot t side⟩ = 0 from hzero]
  simp

/-- The names of a book with one participant and one order. -/
def soleKeys : List Key :=
  [.nextID, .order 1 0, .order 1 1, .order 1 2, .order 1 3, .order 1 4, .openCount 7, .escrowQ 7,
    .escrowB 7 7, .openLen 7 0, .openLen 7 1, .openAt 7 0 0, .openAt 7 1 0]

theorem mem_soleKeys : ∀ k ∈ Key.within {7} 1, k ∈ soleKeys := by
  intro k hk
  cases k with
  | nextID => simp [soleKeys]
  | order id field =>
      obtain ⟨h1, h2, hf⟩ := hk
      obtain rfl : id = 1 := BitVec.eq_of_toNat_eq (by simpa using le_antisymm h2 h1)
      have hcases : field = 0 ∨ field = 1 ∨ field = 2 ∨ field = 3 ∨ field = 4 := by
        simp only [← UInt8.toNat_inj]
        simp
        omega
      rcases hcases with rfl | rfl | rfl | rfl | rfl <;> simp [soleKeys]
  | openCount m => obtain rfl : m = 7 := hk; simp [soleKeys]
  | escrowQ m => obtain rfl : m = 7 := hk; simp [soleKeys]
  | escrowB m t =>
      obtain ⟨h1, h2⟩ := hk
      obtain rfl : m = 7 := h1
      obtain rfl : t = 7 := h2
      simp [soleKeys]
  | openLen t side =>
      obtain ⟨h1, h2⟩ := hk
      obtain rfl : t = 7 := h1
      rcases side_eq h2 with rfl | rfl <;> simp [soleKeys, orderSideBuy, orderSideSell]
  | openAt t side idx =>
      obtain ⟨h1, h2, h3⟩ := hk
      obtain rfl : t = 7 := h1
      obtain rfl : idx = 0 := BitVec.eq_of_toNat_eq (by simpa using h3)
      rcases side_eq h2 with rfl | rfl <;> simp [soleKeys, orderSideBuy, orderSideSell]

theorem soleKeys_injOn : Set.InjOn Key.slot (Key.within {7} 1) :=
  injOn_of_digests Key.slot_eq_evalNat mem_soleKeys (by decide +kernel)

/-- A buy order that is filled in part and then cancelled. -/
def soleHistory : List BookOp :=
  [.placeBuy 7 7 1500000000000000001 10 0, .fill 9 1 3, .cancel 7 1]

/-- A state database over nothing, with one cached slot. -/
def oneSlot (id : StorageID) (v : Hash) : StateDB :=
  { StateDB.new ∅ with storage := GoMap.set ∅ id v }

theorem slotOf_oneSlot (id id' : StorageID) (v : Hash) :
    (oneSlot id v).slotOf id' = if id' = id then v else 0 := by
  unfold oneSlot Store.slotOf
  simp only [GoMap.get?_set]
  split <;> rfl

/-- A module whose identifiers are used up, and whose book is empty. -/
def exhausted : StateDB :=
  oneSlot ⟨orderbookModuleAddr, Key.nextID.slot⟩ 0xffffffffffffffff

def wrapKeys : List Key :=
  [.nextID, .order 0 0, .order 0 1, .order 0 2, .order 0 3, .order 0 4, .openCount 7,
    .escrowB 7 7, .openLen 7 1, .openAt 7 1 0]

theorem wrapKeys_injOn : Set.InjOn Key.slot {k | k ∈ wrapKeys} :=
  injOn_of_digests Key.slot_eq_evalNat (fun _ hk => hk) (by decide +kernel)

/-- Words of an exhausted module. -/
def exhaustedWords : Words := fun k => if k = .nextID then 0xffffffffffffffff else 0

theorem slot_view (s : StateDB) (id : StorageID) : s.view.slot id = s.slotOf id :=
  rfl

theorem exhausted_holds : Holds orderbookModuleAddr Key.slot {k | k ∈ wrapKeys} exhaustedWords
    exhausted.view.balance exhausted.view := by
  refine ⟨?_, rfl⟩
  intro k hk
  have hslot : exhausted.slotOf ⟨orderbookModuleAddr, k.slot⟩ = exhaustedWords k := by
    rw [exhausted, slotOf_oneSlot, exhaustedWords]
    by_cases h : k = .nextID
    · rw [h, if_pos rfl, if_pos rfl]
    · rw [if_neg h, if_neg]
      intro heq
      exact h (wrapKeys_injOn hk (by simp [wrapKeys]) (StorageID.mk.inj heq).2)
  rw [slot_view, hslot]

/-- The words after a sell order was placed under the identifier zero. -/
def wrappedWords : Words :=
  let B₁ := Function.update exhaustedWords (.openCount 7) 1
  let B₂ := putOrder (Function.update B₁ .nextID 0) (newOrder 0 7 7 orderSideSell 1 5 0)
  let B₃ := Function.update B₂ (.escrowB 7 7) 5
  Function.update (Function.update B₃ (.openAt 7 1 0) 0) (.openLen 7 1) 1

abbrev HoldsWrap (B : Words) : Ledger → Prop :=
  Holds orderbookModuleAddr Key.slot {k | k ∈ wrapKeys} B exhausted.view.balance

theorem wrap_load {B : Words} (k : Key) (hk : k ∈ wrapKeys) :
    Total Op.execL (HoldsWrap B) (getU256 k.slot) fun v L => v = B k ∧ HoldsWrap B L :=
  Holds.load hk

theorem wrap_load64 {B : Words} (k : Key) (hk : k ∈ wrapKeys) :
    Total Op.execL (HoldsWrap B) (getU64 k.slot)
      fun v L => v = (B k).setWidth 64 ∧ HoldsWrap B L := by
  apply (wrap_load k hk).bind
  intro v
  exact Total.pure fun L hL => ⟨by rw [hL.1], hL.2⟩

theorem wrap_store {B : Words} (k : Key) (hk : k ∈ wrapKeys) (v : U256) :
    Total Op.execL (HoldsWrap B) (setU256 k.slot v)
      fun _ L => HoldsWrap (Function.update B k v) L :=
  Holds.store wrapKeys_injOn hk v

theorem wrapped_placeSell : Total Op.execL (HoldsWrap exhaustedWords) (placeSell 7 7 1 5 0)
    fun r L => r = .ok 0 ∧ HoldsWrap wrappedWords L := by
  have hvalid : Total Op.execL (HoldsWrap exhaustedWords) (validatePlace 7 1 5) fun r L =>
      r = .ok () ∧ HoldsWrap (Function.update exhaustedWords (.openCount 7) 1) L := by
    apply (wrap_load64 (.openCount 7) (by simp [wrapKeys])).bind
    intro n
    apply Total.assume
    rintro rfl
    apply (wrap_store (.openCount 7) (by simp [wrapKeys]) _).bind
    intro _
    exact Total.pure fun L hL => ⟨rfl, hL⟩
  apply hvalid.bind
  intro r
  apply Total.assume
  rintro rfl
  let B₁ := Function.update exhaustedWords (.openCount 7) 1
  have hnext : Total Op.execL (HoldsWrap B₁) nextOrderID fun id L =>
      id = 0 ∧ HoldsWrap (Function.update B₁ .nextID 0) L := by
    apply (wrap_load64 .nextID (by simp [wrapKeys])).bind
    intro cur
    apply Total.assume
    intro hcur
    obtain rfl : cur = 0xffffffffffffffff := hcur.trans (by decide)
    apply (wrap_store .nextID (by simp [wrapKeys]) _).bind
    intro _
    exact Total.pure fun L hL => ⟨by decide, hL⟩
  apply hnext.bind
  intro id
  apply Total.assume
  rintro rfl
  let o := newOrder 0 7 7 orderSideSell 1 5 0
  let B₂ := putOrder (Function.update B₁ .nextID 0) o
  have hwrite : Total Op.execL (HoldsWrap (Function.update B₁ .nextID 0)) (writeOrder o)
      fun _ L => HoldsWrap B₂ L := by
    rw [show B₂ = _ from putOrder_eq _ _]
    apply (wrap_store (.order 0 0) (by simp [wrapKeys]) _).bind
    intro _
    apply (wrap_store (.order 0 1) (by simp [wrapKeys]) _).bind
    intro _
    apply (wrap_store (.order 0 2) (by simp [wrapKeys]) _).bind
    intro _
    apply (wrap_store (.order 0 3) (by simp [wrapKeys]) _).bind
    intro _
    exact wrap_store (.order 0 4) (by simp [wrapKeys]) _
  apply hwrite.bind
  intro _
  have hescrow : Total Op.execL (HoldsWrap B₂) (addEscrowB 7 7 5)
      fun _ L => HoldsWrap (Function.update B₂ (.escrowB 7 7) 5) L := by
    apply (wrap_load (.escrowB 7 7) (by simp [wrapKeys])).bind
    intro cur
    apply Total.assume
    intro hcur
    obtain rfl : cur = 0 := hcur.trans (by decide)
    exact wrap_store (.escrowB 7 7) (by simp [wrapKeys]) _
  apply hescrow.bind
  intro _
  have hindex : Total Op.execL (HoldsWrap (Function.update B₂ (.escrowB 7 7) 5))
      (addOpenIndex 7 orderSideSell 0) fun _ L => HoldsWrap wrappedWords L := by
    apply (wrap_load64 (.openLen 7 1) (by simp [wrapKeys])).bind
    intro n
    apply Total.assume
    intro hn
    obtain rfl : n = 0 := hn.trans (by decide)
    apply (wrap_store (.openAt 7 1 0) (by simp [wrapKeys]) _).bind
    intro _
    exact wrap_store (.openLen 7 1) (by simp [wrapKeys]) _
  apply hindex.bind
  intro _
  exact Total.pure fun L hL => ⟨rfl, hL⟩

end Orderbook

end Dew
