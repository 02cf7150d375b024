/-
# What the orderbook methods do to the book

The words of the orderbook by name (`Key`), and a specification of each method in terms of the
words that make up the book: the orders, the identifier counter and the escrow accounts. The counts
of open orders and the index of open orders only matter through their bounds, which keep every
access within the names whose slots are assumed not to collide.
-/
import Dew.KeccakEval
import Dew.ModuleStorage
import Dew.Orderbook

namespace Dew

namespace Orderbook

open Program

/-- The names of the words of the orderbook. -/
inductive Key where
  | nextID
  | order (id : U64) (field : UInt8)
  | openCount (maker : Address)
  | escrowQ (maker : Address)
  | escrowB (maker token : Address)
  | openLen (token : Address) (side : U8)
  | openAt (token : Address) (side : U8) (idx : U64)
deriving DecidableEq

namespace Key

def slot : Key → Hash
  | nextID => nextIDSlot
  | order id field => orderSlot id field
  | openCount maker => openCountSlot maker
  | escrowQ maker => escrowQSlot maker
  | escrowB maker token => escrowBSlot maker token
  | openLen token side => openLenSlot token side
  | openAt token side idx => openAtSlot token side idx

/-- The string whose digest is the slot. -/
def name : Key → Bytes
  | nextID => ascii "dew/ob/v1/nextId"
  | order id field => ascii "dew/ob/v1/order" ++ u64BE id ++ [field]
  | openCount maker => ascii "dew/ob/v1/openCount" ++ maker.bytes
  | escrowQ maker => ascii "dew/ob/v1/escrowQ" ++ maker.bytes
  | escrowB maker token => ascii "dew/ob/v1/escrowB" ++ maker.bytes ++ token.bytes
  | openLen token side => ascii "dew/ob/v1/openLen" ++ token.bytes ++ [UInt8.ofBitVec side]
  | openAt token side idx =>
    ascii "dew/ob/v1/openAt" ++ token.bytes ++ [UInt8.ofBitVec side] ++ u64BE idx

theorem slot_eq (k : Key) : k.slot = keccak256Hash k.name := by
  cases k <;>
    simp [slot, name, nextIDSlot, orderSlot, openCountSlot, escrowQSlot, escrowBSlot, openLenSlot,
      openAtSlot, slotHash]

/-- The slots by their numbers. -/
theorem slot_eq_evalNat (k : Key) : k.slot = BitVec.ofNat 256 (Keccak.evalNat k.name) := by
  rw [slot_eq]
  apply Keccak.keccak256_eq_evalNat
  cases k <;> simp [name, ascii, u64BE]

/-- The names that a history with the participants `A` and at most `N` placements can touch. -/
def within (A : Set Address) (N : ℕ) : Set Key
  | nextID => True
  | order id field => 1 ≤ id.toNat ∧ id.toNat ≤ N ∧ field.toNat < 5
  | openCount maker | escrowQ maker => maker ∈ A
  | escrowB maker token => maker ∈ A ∧ token ∈ A
  | openLen token side => token ∈ A ∧ side.toNat < 2
  | openAt token side idx => token ∈ A ∧ side.toNat < 2 ∧ idx.toNat < N

/-- The words that make up the book. -/
def isBook : Key → Bool
  | nextID | order _ _ | escrowQ _ | escrowB _ _ => true
  | _ => false

end Key

/-- The words of a book. -/
abbrev Words := Key → U256

/-- The ledger holds the book `B`, its indexes of open orders are no longer than `n`, and it has
the given balances. -/
structure Shows (A : Set Address) (N n : ℕ) (B : Words) (bal : Address → U256) (L : Ledger) :
    Prop where
  word : ∀ k ∈ Key.within A N, k.isBook = true → L.slot ⟨orderbookModuleAddr, k.slot⟩ = B k
  len : ∀ t ∈ A, ∀ side : U8, side.toNat < 2 →
    (L.slot ⟨orderbookModuleAddr, openLenSlot t side⟩).toNat ≤ n
  balance : L.balance = bal

section Accesses

variable {A : Set Address} {N n : ℕ} {B : Words} {bal : Address → U256}

/-- A word of the book is read. -/
theorem load {k : Key} (hk : k ∈ Key.within A N) (hbook : k.isBook = true) :
    Total Op.execL (Shows A N n B bal) (getU256 k.slot)
      fun v L => v = B k ∧ Shows A N n B bal L := by
  apply Total.op
  intro L hL
  exact ⟨_, L, rfl, hL.word k hk hbook, hL⟩

/-- Any other word is read. -/
theorem loadAny (slot : Hash) :
    Total Op.execL (Shows A N n B bal) (getU256 slot) fun _ L => Shows A N n B bal L := by
  apply Total.op
  intro L hL
  exact ⟨_, L, rfl, hL⟩

theorem loadLen {t : Address} {side : U8} (ht : t ∈ A) (hside : side.toNat < 2) :
    Total Op.execL (Shows A N n B bal) (getU256 (openLenSlot t side))
      fun v L => v.toNat ≤ n ∧ Shows A N n B bal L := by
  apply Total.op
  intro L hL
  exact ⟨_, L, rfl, hL.len t ht side hside, hL⟩

variable (hinj : Set.InjOn Key.slot (Key.within A N))

include hinj

/-- A word of the book is written. -/
theorem store {k : Key} (hk : k ∈ Key.within A N) (hbook : k.isBook = true) (v : U256) :
    Total Op.execL (Shows A N n B bal) (setU256 k.slot v)
      fun _ L => Shows A N n (Function.update B k v) bal L := by
  apply Total.op
  intro L hL
  refine ⟨(), _, rfl, ?_, ?_, ?_⟩
  · intro k' hk' hbook'
    rw [slot_setState hinj hk hk', Function.update_apply, hL.word k' hk' hbook']
  · intro t ht side hside
    have hlen : Key.openLen t side ∈ Key.within A N := ⟨ht, hside⟩
    have hne : Key.openLen t side ≠ k := by
      intro heq
      rw [← heq] at hbook
      cases hbook
    have hslot : (L.setState ⟨orderbookModuleAddr, k.slot⟩ v).slot
        ⟨orderbookModuleAddr, (Key.openLen t side).slot⟩ =
        L.slot ⟨orderbookModuleAddr, (Key.openLen t side).slot⟩ := by
      rw [slot_setState hinj hk hlen, if_neg hne]
    rw [show openLenSlot t side = (Key.openLen t side).slot from rfl, hslot]
    exact hL.len t ht side hside
  · rw [balance_setState, hL.balance]

/-- A word that is not of the book is written; the length of an index must keep its bound. -/
theorem storeAside {k : Key} (hk : k ∈ Key.within A N) (haside : k.isBook = false) {v : U256}
    {n' : ℕ} (hn : n ≤ n') (hv : ∀ t side, k = .openLen t side → v.toNat ≤ n') :
    Total Op.execL (Shows A N n B bal) (setU256 k.slot v)
      fun _ L => Shows A N n' B bal L := by
  apply Total.op
  intro L hL
  refine ⟨(), _, rfl, ?_, ?_, ?_⟩
  · intro k' hk' hbook'
    have hne : k' ≠ k := by
      intro heq
      rw [heq, haside] at hbook'
      cases hbook'
    rw [slot_setState hinj hk hk', if_neg hne, hL.word k' hk' hbook']
  · intro t ht side hside
    have hlen : Key.openLen t side ∈ Key.within A N := ⟨ht, hside⟩
    rw [show openLenSlot t side = (Key.openLen t side).slot from rfl, slot_setState hinj hk hlen]
    split
    · rename_i heq
      exact hv t side heq.symm
    · exact (hL.len t ht side hside).trans hn
  · rw [balance_setState, hL.balance]

end Accesses

/-! ## Counters and escrow -/

section Methods

variable {A : Set Address} {N n : ℕ} {B : Words} {bal : Address → U256}

/-- The identifier that the next placement gets. -/
def nextOf (B : Words) : U64 :=
  (B .nextID).setWidth 64 + 1

theorem load64 {k : Key} (hk : k ∈ Key.within A N) (hbook : k.isBook = true) :
    Total Op.execL (Shows A N n B bal) (getU64 k.slot)
      fun v L => v = (B k).setWidth 64 ∧ Shows A N n B bal L := by
  apply (load hk hbook).bind
  intro v
  exact Total.pure fun L hL => ⟨by rw [hL.1], hL.2⟩

theorem loadAny64 (slot : Hash) :
    Total Op.execL (Shows A N n B bal) (getU64 slot) fun _ L => Shows A N n B bal L := by
  apply (loadAny slot).bind
  intro v
  exact Total.pure fun L hL => hL

theorem loadLen64 {t : Address} {side : U8} (ht : t ∈ A) (hside : side.toNat < 2) :
    Total Op.execL (Shows A N n B bal) (getU64 (openLenSlot t side))
      fun v L => v.toNat ≤ n ∧ Shows A N n B bal L := by
  apply (loadLen ht hside).bind
  intro v
  refine Total.pure fun L hL => ⟨?_, hL.2⟩
  rw [BitVec.toNat_setWidth]
  exact (Nat.mod_le _ _).trans hL.1

variable (hinj : Set.InjOn Key.slot (Key.within A N))

include hinj

theorem total_nextOrderID :
    Total Op.execL (Shows A N n B bal) nextOrderID fun id L => id = nextOf B ∧
      Shows A N n (Function.update B .nextID ((nextOf B).setWidth 256)) bal L := by
  have hk : Key.nextID ∈ Key.within A N := trivial
  apply (load64 hk rfl).bind
  intro cur
  apply Total.assume
  rintro rfl
  apply (store hinj hk rfl _).bind
  intro _
  exact Total.pure fun L hL => ⟨rfl, hL⟩

theorem total_incOpenCount {m : Address} (hm : m ∈ A) :
    Total Op.execL (Shows A N n B bal) (incOpenCount m) fun r L =>
      (r = .ok () ∨ r = .error .maxOpenOrders) ∧ Shows A N n B bal L := by
  have hk : Key.openCount m ∈ Key.within A N := hm
  apply (loadAny64 _).bind
  intro c
  split
  · exact Total.pure fun L hL => ⟨.inr rfl, hL⟩
  · apply (storeAside hinj hk rfl le_rfl (by rintro t side ⟨⟩)).bind
    intro _
    exact Total.pure fun L hL => ⟨.inl rfl, hL⟩

theorem total_decOpenCount {m : Address} (hm : m ∈ A) :
    Total Op.execL (Shows A N n B bal) (decOpenCount m) fun _ L => Shows A N n B bal L := by
  have hk : Key.openCount m ∈ Key.within A N := hm
  apply (loadAny64 _).bind
  intro c
  split
  · exact Total.pure fun L hL => hL
  · exact storeAside hinj hk rfl le_rfl (by rintro t side ⟨⟩)

/-- The word of an account is raised. -/
theorem total_add {k : Key} (hk : k ∈ Key.within A N) (hbook : k.isBook = true) (amt : U256) :
    Total Op.execL (Shows A N n B bal) (do
      let cur ← getU256 k.slot
      setU256 k.slot (cur + amt)) fun _ L =>
        Shows A N n (Function.update B k (B k + amt)) bal L := by
  apply (load hk hbook).bind
  intro cur
  apply Total.assume
  rintro rfl
  exact store hinj hk hbook _

/-- The word of an account is lowered, unless it is too small. -/
theorem total_sub {k : Key} (hk : k ∈ Key.within A N) (hbook : k.isBook = true) (amt : U256)
    (e : OrderbookError) :
    Total Op.execL (Shows A N n B bal) (do
      let cur ← getU256 k.slot
      if cur < amt then return Except.error e
      setU256 k.slot (cur - amt)
      return Except.ok () : StateProgram (Except OrderbookError Unit)) fun r L =>
        r = (if B k < amt then .error e else .ok ()) ∧
          Shows A N n (if B k < amt then B else Function.update B k (B k - amt)) bal L := by
  apply (load hk hbook).bind
  intro cur
  apply Total.assume
  rintro rfl
  by_cases h : B k < amt
  · simp only [if_pos h]
    exact Total.pure fun L hL => ⟨rfl, hL⟩
  · simp only [if_neg h]
    apply (store hinj hk hbook _).bind
    intro _
    exact Total.pure fun L hL => ⟨rfl, hL⟩

omit hinj

/-! ## Orders -/

/-- The order under an identifier, as its words say. -/
def orderAt (B : Words) (id : U64) : Order where
  id := id
  maker := headerMaker (B (.order id 0))
  baseToken := (B (.order id 1)).setWidth 160
  side := headerSide (B (.order id 0))
  priceX18 := B (.order id 2)
  baseOpen := B (.order id 3)
  baseOrig := B (.order id 4)
  createdAt := headerCreatedAt (B (.order id 0))
  status := headerStatus (B (.order id 0))

/-- Whether an order's words are all blank. -/
abbrev IsBlank (o : Order) : Prop :=
  o.baseOrig = 0 ∧ o.baseOpen = 0 ∧ o.priceX18 = 0 ∧ o.maker = 0

/-- What `GetOrder` finds. -/
def findOrder (B : Words) (id : U64) : Option Order :=
  if id = 0 ∨ (B .nextID).setWidth 64 < id then none
  else if IsBlank (orderAt B id) then none
  else some (orderAt B id)

/-- The words after `writeOrder`. -/
def putOrder (B : Words) (o : Order) : Words
  | .order id field =>
    if id = o.id then
      match field.toNat with
      | 0 => packHeader o
      | 1 => o.baseToken.setWidth 256
      | 2 => o.priceX18
      | 3 => o.baseOpen
      | 4 => o.baseOrig
      | _ => B (.order id field)
    else B (.order id field)
  | k => B k

theorem putOrder_eq (B : Words) (o : Order) :
    putOrder B o = Function.update (Function.update (Function.update (Function.update
      (Function.update B (.order o.id 0) (packHeader o)) (.order o.id 1) (o.baseToken.setWidth 256))
      (.order o.id 2) o.priceX18) (.order o.id 3) o.baseOpen) (.order o.id 4) o.baseOrig := by
  funext k
  cases k with
  | order id field =>
      by_cases hid : id = o.id
      · subst hid
        simp only [putOrder, if_true, Function.update_apply, Key.order.injEq, true_and]
        have hfield : ∀ m : UInt8, field = m ↔ field.toNat = m.toNat := fun m =>
          ⟨fun h => by rw [h], fun h => UInt8.toNat_inj.mp h⟩
        simp only [hfield]
        split <;> simp_all
      · simp [putOrder, hid]
  | _ => simp [putOrder]

theorem getLsbD_packHeader (o : Order) (i : ℕ) :
    (packHeader o).getLsbD i =
      if i < 64 then o.createdAt.getLsbD i
      else if i < 80 then false
      else if i < 88 then o.status.getLsbD (i - 80)
      else if i < 96 then o.side.getLsbD (i - 88)
      else o.maker.getLsbD (i - 96) := by
  show (o.maker ++ o.side ++ o.status ++ 0#16 ++ o.createdAt).getLsbD i = _
  rw [BitVec.getLsbD_append, BitVec.getLsbD_append, BitVec.getLsbD_append, BitVec.getLsbD_append]
  split_ifs <;> simp [Nat.sub_sub] <;> omega

@[simp] theorem headerMaker_packHeader (o : Order) : headerMaker (packHeader o) = o.maker := by
  apply BitVec.eq_of_getLsbD_eq
  intro i hi
  rw [headerMaker, BitVec.getLsbD_extractLsb', getLsbD_packHeader, if_neg (by omega),
    if_neg (by omega), if_neg (by omega), if_neg (by omega), Nat.add_sub_cancel_left]
  simp [hi]

@[simp] theorem headerSide_packHeader (o : Order) : headerSide (packHeader o) = o.side := by
  apply BitVec.eq_of_getLsbD_eq
  intro i hi
  rw [headerSide, BitVec.getLsbD_extractLsb', getLsbD_packHeader, if_neg (by omega),
    if_neg (by omega), if_neg (by omega), if_pos (by omega), Nat.add_sub_cancel_left]
  simp [hi]

@[simp] theorem headerStatus_packHeader (o : Order) : headerStatus (packHeader o) = o.status := by
  apply BitVec.eq_of_getLsbD_eq
  intro i hi
  rw [headerStatus, BitVec.getLsbD_extractLsb', getLsbD_packHeader, if_neg (by omega),
    if_neg (by omega), if_pos (by omega), Nat.add_sub_cancel_left]
  simp [hi]

@[simp] theorem headerCreatedAt_packHeader (o : Order) :
    headerCreatedAt (packHeader o) = o.createdAt := by
  apply BitVec.eq_of_getLsbD_eq
  intro i hi
  rw [headerCreatedAt, BitVec.getLsbD_extractLsb', getLsbD_packHeader, if_pos (by omega)]
  simp [hi]

/-- An order that was written is read back as it was. -/
@[simp] theorem orderAt_putOrder_self (B : Words) (o : Order) :
    orderAt (putOrder B o) o.id = o := by
  simp [orderAt, putOrder]

@[simp] theorem orderAt_putOrder_of_ne (B : Words) {o : Order} {id : U64} (h : id ≠ o.id) :
    orderAt (putOrder B o) id = orderAt B id := by
  simp [orderAt, putOrder, h]

theorem putOrder_of_not_order (B : Words) (o : Order) {k : Key} (h : ∀ id f, k ≠ .order id f) :
    putOrder B o k = B k := by
  cases k with
  | order id f => exact absurd rfl (h id f)
  | _ => rfl

theorem orderAt_update_of_not_order (B : Words) {k : Key} (h : ∀ id f, k ≠ .order id f) (v : U256)
    (id : U64) : orderAt (Function.update B k v) id = orderAt B id := by
  have hne : ∀ f, Key.order id f ≠ k := fun f => (h id f).symm
  simp [orderAt, hne]

include hinj

theorem total_writeOrder {o : Order} (h1 : 1 ≤ o.id.toNat) (hN : o.id.toNat ≤ N) :
    Total Op.execL (Shows A N n B bal) (writeOrder o)
      fun _ L => Shows A N n (putOrder B o) bal L := by
  have hk : ∀ f : UInt8, f.toNat < 5 → Key.order o.id f ∈ Key.within A N := fun f hf => ⟨h1, hN, hf⟩
  rw [putOrder_eq]
  apply (store hinj (hk 0 (by decide)) rfl _).bind
  intro _
  apply (store hinj (hk 1 (by decide)) rfl _).bind
  intro _
  apply (store hinj (hk 2 (by decide)) rfl _).bind
  intro _
  apply (store hinj (hk 3 (by decide)) rfl _).bind
  intro _
  exact store hinj (hk 4 (by decide)) rfl _

omit hinj in
theorem total_getOrder (id : U64) (hN : (B .nextID).toNat ≤ N) :
    Total Op.execL (Shows A N n B bal) (getOrder id)
      fun r L => r = findOrder B id ∧ Shows A N n B bal L := by
  unfold getOrder
  by_cases hzero : id = 0
  · rw [if_pos hzero]
    exact Total.pure fun L hL => ⟨by simp [findOrder, hzero], hL⟩
  rw [if_neg hzero]
  apply (load64 (k := .nextID) trivial rfl).bind
  intro next
  apply Total.assume
  rintro rfl
  by_cases hnext : (B .nextID).setWidth 64 < id
  · rw [if_pos hnext]
    exact Total.pure fun L hL => ⟨by simp [findOrder, hnext], hL⟩
  rw [if_neg hnext]
  -- the identifier was assigned, so its words are among those that do not collide
  have hle : id.toNat ≤ N := by
    have hmod : ((B .nextID).setWidth 64).toNat ≤ (B .nextID).toNat := by
      rw [BitVec.toNat_setWidth]
      exact Nat.mod_le _ _
    have hid := BitVec.le_def.mp (BitVec.not_lt.mp hnext)
    omega
  have hpos : 1 ≤ id.toNat := by
    rcases Nat.eq_zero_or_pos id.toNat with h | h
    · exact absurd (BitVec.eq_of_toNat_eq h) hzero
    · exact h
  have hk : ∀ f : UInt8, f.toNat < 5 → Key.order id f ∈ Key.within A N :=
    fun f hf => ⟨hpos, hle, hf⟩
  apply (load (k := .order id 0) (hk 0 (by decide)) rfl).bind
  intro hdr
  apply Total.assume
  rintro rfl
  apply (load (k := .order id 1) (hk 1 (by decide)) rfl).bind
  intro token
  apply Total.assume
  rintro rfl
  apply (load (k := .order id 2) (hk 2 (by decide)) rfl).bind
  intro price
  apply Total.assume
  rintro rfl
  apply (load (k := .order id 3) (hk 3 (by decide)) rfl).bind
  intro baseOpen
  apply Total.assume
  rintro rfl
  apply (load (k := .order id 4) (hk 4 (by decide)) rfl).bind
  intro baseOrig
  apply Total.assume
  rintro rfl
  have hassigned : ¬(id = 0 ∨ (B .nextID).setWidth 64 < id) := by
    rintro (h | h)
    · exact hzero h
    · exact hnext h
  unfold findOrder
  rw [if_neg hassigned]
  by_cases hblank : IsBlank (orderAt B id)
  · rw [if_pos hblank]
    split
    · exact Total.pure fun L hL => ⟨rfl, hL⟩
    · rename_i hne
      exact absurd hblank hne
  · rw [if_neg hblank]
    split
    · rename_i heq
      exact absurd heq hblank
    · exact Total.pure fun L hL => ⟨rfl, hL⟩

/-! ## The index of open orders -/

theorem total_addOpenIndex {t : Address} {side : U8} (ht : t ∈ A) (hside : side.toNat < 2)
    (id : U64) (hn : n < N) :
    Total Op.execL (Shows A N n B bal) (addOpenIndex t side id)
      fun _ L => Shows A N (n + 1) B bal L := by
  apply (loadLen64 ht hside).bind
  intro len
  apply Total.assume
  intro hlen
  have hat : Key.openAt t side len ∈ Key.within A N := ⟨ht, hside, by omega⟩
  apply (storeAside hinj hat rfl le_rfl (by rintro _ _ ⟨⟩)).bind
  intro _
  refine storeAside hinj (k := .openLen t side) ⟨ht, hside⟩ rfl (Nat.le_succ n) ?_
  rintro _ _ ⟨⟩
  rw [BitVec.toNat_setWidth, BitVec.toNat_add]
  have h64 : (len.toNat + (1#64).toNat) % 2 ^ 64 ≤ n + 1 :=
    (Nat.mod_le _ _).trans (by simpa using hlen)
  exact (Nat.mod_le _ _).trans h64

theorem total_removeOpenFrom {t : Address} {side : U8} (ht : t ∈ A) (hside : side.toNat < 2)
    (id : U64) {len : U64} (hlen : len.toNat ≤ n) (hn : n ≤ N) (fuel : ℕ) (i : U64)
    (hi : i.toNat + fuel ≤ len.toNat) :
    Total Op.execL (Shows A N n B bal) (removeOpenFrom t side id len fuel i)
      fun _ L => Shows A N n B bal L := by
  induction fuel generalizing i with
  | zero => exact Total.pure fun L hL => hL
  | succ fuel ih =>
      have hpred : (len - 1).toNat = len.toNat - 1 := by bv_omega
      have hle : (len - 1).toNat ≤ n := by omega
      have hat : Key.openAt t side i ∈ Key.within A N := ⟨ht, hside, by omega⟩
      have hatLast : Key.openAt t side (len - 1) ∈ Key.within A N := ⟨ht, hside, by omega⟩
      have hclose : Total Op.execL (Shows A N n B bal) (do
          setU64 (openAtSlot t side (len - 1)) 0
          setU64 (openLenSlot t side) (len - 1)) fun _ L => Shows A N n B bal L := by
        apply (storeAside hinj hatLast rfl le_rfl (by rintro _ _ ⟨⟩)).bind
        intro _
        refine storeAside hinj (k := .openLen t side) ⟨ht, hside⟩ rfl le_rfl ?_
        rintro _ _ ⟨⟩
        rw [BitVec.toNat_setWidth]
        exact (Nat.mod_le _ _).trans hle
      apply (loadAny64 _).bind
      intro at'
      split
      · split
        · apply (loadAny _).bind
          intro last
          apply (storeAside hinj hat rfl le_rfl (by rintro _ _ ⟨⟩)).bind
          intro _
          exact hclose
        · exact hclose
      · apply ih
        have hstep : (i + 1).toNat = i.toNat + 1 := by
          rw [BitVec.toNat_add]
          have := len.isLt
          simp
          omega
        omega

theorem total_removeOpenIndex {t : Address} {side : U8} (ht : t ∈ A) (hside : side.toNat < 2)
    (id : U64) (hn : n ≤ N) :
    Total Op.execL (Shows A N n B bal) (removeOpenIndex t side id)
      fun _ L => Shows A N n B bal L := by
  apply (loadLen64 ht hside).bind
  intro len
  apply Total.assume
  intro hlen
  exact total_removeOpenFrom hinj ht hside id hlen hn len.toNat 0 (by simp)

omit hinj

/-! ## Cancelling and filling -/

/-- The identifiers in use are below the bound, and the orders name participants only. -/
structure WellFormed (A : Set Address) (N : ℕ) (B : Words) : Prop where
  next : (B .nextID).toNat ≤ N
  order : ∀ id o, findOrder B id = some o →
    o.maker ∈ A ∧ o.baseToken ∈ A ∧ o.side.toNat < 2

theorem findOrder_eq_some {B : Words} {id : U64} {o : Order} (h : findOrder B id = some o) :
    o = orderAt B id ∧ 1 ≤ id.toNat ∧ id.toNat ≤ ((B .nextID).setWidth 64).toNat := by
  unfold findOrder at h
  split at h
  · cases h
  · rename_i hassigned
    split at h
    · cases h
    · push Not at hassigned
      obtain ⟨hzero, hle⟩ := hassigned
      refine ⟨(Option.some.inj h).symm, ?_, BitVec.le_def.mp (BitVec.not_lt.mp hle)⟩
      rcases Nat.eq_zero_or_pos id.toNat with hid | hid
      · exact absurd (BitVec.eq_of_toNat_eq hid) hzero
      · exact hid

theorem findOrder_id {B : Words} {id : U64} {o : Order} (h : findOrder B id = some o) :
    o.id = id := by
  rw [(findOrder_eq_some h).1]
  rfl

theorem WellFormed.id_le (hwf : WellFormed A N B) {id : U64} {o : Order}
    (h : findOrder B id = some o) : 1 ≤ o.id.toNat ∧ o.id.toNat ≤ N := by
  obtain ⟨-, hpos, hle⟩ := findOrder_eq_some h
  rw [findOrder_id h]
  have hmod : ((B .nextID).setWidth 64).toNat ≤ (B .nextID).toNat := by
    rw [BitVec.toNat_setWidth]
    exact Nat.mod_le _ _
  exact ⟨hpos, hle.trans (hmod.trans hwf.next)⟩

/-- What a cancelled order gives back, and the words after its escrow is released. -/
def released (B : Words) (o : Order) : Except OrderbookError Refund × Words :=
  if o.side = orderSideBuy then
    let lock := quoteLockCeil o.baseOpen o.priceX18
    let q := if B (.escrowQ o.maker) < lock then B (.escrowQ o.maker) else lock
    (.ok ⟨q, 0, o.baseToken, o.side⟩,
      Function.update B (.escrowQ o.maker) (B (.escrowQ o.maker) - q))
  else if B (.escrowB o.maker o.baseToken) < o.baseOpen then (.error .escrowBaseUnderflow, B)
  else
    (.ok ⟨0, o.baseOpen, o.baseToken, o.side⟩,
      Function.update B (.escrowB o.maker o.baseToken)
        (B (.escrowB o.maker o.baseToken) - o.baseOpen))

/-- The order that is left by a cancellation. -/
def cancelledOrder (o : Order) : Order :=
  { o with status := orderStatusCancelled, baseOpen := 0 }

/-- What `Cancel` returns, and the words after it. -/
def cancelled (B : Words) (actor : Address) (id : U64) : Except OrderbookError Refund × Words :=
  match findOrder B id with
  | none => (.error .orderNotFound, B)
  | some o =>
    if o.status ≠ orderStatusOpen then (.error .orderNotOpen, B)
    else if o.maker ≠ actor then (.error .notMaker, B)
    else
      match released B o with
      | (.error e, B') => (.error e, B')
      | (.ok refund, B') => (.ok refund, putOrder B' (cancelledOrder o))

/-- The escrow account that backs an order. -/
def escrowKey (o : Order) : Key :=
  if o.side = orderSideBuy then .escrowQ o.maker else .escrowB o.maker o.baseToken

/-- What a fill takes from the escrow of an order. -/
def fillTakes (o : Order) (baseFilled : U256) : U256 :=
  if o.side = orderSideBuy then quoteFloor baseFilled o.priceX18 else baseFilled

/-- The base amount of a fill. -/
def fillBase (o : Order) (maxBase : U256) : U256 :=
  if o.baseOpen < maxBase then o.baseOpen else maxBase

/-- The order that is left by a fill. -/
def filledOrder (o : Order) (baseFilled : U256) : Order :=
  if o.baseOpen - baseFilled = 0 then
    { o with status := orderStatusFilled, baseOpen := o.baseOpen - baseFilled }
  else { o with baseOpen := o.baseOpen - baseFilled }

def underflow (o : Order) : OrderbookError :=
  if o.side = orderSideBuy then .escrowQuoteUnderflow else .escrowBaseUnderflow

/-- What `Fill` returns, and the words after it. -/
def filled (B : Words) (taker : Address) (id : U64) (maxBase : U256) :
    Except OrderbookError (U256 × U256) × Words :=
  if taker = 0 then (.error .zeroTaker, B)
  else if maxBase = 0 then (.error .zeroFillAmount, B)
  else
    match findOrder B id with
    | none => (.error .orderNotFound, B)
    | some o =>
      if o.status ≠ orderStatusOpen then (.error .orderNotOpen, B)
      else
        let base := fillBase o maxBase
        if B (escrowKey o) < fillTakes o base then (.error (underflow o), B)
        else
          (.ok (base, quoteFloor base o.priceX18),
            putOrder (Function.update B (escrowKey o) (B (escrowKey o) - fillTakes o base))
              (filledOrder o base))

include hinj

theorem total_releaseEscrow {o : Order} (hm : o.maker ∈ A) (ht : o.baseToken ∈ A) :
    Total Op.execL (Shows A N n B bal) (releaseEscrow o)
      fun r L => r = (released B o).1 ∧ Shows A N n (released B o).2 bal L := by
  have hq : Key.escrowQ o.maker ∈ Key.within A N := hm
  have hb : Key.escrowB o.maker o.baseToken ∈ Key.within A N := ⟨hm, ht⟩
  unfold releaseEscrow released
  by_cases hside : o.side = orderSideBuy
  · simp only [if_pos hside]
    apply (load (k := .escrowQ o.maker) hq rfl).bind
    intro esc
    apply Total.assume
    rintro rfl
    have hle : ¬B (.escrowQ o.maker) <
        (if B (.escrowQ o.maker) < quoteLockCeil o.baseOpen o.priceX18 then B (.escrowQ o.maker)
        else quoteLockCeil o.baseOpen o.priceX18) := by
      split
      · exact BitVec.lt_irrefl _
      · assumption
    apply (total_sub hinj hq rfl _ .escrowQuoteUnderflow).bind
    intro r
    apply Total.assume
    rintro rfl
    simp only [if_neg hle]
    exact Total.pure fun L hL => ⟨rfl, hL⟩
  · simp only [if_neg hside]
    apply (total_sub hinj hb rfl _ .escrowBaseUnderflow).bind
    intro r
    apply Total.assume
    rintro rfl
    by_cases hlt : B (.escrowB o.maker o.baseToken) < o.baseOpen
    · simp only [if_pos hlt]
      exact Total.pure fun L hL => ⟨rfl, hL⟩
    · simp only [if_neg hlt]
      exact Total.pure fun L hL => ⟨rfl, hL⟩

theorem total_cancel (hwf : WellFormed A N B) (hn : n ≤ N) (actor : Address) (id : U64) :
    Total Op.execL (Shows A N n B bal) (cancel actor id)
      fun r L => r = (cancelled B actor id).1 ∧ Shows A N n (cancelled B actor id).2 bal L := by
  apply (total_getOrder id hwf.next).bind
  intro found
  apply Total.assume
  rintro rfl
  unfold cancelled
  cases hfind : findOrder B id with
  | none => exact Total.pure fun L hL => ⟨rfl, hL⟩
  | some o =>
      obtain ⟨hm, ht, hside⟩ := hwf.order id o hfind
      obtain ⟨hpos, hle⟩ := hwf.id_le hfind
      by_cases hopen : o.status ≠ orderStatusOpen
      · simp only [if_pos hopen]
        exact Total.pure fun L hL => ⟨rfl, hL⟩
      by_cases hmaker : o.maker ≠ actor
      · simp only [if_neg hopen, if_pos hmaker]
        exact Total.pure fun L hL => ⟨rfl, hL⟩
      simp only [if_neg hopen, if_neg hmaker]
      apply (total_releaseEscrow hinj hm ht).bind
      intro r
      apply Total.assume
      rintro rfl
      rcases hrel : released B o with ⟨out, B'⟩
      cases out with
      | error e => exact Total.pure fun L hL => ⟨rfl, hL⟩
      | ok refund =>
          apply (total_writeOrder (o := cancelledOrder o) hinj hpos hle).bind
          intro _
          apply (total_decOpenCount hinj hm).bind
          intro _
          apply (total_removeOpenIndex hinj ht hside id hn).bind
          intro _
          exact Total.pure fun L hL => ⟨rfl, hL⟩

/-- The end of a fill, after the escrow was taken. -/
theorem total_finishFill {o : Order} (hm : o.maker ∈ A) (ht : o.baseToken ∈ A)
    (hside : o.side.toNat < 2) (hpos : 1 ≤ o.id.toNat) (hle : o.id.toNat ≤ N) (hn : n ≤ N)
    (id : U64) (base : U256) (out : U256 × U256) :
    Total Op.execL (Shows A N n B bal) (if o.baseOpen - base = 0 then do
        decOpenCount o.maker
        removeOpenIndex o.baseToken o.side id
        writeOrder { o with status := orderStatusFilled, baseOpen := o.baseOpen - base }
        return (Except.ok out : Except OrderbookError (U256 × U256))
      else do
        writeOrder { o with baseOpen := o.baseOpen - base }
        return (Except.ok out)) fun r L =>
      r = .ok out ∧ Shows A N n (putOrder B (filledOrder o base)) bal L := by
  unfold filledOrder
  by_cases hdone : o.baseOpen - base = 0
  · simp only [if_pos hdone]
    apply (total_decOpenCount hinj hm).bind
    intro _
    apply (total_removeOpenIndex hinj ht hside id hn).bind
    intro _
    let o' : Order := { o with status := orderStatusFilled, baseOpen := o.baseOpen - base }
    apply (total_writeOrder (o := o') hinj hpos hle).bind
    intro _
    exact Total.pure fun L hL => ⟨rfl, hL⟩
  · simp only [if_neg hdone]
    let o' : Order := { o with baseOpen := o.baseOpen - base }
    apply (total_writeOrder (o := o') hinj hpos hle).bind
    intro _
    exact Total.pure fun L hL => ⟨rfl, hL⟩

theorem total_fill (hwf : WellFormed A N B) (hn : n ≤ N) (taker : Address) (id : U64)
    (maxBase : U256) :
    Total Op.execL (Shows A N n B bal) (fill taker id maxBase)
      fun r L => r = (filled B taker id maxBase).1 ∧
        Shows A N n (filled B taker id maxBase).2 bal L := by
  unfold fill filled
  by_cases htaker : taker = 0
  · simp only [if_pos htaker]
    exact Total.pure fun L hL => ⟨rfl, hL⟩
  by_cases hmax : maxBase = 0
  · simp only [if_neg htaker, if_pos hmax]
    exact Total.pure fun L hL => ⟨rfl, hL⟩
  simp only [if_neg htaker, if_neg hmax]
  apply (total_getOrder id hwf.next).bind
  intro found
  apply Total.assume
  rintro rfl
  cases hfind : findOrder B id with
  | none => exact Total.pure fun L hL => ⟨rfl, hL⟩
  | some o =>
      obtain ⟨hm, ht, hside⟩ := hwf.order id o hfind
      obtain ⟨hpos, hle⟩ := hwf.id_le hfind
      by_cases hopen : o.status ≠ orderStatusOpen
      · simp only [if_pos hopen]
        exact Total.pure fun L hL => ⟨rfl, hL⟩
      simp only [if_neg hopen]
      by_cases hbuy : o.side = orderSideBuy
      · have hq : Key.escrowQ o.maker ∈ Key.within A N := hm
        simp only [if_pos hbuy, escrowKey, fillTakes, underflow]
        apply (total_sub hinj hq rfl _ .escrowQuoteUnderflow).bind
        intro r
        apply Total.assume
        rintro rfl
        show Program.Total _ (Shows A N n (if B (.escrowQ o.maker) <
          quoteFloor (fillBase o maxBase) o.priceX18 then _ else _) bal) _ _
        by_cases hlt : B (.escrowQ o.maker) < quoteFloor (fillBase o maxBase) o.priceX18
        · simp only [if_pos hlt]
          simp only [fillBase] at hlt
          simp only [if_pos hlt]
          exact Total.pure fun L hL => ⟨rfl, hL⟩
        · simp only [if_neg hlt]
          simp only [fillBase] at hlt
          simp only [if_neg hlt]
          exact total_finishFill hinj hm ht hside hpos hle hn id (fillBase o maxBase) _
      · have hb : Key.escrowB o.maker o.baseToken ∈ Key.within A N := ⟨hm, ht⟩
        simp only [if_neg hbuy, escrowKey, fillTakes, underflow]
        apply (total_sub hinj hb rfl _ .escrowBaseUnderflow).bind
        intro r
        apply Total.assume
        rintro rfl
        show Program.Total _ (Shows A N n (if B (.escrowB o.maker o.baseToken) <
          fillBase o maxBase then _ else _) bal) _ _
        by_cases hlt : B (.escrowB o.maker o.baseToken) < fillBase o maxBase
        · simp only [if_pos hlt]
          simp only [fillBase] at hlt
          simp only [if_pos hlt]
          exact Total.pure fun L hL => ⟨rfl, hL⟩
        · simp only [if_neg hlt]
          simp only [fillBase] at hlt
          simp only [if_neg hlt]
          exact total_finishFill hinj hm ht hside hpos hle hn id (fillBase o maxBase) _

omit hinj

/-! ## Placing -/

/-- The words after an order was placed, with `amt` added to its escrow account. -/
def placed (B : Words) (o : Order) (amt : U256) : Words :=
  Function.update (putOrder (Function.update B .nextID (o.id.setWidth 256)) o) (escrowKey o)
    (B (escrowKey o) + amt)

/-- The errors of a placement. -/
def isPlaceError : OrderbookError → Bool
  | .zeroMaker | .zeroPrice | .zeroBaseAmount | .maxOpenOrders | .zeroBaseToken
  | .zeroQuoteLock => true
  | _ => false

theorem toNat_nextOf (hnext : (B .nextID).toNat < N) (hN : N < 2 ^ 64) :
    (nextOf B).toNat = (B .nextID).toNat + 1 := by
  have hwidth : ((B .nextID).setWidth 64).toNat = (B .nextID).toNat := by
    rw [BitVec.toNat_setWidth]
    exact Nat.mod_eq_of_lt (by omega)
  rw [nextOf, BitVec.toNat_add, hwidth]
  simp
  omega

theorem escrowKey_ne_order (o : Order) (id : U64) (f : UInt8) : escrowKey o ≠ .order id f := by
  unfold escrowKey
  split <;> exact fun h => by cases h

theorem escrowKey_ne_nextID (o : Order) : escrowKey o ≠ .nextID := by
  unfold escrowKey
  split <;> exact fun h => by cases h

/-- The escrow account read after the order was written is the one before. -/
theorem placed_eq (B : Words) (o : Order) (amt : U256) :
    placed B o amt =
      let B' := putOrder (Function.update B .nextID (o.id.setWidth 256)) o
      Function.update B' (escrowKey o) (B' (escrowKey o) + amt) := by
  simp only
  rw [putOrder_of_not_order _ _ (escrowKey_ne_order o),
    Function.update_of_ne (escrowKey_ne_nextID o)]
  rfl

include hinj

theorem total_validatePlace {m : Address} (hm : m ∈ A) (price base : U256) :
    Total Op.execL (Shows A N n B bal) (validatePlace m price base) fun r L =>
      ((∃ e, r = .error e ∧ isPlaceError e = true) ∨
        r = .ok () ∧ m ≠ 0 ∧ price ≠ 0 ∧ base ≠ 0) ∧ Shows A N n B bal L := by
  unfold validatePlace
  by_cases hzero : m = 0
  · rw [if_pos hzero]
    exact Total.pure fun L hL => ⟨.inl ⟨_, rfl, rfl⟩, hL⟩
  by_cases hprice : price = 0
  · rw [if_neg hzero, if_pos hprice]
    exact Total.pure fun L hL => ⟨.inl ⟨_, rfl, rfl⟩, hL⟩
  by_cases hbase : base = 0
  · rw [if_neg hzero, if_neg hprice, if_pos hbase]
    exact Total.pure fun L hL => ⟨.inl ⟨_, rfl, rfl⟩, hL⟩
  rw [if_neg hzero, if_neg hprice, if_neg hbase]
  refine (total_incOpenCount hinj hm).conseq (fun _ h => h) ?_
  rintro r L ⟨rfl | rfl, hL⟩
  · exact ⟨.inr ⟨rfl, hzero, hprice, hbase⟩, hL⟩
  · exact ⟨.inl ⟨_, rfl, rfl⟩, hL⟩

/-- The order that `PlaceBuy` records. -/
def buyOrder (B : Words) (m t : Address) (price base : U256) (blockNum : U64) : Order :=
  newOrder (nextOf B) m t orderSideBuy price base blockNum

/-- The order that `PlaceSell` records. -/
def sellOrder (B : Words) (m t : Address) (price base : U256) (blockNum : U64) : Order :=
  newOrder (nextOf B) m t orderSideSell price base blockNum

theorem total_placeBuy {m t : Address} (hm : m ∈ A) (ht : t ∈ A)
    (hnext : (B .nextID).toNat < N) (hn : n < N) (hN : N < 2 ^ 64) (price base : U256)
    (blockNum : U64) :
    Total Op.execL (Shows A N n B bal) (placeBuy m t price base blockNum) fun r L =>
      (∃ e, r = .error e ∧ isPlaceError e = true ∧ Shows A N n B bal L) ∨
        (r = .ok (nextOf B, quoteLockCeil base price) ∧ price ≠ 0 ∧ base ≠ 0 ∧
          Shows A N (n + 1)
            (placed B (buyOrder B m t price base blockNum) (quoteLockCeil base price)) bal L) := by
  apply (total_validatePlace hinj hm price base).bind
  intro r
  apply Total.assume
  rintro (⟨e, rfl, he⟩ | ⟨rfl, hmaker, hprice, hbase⟩)
  · exact Total.pure fun L hL => .inl ⟨e, rfl, he, hL⟩
  by_cases hzero : t = 0
  · simp only [if_pos hzero]
    apply (total_decOpenCount hinj hm).bind
    intro _
    exact Total.pure fun L hL => .inl ⟨_, rfl, rfl, hL⟩
  simp only [if_neg hzero]
  by_cases hlock : quoteLockCeil base price = 0
  · simp only [if_pos hlock]
    apply (total_decOpenCount hinj hm).bind
    intro _
    exact Total.pure fun L hL => .inl ⟨_, rfl, rfl, hL⟩
  simp only [if_neg hlock]
  apply (total_nextOrderID hinj).bind
  intro id
  apply Total.assume
  rintro rfl
  have hbound := toNat_nextOf (B := B) hnext hN
  have hq : Key.escrowQ m ∈ Key.within A N := hm
  have hpos : 1 ≤ (nextOf B).toNat := by omega
  have hle : (nextOf B).toNat ≤ N := by omega
  rw [placed_eq]
  apply (total_writeOrder (o := buyOrder B m t price base blockNum) hinj hpos hle).bind
  intro _
  apply (total_add hinj (k := .escrowQ m) hq rfl _).bind
  intro _
  apply (total_addOpenIndex hinj ht (by decide) _ hn).bind
  intro _
  exact Total.pure fun L hL => .inr ⟨rfl, hprice, hbase, hL⟩

theorem total_placeSell {m t : Address} (hm : m ∈ A) (ht : t ∈ A)
    (hnext : (B .nextID).toNat < N) (hn : n < N) (hN : N < 2 ^ 64) (price base : U256)
    (blockNum : U64) :
    Total Op.execL (Shows A N n B bal) (placeSell m t price base blockNum) fun r L =>
      (∃ e, r = .error e ∧ isPlaceError e = true ∧ Shows A N n B bal L) ∨
        (r = .ok (nextOf B) ∧ price ≠ 0 ∧ base ≠ 0 ∧
          Shows A N (n + 1) (placed B (sellOrder B m t price base blockNum) base) bal L) := by
  apply (total_validatePlace hinj hm price base).bind
  intro r
  apply Total.assume
  rintro (⟨e, rfl, he⟩ | ⟨rfl, hmaker, hprice, hbase⟩)
  · exact Total.pure fun L hL => .inl ⟨e, rfl, he, hL⟩
  by_cases hzero : t = 0
  · simp only [if_pos hzero]
    apply (total_decOpenCount hinj hm).bind
    intro _
    exact Total.pure fun L hL => .inl ⟨_, rfl, rfl, hL⟩
  simp only [if_neg hzero]
  apply (total_nextOrderID hinj).bind
  intro id
  apply Total.assume
  rintro rfl
  have hbound := toNat_nextOf (B := B) hnext hN
  have hb : Key.escrowB m t ∈ Key.within A N := ⟨hm, ht⟩
  have hpos : 1 ≤ (nextOf B).toNat := by omega
  have hle : (nextOf B).toNat ≤ N := by omega
  rw [placed_eq]
  apply (total_writeOrder (o := sellOrder B m t price base blockNum) hinj hpos hle).bind
  intro _
  apply (total_add hinj (k := .escrowB m t) hb rfl _).bind
  intro _
  apply (total_addOpenIndex hinj ht (by decide) _ hn).bind
  intro _
  exact Total.pure fun L hL => .inr ⟨rfl, hprice, hbase, hL⟩

end Methods

end Orderbook

end Dew
