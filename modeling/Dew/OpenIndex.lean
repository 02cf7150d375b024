/-
# The index of open orders

For each token and side the orderbook keeps the identifiers of the open orders in numbered slots,
and for each maker a count of its open orders. Both are kept apart from the orders themselves and are
changed by four methods; an order that closes is taken out of the slots by moving the last entry into
its place. Over every history index, counts and orders agree, and so the search through the slots
finds the best price.
-/
import Dew.EscrowCover

namespace Dew.Orderbook

open Program

/-! ## Lists in numbered slots -/

section Slots

variable {α : Type} {f g : ℕ → α} {n : ℕ}

/-- The entries of the first `n` slots. -/
def listed (f : ℕ → α) (n : ℕ) : List α :=
  (List.range n).map f

theorem listed_congr (h : ∀ i < n, f i = g i) : listed f n = listed g n :=
  List.map_congr_left fun i hi => h i (List.mem_range.mp hi)

theorem listed_succ (f : ℕ → α) (n : ℕ) : listed f (n + 1) = listed f n ++ [f n] := by
  rw [listed, List.range_succ, List.map_append, List.map_singleton, listed]

theorem mem_listed {x : α} : x ∈ listed f n ↔ ∃ i < n, f i = x := by
  simp [listed]

theorem nodup_listed : (listed f n).Nodup ↔ ∀ i < n, ∀ j < n, f i = f j → i = j := by
  rw [listed, List.nodup_map_iff_inj_on List.nodup_range]
  simp

/-- Moving the last entry into the place of another removes that one. -/
theorem listed_swapRemove {i : ℕ} (hi : i < n) (hnodup : (listed f n).Nodup)
    (hg : ∀ j < n - 1, g j = if j = i then f (n - 1) else f j) :
    (listed g (n - 1)).Nodup ∧ ∀ x, x ∈ listed g (n - 1) ↔ x ∈ listed f n ∧ x ≠ f i := by
  rw [nodup_listed] at hnodup
  -- the slot that an entry of the shorter list came from
  have hfrom : ∀ j < n - 1, g j = f (if j = i then n - 1 else j) := by
    intro j hj
    rw [hg j hj]
    split <;> rfl
  constructor
  · rw [nodup_listed]
    intro j hj k hk heq
    rw [hfrom j hj, hfrom k hk] at heq
    have hsame := hnodup _ (by split <;> omega) _ (by split <;> omega) heq
    split at hsame <;> split at hsame <;> omega
  · intro x
    rw [mem_listed, mem_listed]
    constructor
    · rintro ⟨j, hj, rfl⟩
      rw [hfrom j hj]
      refine ⟨⟨_, by split <;> omega, rfl⟩, fun heq => ?_⟩
      have hsame := hnodup _ (by split <;> omega) i hi heq
      split at hsame <;> omega
    · rintro ⟨⟨j, hj, rfl⟩, hne⟩
      have hji : j ≠ i := fun h => hne (by rw [h])
      by_cases hlast : j = n - 1
      · refine ⟨i, by omega, ?_⟩
        rw [hfrom i (by omega), if_pos rfl, hlast]
      · refine ⟨j, by omega, ?_⟩
        rw [hfrom j (by omega), if_neg hji]

end Slots

/-! ## The methods on all words -/

/-- The ledger holds the words `B`, those of the index included. -/
abbrev Exact (A : Set Address) (N : ℕ) (B : Words) (bal : Address → U256) : Ledger → Prop :=
  Holds orderbookModuleAddr Key.slot (Key.within A N) B bal

/-- The identifier in a slot of the index. -/
def openAt (B : Words) (t : Address) (side : U8) (i : ℕ) : U64 :=
  (B (.openAt t side (BitVec.ofNat 64 i))).setWidth 64

/-- The length of an index. -/
def openLen (B : Words) (t : Address) (side : U8) : U64 :=
  (B (.openLen t side)).setWidth 64

/-- The identifiers in an index. -/
def openIds (B : Words) (t : Address) (side : U8) : List U64 :=
  listed (openAt B t side) (openLen B t side).toNat

/-- The count of a maker. -/
def countOf (B : Words) (m : Address) : U64 :=
  (B (.openCount m)).setWidth 64

def withCount (B : Words) (m : Address) (c : U64) : Words :=
  Function.update B (.openCount m) (c.setWidth 256)

/-- `incOpenCount`: what it returns, and the words after it. -/
def incremented (B : Words) (m : Address) : Except OrderbookError Unit × Words :=
  if orderbookMaxOpenPerMaker ≤ countOf B m then (.error .maxOpenOrders, B)
  else (.ok (), withCount B m (countOf B m + 1))

/-- The words after `decOpenCount`. -/
def decremented (B : Words) (m : Address) : Words :=
  if countOf B m = 0 then B else withCount B m (countOf B m - 1)

/-- The words after `addOpenIndex`. -/
def appended (B : Words) (t : Address) (side : U8) (id : U64) : Words :=
  Function.update (Function.update B (.openAt t side (openLen B t side)) (id.setWidth 256))
    (.openLen t side) ((openLen B t side + 1).setWidth 256)

/-- The words after the entry `i` of an index of length `n` is taken out. -/
def takenOut (B : Words) (t : Address) (side : U8) (n i : U64) : Words :=
  let B' := if i ≠ n - 1 then
      Function.update B (.openAt t side i) (B (.openAt t side (n - 1)))
    else B
  Function.update (Function.update B' (.openAt t side (n - 1)) 0) (.openLen t side)
    ((n - 1).setWidth 256)

/-- The words after the loop of `removeOpenIndex` from position `i` on. -/
def removedFrom (B : Words) (t : Address) (side : U8) (id n : U64) : ℕ → U64 → Words
  | 0, _ => B
  | fuel + 1, i =>
    if (B (.openAt t side i)).setWidth 64 = id then takenOut B t side n i
    else removedFrom B t side id n fuel (i + 1)

/-- The words after `removeOpenIndex`. -/
def removed (B : Words) (t : Address) (side : U8) (id : U64) : Words :=
  removedFrom B t side id (openLen B t side) (openLen B t side).toNat 0

section Methods

variable {A : Set Address} {N : ℕ} {B : Words} {bal : Address → U256} {m t : Address} {side : U8}

theorem exact_load {k : Key} (hk : k ∈ Key.within A N) :
    Total Op.execL (Exact A N B bal) (getU256 k.slot) fun v L => v = B k ∧ Exact A N B bal L :=
  Holds.load hk

theorem exact_load64 {k : Key} (hk : k ∈ Key.within A N) :
    Total Op.execL (Exact A N B bal) (getU64 k.slot)
      fun v L => v = (B k).setWidth 64 ∧ Exact A N B bal L := by
  apply (exact_load hk).bind
  intro v
  exact Total.pure fun L hL => ⟨by rw [hL.1], hL.2⟩

theorem exact_getOrder (id : U64) (hN : (B .nextID).toNat ≤ N) :
    Total Op.execL (Exact A N B bal) (getOrder id)
      fun r L => r = findOrder B id ∧ Exact A N B bal L := by
  intro L hL
  refine ⟨_, L, run_getOrder L id, ?_, hL⟩
  -- any bound on the lengths does: `GetOrder` does not read them
  have hshows : Shows A N (2 ^ 256) B bal L :=
    ⟨fun k hk _ => hL.word k hk, fun t _ side _ => (BitVec.isLt _).le, hL.balance⟩
  exact hshows.findOrder_eq hN id

variable (hinj : Set.InjOn Key.slot (Key.within A N))

include hinj

theorem exact_store {k : Key} (hk : k ∈ Key.within A N) (v : U256) :
    Total Op.execL (Exact A N B bal) (setU256 k.slot v)
      fun _ L => Exact A N (Function.update B k v) bal L :=
  Holds.store hinj hk v

theorem exact_incOpenCount (hm : m ∈ A) :
    Total Op.execL (Exact A N B bal) (incOpenCount m) fun r L =>
      r = (incremented B m).1 ∧ Exact A N (incremented B m).2 bal L := by
  have hk : Key.openCount m ∈ Key.within A N := hm
  apply (exact_load64 hk).bind
  intro c
  apply Total.assume
  rintro rfl
  unfold incremented
  split
  · rename_i hfull
    rw [if_pos (show orderbookMaxOpenPerMaker ≤ countOf B m from hfull)]
    exact Total.pure fun L hL => ⟨rfl, hL⟩
  · rename_i hroom
    rw [if_neg (show ¬orderbookMaxOpenPerMaker ≤ countOf B m from hroom)]
    apply (exact_store hinj hk _).bind
    intro _
    exact Total.pure fun L hL => ⟨rfl, hL⟩

theorem exact_decOpenCount (hm : m ∈ A) :
    Total Op.execL (Exact A N B bal) (decOpenCount m) fun _ L => Exact A N (decremented B m) bal L := by
  have hk : Key.openCount m ∈ Key.within A N := hm
  apply (exact_load64 hk).bind
  intro c
  apply Total.assume
  rintro rfl
  unfold decremented
  split
  · rename_i hzero
    rw [if_pos (show countOf B m = 0 from hzero)]
    exact Total.pure fun L hL => hL
  · rename_i hpos
    rw [if_neg (show ¬countOf B m = 0 from hpos)]
    exact exact_store hinj hk _

theorem exact_nextOrderID :
    Total Op.execL (Exact A N B bal) nextOrderID fun id L => id = nextOf B ∧
      Exact A N (Function.update B .nextID ((nextOf B).setWidth 256)) bal L := by
  have hk : Key.nextID ∈ Key.within A N := trivial
  apply (exact_load64 hk).bind
  intro cur
  apply Total.assume
  rintro rfl
  apply (exact_store hinj hk _).bind
  intro _
  exact Total.pure fun L hL => ⟨rfl, hL⟩

theorem exact_writeOrder {o : Order} (h1 : 1 ≤ o.id.toNat) (hN : o.id.toNat ≤ N) :
    Total Op.execL (Exact A N B bal) (writeOrder o) fun _ L => Exact A N (putOrder B o) bal L := by
  have hk : ∀ f : UInt8, f.toNat < 5 → Key.order o.id f ∈ Key.within A N := fun f hf => ⟨h1, hN, hf⟩
  rw [putOrder_eq]
  apply (exact_store hinj (hk 0 (by decide)) _).bind
  intro _
  apply (exact_store hinj (hk 1 (by decide)) _).bind
  intro _
  apply (exact_store hinj (hk 2 (by decide)) _).bind
  intro _
  apply (exact_store hinj (hk 3 (by decide)) _).bind
  intro _
  exact exact_store hinj (hk 4 (by decide)) _

theorem exact_sub {k : Key} (hk : k ∈ Key.within A N) (amt : U256) (e : OrderbookError) :
    Total Op.execL (Exact A N B bal) (do
      let cur ← getU256 k.slot
      if cur < amt then return Except.error e
      setU256 k.slot (cur - amt)
      return Except.ok () : StateProgram (Except OrderbookError Unit)) fun r L =>
        r = (if B k < amt then .error e else .ok ()) ∧
          Exact A N (if B k < amt then B else Function.update B k (B k - amt)) bal L := by
  apply (exact_load hk).bind
  intro cur
  apply Total.assume
  rintro rfl
  by_cases h : B k < amt
  · simp only [if_pos h]
    exact Total.pure fun L hL => ⟨rfl, hL⟩
  · simp only [if_neg h]
    apply (exact_store hinj hk _).bind
    intro _
    exact Total.pure fun L hL => ⟨rfl, hL⟩

theorem exact_addOpenIndex (ht : t ∈ A) (hside : side.toNat < 2) (id : U64)
    (hlen : (openLen B t side).toNat < N) :
    Total Op.execL (Exact A N B bal) (addOpenIndex t side id)
      fun _ L => Exact A N (appended B t side id) bal L := by
  have hlk : Key.openLen t side ∈ Key.within A N := ⟨ht, hside⟩
  apply (exact_load64 hlk).bind
  intro n
  apply Total.assume
  rintro rfl
  have hat : Key.openAt t side (openLen B t side) ∈ Key.within A N := ⟨ht, hside, hlen⟩
  apply (exact_store hinj hat _).bind
  intro _
  exact exact_store hinj hlk _

theorem exact_removeOpenFrom (ht : t ∈ A) (hside : side.toNat < 2) (id : U64) {n : U64}
    (hn : n.toNat ≤ N) (fuel : ℕ) (i : U64) (hi : i.toNat + fuel ≤ n.toNat) :
    Total Op.execL (Exact A N B bal) (removeOpenFrom t side id n fuel i)
      fun _ L => Exact A N (removedFrom B t side id n fuel i) bal L := by
  induction fuel generalizing i with
  | zero => exact Total.pure fun L hL => hL
  | succ fuel ih =>
      have hpred : (n - 1).toNat = n.toNat - 1 := by bv_omega
      have hat : Key.openAt t side i ∈ Key.within A N := ⟨ht, hside, by omega⟩
      have hlast : Key.openAt t side (n - 1) ∈ Key.within A N := ⟨ht, hside, by omega⟩
      have hclose : ∀ B' : Words, Total Op.execL (Exact A N B' bal) (do
          setU64 (openAtSlot t side (n - 1)) 0
          setU64 (openLenSlot t side) (n - 1)) fun _ L => Exact A N (Function.update
            (Function.update B' (.openAt t side (n - 1)) 0) (.openLen t side)
              ((n - 1).setWidth 256)) bal L := by
        intro B'
        apply (exact_store hinj hlast _).bind
        intro _
        exact exact_store hinj (k := .openLen t side) ⟨ht, hside⟩ _
      apply (exact_load64 hat).bind
      intro at'
      apply Total.assume
      rintro rfl
      unfold removedFrom takenOut
      split
      · dsimp only
        split
        · apply (exact_load hlast).bind
          intro last
          apply Total.assume
          rintro rfl
          apply (exact_store hinj hat _).bind
          intro _
          exact hclose _
        · exact hclose _
      · apply ih
        have hstep : (i + 1).toNat = i.toNat + 1 := by
          have := n.isLt
          rw [BitVec.toNat_add]
          simp
          omega
        omega

theorem exact_removeOpenIndex (ht : t ∈ A) (hside : side.toNat < 2) (id : U64)
    (hlen : (openLen B t side).toNat ≤ N) :
    Total Op.execL (Exact A N B bal) (removeOpenIndex t side id)
      fun _ L => Exact A N (removed B t side id) bal L := by
  apply (exact_load64 (k := .openLen t side) ⟨ht, hside⟩).bind
  intro n
  apply Total.assume
  rintro rfl
  exact exact_removeOpenFrom hinj ht hside id hlen _ 0 (by simp [openLen])

end Methods

/-! ## Frames -/

/-- The words of the book are the same. -/
def SameBook (B B' : Words) : Prop :=
  ∀ k : Key, k.isBook = true → B' k = B k

/-- The words of the index and the counts are the same. -/
def SameIndex (B B' : Words) : Prop :=
  ∀ k : Key, k.isBook = false → B' k = B k

section Frames

variable {B B' : Words} {m t : Address} {side : U8}

theorem SameBook.findOrder_eq (h : SameBook B B') (id : U64) : findOrder B' id = findOrder B id := by
  refine findOrder_congr (h .nextID rfl) ?_
  simp only [orderAt, h (.order id _) rfl]

theorem SameBook.putOrder (h : SameBook B B') (o : Order) :
    SameBook (putOrder B o) (putOrder B' o) := by
  intro k hk
  cases k with
  | order id field =>
      simp only [Orderbook.putOrder]
      split
      · split <;> first | rfl | exact h _ rfl
      · exact h _ rfl
  | _ => exact h _ hk

theorem sameBook_withCount (B : Words) (m : Address) (c : U64) : SameBook B (withCount B m c) :=
  fun k hk => Function.update_of_ne (by rintro rfl; cases hk) _ _

theorem sameBook_decremented (B : Words) (m : Address) : SameBook B (decremented B m) := by
  unfold decremented
  split
  · exact fun _ _ => rfl
  · exact sameBook_withCount B m _

theorem appended_of_ne {k : Key} (hlen : k ≠ .openLen t side) (hat : ∀ i, k ≠ .openAt t side i)
    (id : U64) : appended B t side id k = B k := by
  rw [appended, Function.update_of_ne hlen, Function.update_of_ne (hat _)]

theorem sameBook_appended (B : Words) (t : Address) (side : U8) (id : U64) :
    SameBook B (appended B t side id) := by
  intro k hk
  exact appended_of_ne (by rintro rfl; cases hk) (by rintro _ rfl; cases hk) id

/-- Taking out an entry changes the slots and the length of its index only. -/
theorem takenOut_of_ne {k : Key} (hlen : k ≠ .openLen t side) (hat : ∀ i, k ≠ .openAt t side i)
    (n i : U64) : takenOut B t side n i k = B k := by
  unfold takenOut
  rw [Function.update_of_ne hlen, Function.update_of_ne (hat _)]
  split
  · exact Function.update_of_ne (hat _) _ _
  · rfl

theorem removed_of_ne {k : Key} (hlen : k ≠ .openLen t side) (hat : ∀ i, k ≠ .openAt t side i)
    (id : U64) : removed B t side id k = B k := by
  have hfrom : ∀ (n : U64) fuel i, removedFrom B t side id n fuel i k = B k := by
    intro n fuel
    induction fuel with
    | zero => exact fun _ => rfl
    | succ fuel ih =>
        intro i
        unfold removedFrom
        split
        · exact takenOut_of_ne hlen hat n i
        · exact ih (i + 1)
  exact hfrom _ _ _

theorem sameBook_removed (B : Words) (t : Address) (side : U8) (id : U64) :
    SameBook B (removed B t side id) := fun k hk =>
  removed_of_ne (by rintro rfl; cases hk) (by rintro _ rfl; cases hk) id

theorem sameIndex_putOrder (B : Words) (o : Order) : SameIndex B (putOrder B o) :=
  fun k hk => putOrder_of_not_order B o (by rintro _ _ rfl; cases hk)

theorem escrowKey_isBook (o : Order) : (escrowKey o).isBook = true := by
  unfold escrowKey
  split <;> rfl

theorem sameIndex_escrow (B : Words) (o : Order) (v : U256) :
    SameIndex B (Function.update B (escrowKey o) v) := by
  intro k hk
  refine Function.update_of_ne ?_ _ _
  rintro rfl
  rw [escrowKey_isBook] at hk
  cases hk

theorem SameIndex.trans {B'' : Words} (h : SameIndex B B') (h' : SameIndex B' B'') :
    SameIndex B B'' := fun k hk => (h' k hk).trans (h k hk)

theorem SameBook.trans {B'' : Words} (h : SameBook B B') (h' : SameBook B' B'') :
    SameBook B B'' := fun k hk => (h' k hk).trans (h k hk)

theorem SameIndex.openLen_eq (h : SameIndex B B') (t : Address) (side : U8) :
    openLen B' t side = openLen B t side := by
  rw [openLen, h (.openLen t side) rfl, openLen]

theorem SameIndex.openIds_eq (h : SameIndex B B') (t : Address) (side : U8) :
    openIds B' t side = openIds B t side := by
  rw [openIds, h.openLen_eq, openIds]
  exact listed_congr fun i _ => by rw [openAt, h (.openAt t side _) rfl, openAt]

theorem SameIndex.countOf_eq (h : SameIndex B B') (m : Address) : countOf B' m = countOf B m := by
  rw [countOf, h (.openCount m) rfl, countOf]

theorem SameIndex.update (h : SameIndex B B') (k : Key) (v : U256) :
    SameIndex (Function.update B k v) (Function.update B' k v) := by
  intro j hj
  rw [Function.update_apply, Function.update_apply, h j hj]

theorem SameIndex.withCount (h : SameIndex B B') (m : Address) (c : U64) :
    SameIndex (withCount B m c) (withCount B' m c) :=
  h.update _ _

theorem SameIndex.decremented (h : SameIndex B B') (m : Address) :
    SameIndex (decremented B m) (decremented B' m) := by
  unfold Orderbook.decremented
  rw [h.countOf_eq]
  split
  · exact h
  · exact h.withCount m _

theorem SameIndex.appended (h : SameIndex B B') (t : Address) (side : U8) (id : U64) :
    SameIndex (appended B t side id) (appended B' t side id) := by
  unfold Orderbook.appended
  rw [h.openLen_eq]
  exact (h.update _ _).update _ _

theorem SameIndex.removed (h : SameIndex B B') (t : Address) (side : U8) (id : U64) :
    SameIndex (removed B t side id) (removed B' t side id) := by
  have hfrom : ∀ (n : U64) fuel i,
      SameIndex (removedFrom B t side id n fuel i) (removedFrom B' t side id n fuel i) := by
    intro n fuel
    induction fuel with
    | zero => exact fun _ => h
    | succ fuel ih =>
        intro i
        unfold removedFrom
        rw [h (.openAt t side i) rfl]
        split
        · unfold takenOut
          rw [h (.openAt t side (n - 1)) rfl]
          refine SameIndex.update (SameIndex.update ?_ _ _) _ _
          split
          · exact h.update _ _
          · exact h
        · exact ih (i + 1)
  unfold Orderbook.removed
  rw [h.openLen_eq]
  exact hfrom _ _ _

end Frames

/-! ## What the methods do to the index -/

section Index

variable {B : Words} {t : Address} {side : U8}

theorem openIds_appended (id : U64) (hlen : (openLen B t side).toNat + 1 < 2 ^ 64) :
    openIds (appended B t side id) t side = openIds B t side ++ [id] := by
  have hnew : openLen (appended B t side id) t side = openLen B t side + 1 := by
    rw [openLen, appended, Function.update_self, BitVec.setWidth_setWidth_of_le _ (by decide),
      BitVec.setWidth_eq]
  have hnat : (openLen B t side + 1).toNat = (openLen B t side).toNat + 1 := by
    rw [BitVec.toNat_add]
    exact Nat.mod_eq_of_lt hlen
  have hlast : openAt (appended B t side id) t side (openLen B t side).toNat = id := by
    rw [openAt, appended, Function.update_of_ne (by rintro ⟨⟩), BitVec.ofNat_toNat,
      BitVec.setWidth_eq, Function.update_self, BitVec.setWidth_setWidth_of_le _ (by decide),
      BitVec.setWidth_eq]
  rw [openIds, hnew, hnat, listed_succ, hlast, openIds]
  congr 1
  refine listed_congr fun i hi => ?_
  have hne : BitVec.ofNat 64 i ≠ openLen B t side := by
    intro h
    have := congrArg BitVec.toNat h
    rw [BitVec.toNat_ofNat, Nat.mod_eq_of_lt (by omega)] at this
    omega
  rw [openAt, appended, Function.update_of_ne (by rintro ⟨⟩),
    Function.update_of_ne (by simpa using hne), openAt]

/-- A change of one index leaves the others. -/
theorem openIds_of_keep {B' : Words} {t' : Address} {side' : U8}
    (hkeep : ∀ k : Key, k ≠ .openLen t side → (∀ i, k ≠ .openAt t side i) → B' k = B k)
    (h : ¬(t' = t ∧ side' = side)) : openIds B' t' side' = openIds B t' side' := by
  have hlen : openLen B' t' side' = openLen B t' side' := by
    rw [openLen, hkeep _ (by simpa using h) (by rintro _ ⟨⟩), openLen]
  rw [openIds, hlen, openIds]
  refine listed_congr fun i _ => ?_
  have hat : ∀ j, Key.openAt t' side' (BitVec.ofNat 64 i) ≠ .openAt t side j := by
    intro j heq
    simp only [Key.openAt.injEq] at heq
    exact h ⟨heq.1, heq.2.1⟩
  rw [openAt, hkeep _ (by rintro ⟨⟩) hat, openAt]

/-- The loop finds an entry that is in the index. -/
theorem exists_removed_eq_takenOut {id : U64} (hmem : id ∈ openIds B t side) :
    ∃ i < (openLen B t side).toNat, openAt B t side i = id ∧
      removed B t side id = takenOut B t side (openLen B t side) (BitVec.ofNat 64 i) := by
  have hlt := (openLen B t side).isLt
  have hfrom : ∀ fuel i, i + fuel = (openLen B t side).toNat →
      (∃ j, i ≤ j ∧ j < (openLen B t side).toNat ∧ openAt B t side j = id) →
      ∃ j < (openLen B t side).toNat, openAt B t side j = id ∧
        removedFrom B t side id (openLen B t side) fuel (BitVec.ofNat 64 i) =
          takenOut B t side (openLen B t side) (BitVec.ofNat 64 j) := by
    intro fuel
    induction fuel with
    | zero =>
        rintro i hi ⟨j, hij, hj, -⟩
        omega
    | succ fuel ih =>
        rintro i hi ⟨j, hij, hj, hat⟩
        unfold removedFrom
        split
        · rename_i hfound
          exact ⟨i, by omega, hfound, rfl⟩
        · rename_i hother
          have hne : j ≠ i := by
            rintro rfl
            exact hother hat
          have hstep : BitVec.ofNat 64 i + 1 = BitVec.ofNat 64 (i + 1) := BitVec.ofNat_add_ofNat ..
          rw [hstep]
          exact ih (i + 1) (by omega) ⟨j, by omega, hj, hat⟩
  obtain ⟨j, hj, hat⟩ := mem_listed.mp hmem
  exact hfrom _ 0 (Nat.zero_add _) ⟨j, Nat.zero_le _, hj, hat⟩

/-- Removing an identifier leaves the others, each once. -/
theorem openIds_removed {id : U64} (hnodup : (openIds B t side).Nodup)
    (hmem : id ∈ openIds B t side) :
    (openIds (removed B t side id) t side).Nodup ∧
      ∀ x, x ∈ openIds (removed B t side id) t side ↔ x ∈ openIds B t side ∧ x ≠ id := by
  obtain ⟨i, hi, rfl, hremoved⟩ := exists_removed_eq_takenOut hmem
  have hlt := (openLen B t side).isLt
  have hpred : (openLen B t side - 1).toNat = (openLen B t side).toNat - 1 := by bv_omega
  have hlast : openLen B t side - 1 = BitVec.ofNat 64 ((openLen B t side).toNat - 1) := by
    rw [← hpred, BitVec.ofNat_toNat, BitVec.setWidth_eq]
  have hlen : openLen (takenOut B t side (openLen B t side) (BitVec.ofNat 64 i)) t side =
      openLen B t side - 1 := by
    rw [openLen, takenOut, Function.update_self, BitVec.setWidth_setWidth_of_le _ (by decide),
      BitVec.setWidth_eq]
  have hne : ∀ j k : ℕ, j < (openLen B t side).toNat → k < (openLen B t side).toNat → j ≠ k →
      BitVec.ofNat 64 j ≠ BitVec.ofNat 64 k := by
    intro j k hj hk hjk h
    have := congrArg BitVec.toNat h
    rw [BitVec.toNat_ofNat, BitVec.toNat_ofNat, Nat.mod_eq_of_lt (by omega),
      Nat.mod_eq_of_lt (by omega)] at this
    exact hjk this
  have hentry : ∀ j < (openLen B t side).toNat - 1,
      openAt (takenOut B t side (openLen B t side) (BitVec.ofNat 64 i)) t side j =
        if j = i then openAt B t side ((openLen B t side).toNat - 1) else openAt B t side j := by
    intro j hj
    have hjlast : Key.openAt t side (BitVec.ofNat 64 j) ≠ .openAt t side (openLen B t side - 1) := by
      rw [hlast]
      simpa using hne j _ (by omega) (by omega) (by omega)
    rw [openAt, takenOut, Function.update_of_ne (by rintro ⟨⟩), Function.update_of_ne hjlast]
    split
    · rename_i hinner
      by_cases hji : j = i
      · rw [if_pos hji, hji, Function.update_self, hlast, openAt]
      · rw [if_neg hji, Function.update_of_ne (by simpa using hne j i (by omega) hi hji), openAt]
    · rename_i houter
      have hji : j ≠ i := by
        rintro rfl
        refine hjlast ?_
        rw [not_not.mp houter]
      rw [if_neg hji, openAt]
  rw [hremoved, openIds, hlen, hpred]
  exact listed_swapRemove hi hnodup hentry

end Index

/-! ## Index, counts and orders agree -/

/-- An open order of a token and side. -/
structure OpenOrder (B : Words) (t : Address) (side : U8) (id : U64) (o : Order) : Prop where
  found : findOrder B id = some o
  status : o.status = orderStatusOpen
  token : o.baseToken = t
  side : o.side = side

theorem openOrder_congr {B B' : Words} {id : U64} (h : findOrder B' id = findOrder B id) (t : Address)
    (side : U8) (o : Order) : OpenOrder B' t side id o ↔ OpenOrder B t side id o :=
  ⟨fun ho => ⟨h.symm.trans ho.found, ho.status, ho.token, ho.side⟩,
    fun ho => ⟨h.trans ho.found, ho.status, ho.token, ho.side⟩⟩

/-- The identifiers of a maker's open orders. -/
def openBy (B : Words) (m : Address) : Finset U64 :=
  Finset.univ.filter fun id =>
    (findOrder B id).any fun o => decide (o.status = orderStatusOpen ∧ o.maker = m)

theorem mem_openBy {B : Words} {m : Address} {id : U64} :
    id ∈ openBy B m ↔ ∃ o, findOrder B id = some o ∧ o.status = orderStatusOpen ∧ o.maker = m := by
  rw [openBy, Finset.mem_filter, Option.any_eq_true]
  simp

/-- After `n` placements at most: every assigned order is found, and it is open just while something
of it is left. -/
structure OrdersSound (A : Set Address) (n : ℕ) (B : Words) : Prop where
  next : (B .nextID).toNat ≤ n
  assigned : ∀ id : U64, 1 ≤ id.toNat → id.toNat ≤ (B .nextID).toNat → (findOrder B id).isSome
  order : ∀ id o, findOrder B id = some o →
    o.maker ∈ A ∧ o.baseToken ∈ A ∧ o.side.toNat < 2 ∧ o.priceX18 ≠ 0
  amount : ∀ id o, findOrder B id = some o →
    (o.status = orderStatusOpen ↔ o.baseOpen ≠ 0) ∧ o.baseOpen ≤ o.baseOrig

/-- The open orders stand in the index of their token and side, each once, and are counted for their
makers. -/
structure Indexed (A : Set Address) (n : ℕ) (B : Words) : Prop extends OrdersSound A n B where
  nodup : ∀ t ∈ A, ∀ side : U8, side.toNat < 2 → (openIds B t side).Nodup
  ids : ∀ t ∈ A, ∀ side : U8, side.toNat < 2 → ∀ id,
    id ∈ openIds B t side ↔ ∃ o, OpenOrder B t side id o
  count : ∀ m ∈ A, (B (.openCount m)).toNat = (openBy B m).card
  countLe : ∀ m ∈ A, (openBy B m).card ≤ orderbookMaxOpenPerMaker.toNat

section Indexed

variable {A : Set Address} {n : ℕ} {B B' W : Words} {o o' : Order} {take : ℕ}

/-- An index is no longer than there are identifiers. -/
theorem Indexed.openLen_le (h : Indexed A n B) {t : Address} (ht : t ∈ A) {side : U8}
    (hside : side.toNat < 2) : (openLen B t side).toNat ≤ (B .nextID).toNat := by
  have hlength : (openIds B t side).length = (openLen B t side).toNat := by simp [openIds, listed]
  have hsub : (openIds B t side).map BitVec.toNat ⊆ List.range' 1 (B .nextID).toNat := by
    intro x hx
    obtain ⟨id, hid, rfl⟩ := List.mem_map.mp hx
    obtain ⟨o, ho⟩ := (h.ids t ht side hside id).mp hid
    obtain ⟨-, hpos, hle⟩ := findOrder_eq_some ho.found
    have hmod : ((B .nextID).setWidth 64).toNat ≤ (B .nextID).toNat := by
      rw [BitVec.toNat_setWidth]
      exact Nat.mod_le _ _
    rw [List.mem_range'_1]
    omega
  have hnodup : ((openIds B t side).map BitVec.toNat).Nodup :=
    (h.nodup t ht side hside).map fun x y hxy => BitVec.eq_of_toNat_eq hxy
  have hle := (List.subperm_of_subset hnodup hsub).length_le
  rw [List.length_map, hlength, List.length_range'] at hle
  exact hle

theorem Indexed.countOf_toNat (h : Indexed A n B) {m : Address} (hm : m ∈ A) :
    (countOf B m).toNat = (openBy B m).card := by
  have hle := h.countLe m hm
  have hmax : orderbookMaxOpenPerMaker.toNat = 64 := rfl
  rw [countOf, BitVec.toNat_setWidth, h.count m hm, Nat.mod_eq_of_lt (by omega)]

/-- What is found after one order was rewritten. -/
theorem Replaces.findOrder_eq (h : Replaces B W o o' take) (hbook : SameBook W B') (id : U64) :
    findOrder B' id = if id = o.id then some o' else findOrder B id := by
  rw [hbook.findOrder_eq]
  split
  · rename_i hid
    rw [hid, h.found']
  · rename_i hid
    exact h.other id hid

theorem OrdersSound.rewrite (h : OrdersSound A n B) (hrep : Replaces B W o o' take)
    (hbook : SameBook W B')
    (hamount : (o'.status = orderStatusOpen ↔ o'.baseOpen ≠ 0) ∧ o'.baseOpen ≤ o'.baseOrig) :
    OrdersSound A n B' := by
  have hfind := hrep.findOrder_eq hbook
  have hnext : B' .nextID = B .nextID := (hbook .nextID rfl).trans hrep.next
  refine ⟨by rw [hnext]; exact h.next, fun id hpos hle => ?_, fun id p hp => ?_, fun id p hp => ?_⟩
  · rw [hfind]
    split
    · rfl
    · rw [hnext] at hle
      exact h.assigned id hpos hle
  · rw [hfind] at hp
    split at hp
    · cases hp
      rw [hrep.maker, hrep.token, hrep.side, hrep.price]
      exact h.order o.id o hrep.found
    · exact h.order id p hp
  · rw [hfind] at hp
    split at hp
    · cases hp
      exact hamount
    · exact h.amount id p hp

/-- An order that stays open keeps its place and its count. -/
theorem Indexed.reduce (h : Indexed A n B) (hrep : Replaces B B' o o' take)
    (hopen : o.status = orderStatusOpen) (hindex : SameIndex B B')
    (hopen' : o'.status = orderStatusOpen) (hleft : o'.baseOpen ≠ 0)
    (hle : o'.baseOpen ≤ o'.baseOrig) : Indexed A n B' := by
  have hbook : SameBook B' B' := fun _ _ => rfl
  have hfind := hrep.findOrder_eq hbook
  have hby : ∀ m, openBy B' m = openBy B m := by
    intro m
    ext id
    rw [mem_openBy, mem_openBy, hfind]
    split
    · rename_i hid
      rw [hid, hrep.found]
      simp [hopen, hopen', hrep.maker]
    · rfl
  refine ⟨h.toOrdersSound.rewrite hrep hbook ⟨iff_of_true hopen' hleft, hle⟩, ?_, ?_, ?_, ?_⟩
  · intro t ht side hside
    rw [hindex.openIds_eq]
    exact h.nodup t ht side hside
  · intro t ht side hside id
    rw [hindex.openIds_eq, h.ids t ht side hside]
    by_cases hid : id = o.id
    · subst hid
      constructor
      · rintro ⟨p, hp⟩
        obtain rfl : o = p := Option.some.inj (hrep.found.symm.trans hp.found)
        exact ⟨o', hrep.found', hopen', hrep.token.trans hp.token, hrep.side.trans hp.side⟩
      · rintro ⟨p, hp⟩
        obtain rfl : o' = p := Option.some.inj (hrep.found'.symm.trans hp.found)
        exact ⟨o, hrep.found, hopen, hrep.token.symm.trans hp.token, hrep.side.symm.trans hp.side⟩
    · have hsame : findOrder B' id = findOrder B id := by rw [hfind, if_neg hid]
      exact exists_congr fun p => (openOrder_congr hsame t side p).symm
  · intro m hm
    rw [hindex (.openCount m) rfl, hby]
    exact h.count m hm
  · intro m hm
    rw [hby]
    exact h.countLe m hm

/-- The count after the counter of one maker was lowered. -/
theorem toNat_openCount_decremented {m : Address} (hpos : countOf B m ≠ 0) :
    (decremented B m (.openCount m)).toNat = (countOf B m).toNat - 1 := by
  have hnat : (countOf B m).toNat ≠ 0 := fun h0 => hpos (BitVec.eq_of_toNat_eq h0)
  rw [decremented, if_neg hpos, withCount, Function.update_self, BitVec.toNat_setWidth,
    Nat.mod_eq_of_lt (by omega)]
  bv_omega

theorem decremented_of_ne {m : Address} {k : Key} (hk : k ≠ .openCount m) : decremented B m k = B k := by
  unfold decremented
  split
  · rfl
  · exact Function.update_of_ne hk _ _

/-- The counter leaves the index alone. -/
theorem openIds_decremented (B : Words) (m t : Address) (side : U8) :
    openIds (decremented B m) t side = openIds B t side := by
  have hlen : openLen (decremented B m) t side = openLen B t side := by
    rw [openLen, decremented_of_ne (by rintro ⟨⟩), openLen]
  rw [openIds, hlen, openIds]
  exact listed_congr fun i _ => by rw [openAt, decremented_of_ne (by rintro ⟨⟩), openAt]

/-- An order that closes leaves its index and the count of its maker. -/
theorem Indexed.close (h : Indexed A n B) (hrep : Replaces B W o o' take)
    (hopen : o.status = orderStatusOpen) (hbook : SameBook W B')
    (hindex : SameIndex (removed (decremented B o.maker) o.baseToken o.side o.id) B')
    (hclosed : o'.status ≠ orderStatusOpen) (hleft : o'.baseOpen = 0) : Indexed A n B' := by
  have hfind := hrep.findOrder_eq hbook
  obtain ⟨hmaker, htoken, hside, -⟩ := h.order o.id o hrep.found
  have hzero : o'.baseOpen ≤ o'.baseOrig := by
    rw [hleft]
    exact BitVec.le_def.mpr (Nat.zero_le _)
  have hown : o.id ∈ openIds (decremented B o.maker) o.baseToken o.side := by
    rw [openIds_decremented, h.ids _ htoken _ hside]
    exact ⟨o, hrep.found, hopen, rfl, rfl⟩
  obtain ⟨hnodup, hmem⟩ := openIds_removed (by
    rw [openIds_decremented]
    exact h.nodup _ htoken _ hside) hown
  -- the open orders are those of before without the one that closes
  have hopenOrder : ∀ t side id, (∃ p, OpenOrder B' t side id p) ↔
      (∃ p, OpenOrder B t side id p) ∧ id ≠ o.id := by
    intro t side id
    by_cases hid : id = o.id
    · refine iff_of_false ?_ fun hp => hp.2 hid
      rintro ⟨p, hp⟩
      have hfound := hp.found
      rw [hfind, if_pos hid] at hfound
      cases hfound
      exact hclosed hp.status
    · have hsame : findOrder B' id = findOrder B id := by rw [hfind, if_neg hid]
      rw [and_iff_left hid]
      exact exists_congr (openOrder_congr hsame t side)
  have hby : ∀ m, openBy B' m = (openBy B m).erase o.id := by
    intro m
    ext id
    rw [Finset.mem_erase, mem_openBy, mem_openBy, hfind]
    by_cases hid : id = o.id
    · simp [hid, hclosed]
    · simp [hid]
  have hcount : ∀ m, B' (.openCount m) = decremented B o.maker (.openCount m) := by
    intro m
    rw [hindex (.openCount m) rfl, removed_of_ne (by rintro ⟨⟩) (by rintro _ ⟨⟩)]
  refine ⟨h.toOrdersSound.rewrite hrep hbook ⟨iff_of_false hclosed (not_not.mpr hleft), hzero⟩,
    ?_, ?_, ?_, ?_⟩
  · intro t ht side hs
    rw [hindex.openIds_eq]
    by_cases hsame : t = o.baseToken ∧ side = o.side
    · rw [hsame.1, hsame.2]
      exact hnodup
    · rw [openIds_of_keep (fun k hk hi => removed_of_ne hk hi o.id) hsame, openIds_decremented]
      exact h.nodup t ht side hs
  · intro t ht side hs id
    rw [hindex.openIds_eq, hopenOrder, ← h.ids t ht side hs]
    by_cases hsame : t = o.baseToken ∧ side = o.side
    · rw [hsame.1, hsame.2, hmem, openIds_decremented]
    · rw [openIds_of_keep (fun k hk hi => removed_of_ne hk hi o.id) hsame, openIds_decremented]
      refine (and_iff_left_of_imp ?_).symm
      rintro hid rfl
      obtain ⟨p, hp⟩ := (h.ids t ht side hs o.id).mp hid
      obtain rfl : o = p := Option.some.inj (hrep.found.symm.trans hp.found)
      exact hsame ⟨hp.token.symm, hp.side.symm⟩
  · intro m hm
    rw [hcount, hby]
    by_cases hm' : m = o.maker
    · subst hm'
      have hidmem : o.id ∈ openBy B o.maker := mem_openBy.mpr ⟨o, hrep.found, hopen, rfl⟩
      have hcard := h.countOf_toNat hm
      have hpos := Finset.card_pos.mpr ⟨o.id, hidmem⟩
      have hne : countOf B o.maker ≠ 0 := by
        intro h0
        rw [h0] at hcard
        have hz : (0 : U64).toNat = 0 := rfl
        omega
      rw [toNat_openCount_decremented hne, hcard, Finset.card_erase_of_mem hidmem]
    · have hnot : o.id ∉ openBy B m := by
        intro hmem'
        obtain ⟨p, hp, -, hpm⟩ := mem_openBy.mp hmem'
        obtain rfl : o = p := Option.some.inj (hrep.found.symm.trans hp)
        exact hm' hpm.symm
      rw [decremented_of_ne (by simpa using hm'), Finset.erase_eq_of_notMem hnot]
      exact h.count m hm
  · intro m hm
    rw [hby]
    exact (Finset.card_erase_le).trans (h.countLe m hm)

/-- The words after a placement: the counter is raised, the order written and its escrow added, and
the identifier appended to the index. -/
def entered (B : Words) (o : Order) (amt : U256) : Words :=
  appended (placed (withCount B o.maker (countOf B o.maker + 1)) o amt) o.baseToken o.side o.id

theorem nextOf_withCount (B : Words) (m : Address) (c : U64) : nextOf (withCount B m c) = nextOf B := by
  rw [nextOf, sameBook_withCount B m c .nextID rfl, nextOf]

theorem sameIndex_placed (B : Words) (o : Order) (amt : U256) : SameIndex B (placed B o amt) := by
  intro k hk
  have hescrow : k ≠ escrowKey o := by
    rintro rfl
    rw [escrowKey_isBook] at hk
    cases hk
  rw [placed, Function.update_of_ne hescrow, putOrder_of_not_order _ _ (by rintro _ _ rfl; cases hk),
    Function.update_of_ne (by rintro rfl; cases hk)]

/-- The counter leaves the index alone. -/
theorem openIds_withCount (B : Words) (m : Address) (c : U64) (t : Address) (side : U8) :
    openIds (withCount B m c) t side = openIds B t side := by
  have hkeep : ∀ k : Key, k ≠ .openCount m → withCount B m c k = B k :=
    fun k hk => Function.update_of_ne hk _ _
  have hlen : openLen (withCount B m c) t side = openLen B t side := by
    rw [openLen, hkeep _ (by rintro ⟨⟩), openLen]
  rw [openIds, hlen, openIds]
  exact listed_congr fun i _ => by rw [openAt, hkeep _ (by rintro ⟨⟩), openAt]

/-- A new order came to the book, to its index and to the count of its maker. -/
structure Enters (B B' : Words) (o : Order) : Prop where
  id : o.id.toNat = (B .nextID).toNat + 1
  next : (B' .nextID).toNat = (B .nextID).toNat + 1
  find : ∀ id, findOrder B' id = if id = o.id then some o else findOrder B id
  own : openIds B' o.baseToken o.side = openIds B o.baseToken o.side ++ [o.id]
  others : ∀ t side, ¬(t = o.baseToken ∧ side = o.side) → openIds B' t side = openIds B t side
  count : ∀ m, B' (.openCount m) = withCount B o.maker (countOf B o.maker + 1) (.openCount m)

theorem Indexed.enters (h : Indexed A n B) (hn : n + 1 < 2 ^ 64) (hid : o.id = nextOf B)
    (htoken : o.baseToken ∈ A) (hside : o.side.toNat < 2) (hprice : o.priceX18 ≠ 0) (amt : U256) :
    Enters B (entered B o amt) o := by
  have hnext := h.next
  have hbound := toNat_nextOf (B := B) (N := n + 1) (by omega) hn
  have hsame := sameBook_withCount B o.maker (countOf B o.maker + 1)
  have hcounter : entered B o amt .nextID = o.id.setWidth 256 := by
    rw [entered, sameBook_appended _ _ _ _ .nextID rfl, placed,
      Function.update_of_ne (escrowKey_ne_nextID o).symm,
      putOrder_of_not_order _ _ (by rintro _ _ ⟨⟩), Function.update_self]
  have hindex : SameIndex (appended (withCount B o.maker (countOf B o.maker + 1)) o.baseToken o.side
      o.id) (entered B o amt) := (sameIndex_placed _ o amt).appended _ _ _
  have hlen := h.openLen_le htoken hside
  have hlen' : openLen (withCount B o.maker (countOf B o.maker + 1)) o.baseToken o.side =
      openLen B o.baseToken o.side := by
    rw [openLen, withCount, Function.update_of_ne (by rintro ⟨⟩), openLen]
  refine ⟨by rw [hid, hbound], ?_, fun id => ?_, ?_, fun t side hne => ?_, fun m => ?_⟩
  · rw [hcounter, hid, BitVec.toNat_setWidth, hbound, Nat.mod_eq_of_lt (by omega)]
  · rw [entered, (sameBook_appended _ _ _ _).findOrder_eq, findOrder_placed (N := n + 1) amt
      (hid.trans (nextOf_withCount B _ _).symm) hprice (by rw [hsame .nextID rfl]; omega) hn,
      hsame.findOrder_eq]
  · rw [hindex.openIds_eq, openIds_appended _ (by rw [hlen']; omega), openIds_withCount]
  · rw [hindex.openIds_eq, openIds_of_keep (fun k hk hi => appended_of_ne hk hi o.id) hne,
      openIds_withCount]
  · rw [hindex (.openCount m) rfl, appended_of_ne (by rintro ⟨⟩) (by rintro _ ⟨⟩)]

/-- The identifier of a new order was not assigned before. -/
theorem Enters.fresh (h : Enters B B' o) : findOrder B o.id = none := by
  by_contra hsome
  obtain ⟨p, hp⟩ := Option.ne_none_iff_exists'.mp hsome
  obtain ⟨-, -, hle⟩ := findOrder_eq_some hp
  have hmod : ((B .nextID).setWidth 64).toNat ≤ (B .nextID).toNat := by
    rw [BitVec.toNat_setWidth]
    exact Nat.mod_le _ _
  have := h.id
  omega

theorem OrdersSound.enter (h : OrdersSound A n B) (hnew : Enters B B' o) (hmaker : o.maker ∈ A)
    (htoken : o.baseToken ∈ A) (hside : o.side.toNat < 2) (hprice : o.priceX18 ≠ 0)
    (hamount : (o.status = orderStatusOpen ↔ o.baseOpen ≠ 0) ∧ o.baseOpen ≤ o.baseOrig) :
    OrdersSound A (n + 1) B' := by
  have hnext := h.next
  have hnext' := hnew.next
  refine ⟨by omega, fun id hpos hle => ?_, fun id p hp => ?_, fun id p hp => ?_⟩
  · rw [hnew.find]
    split
    · rfl
    · rename_i hne
      have hother : id.toNat ≠ o.id.toNat := fun heq => hne (BitVec.eq_of_toNat_eq heq)
      have hid := hnew.id
      exact h.assigned id hpos (by omega)
  · rw [hnew.find] at hp
    split at hp
    · cases hp
      exact ⟨hmaker, htoken, hside, hprice⟩
    · exact h.order id p hp
  · rw [hnew.find] at hp
    split at hp
    · cases hp
      exact hamount
    · exact h.amount id p hp

theorem Enters.openOrder_iff (h : Enters B B' o) (hopen : o.status = orderStatusOpen) (t : Address)
    (side : U8) (id : U64) : (∃ p, OpenOrder B' t side id p) ↔
      (∃ p, OpenOrder B t side id p) ∨ id = o.id ∧ t = o.baseToken ∧ side = o.side := by
  by_cases hid : id = o.id
  · subst hid
    have hnone : ¬∃ p, OpenOrder B t side o.id p := by
      rintro ⟨p, hp⟩
      cases h.fresh.symm.trans hp.found
    rw [or_iff_right hnone]
    constructor
    · rintro ⟨p, hp⟩
      have hfound := hp.found
      rw [h.find, if_pos rfl] at hfound
      cases hfound
      exact ⟨rfl, hp.token.symm, hp.side.symm⟩
    · rintro ⟨-, rfl, rfl⟩
      exact ⟨o, by rw [h.find, if_pos rfl], hopen, rfl, rfl⟩
  · have hsame : findOrder B' id = findOrder B id := by rw [h.find, if_neg hid]
    rw [or_iff_left fun hp => hid hp.1]
    exact exists_congr (openOrder_congr hsame t side)

theorem Enters.openBy_eq (h : Enters B B' o) (hopen : o.status = orderStatusOpen) (m : Address) :
    openBy B' m = if m = o.maker then insert o.id (openBy B m) else openBy B m := by
  ext id
  rw [mem_openBy, h.find]
  by_cases hm : m = o.maker
  · rw [if_pos hm, Finset.mem_insert, mem_openBy]
    by_cases hid : id = o.id
    · simp [hid, hopen, hm]
    · simp [hid]
  · rw [if_neg hm, mem_openBy]
    by_cases hid : id = o.id
    · simp [hid, h.fresh, Ne.symm hm]
    · simp [hid]

/-- A new open order enters its index and the count of its maker. -/
theorem Indexed.place (h : Indexed A n B) (hn : n + 1 < 2 ^ 64) (hid : o.id = nextOf B)
    (hmaker : o.maker ∈ A) (htoken : o.baseToken ∈ A) (hside : o.side.toNat < 2)
    (hprice : o.priceX18 ≠ 0) (hopen : o.status = orderStatusOpen) (hbase : o.baseOpen ≠ 0)
    (hle : o.baseOpen ≤ o.baseOrig) (hroom : ¬orderbookMaxOpenPerMaker ≤ countOf B o.maker)
    (amt : U256) : Indexed A (n + 1) (entered B o amt) := by
  have hnew := h.enters hn hid htoken hside hprice amt
  have hcount := h.countOf_toNat hmaker
  have hmax : orderbookMaxOpenPerMaker.toNat = 64 := rfl
  rw [BitVec.le_def] at hroom
  have hidNot : o.id ∉ openBy B o.maker := by
    intro hmem
    obtain ⟨p, hp, -⟩ := mem_openBy.mp hmem
    cases hnew.fresh.symm.trans hp
  refine ⟨h.toOrdersSound.enter hnew hmaker htoken hside hprice ⟨iff_of_true hopen hbase, hle⟩,
    fun t ht side hs => ?_, fun t ht side hs id => ?_, fun m hm => ?_, fun m hm => ?_⟩
  · by_cases hsame : t = o.baseToken ∧ side = o.side
    · obtain ⟨rfl, rfl⟩ := hsame
      rw [hnew.own]
      refine (h.nodup _ ht _ hs).append (List.nodup_singleton _) (List.disjoint_singleton.mpr ?_)
      intro hmem
      obtain ⟨p, hp⟩ := (h.ids _ ht _ hs o.id).mp hmem
      cases hnew.fresh.symm.trans hp.found
    · rw [hnew.others t side hsame]
      exact h.nodup t ht side hs
  · rw [hnew.openOrder_iff hopen, ← h.ids t ht side hs]
    by_cases hsame : t = o.baseToken ∧ side = o.side
    · obtain ⟨rfl, rfl⟩ := hsame
      rw [hnew.own]
      simp
    · rw [hnew.others t side hsame, or_iff_left fun hp => hsame hp.2]
  · rw [hnew.count, hnew.openBy_eq hopen]
    by_cases hm' : m = o.maker
    · subst hm'
      rw [if_pos rfl, Finset.card_insert_of_notMem hidNot, withCount, Function.update_self,
        BitVec.toNat_setWidth, BitVec.toNat_add, hcount]
      have hone : (1 : U64).toNat = 1 := rfl
      omega
    · rw [if_neg hm', withCount, Function.update_of_ne (by simpa using hm')]
      exact h.count m hm
  · rw [hnew.openBy_eq hopen]
    split
    · rename_i hm'
      subst hm'
      rw [Finset.card_insert_of_notMem hidNot]
      omega
    · exact h.countLe m hm

end Indexed

/-! ## Every call keeps the index consistent -/

/-- The ledger holds a book whose index is consistent. -/
def Consistent (A : Set Address) (N n : ℕ) (bal : Address → U256) (L : Ledger) : Prop :=
  ∃ B, Exact A N B bal L ∧ Indexed A n B

theorem Indexed.mono {A : Set Address} {n n' : ℕ} {B : Words} (h : Indexed A n B) (hn : n ≤ n') :
    Indexed A n' B :=
  { h with next := h.next.trans hn }

section Step

variable {A : Set Address} {N n : ℕ} {B : Words} {bal : Address → U256} {m t : Address}

/-- `validatePlace`: what it returns, and the words after it. -/
def validated (B : Words) (m : Address) (price base : U256) : Except OrderbookError Unit × Words :=
  if m = 0 then (.error .zeroMaker, B)
  else if price = 0 then (.error .zeroPrice, B)
  else if base = 0 then (.error .zeroBaseAmount, B)
  else incremented B m

theorem validated_cases (B : Words) (m : Address) (price base : U256) :
    (∃ e, validated B m price base = (.error e, B)) ∨
      validated B m price base = (.ok (), withCount B m (countOf B m + 1)) ∧ price ≠ 0 ∧ base ≠ 0 ∧
        ¬orderbookMaxOpenPerMaker ≤ countOf B m := by
  unfold validated incremented
  split
  · exact .inl ⟨_, rfl⟩
  split
  · exact .inl ⟨_, rfl⟩
  split
  · exact .inl ⟨_, rfl⟩
  split
  · exact .inl ⟨_, rfl⟩
  · rename_i hprice hbase hroom
    exact .inr ⟨rfl, hprice, hbase, hroom⟩

/-- A counter that was raised in vain is as it was. -/
theorem Indexed.decremented_withCount (h : Indexed A n B) (hm : m ∈ A)
    (hroom : ¬orderbookMaxOpenPerMaker ≤ countOf B m) :
    decremented (withCount B m (countOf B m + 1)) m = B := by
  have hmax : orderbookMaxOpenPerMaker.toNat = 64 := rfl
  rw [BitVec.le_def] at hroom
  have hcount : countOf (withCount B m (countOf B m + 1)) m = countOf B m + 1 := by
    rw [countOf, withCount, Function.update_self, BitVec.setWidth_setWidth_of_le _ (by decide),
      BitVec.setWidth_eq]
  have hne : countOf B m + 1 ≠ 0 := by bv_omega
  have hword : (countOf B m).setWidth 256 = B (.openCount m) := by
    apply BitVec.eq_of_toNat_eq
    rw [BitVec.toNat_setWidth, h.countOf_toNat hm, h.count m hm]
    have := h.countLe m hm
    exact Nat.mod_eq_of_lt (by omega)
  rw [decremented, hcount, if_neg hne, withCount, BitVec.add_sub_cancel, hword, withCount,
    Function.update_idem, Function.update_eq_self]

theorem released_cases (B : Words) (o : Order) :
    (∃ e, released B o = (.error e, B)) ∨
      ∃ refund take, released B o =
          (.ok refund, Function.update B (escrowKey o) (B (escrowKey o) - take)) ∧
        take ≤ B (escrowKey o) := by
  unfold released escrowKey
  split
  · refine .inr ⟨_, _, rfl, ?_⟩
    split
    · exact BitVec.le_refl _
    · exact BitVec.not_lt.mp ‹_›
  · split
    · exact .inl ⟨_, rfl⟩
    · exact .inr ⟨_, _, rfl, BitVec.not_lt.mp ‹_›⟩

variable (hinj : Set.InjOn Key.slot (Key.within A N))

include hinj

theorem exact_validatePlace (hm : m ∈ A) (price base : U256) :
    Total Op.execL (Exact A N B bal) (validatePlace m price base) fun r L =>
      r = (validated B m price base).1 ∧ Exact A N (validated B m price base).2 bal L := by
  unfold validatePlace validated
  split
  · exact Total.pure fun L hL => ⟨rfl, hL⟩
  split
  · exact Total.pure fun L hL => ⟨rfl, hL⟩
  split
  · exact Total.pure fun L hL => ⟨rfl, hL⟩
  exact exact_incOpenCount hinj hm

theorem exact_releaseEscrow {o : Order} (hm : o.maker ∈ A) (ht : o.baseToken ∈ A) :
    Total Op.execL (Exact A N B bal) (releaseEscrow o)
      fun r L => r = (released B o).1 ∧ Exact A N (released B o).2 bal L := by
  have hq : Key.escrowQ o.maker ∈ Key.within A N := hm
  have hb : Key.escrowB o.maker o.baseToken ∈ Key.within A N := ⟨hm, ht⟩
  unfold releaseEscrow released
  by_cases hside : o.side = orderSideBuy
  · simp only [if_pos hside]
    apply (exact_load (k := .escrowQ o.maker) hq).bind
    intro esc
    apply Total.assume
    rintro rfl
    have hle : ¬B (.escrowQ o.maker) <
        (if B (.escrowQ o.maker) < quoteLockCeil o.baseOpen o.priceX18 then B (.escrowQ o.maker)
        else quoteLockCeil o.baseOpen o.priceX18) := by
      split
      · exact BitVec.lt_irrefl _
      · assumption
    apply (exact_sub hinj hq _ .escrowQuoteUnderflow).bind
    intro r
    apply Total.assume
    rintro rfl
    simp only [if_neg hle]
    exact Total.pure fun L hL => ⟨rfl, hL⟩
  · simp only [if_neg hside]
    apply (exact_sub hinj hb _ .escrowBaseUnderflow).bind
    intro r
    apply Total.assume
    rintro rfl
    by_cases hlt : B (.escrowB o.maker o.baseToken) < o.baseOpen
    · simp only [if_pos hlt]
      exact Total.pure fun L hL => ⟨rfl, hL⟩
    · simp only [if_neg hlt]
      exact Total.pure fun L hL => ⟨rfl, hL⟩

/-- The counter is lowered again when a placement is refused after it was raised. -/
theorem consistent_back {α : Type} (h : Indexed A n B) (hm : m ∈ A)
    (hroom : ¬orderbookMaxOpenPerMaker ≤ countOf B m) (e : OrderbookError) :
    Total Op.execL (Exact A N (withCount B m (countOf B m + 1)) bal) (do
        decOpenCount m
        return (Except.error e : Except OrderbookError α))
      fun _ L => Consistent A N (n + 1) bal L := by
  apply (exact_decOpenCount hinj hm).bind
  intro _
  rw [h.decremented_withCount hm hroom]
  exact Total.pure fun L hL => ⟨B, hL, h.mono (Nat.le_succ n)⟩

/-- The end of a placement, once the counter is raised: the order is written, its escrow added and
its identifier appended. -/
theorem consistent_enter {α : Type} (h : Indexed A n B) (hn : n + 1 ≤ N) (hN : N < 2 ^ 64) {o : Order}
    (hid : o.id = nextOf B) (hm : o.maker ∈ A) (ht : o.baseToken ∈ A) (hside : o.side.toNat < 2)
    (hprice : o.priceX18 ≠ 0) (hopen : o.status = orderStatusOpen) (hbase : o.baseOpen ≠ 0)
    (hle : o.baseOpen ≤ o.baseOrig) (hroom : ¬orderbookMaxOpenPerMaker ≤ countOf B o.maker)
    (amt : U256) (out : α) :
    Total Op.execL (Exact A N (Function.update (withCount B o.maker (countOf B o.maker + 1)) .nextID
        (o.id.setWidth 256)) bal) (do
        writeOrder o
        let cur ← getU256 (escrowKey o).slot
        setU256 (escrowKey o).slot (cur + amt)
        addOpenIndex o.baseToken o.side o.id
        return out)
      fun _ L => Consistent A N (n + 1) bal L := by
  have hnext := h.next
  have hbound := toNat_nextOf (B := B) (N := N) (by omega) hN
  have hlen := h.openLen_le ht hside
  have hescrow : escrowKey o ∈ Key.within A N := by
    unfold escrowKey
    split
    · exact hm
    · exact ⟨hm, ht⟩
  apply (exact_writeOrder hinj (by rw [hid]; omega) (by rw [hid]; omega)).bind
  intro _
  apply (exact_load hescrow).bind
  intro cur
  apply Total.assume
  rintro rfl
  apply (exact_store hinj hescrow _).bind
  intro _
  rw [← placed_eq]
  have hkept : openLen (placed (withCount B o.maker (countOf B o.maker + 1)) o amt) o.baseToken o.side =
      openLen B o.baseToken o.side := by
    rw [(sameIndex_placed _ o amt).openLen_eq, openLen, withCount,
      Function.update_of_ne (by rintro ⟨⟩), openLen]
  apply (exact_addOpenIndex hinj ht hside _ (by rw [hkept]; omega)).bind
  intro _
  exact Total.pure fun L hL => ⟨entered B o amt, hL,
    h.place (by omega) hid hm ht hside hprice hopen hbase hle hroom amt⟩

theorem consistent_placeBuy (h : Indexed A n B) (hn : n + 1 ≤ N) (hN : N < 2 ^ 64) (hm : m ∈ A)
    (ht : t ∈ A) (price base : U256) (blockNum : U64) :
    Total Op.execL (Exact A N B bal) (placeBuy m t price base blockNum)
      fun _ L => Consistent A N (n + 1) bal L := by
  apply (exact_validatePlace hinj hm price base).bind
  intro r
  apply Total.assume
  rintro rfl
  rcases validated_cases B m price base with ⟨e, hv⟩ | ⟨hv, hprice, hbase, hroom⟩
  · simp only [hv]
    exact Total.pure fun L hL => ⟨B, hL, h.mono (Nat.le_succ n)⟩
  simp only [hv]
  by_cases hzero : t = 0
  · simp only [if_pos hzero]
    exact consistent_back hinj h hm hroom _
  simp only [if_neg hzero]
  by_cases hlock : quoteLockCeil base price = 0
  · simp only [if_pos hlock]
    exact consistent_back hinj h hm hroom _
  simp only [if_neg hlock]
  apply (exact_nextOrderID hinj).bind
  intro id
  apply Total.assume
  rintro rfl
  rw [nextOf_withCount]
  exact consistent_enter hinj h hn hN (o := buyOrder B m t price base blockNum) rfl hm ht
    (show orderSideBuy.toNat < 2 by decide) hprice rfl hbase (BitVec.le_refl _) hroom _ _

theorem consistent_placeSell (h : Indexed A n B) (hn : n + 1 ≤ N) (hN : N < 2 ^ 64) (hm : m ∈ A)
    (ht : t ∈ A) (price base : U256) (blockNum : U64) :
    Total Op.execL (Exact A N B bal) (placeSell m t price base blockNum)
      fun _ L => Consistent A N (n + 1) bal L := by
  apply (exact_validatePlace hinj hm price base).bind
  intro r
  apply Total.assume
  rintro rfl
  rcases validated_cases B m price base with ⟨e, hv⟩ | ⟨hv, hprice, hbase, hroom⟩
  · simp only [hv]
    exact Total.pure fun L hL => ⟨B, hL, h.mono (Nat.le_succ n)⟩
  simp only [hv]
  by_cases hzero : t = 0
  · simp only [if_pos hzero]
    exact consistent_back hinj h hm hroom _
  simp only [if_neg hzero]
  apply (exact_nextOrderID hinj).bind
  intro id
  apply Total.assume
  rintro rfl
  rw [nextOf_withCount]
  exact consistent_enter hinj h hn hN (o := sellOrder B m t price base blockNum) rfl hm ht
    (show orderSideSell.toNat < 2 by decide) hprice rfl hbase (BitVec.le_refl _) hroom _ _

theorem consistent_cancel (h : Indexed A n B) (hn : n ≤ N) (actor : Address) (id : U64) :
    Total Op.execL (Exact A N B bal) (cancel actor id) fun _ L => Consistent A N n bal L := by
  have hstay : ∀ L, Exact A N B bal L → Consistent A N n bal L := fun L hL => ⟨B, hL, h⟩
  have hnext := h.next
  have hwf : WellFormed A N B := ⟨hnext.trans hn, fun id o ho =>
    ⟨(h.order id o ho).1, (h.order id o ho).2.1, (h.order id o ho).2.2.1⟩⟩
  apply (exact_getOrder id hwf.next).bind
  intro found
  apply Total.assume
  rintro rfl
  cases hfind : findOrder B id with
  | none => exact Total.pure hstay
  | some o =>
      obtain ⟨hm, ht, hside, hprice⟩ := h.order id o hfind
      obtain ⟨hpos, hle⟩ := hwf.id_le hfind
      have hid := findOrder_id hfind
      by_cases hopen : o.status ≠ orderStatusOpen
      · simp only [if_pos hopen]
        exact Total.pure hstay
      by_cases hmaker : o.maker ≠ actor
      · simp only [if_neg hopen, if_pos hmaker]
        exact Total.pure hstay
      simp only [if_neg hopen, if_neg hmaker]
      apply (exact_releaseEscrow hinj hm ht).bind
      intro r
      apply Total.assume
      rintro rfl
      rcases released_cases B o with ⟨e, hrel⟩ | ⟨refund, take, hrel, htake⟩
      · simp only [hrel]
        exact Total.pure hstay
      simp only [hrel]
      have hrep := replaces_put (cancelledOrder o) take hfind rfl rfl rfl rfl rfl hprice htake
      have hindex := (sameIndex_escrow B o (B (escrowKey o) - take)).trans
        (sameIndex_putOrder _ (cancelledOrder o))
      apply (exact_writeOrder (o := cancelledOrder o) hinj hpos hle).bind
      intro _
      apply (exact_decOpenCount hinj hm).bind
      intro _
      have hlen := h.openLen_le ht hside
      apply (exact_removeOpenIndex hinj ht hside id (by
        rw [(hindex.decremented o.maker).openLen_eq, openLen, decremented_of_ne (by rintro ⟨⟩)]
        exact hlen.trans (hnext.trans hn))).bind
      intro _
      rw [← hid]
      refine Total.pure fun L hL => ⟨_, hL, h.close hrep (not_not.mp hopen) ?_ ?_ ?_ rfl⟩
      · exact (sameBook_decremented _ _).trans (sameBook_removed _ _ _ _)
      · exact (hindex.decremented o.maker).removed _ _ _
      · exact (by decide : orderStatusCancelled ≠ orderStatusOpen)

/-- The end of a fill, after the escrow was taken. -/
theorem consistent_finishFill {α : Type} (h : Indexed A n B) (hn : n ≤ N) {o : Order} {id : U64}
    (hfind : findOrder B id = some o) (hopen : o.status = orderStatusOpen) {take : U256}
    (htake : take ≤ B (escrowKey o)) {base : U256} (hbase : base ≤ o.baseOpen) (out : α) :
    Total Op.execL (Exact A N (Function.update B (escrowKey o) (B (escrowKey o) - take)) bal)
      (if o.baseOpen - base = 0 then do
        decOpenCount o.maker
        removeOpenIndex o.baseToken o.side id
        writeOrder { o with status := orderStatusFilled, baseOpen := o.baseOpen - base }
        return out
      else do
        writeOrder { o with baseOpen := o.baseOpen - base }
        return out) fun _ L => Consistent A N n bal L := by
  have hnext := h.next
  have hwf : WellFormed A N B := ⟨hnext.trans hn, fun id o ho =>
    ⟨(h.order id o ho).1, (h.order id o ho).2.1, (h.order id o ho).2.2.1⟩⟩
  obtain ⟨hm, ht, hside, hprice⟩ := h.order id o hfind
  obtain ⟨hpos, hle⟩ := hwf.id_le hfind
  have hid := findOrder_id hfind
  have hescrow := sameIndex_escrow B o (B (escrowKey o) - take)
  by_cases hdone : o.baseOpen - base = 0
  · simp only [if_pos hdone]
    let o' : Order := { o with status := orderStatusFilled, baseOpen := o.baseOpen - base }
    have hrep := replaces_put o' take hfind rfl rfl rfl rfl rfl hprice htake
    have hlen := h.openLen_le ht hside
    apply (exact_decOpenCount hinj hm).bind
    intro _
    apply (exact_removeOpenIndex hinj ht hside id (by
      rw [(hescrow.decremented o.maker).openLen_eq, openLen, decremented_of_ne (by rintro ⟨⟩)]
      exact hlen.trans (hnext.trans hn))).bind
    intro _
    apply (exact_writeOrder (o := o') hinj hpos hle).bind
    intro _
    rw [← hid]
    refine Total.pure fun L hL => ⟨_, hL, h.close hrep hopen ?_ ?_ ?_ hdone⟩
    · exact SameBook.putOrder ((sameBook_decremented _ _).trans (sameBook_removed _ _ _ _)) o'
    · exact ((hescrow.decremented o.maker).removed _ _ _).trans (sameIndex_putOrder _ o')
    · exact (by decide : orderStatusFilled ≠ orderStatusOpen)
  · simp only [if_neg hdone]
    let o' : Order := { o with baseOpen := o.baseOpen - base }
    have hrep := replaces_put o' take hfind rfl rfl rfl rfl rfl hprice htake
    have hless : o.baseOpen - base ≤ o.baseOrig := by
      have horig := (h.amount id o hfind).2
      rw [BitVec.le_def] at hbase horig ⊢
      rw [BitVec.toNat_sub_of_le (BitVec.le_def.mpr hbase)]
      omega
    apply (exact_writeOrder (o := o') hinj hpos hle).bind
    intro _
    exact Total.pure fun L hL => ⟨_, hL, h.reduce hrep hopen
      (hescrow.trans (sameIndex_putOrder _ o')) hopen hdone hless⟩

theorem consistent_fill (h : Indexed A n B) (hn : n ≤ N) (taker : Address) (id : U64)
    (maxBase : U256) :
    Total Op.execL (Exact A N B bal) (fill taker id maxBase) fun _ L => Consistent A N n bal L := by
  have hstay : ∀ L, Exact A N B bal L → Consistent A N n bal L := fun L hL => ⟨B, hL, h⟩
  unfold fill
  by_cases htaker : taker = 0
  · simp only [if_pos htaker]
    exact Total.pure hstay
  by_cases hmax : maxBase = 0
  · simp only [if_neg htaker, if_pos hmax]
    exact Total.pure hstay
  simp only [if_neg htaker, if_neg hmax]
  apply (exact_getOrder id (h.next.trans hn)).bind
  intro found
  apply Total.assume
  rintro rfl
  cases hfind : findOrder B id with
  | none => exact Total.pure hstay
  | some o =>
      obtain ⟨hm, ht, -, -⟩ := h.order id o hfind
      by_cases hopen : o.status ≠ orderStatusOpen
      · simp only [if_pos hopen]
        exact Total.pure hstay
      simp only [if_neg hopen]
      have hle : (if o.baseOpen < maxBase then o.baseOpen else maxBase) ≤ o.baseOpen := by
        split
        · exact BitVec.le_refl _
        · exact BitVec.not_lt.mp ‹_›
      generalize (if o.baseOpen < maxBase then o.baseOpen else maxBase) = base at hle ⊢
      by_cases hbuy : o.side = orderSideBuy
      · have hq : Key.escrowQ o.maker ∈ Key.within A N := hm
        have hkey : escrowKey o = .escrowQ o.maker := if_pos hbuy
        simp only [if_pos hbuy]
        apply (exact_sub hinj hq _ .escrowQuoteUnderflow).bind
        intro r
        apply Total.assume
        rintro rfl
        by_cases hlt : B (.escrowQ o.maker) < quoteFloor base o.priceX18
        · simp only [if_pos hlt]
          exact Total.pure hstay
        · simp only [if_neg hlt]
          rw [← hkey] at hlt ⊢
          exact consistent_finishFill hinj h hn hfind (not_not.mp hopen) (BitVec.not_lt.mp hlt) hle _
      · have hb : Key.escrowB o.maker o.baseToken ∈ Key.within A N := ⟨hm, ht⟩
        have hkey : escrowKey o = .escrowB o.maker o.baseToken := if_neg hbuy
        simp only [if_neg hbuy]
        apply (exact_sub hinj hb _ .escrowBaseUnderflow).bind
        intro r
        apply Total.assume
        rintro rfl
        by_cases hlt : B (.escrowB o.maker o.baseToken) < base
        · simp only [if_pos hlt]
          exact Total.pure hstay
        · simp only [if_neg hlt]
          rw [← hkey] at hlt ⊢
          exact consistent_finishFill hinj h hn hfind (not_not.mp hopen) (BitVec.not_lt.mp hlt) hle _

/-- What one call preserves. -/
theorem BookOp.consistent (hN : N < 2 ^ 64) (op : BookOp) (hparties : ∀ a ∈ op.parties, a ∈ A)
    (hn : n + op.placements ≤ N) (h : Indexed A n B) :
    Total Op.execL (Exact A N B bal) op.program
      fun _ L => Consistent A N (n + op.placements) bal L := by
  cases op with
  | placeBuy m t price base blockNum =>
      apply (consistent_placeBuy hinj h hn hN (hparties m (by simp [parties]))
        (hparties t (by simp [parties])) price base blockNum).bind
      exact fun _ => Total.pure fun L hL => hL
  | placeSell m t price base blockNum =>
      apply (consistent_placeSell hinj h hn hN (hparties m (by simp [parties]))
        (hparties t (by simp [parties])) price base blockNum).bind
      exact fun _ => Total.pure fun L hL => hL
  | cancel actor id =>
      apply (consistent_cancel hinj h hn actor id).bind
      exact fun _ => Total.pure fun L hL => hL
  | fill taker id maxBase =>
      apply (consistent_fill hinj h hn taker id maxBase).bind
      exact fun _ => Total.pure fun L hL => hL

/-- What a history preserves. -/
theorem consistent_history (hN : N < 2 ^ 64) {ops : List BookOp}
    (hparties : ∀ op ∈ ops, ∀ a ∈ op.parties, a ∈ A) (hn : n + placements ops ≤ N) :
    Total Op.execL (Consistent A N n bal) (history ops)
      fun _ L => Consistent A N (n + placements ops) bal L := by
  induction ops generalizing n with
  | nil => exact Total.pure fun L hL => hL
  | cons op ops ih =>
      have hcount : placements (op :: ops) = op.placements + placements ops := by
        simp [placements]
      rw [hcount, ← Nat.add_assoc] at hn ⊢
      have hfirst : Total Op.execL (Consistent A N n bal) op.program
          fun _ L => Consistent A N (n + op.placements) bal L := by
        rintro L ⟨B, hL, h⟩
        exact BookOp.consistent hinj hN op (hparties op List.mem_cons_self) (by omega) h L hL
      apply hfirst.bind
      intro r
      apply (ih (fun o ho => hparties o (List.mem_cons_of_mem _ ho)) hn).bind
      intro rs
      exact Total.pure fun L hL => hL

end Step

/-! ## What a ledger shows of the index -/

/-- The words of the ledger itself are consistent. -/
theorem Indexed.of_exact {A : Set Address} {N n : ℕ} {B : Words} {bal : Address → U256} {L : Ledger}
    (h : Indexed A n B) (hL : Exact A N B bal L) (hn : n ≤ N) : Indexed A n (wordsOf L) := by
  have hnext : wordsOf L .nextID = B .nextID := hL.word .nextID trivial
  have hshows : Shows A N (2 ^ 256) B bal L :=
    ⟨fun k hk _ => hL.word k hk, fun t _ side _ => (BitVec.isLt _).le, hL.balance⟩
  have hfind : ∀ id, findOrder (wordsOf L) id = findOrder B id :=
    hshows.findOrder_eq (h.next.trans hn)
  have hby : ∀ m, openBy (wordsOf L) m = openBy B m := by
    intro m
    simp only [openBy, hfind]
  have hids : ∀ t ∈ A, ∀ side : U8, side.toNat < 2 →
      openIds (wordsOf L) t side = openIds B t side := by
    intro t ht side hside
    have hlen : openLen (wordsOf L) t side = openLen B t side := by
      have hword : wordsOf L (.openLen t side) = B (.openLen t side) :=
        hL.word (.openLen t side) ⟨ht, hside⟩
      rw [openLen, hword, openLen]
    have hle := h.openLen_le ht hside
    have hnext := h.next
    have hlt := (openLen B t side).isLt
    rw [openIds, hlen, openIds]
    refine listed_congr fun i hi => ?_
    have hidx : (BitVec.ofNat 64 i).toNat < N := by
      rw [BitVec.toNat_ofNat, Nat.mod_eq_of_lt (by omega)]
      omega
    have hword : wordsOf L (.openAt t side (BitVec.ofNat 64 i)) =
        B (.openAt t side (BitVec.ofNat 64 i)) :=
      hL.word (.openAt t side (BitVec.ofNat 64 i)) ⟨ht, hside, hidx⟩
    rw [openAt, hword, openAt]
  have hopen : ∀ t side id o, OpenOrder (wordsOf L) t side id o ↔ OpenOrder B t side id o :=
    fun t side id o => openOrder_congr (hfind id) t side o
  refine ⟨⟨by rw [hnext]; exact h.next, ?_, ?_, ?_⟩, ?_, ?_, ?_, ?_⟩
  · simp only [hfind, hnext]
    exact h.assigned
  · simp only [hfind]
    exact h.order
  · simp only [hfind]
    exact h.amount
  · intro t ht side hside
    rw [hids t ht side hside]
    exact h.nodup t ht side hside
  · intro t ht side hside
    simp only [hids t ht side hside, hopen]
    exact h.ids t ht side hside
  · intro m hm
    rw [hby, show wordsOf L (.openCount m) = B (.openCount m) from hL.word (.openCount m) hm]
    exact h.count m hm
  · intro m hm
    rw [hby]
    exact h.countLe m hm

/-- An empty book is consistent. -/
theorem indexed_zero (A : Set Address) : Indexed A 0 fun _ => 0 := by
  have hnone : ∀ id, findOrder (fun _ => 0) id = none := findOrder_of_next_zero rfl
  have hby : ∀ m, openBy (fun _ => 0) m = ∅ := by
    intro m
    ext id
    rw [mem_openBy, hnone]
    simp
  have hids : ∀ t side, openIds (fun _ => 0) t side = [] := fun _ _ => rfl
  refine ⟨⟨le_rfl, ?_, ?_, ?_⟩, ?_, ?_, ?_, ?_⟩
  · intro id hpos hle
    exact absurd hle (by simp; omega)
  · intro id o ho
    rw [hnone] at ho
    cases ho
  · intro id o ho
    rw [hnone] at ho
    cases ho
  · intro t _ side _
    rw [hids]
    exact List.nodup_nil
  · intro t _ side _ id
    rw [hids]
    refine iff_of_false List.not_mem_nil ?_
    rintro ⟨o, ho⟩
    have := ho.found
    rw [hnone] at this
    cases this
  · intro m _
    rw [hby]
    rfl
  · intro m _
    rw [hby]
    exact Nat.zero_le _

/-! ## The best price -/

section Best

variable {W : Words} {t : Address} {side : U8} {ph : Bool}

/-- One step of the search. -/
def improve (W : Words) (ph : Bool) (best : Option (U256 × U64)) (id : U64) : Option (U256 × U64) :=
  match findOrder W id with
  | none => best
  | some o =>
    if o.status ≠ orderStatusOpen then best
    else
      match best with
      | none => some (o.priceX18, id)
      | some b => if beats ph o.priceX18 id b then some (o.priceX18, id) else some b

theorem run_bestFrom (L : Ledger) (t : Address) (side : U8) (ph : Bool) (fuel i : ℕ)
    (best : Option (U256 × U64)) :
    (bestFrom t side ph fuel (BitVec.ofNat 64 i) best).run Op.execL L =
      .ok (((List.range' i fuel).map (openAt (wordsOf L) t side)).foldl (improve (wordsOf L) ph) best,
        L) := by
  induction fuel generalizing i best with
  | zero => rfl
  | succ fuel ih =>
      have hstep : BitVec.ofNat 64 i + 1 = BitVec.ofNat 64 (i + 1) := BitVec.ofNat_add_ofNat ..
      unfold bestFrom
      simp only [getU64, Program.run_bind, Program.run_pure, run_getU256, Program.ok_bind,
        run_getOrder, hstep]
      rw [List.range'_succ, List.map_cons, List.foldl_cons]
      exact ih (i + 1) _

theorem run_best (L : Ledger) (t : Address) (side : U8) (ph : Bool) :
    (best t side ph).run Op.execL L =
      .ok ((openIds (wordsOf L) t side).foldl (improve (wordsOf L) ph) none, L) := by
  unfold best
  simp only [getU64, Program.run_bind, Program.run_pure, run_getU256, Program.ok_bind]
  rw [openIds, listed, List.range_eq_range']
  exact run_bestFrom L t side ph _ 0 none

theorem beats_iff (ph : Bool) (price : U256) (id : U64) (b : U256 × U64) :
    beats ph price id b = true ↔
      (if ph then b.1.toNat < price.toNat else price.toNat < b.1.toNat) ∨
        price.toNat = b.1.toNat ∧ id.toNat < b.2.toNat := by
  have heq : price = b.1 ↔ price.toNat = b.1.toNat :=
    ⟨fun h => by rw [h], fun h => BitVec.eq_of_toNat_eq h⟩
  cases ph <;> simp [beats, heq, BitVec.lt_def]

/-- The best of the identifiers seen so far. -/
def Leads (W : Words) (ph : Bool) (ids : List U64) : Option (U256 × U64) → Prop
  | none => ids = []
  | some b => (b.2 ∈ ids ∧ ∃ o, findOrder W b.2 = some o ∧ o.priceX18 = b.1) ∧
    ∀ id ∈ ids, ∀ o, findOrder W id = some o → ¬beats ph o.priceX18 id b

theorem Leads.improve {ids : List U64} {best : Option (U256 × U64)} (h : Leads W ph ids best) {id : U64}
    {o : Order} (ho : findOrder W id = some o) (hopen : o.status = orderStatusOpen) :
    Leads W ph (ids ++ [id]) (improve W ph best id) := by
  have hself : ∀ p, findOrder W id = some p → ¬beats ph p.priceX18 id (o.priceX18, id) := by
    intro p hp
    obtain rfl : o = p := Option.some.inj (ho.symm.trans hp)
    rw [beats_iff]
    cases ph <;> simp
  have hmem : id ∈ ids ++ [id] := by simp
  unfold Orderbook.improve
  simp only [ho, hopen, ne_eq, not_true_eq_false, if_false]
  cases best with
  | none =>
      obtain rfl : ids = [] := h
      refine ⟨⟨hmem, o, ho, rfl⟩, fun x hx p hp => ?_⟩
      obtain rfl : x = id := by simpa using hx
      exact hself p hp
  | some b =>
      obtain ⟨⟨hb, hprice⟩, hall⟩ := h
      dsimp only
      split
      · rename_i hbeats
        refine ⟨⟨hmem, o, ho, rfl⟩, fun x hx p hp => ?_⟩
        rcases List.mem_append.mp hx with hx | hx
        · have hold := hall x hx p hp
          rw [beats_iff] at hbeats hold ⊢
          cases ph <;> simp at * <;> omega
        · obtain rfl : x = id := by simpa using hx
          exact hself p hp
      · rename_i hkeeps
        refine ⟨⟨List.mem_append_left _ hb, hprice⟩, fun x hx p hp => ?_⟩
        rcases List.mem_append.mp hx with hx | hx
        · exact hall x hx p hp
        · obtain rfl : x = id := by simpa using hx
          obtain rfl : o = p := Option.some.inj (ho.symm.trans hp)
          exact hkeeps

theorem leads_foldl {ids : List U64}
    (hopen : ∀ id ∈ ids, ∃ o, findOrder W id = some o ∧ o.status = orderStatusOpen) :
    Leads W ph ids (ids.foldl (improve W ph) none) := by
  induction ids using List.reverseRecOn with
  | nil => rfl
  | append_singleton ids id ih =>
      rw [List.foldl_append, List.foldl_cons, List.foldl_nil]
      obtain ⟨o, ho, hstatus⟩ := hopen id (by simp)
      exact (ih fun x hx => hopen x (List.mem_append_left _ hx)).improve ho hstatus

/-- The best open order: the highest price, or the lowest, and among equals the lowest identifier. -/
def IsBest (W : Words) (t : Address) (side : U8) (ph : Bool) : Option (U256 × U64) → Prop
  | none => ∀ id o, ¬OpenOrder W t side id o
  | some (price, id) => (∃ o, OpenOrder W t side id o ∧ o.priceX18 = price) ∧
    ∀ id' o', OpenOrder W t side id' o' →
      (if ph then o'.priceX18 < price else price < o'.priceX18) ∨ o'.priceX18 = price ∧ id ≤ id'

theorem Leads.isBest {ids : List U64} {best : Option (U256 × U64)} (h : Leads W ph ids best)
    (hids : ∀ id, id ∈ ids ↔ ∃ o, OpenOrder W t side id o) : IsBest W t side ph best := by
  cases best with
  | none =>
      obtain rfl : ids = [] := h
      intro id o ho
      have := (hids id).mpr ⟨o, ho⟩
      cases this
  | some b =>
      obtain ⟨⟨hb, o, ho, hprice⟩, hall⟩ := h
      refine ⟨?_, fun id' o' ho' => ?_⟩
      · obtain ⟨p, hp⟩ := (hids b.2).mp hb
        obtain rfl : o = p := Option.some.inj (ho.symm.trans hp.found)
        exact ⟨o, hp, hprice⟩
      · have hnot := hall id' ((hids id').mpr ⟨o', ho'⟩) o' ho'.found
        have heq : o'.priceX18 = b.1 ↔ o'.priceX18.toNat = b.1.toNat :=
          ⟨fun h => by rw [h], fun h => BitVec.eq_of_toNat_eq h⟩
        rw [beats_iff] at hnot
        rw [heq, BitVec.le_def, BitVec.lt_def, BitVec.lt_def]
        cases ph <;> simp at hnot ⊢ <;> omega

end Best

/-! ## Every history -/

/-- Index, counts and orders of the participants agree, and the best prices are found. -/
structure IndexConsistent (A : Set Address) (L : Ledger) : Prop where
  /-- The slots of an index hold the open orders of its token and side, each once. -/
  index : ∀ t ∈ A, ∀ side : U8, side.toNat < 2 → (openIds (wordsOf L) t side).Nodup ∧
    ∀ id, id ∈ openIds (wordsOf L) t side ↔ ∃ o, OpenOrder (wordsOf L) t side id o
  /-- The count of a maker is the number of its open orders, within the maximum. -/
  count : ∀ m ∈ A, ∃ c, (openCount m).run Op.execL L = .ok (c, L) ∧
    c.toNat = (openBy (wordsOf L) m).card ∧ c ≤ orderbookMaxOpenPerMaker
  /-- An assigned order is open while something of it is left, never more than there was. -/
  order : ∀ id : U64, 1 ≤ id.toNat → id.toNat ≤ (wordsOf L .nextID).toNat →
    ∃ o, (getOrder id).run Op.execL L = .ok (some o, L) ∧
      (o.status = orderStatusOpen ↔ 0 < o.baseOpen) ∧ o.baseOpen ≤ o.baseOrig
  bid : ∀ t ∈ A, ∃ r, (bestBid t).run Op.execL L = .ok (r, L) ∧
    IsBest (wordsOf L) t orderSideBuy true r
  ask : ∀ t ∈ A, ∃ r, (bestAsk t).run Op.execL L = .ok (r, L) ∧
    IsBest (wordsOf L) t orderSideSell false r

theorem Indexed.indexConsistent {A : Set Address} {n : ℕ} {L : Ledger}
    (h : Indexed A n (wordsOf L)) : IndexConsistent A L := by
  have hbest : ∀ t ∈ A, ∀ side : U8, side.toNat < 2 → ∀ ph,
      ∃ r, (best t side ph).run Op.execL L = .ok (r, L) ∧ IsBest (wordsOf L) t side ph r := by
    intro t ht side hside ph
    refine ⟨_, run_best L t side ph, (leads_foldl fun id hid => ?_).isBest (h.ids t ht side hside)⟩
    obtain ⟨o, ho⟩ := (h.ids t ht side hside id).mp hid
    exact ⟨o, ho.found, ho.status⟩
  refine ⟨fun t ht side hside => ⟨h.nodup t ht side hside, h.ids t ht side hside⟩, fun m hm => ?_,
    fun id hpos hle => ?_, fun t ht => hbest t ht _ (by decide) true,
    fun t ht => hbest t ht _ (by decide) false⟩
  · have hrun : (openCount m).run Op.execL L = .ok (countOf (wordsOf L) m, L) := by
      simp only [openCount, getU64, Program.run_bind, Program.run_pure, run_getU256, Program.ok_bind]
      rfl
    refine ⟨_, hrun, h.countOf_toNat hm, ?_⟩
    rw [BitVec.le_def, h.countOf_toNat hm]
    exact h.countLe m hm
  · obtain ⟨o, ho⟩ := Option.isSome_iff_exists.mp (h.assigned id hpos hle)
    obtain ⟨hstatus, hle'⟩ := h.amount id o ho
    have hlt : 0 < o.baseOpen ↔ o.baseOpen ≠ 0 := by
      rw [BitVec.lt_def]
      constructor
      · rintro hlt h0
        rw [h0] at hlt
        exact absurd hlt (lt_irrefl _)
      · intro hne
        have : o.baseOpen.toNat ≠ 0 := fun h0 => hne (BitVec.eq_of_toNat_eq h0)
        exact Nat.pos_of_ne_zero this
    exact ⟨o, by rw [run_getOrder, ho], by rw [hlt]; exact hstatus, hle'⟩

/-- After every history of fewer than `2 ^ 64` placements on a fresh module the index is
consistent. -/
theorem index_consistent (A : Set Address) (ops : List BookOp) (s : StateDB)
    (hparties : ∀ op ∈ ops, ∀ a ∈ op.parties, a ∈ A) (hcount : placements ops < 2 ^ 64)
    (hinj : Set.InjOn Key.slot (Key.within A (placements ops)))
    (hfresh : ∀ k ∈ Key.within A (placements ops),
      s.slotOf ⟨orderbookModuleAddr, k.slot⟩ = 0) :
    ∃ outs t, (history ops).run Op.exec s = .ok (outs, t) ∧ IndexConsistent A t.view := by
  have hstart : Consistent A (placements ops) 0 s.view.balance s.view :=
    ⟨fun _ => 0, ⟨fun k hk => hfresh k hk, rfl⟩, indexed_zero A⟩
  obtain ⟨outs, L, hrun, B, hL, hB⟩ := consistent_history hinj hcount hparties (by simp) _ hstart
  obtain ⟨t, hexec, rfl⟩ := StateProgram.run_of_view hrun
  exact ⟨outs, t, hexec, (hB.of_exact hL (by simp)).indexConsistent⟩

/-- A buy order that is filled in part and then cancelled leaves a consistent index. -/
theorem sole_history_indexed :
    ∃ outs t, (history soleHistory).run Op.exec (StateDB.new ∅) = .ok (outs, t) ∧
      IndexConsistent {7} t.view := by
  have hinj : Set.InjOn Key.slot (Key.within {7} (placements soleHistory)) := soleKeys_injOn
  exact index_consistent {7} soleHistory (StateDB.new ∅) (by simp [soleHistory, BookOp.parties])
    (by decide) hinj fun _ _ => rfl

end Dew.Orderbook
