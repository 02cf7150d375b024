/-
# Storage of a native module, by named words

A native module keeps its state in storage slots of its own account, found by hashing a name. Over
a set of names whose slots do not collide, the storage is a family of words: reading a name gives
its word, and writing one changes this word alone. `Holds` says which words a ledger holds, together
with its balances, which storage accesses leave alone.
-/
import Dew.Staking

namespace Dew

open Program

variable {κ : Type}

theorem slot_touch (L : Ledger) (a : Address) : (L.touch a).slot = L.slot := by
  unfold Ledger.touch
  split <;> rfl

/-- Writing one name of a family without collisions changes its word alone. -/
theorem slot_setState [DecidableEq κ] {L : Ledger} {module : Address} {slot : κ → Hash} {K : Set κ}
    (hinj : Set.InjOn slot K) {k k' : κ} (hk : k ∈ K) (hk' : k' ∈ K) (v : U256) :
    (L.setState ⟨module, slot k⟩ v).slot ⟨module, slot k'⟩ =
      if k' = k then v else L.slot ⟨module, slot k'⟩ := by
  show Function.update (L.touch module).slot ⟨module, slot k⟩ v ⟨module, slot k'⟩ = _
  rw [slot_touch]
  by_cases heq : k' = k
  · subst heq
    rw [Function.update_self, if_pos rfl]
  · rw [Function.update_of_ne, if_neg heq]
    intro hslot
    exact heq (hinj hk' hk (StorageID.mk.inj hslot).2)

theorem balance_setState (L : Ledger) (id : StorageID) (v : Hash) :
    (L.setState id v).balance = L.balance := by
  funext a
  show (L.touch id.addr).balance a = L.balance a
  unfold Ledger.touch
  cases hacc : L.account? id.addr with
  | some acc => rfl
  | none =>
      -- the account that comes into being has no balance, and its destroyed mark stays
      by_cases ha : a = id.addr
      · subst ha
        unfold Ledger.balance
        rw [hacc]
        unfold Ledger.account? Ledger.setObject
        simp only [Function.update_self]
        split <;> rfl
      · simp [Ledger.balance, Ledger.account?, Ledger.setObject, ha]

/-- The ledger holds the words `B` under the names of `K`, and has the given balances. -/
structure Holds (module : Address) (slot : κ → Hash) (K : Set κ) (B : κ → U256)
    (bal : Address → U256) (L : Ledger) : Prop where
  word : ∀ k ∈ K, L.slot ⟨module, slot k⟩ = B k
  balance : L.balance = bal

namespace Holds

variable {module : Address} {slot : κ → Hash} {K : Set κ} {B : κ → U256} {bal : Address → U256}

theorem load {k : κ} (hk : k ∈ K) :
    Total Op.execL (Holds module slot K B bal) (Op.getState ⟨module, slot k⟩).call
      fun v L => v = B k ∧ Holds module slot K B bal L := by
  apply Total.op
  intro L hL
  exact ⟨_, L, rfl, hL.word k hk, hL⟩

theorem setState [DecidableEq κ] {L : Ledger} (hinj : Set.InjOn slot K) {k : κ} (hk : k ∈ K)
    (hL : Holds module slot K B bal L) (v : U256) :
    Holds module slot K (Function.update B k v) bal (L.setState ⟨module, slot k⟩ v) where
  word k' hk' := by
    rw [slot_setState hinj hk hk', Function.update_apply, hL.word k' hk']
  balance := by
    rw [balance_setState, hL.balance]

theorem store [DecidableEq κ] (hinj : Set.InjOn slot K) {k : κ} (hk : k ∈ K) (v : U256) :
    Total Op.execL (Holds module slot K B bal) (Op.setState ⟨module, slot k⟩ v).call
      fun _ L => Holds module slot K (Function.update B k v) bal L := by
  apply Total.op
  intro L hL
  exact ⟨(), _, rfl, hL.setState hinj hk v⟩

end Holds

/-- The slots of a finite list of names do not collide if the digests of the names differ. -/
theorem injOn_of_digests {slot : κ → Hash} {name : κ → Bytes}
    (hslot : ∀ k, slot k = BitVec.ofNat 256 (Keccak.evalNat (name k))) {K : Set κ} {l : List κ}
    (hK : ∀ k ∈ K, k ∈ l)
    (hl : (l.map fun k => BitVec.ofNat 256 (Keccak.evalNat (name k))).Nodup) :
    Set.InjOn slot K := by
  intro k hk k' hk' h
  rw [hslot, hslot] at h
  exact List.inj_on_of_nodup_map hl (hK k hk) (hK k' hk') h

/-! ## Storage accesses -/

/-- The reads and writes of storage that native modules make. -/
def Op.IsStorage : Op → Prop
  | .getState _ | .setState _ _ => True
  | _ => False

/-- A program that only accesses storage does not fail. -/
theorem run_ok_of_isStorage {α : Type} {p : StateProgram α} (hp : p.Calls Op.IsStorage)
    (L : Ledger) : ∃ a L', p.run Op.execL L = .ok (a, L') := by
  refine Calls.run_ok ?_ hp L
  intro op hop L
  cases op with
  | getState id => exact ⟨_, _, rfl⟩
  | setState id v => exact ⟨_, _, rfl⟩
  | _ => cases hop

/-! ## Storage given by a table -/

/-- A state database over nothing whose storage is given by a table. -/
def tableDB {κ : Type} (module : Address) (slot : κ → Hash) (l : List (κ × U256)) : StateDB :=
  { StateDB.new ∅ with storage := l.foldr (fun e m => m.set ⟨module, slot e.1⟩ e.2) ∅ }

theorem slot_tableDB {κ : Type} [DecidableEq κ] {module : Address} {slot : κ → Hash} {K : Set κ}
    (hinj : Set.InjOn slot K) {l : List (κ × U256)} (hl : ∀ e ∈ l, e.1 ∈ K) {k : κ} (hk : k ∈ K) :
    (tableDB module slot l).view.slot ⟨module, slot k⟩ = (l.lookup k).getD 0 := by
  induction l with
  | nil => rfl
  | cons e l ih =>
      obtain ⟨k', v⟩ := e
      have hstep : (tableDB module slot ((k', v) :: l)).view.slot ⟨module, slot k⟩ =
          if k = k' then v else (tableDB module slot l).view.slot ⟨module, slot k⟩ := by
        show Store.slotOf _ _ = if k = k' then v else Store.slotOf _ _
        simp only [tableDB, Store.slotOf, List.foldr_cons, GoMap.get?_set]
        by_cases h : k = k'
        · rw [h, if_pos rfl, if_pos rfl]
          rfl
        · rw [if_neg h, if_neg]
          intro heq
          exact h (hinj hk (hl _ List.mem_cons_self) (StorageID.mk.inj heq).2)
      rw [hstep, ih fun e he => hl e (List.mem_cons_of_mem _ he), List.lookup_cons]
      by_cases h : k = k'
      · simp [h]
      · have hbeq : (k == k') = false := by simpa using h
        rw [if_neg h, hbeq]

end Dew
