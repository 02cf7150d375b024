/-
# What a state database shows

The caches of a `StateDB` are transparent: what a read returns depends only on the cached value,
or else on the database row. This module names those values (`object?`, `slotOf`, `codeOf`, and
over them `balanceOf`, `nonceOf`, `codeBytes`) and shows that the reads of the source return them.

It also says once what an operation can do to the caches: `Store.Step` lists the elementary
changes, and every operation of the source is a sequence of them (the `steps_` lemmas). Invariants
of the caches are then proved for the elementary changes only.
-/
import Dew.StateDB
import Mathlib.Logic.Relation

namespace Dew

/-! ## Transparent views of the caches -/

namespace Store

/-- The account object of an address: the cached one, else the database row. -/
def object? (s : Store) (a : Address) : Option Account :=
  (s.accounts.get? a).or (s.db.account? a)

/-- The value of a slot: the cached one, else the database row. -/
def slotOf (s : Store) (id : StorageID) : Hash :=
  (s.storage.get? id).getD (s.db.slot id)

/-- The code with a given hash: the cached one, else the database row. -/
def codeOf (s : Store) (h : Hash) : Bytes :=
  ((s.code.get? h).or (s.db.code? h)).getD []

end Store

namespace StateDB

/-- The account a read finds: none for destroyed accounts. -/
def account? (s : StateDB) (a : Address) : Option Account :=
  if a ∈ s.suicides then none else s.object? a

def balanceOf (s : StateDB) (a : Address) : U256 :=
  ((s.account? a).map Account.balance).getD 0

def nonceOf (s : StateDB) (a : Address) : U64 :=
  ((s.account? a).map Account.nonce).getD 0

def codeHashOf (s : StateDB) (a : Address) : Hash :=
  ((s.account? a).map Account.codeHash).getD emptyCodeHash

def codeBytes (s : StateDB) (a : Address) : Bytes :=
  if s.codeHashOf a = emptyCodeHash then [] else s.codeOf (s.codeHashOf a)

/-- What `Empty` answers: whether the account found is missing or empty. -/
def emptyAt (s : StateDB) (a : Address) : Bool :=
  match s.account? a with
  | none => true
  | some acc => acc.isEmpty

/-- The account cache after looking `a` up. -/
def loaded (s : StateDB) (a : Address) : GoMap Address Account :=
  (s.getAccount a).2.accounts

/-- Looking an account up finds `account?` and changes nothing but the account cache. -/
theorem getAccount_eq (s : StateDB) (a : Address) :
    s.getAccount a = (s.account? a, { s with accounts := s.loaded a }) := by
  unfold loaded getAccount account? Store.object?
  split
  · rfl
  · cases s.accounts.get? a with
    | some acc => rfl
    | none => cases s.db.account? a <;> rfl

theorem get?_loaded (s : StateDB) (a b : Address) :
    (s.loaded a).get? b =
      if b = a ∧ a ∉ s.suicides then s.object? a else s.accounts.get? b := by
  unfold loaded getAccount Store.object?
  by_cases hdead : a ∈ s.suicides
  · simp [hdead]
  · by_cases hab : b = a
    · subst hab
      cases hacc : s.accounts.get? b with
      | some acc => simp [hdead, hacc]
      | none => cases s.db.account? b <;> simp [hdead, hacc, GoMap.get?_set]
    · cases s.accounts.get? a with
      | some acc => simp [hdead, hab]
      | none => cases s.db.account? a <;> simp [hdead, hab, GoMap.get?_set]

theorem empty_eq (s : StateDB) (a : Address) :
    s.empty a = (s.emptyAt a, { s with accounts := s.loaded a }) := by
  unfold empty emptyAt
  rw [getAccount_eq]
  cases s.account? a <;> rfl

@[simp] theorem getBalance_fst (s : StateDB) (a : Address) :
    (s.getBalance a).1 = s.balanceOf a := by
  unfold getBalance
  rw [getAccount_eq]
  rfl

@[simp] theorem getNonce_fst (s : StateDB) (a : Address) :
    (s.getNonce a).1 = s.nonceOf a := by
  unfold getNonce
  rw [getAccount_eq]
  rfl

theorem getCodeHash_eq (s : StateDB) (a : Address) :
    s.getCodeHash a = (s.codeHashOf a,
      { s.noteRead (accountKey a) with accounts := (s.noteRead (accountKey a)).loaded a }) := by
  unfold getCodeHash
  rw [getAccount_eq]
  rfl

theorem codeByHash_fst (s : StateDB) (h : Hash) :
    (s.codeByHash h).1 = if h = emptyCodeHash then [] else s.codeOf h := by
  unfold codeByHash Store.codeOf
  split
  · rfl
  · cases s.code.get? h with
    | some c => rfl
    | none => cases s.db.code? h <;> rfl

@[simp] theorem getCode_fst (s : StateDB) (a : Address) :
    (s.getCode a).1 = s.codeBytes a := by
  unfold getCode
  rw [getCodeHash_eq]
  exact codeByHash_fst _ _

@[simp] theorem getState_fst (s : StateDB) (id : StorageID) :
    (s.getState id).1 = s.slotOf id := by
  have hcache : (s.noteRead (storageKey id)).storage = s.storage := rfl
  have hdb : (s.noteRead (storageKey id)).db = s.db := rfl
  unfold getState Store.slotOf Database.slot
  dsimp only
  rw [hcache, hdb]
  cases s.storage.get? id with
  | some v => rfl
  | none => cases s.db.slot? id <;> rfl

end StateDB

/-! ## Elementary changes of the caches -/

namespace Store

/-- The elementary changes an operation can make to the caches. -/
inductive Step (s : Store) : Store → Prop
  | loadAccount {a : Address} {acc : Account} (hmiss : s.accounts.get? a = none)
      (hrow : s.db.account? a = some acc) :
      Step s { s with accounts := s.accounts.set a acc }
  | putAccount (a : Address) (acc : Account) :
      Step s { s with
        accounts := s.accounts.set a acc, accountDirty := s.accountDirty.insert a }
  | forgetAccount (a : Address) :
      Step s { s with
        accounts := s.accounts.delete a, accountDirty := s.accountDirty.filter (· ≠ a) }
  | loadSlot {id : StorageID} {v : Hash} (hmiss : s.storage.get? id = none)
      (hrow : s.db.slot? id = some v) :
      Step s { s with storage := s.storage.set id v }
  | putSlot (id : StorageID) (v : Hash) :
      Step s { s with
        storage := s.storage.set id v, storageDirty := s.storageDirty.insert id }
  | putCode (h : Hash) (c : Bytes) :
      Step s { s with code := s.code.set h c }

/-- Any number of elementary changes. -/
abbrev Steps : Store → Store → Prop :=
  Relation.ReflTransGen Step

theorem Steps.db_eq {s t : Store} (h : Steps s t) : t.db = s.db := by
  induction h with
  | refl => rfl
  | tail _ hstep ih => cases hstep <;> exact ih

end Store

namespace StateDB

open Store

theorem steps_getAccount (s : StateDB) (a : Address) :
    Steps s.toStore (s.getAccount a).2.toStore := by
  unfold getAccount
  split
  · exact .refl
  · cases hacc : s.accounts.get? a with
    | some acc => exact .refl
    | none =>
        cases hrow : s.db.account? a with
        | some acc => exact .single (.loadAccount hacc hrow)
        | none => exact .refl

theorem steps_putAccount (s : StateDB) (a : Address) (acc : Account) :
    Steps s.toStore (s.putAccount a acc).toStore :=
  .single (.putAccount a acc)

theorem steps_putSlot (s : StateDB) (id : StorageID) (v : Hash) :
    Steps s.toStore (s.putSlot id v).toStore :=
  .single (.putSlot id v)

theorem steps_putCode (s : StateDB) (h : Hash) (c : Bytes) :
    Steps s.toStore (s.putCode h c).toStore :=
  .single (.putCode h c)

theorem steps_getOrNewAccount (s : StateDB) (a : Address) :
    Steps s.toStore (s.getOrNewAccount a).2.toStore := by
  have hget := steps_getAccount s a
  unfold getOrNewAccount
  split
  · rename_i heq
    rwa [heq] at hget
  · rename_i heq
    rw [heq] at hget
    exact hget.trans (steps_putAccount _ a newAccount)

theorem steps_codeByHash (s : StateDB) (h : Hash) :
    Steps s.toStore (s.codeByHash h).2.toStore := by
  unfold codeByHash
  split
  · exact .refl
  · split
    · exact .refl
    · split
      · exact steps_putCode s _ _
      · exact .refl

theorem steps_getCode (s : StateDB) (a : Address) :
    Steps s.toStore (s.getCode a).2.toStore :=
  (steps_getAccount ((s.noteRead (accountKey a)).noteRead (accountKey a)) a).trans
    (steps_codeByHash _ _)

theorem steps_getState (s : StateDB) (id : StorageID) :
    Steps s.toStore (s.getState id).2.toStore := by
  unfold getState
  simp only
  cases hslot : (s.noteRead (storageKey id)).storage.get? id with
  | some v => exact .refl
  | none =>
      cases hrow : (s.noteRead (storageKey id)).db.slot? id with
      | some v => exact .single (.loadSlot hslot hrow)
      | none => exact .refl

theorem steps_updateAccount (s : StateDB) (a : Address) (entry : Account → JournalEntry)
    (f : Account → Account) : Steps s.toStore (s.updateAccount a entry f).2.toStore :=
  (steps_getOrNewAccount (s.noteWrite (accountKey a)) a).trans
    (steps_putAccount (appendJournal _ _) a _)

theorem steps_updateBalance (s : StateDB) (a : Address) (f : U256 → U256) :
    Steps s.toStore (s.updateBalance a f).2.toStore :=
  steps_updateAccount s a (fun acc => .balanceChange a acc.balance)
    (fun acc => { acc with balance := f acc.balance })

theorem steps_installCode (s : StateDB) (a : Address) (acc : Account) (c : Bytes) :
    Steps s.toStore (s.installCode a acc c).toStore := by
  unfold installCode
  split
  · exact steps_putAccount s a _
  · exact (steps_putCode s _ _).trans (steps_putAccount _ a _)

theorem steps_setCodeJournaled (s : StateDB) (a : Address) (c : Bytes) :
    Steps s.toStore (s.setCodeJournaled a c).toStore := by
  have hget := steps_getOrNewAccount (s.noteWrite (accountKey a)) a
  unfold setCodeJournaled
  generalize (s.noteWrite (accountKey a)).getOrNewAccount a = found at hget ⊢
  obtain ⟨acc, s₂⟩ := found
  have hprev : Steps s₂.toStore (s₂.previousCode a acc).2.toStore := by
    unfold previousCode
    split
    · exact .refl
    · exact steps_getCode s₂ a
  exact hget.trans (hprev.trans (steps_installCode (appendJournal _ _) a acc c))

theorem steps_createAccount (s : StateDB) (a : Address) :
    Steps s.toStore (s.createAccount a).toStore :=
  (steps_getAccount (s.noteWrite (accountKey a)) a).trans
    (steps_putAccount (appendJournal _ _) a _)

theorem steps_setState (s : StateDB) (id : StorageID) (v : Hash) :
    Steps s.toStore (s.setState id v).toStore :=
  (steps_getOrNewAccount (s.noteWrite (storageKey id)) id.addr).trans (steps_putSlot _ id v)

theorem steps_setStateJournaled (s : StateDB) (id : StorageID) (v : Hash) :
    Steps s.toStore (s.setStateJournaled id v).2.toStore := by
  have hget := steps_getState s id
  unfold setStateJournaled
  simp only
  split
  · exact hget
  · let prev := (s.getState id).1
    let s₁ := ((s.getState id).2.noteWrite (storageKey id)).inScope (·.recordOrigin id prev)
    have hnew := steps_getOrNewAccount
      (appendJournal s₁ (.storageChange id.addr id.slot prev)) id.addr
    exact hget.trans (hnew.trans (steps_putSlot _ id v))

theorem steps_selfDestruct (s : StateDB) (a : Address) :
    Steps s.toStore (s.selfDestruct a).2.toStore := by
  have hget := steps_getAccount s a
  unfold selfDestruct
  split
  · rename_i heq
    rwa [heq] at hget
  · rename_i heq
    rw [heq] at hget
    exact hget.trans (steps_putAccount _ a _)

theorem steps_selfDestruct6780 (s : StateDB) (a : Address) :
    Steps s.toStore (s.selfDestruct6780 a).2.toStore := by
  unfold selfDestruct6780
  split
  · exact steps_selfDestruct s a
  · have hget := steps_getAccount s a
    split
    · rename_i heq
      rwa [heq] at hget
    · rename_i heq
      rw [heq] at hget
      exact hget.trans (steps_putAccount _ a _)

theorem steps_reviseAccount (s : StateDB) (a : Address) (f : Account → Account) :
    Steps s.toStore (s.reviseAccount a f).toStore :=
  (steps_getOrNewAccount s a).trans (steps_putAccount _ a _)

theorem steps_revert (s : StateDB) (e : JournalEntry) :
    Steps s.toStore (e.revert s).toStore := by
  cases e with
  | balanceChange a prev => exact steps_reviseAccount s a _
  | nonceChange a prev => exact steps_reviseAccount s a _
  | codeChange a prevHash prevCode =>
      show Steps s.toStore (reviseAccount (ite _ _ _) a _).toStore
      split
      · exact (steps_putCode s _ _).trans (steps_reviseAccount _ a _)
      · exact steps_reviseAccount s a _
  | storageChange a key prevalue => exact steps_putSlot s _ _
  | createObjectChange a => exact .single (.forgetAccount a)
  | suicideChange a prev prevBalance =>
      let s₁ := s.inScope (·.restoreSuicide a prev)
      have hget := steps_getAccount s₁ a
      rw [JournalEntry.revert]
      split
      · rename_i heq
        rw [show s₁.getAccount a = _ from heq] at hget
        exact hget.trans (steps_putAccount _ a _)
      · rename_i heq
        rwa [show s₁.getAccount a = _ from heq] at hget
  | refundChange | addLogChange | accessListAddAccountChange | accessListAddSlotChange
  | transientStorageChange | touchChange => exact .refl

theorem steps_journalRevert (s : StateDB) (index : ℕ) :
    Steps s.toStore (s.journalRevert index).toStore := by
  have hfold : ∀ (l : List JournalEntry) (t : StateDB),
      Steps t.toStore (l.foldl JournalEntry.revert t).toStore := by
    intro l
    induction l with
    | nil => exact fun _ => .refl
    | cons e l ih => exact fun t => (steps_revert t e).trans (ih _)
  exact hfold _ s

theorem steps_revertToSnapshot {s t : StateDB} {revid : ℕ}
    (h : s.revertToSnapshot revid = .ok t) : Steps s.toStore t.toStore := by
  unfold revertToSnapshot at h
  split at h
  · cases h
  · cases h
    exact steps_journalRevert s _

end StateDB

end Dew
