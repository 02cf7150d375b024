/-
# The ledger behind the caches

`Ledger` is the abstract state of a `StateDB`: total functions from addresses and slots to what the
caches show, the values stored in the database, and the bookkeeping of the transaction. Reads do
not change it. Each method of the interface has its effect on ledgers (`Op.execL`), and `view` maps
the state database to its ledger so that every method, and hence every program over the interface,
does on the ledger what it does on the caches (`Op.exec_view`, `StateProgram.run_view`).
-/
import Dew.Ops
import Mathlib.Logic.Function.Basic

namespace Dew

/-- What a state database shows, what its database holds, and the transaction's bookkeeping. -/
@[ext] structure Ledger extends TxScope where
  /-- The account objects, destroyed or not. -/
  object : Address → Option Account
  /-- The addresses with an object or a database row. -/
  present : Address → Bool
  slot : StorageID → Hash
  code : Hash → Bytes
  /-- The account objects of the database rows. -/
  rowObject : Address → Option Account
  rowPresent : Address → Bool
  rowSlot : StorageID → Hash

namespace Ledger

/-! ## Reads -/

/-- The account a read finds: none for destroyed accounts. -/
def account? (L : Ledger) (a : Address) : Option Account :=
  if a ∈ L.suicides then none else L.object a

/-- The account a write starts from. -/
def accountOrNew (L : Ledger) (a : Address) : Account :=
  (L.account? a).getD newAccount

def balance (L : Ledger) (a : Address) : U256 :=
  ((L.account? a).map Account.balance).getD 0

def nonce (L : Ledger) (a : Address) : U64 :=
  ((L.account? a).map Account.nonce).getD 0

def codeHash (L : Ledger) (a : Address) : Hash :=
  ((L.account? a).map Account.codeHash).getD emptyCodeHash

def codeBytes (L : Ledger) (a : Address) : Bytes :=
  if L.codeHash a = emptyCodeHash then [] else L.code (L.codeHash a)

def exist (L : Ledger) (a : Address) : Bool :=
  if a ∈ L.suicides then false else L.present a

def emptyAt (L : Ledger) (a : Address) : Bool :=
  match L.account? a with
  | none => true
  | some acc => acc.isEmpty

def committed (L : Ledger) (id : StorageID) : Hash :=
  match L.storageOrigin.get? id with
  | some v => v
  | none => L.rowSlot id

/-! ## Writes -/

def inScope (L : Ledger) (f : TxScope → TxScope) : Ledger :=
  { L with toTxScope := f L.toTxScope }

def record (L : Ledger) (e : JournalEntry) : Ledger :=
  L.inScope (·.appendJournal e)

def setObject (L : Ledger) (a : Address) (acc : Account) : Ledger :=
  { L with
    object := Function.update L.object a (some acc)
    present := Function.update L.present a true }

/-- A missing account comes into being, without a journal entry. -/
def touch (L : Ledger) (a : Address) : Ledger :=
  match L.account? a with
  | some _ => L
  | none => L.setObject a newAccount

def setSlot (L : Ledger) (id : StorageID) (v : Hash) : Ledger :=
  { L with slot := Function.update L.slot id v }

def putCode (L : Ledger) (h : Hash) (c : Bytes) : Ledger :=
  { L with code := Function.update L.code h c }

def updateAccount (L : Ledger) (a : Address) (entry : Account → JournalEntry)
    (f : Account → Account) : Ledger :=
  (L.record (entry (L.accountOrNew a))).setObject a (f (L.accountOrNew a))

def updateBalance (L : Ledger) (a : Address) (f : U256 → U256) : Ledger :=
  L.updateAccount a (fun acc => .balanceChange a acc.balance)
    (fun acc => { acc with balance := f acc.balance })

def setNonce (L : Ledger) (a : Address) (n : U64) : Ledger :=
  L.updateAccount a (fun acc => .nonceChange a acc.nonce) (fun acc => { acc with nonce := n })

def installCode (L : Ledger) (a : Address) (acc : Account) (c : Bytes) : Ledger :=
  if c = [] then L.setObject a { acc with codeHash := emptyCodeHash }
  else (L.putCode (keccak256Hash c) c).setObject a { acc with codeHash := keccak256Hash c }

def setCode (L : Ledger) (a : Address) (c : Bytes) : Ledger :=
  (L.record (.codeChange a (L.accountOrNew a).codeHash (L.codeBytes a))).installCode a
    (L.accountOrNew a) c

def createAccount (L : Ledger) (a : Address) : Ledger :=
  (L.record (.createObjectChange a)).setObject a { newAccount with balance := L.balance a }

def setState (L : Ledger) (id : StorageID) (v : Hash) : Ledger :=
  (L.touch id.addr).setSlot id v

def setStateJournaled (L : Ledger) (id : StorageID) (v : Hash) : Ledger :=
  if L.slot id = v then L
  else
    (((L.inScope (·.recordOrigin id (L.slot id))).record
      (.storageChange id.addr id.slot (L.slot id))).touch id.addr).setSlot id v

def selfDestruct (L : Ledger) (a : Address) : Ledger :=
  match L.account? a with
  | none => L
  | some acc =>
    let L := L.record (.suicideChange a (decide (a ∈ L.suicides)) acc.balance)
    (L.inScope fun s => { s with suicides := s.suicides.insert a }).setObject a
      { acc with balance := 0 }

def selfDestruct6780 (L : Ledger) (a : Address) : (U256 × Bool) × Ledger :=
  if a ∈ L.newContracts then ((L.balance a, true), L.selfDestruct a)
  else
    match L.account? a with
    | none => ((0, false), L)
    | some acc =>
      ((acc.balance, false),
        (L.record (.balanceChange a acc.balance)).setObject a { acc with balance := 0 })

/-- An account falls back to its database row. -/
def dropObject (L : Ledger) (a : Address) : Ledger :=
  { L with
    object := Function.update L.object a (L.rowObject a)
    present := Function.update L.present a (L.rowPresent a) }

/-! ## Undoing -/

def revertEntry (L : Ledger) (e : JournalEntry) : Ledger :=
  let L := L.inScope e.revertScope
  match e with
  | .balanceChange a prev => L.setObject a { L.accountOrNew a with balance := prev }
  | .nonceChange a prev => L.setObject a { L.accountOrNew a with nonce := prev }
  | .codeChange a prevHash prevCode =>
    let L := if prevHash ≠ emptyCodeHash ∧ prevCode ≠ [] then L.putCode prevHash prevCode else L
    L.setObject a { L.accountOrNew a with codeHash := prevHash }
  | .storageChange a key prevalue => L.setSlot ⟨a, key⟩ prevalue
  | .createObjectChange a => L.dropObject a
  | .suicideChange a _ prevBalance =>
    match L.account? a with
    | some acc => L.setObject a { acc with balance := prevBalance }
    | none => L
  | _ => L

def journalRevert (L : Ledger) (index : ℕ) : Ledger :=
  let n := L.journal.entries.length - index
  let L' := (L.journal.entries.take n).foldl revertEntry L
  L'.inScope fun s => { s with journal := { s.journal with entries := L.journal.entries.drop n } }

def revertToSnapshot (L : Ledger) (revid : ℕ) : Except Panic Ledger :=
  match StateDB.findRevision revid L.validRevisions with
  | none => .error .invalidSnapshotID
  | some (index, older) =>
    .ok ((L.journalRevert index).inScope fun s => { s with validRevisions := older })

end Ledger

/-- The effect of a method on the ledger. -/
def Op.execL : (op : Op) → Ledger → Except Panic (op.Result × Ledger)
  | .exist a, L => .ok (L.exist a, L)
  | .existEVM a, L => .ok (if a ∈ L.suicides then true else L.exist a, L)
  | .getBalance a, L => .ok (L.balance a, L)
  | .getNonce a, L => .ok (L.nonce a, L)
  | .getCodeHash a, L => .ok (L.codeHash a, L)
  | .getCode a, L => .ok (L.codeBytes a, L)
  | .empty a, L => .ok (L.emptyAt a, L)
  | .getState id, L => .ok (L.slot id, L)
  | .getCommittedState id, L => .ok (L.committed id, L)
  | .getTransientState a k, L => .ok (L.transient.get a k, L)
  | .getRefund, L => .ok (L.refund, L)
  | .hasSelfDestructed a, L => .ok (decide (a ∈ L.suicides), L)
  | .isNewContract a, L => .ok (decide (a ∈ L.newContracts), L)
  | .addressInAccessList a, L => .ok (L.accessList.containsAddress a, L)
  | .slotInAccessList a k, L => .ok (L.accessList.contains a k, L)
  | .addBalancePrev a x, L => .ok ((L.accountOrNew a).balance, L.updateBalance a (· + x))
  | .subBalance a x, L => .ok ((L.accountOrNew a).balance, L.updateBalance a (· - x))
  | .setBalanceJournaled a b, L => .ok ((), L.updateBalance a fun _ => b)
  | .setNonceJournaled a n, L => .ok ((), L.setNonce a n)
  | .setCodeJournaled a c, L => .ok ((), L.setCode a c)
  | .createAccount a, L => .ok ((), L.createAccount a)
  | .createContract a, L => .ok ((), L.inScope (·.createContract a))
  | .setState id v, L => .ok ((), L.setState id v)
  | .setStateJournaled id v, L => .ok (L.slot id, L.setStateJournaled id v)
  | .selfDestruct a, L => .ok (L.balance a, L.selfDestruct a)
  | .selfDestruct6780 a, L => .ok (L.selfDestruct6780 a)
  | .addRefund g, L => .ok ((), L.inScope (·.addRefund g))
  | .subRefund g, L =>
    (L.toTxScope.subRefund g).map fun scope => ((), { L with toTxScope := scope })
  | .addLog l, L => .ok ((), L.inScope (·.addLog l))
  | .clearLogs, L => .ok ((), L.inScope (·.clearLogs))
  | .setTransientState a k v, L => .ok ((), L.inScope (·.setTransientState a k v))
  | .addAddressToAccessList a, L => .ok ((), L.inScope (·.addAddressToAccessList a))
  | .addSlotToAccessList a k, L => .ok ((), L.inScope (·.addSlotToAccessList a k))
  | .prepare sender coinbase dest precompiles, L =>
    .ok ((), L.inScope (·.prepare sender coinbase dest precompiles))
  | .snapshot, L => .ok (L.nextRevisionID, L.inScope (·.snapshot))
  | .revertToSnapshot revid, L => (L.revertToSnapshot revid).map ((), ·)
  | .panic reason, _ => .error reason

/-! ## The view -/

namespace StateDB

/-- The ledger a state database stands for. -/
def view (s : StateDB) : Ledger where
  toTxScope := s.toTxScope
  object := s.object?
  present a := (s.accounts.get? a).isSome || (s.db.get? (accountKey a)).isSome
  slot := s.slotOf
  code := s.codeOf
  rowObject := s.db.account?
  rowPresent a := (s.db.get? (accountKey a)).isSome
  rowSlot := s.db.slot

theorem view_putAccount (s : StateDB) (a : Address) (acc : Account) :
    (s.putAccount a acc).view = s.view.setObject a acc := by
  ext1
  case object =>
    funext b
    simp only [view, putAccount, Ledger.setObject, Store.object?, Function.update_apply,
      GoMap.get?_set]
    split <;> rfl
  case present =>
    funext b
    simp only [view, putAccount, Ledger.setObject, Function.update_apply, GoMap.get?_set]
    split <;> rfl
  all_goals rfl

theorem view_putSlot (s : StateDB) (id : StorageID) (v : Hash) :
    (s.putSlot id v).view = s.view.setSlot id v := by
  ext1
  case slot =>
    funext id'
    simp only [view, putSlot, Ledger.setSlot, Store.slotOf, Function.update_apply,
      GoMap.get?_set]
    split <;> rfl
  all_goals rfl

theorem view_putCode (s : StateDB) (h : Hash) (c : Bytes) :
    (s.putCode h c).view = s.view.putCode h c := by
  ext1
  case code =>
    funext h'
    simp only [view, putCode, Ledger.putCode, Store.codeOf, Function.update_apply,
      GoMap.get?_set]
    split <;> rfl
  all_goals rfl

theorem view_inScope (s : StateDB) (f : TxScope → TxScope) :
    (s.inScope f).view = s.view.inScope f :=
  rfl

theorem view_appendJournal (s : StateDB) (e : JournalEntry) :
    (s.appendJournal e).view = s.view.record e :=
  rfl

theorem view_noteWrite (s : StateDB) (k : Bytes) : (s.noteWrite k).view = s.view :=
  rfl

theorem account?_view (s : StateDB) (a : Address) : s.view.account? a = s.account? a :=
  rfl

/-- Loading an account row into the cache shows nothing new. -/
theorem view_loaded (s : StateDB) (a : Address) :
    ({ s with accounts := s.loaded a } : StateDB).view = s.view := by
  have hobj : ∀ b, ((s.loaded a).get? b).or (s.db.account? b) = s.object? b := by
    intro b
    rw [get?_loaded]
    split
    · rename_i h
      rw [h.1, Store.object?, Option.or_assoc, Option.or_self]
    · rfl
  ext1
  case object =>
    funext b
    exact hobj b
  case present =>
    funext b
    show (((s.loaded a).get? b).isSome || (s.db.get? (accountKey b)).isSome) = _
    rw [get?_loaded]
    split
    · rename_i h
      -- a row that decodes is present
      rw [h.1]
      simp only [view, Store.object?, Database.account?]
      cases s.accounts.get? a <;> cases s.db.get? (accountKey a) <;> simp
    · rfl
  all_goals rfl

theorem view_getAccount (s : StateDB) (a : Address) : (s.getAccount a).2.view = s.view := by
  rw [getAccount_eq]
  exact view_loaded s a

theorem getOrNewAccount_fst (s : StateDB) (a : Address) :
    (s.getOrNewAccount a).1 = s.view.accountOrNew a := by
  unfold getOrNewAccount Ledger.accountOrNew
  rw [getAccount_eq, account?_view]
  cases s.account? a <;> rfl

theorem view_getOrNewAccount (s : StateDB) (a : Address) :
    (s.getOrNewAccount a).2.view = s.view.touch a := by
  unfold getOrNewAccount Ledger.touch
  rw [getAccount_eq, account?_view]
  cases s.account? a with
  | some acc => exact view_loaded s a
  | none =>
      show (StateDB.putAccount _ a newAccount).view = s.view.setObject a newAccount
      rw [view_putAccount, view_loaded]

theorem setObject_touch (L : Ledger) (a : Address) (acc : Account) :
    (L.touch a).setObject a acc = L.setObject a acc := by
  unfold Ledger.touch
  split
  · rfl
  · simp only [Ledger.setObject, Function.update_idem]

theorem touch_record (L : Ledger) (e : JournalEntry) (a : Address) :
    (L.record e).touch a = (L.touch a).record e := by
  show (match L.account? a with
    | some _ => L.record e
    | none => (L.record e).setObject a newAccount) = _
  unfold Ledger.touch
  cases L.account? a <;> rfl

theorem view_updateAccount (s : StateDB) (a : Address) (entry : Account → JournalEntry)
    (f : Account → Account) :
    (s.updateAccount a entry f).1 = s.view.accountOrNew a ∧
      (s.updateAccount a entry f).2.view = s.view.updateAccount a entry f := by
  let s₁ := s.noteWrite (accountKey a)
  have hfst : (s₁.getOrNewAccount a).1 = s.view.accountOrNew a := getOrNewAccount_fst s₁ a
  refine ⟨hfst, ?_⟩
  show (putAccount (appendJournal (s₁.getOrNewAccount a).2 (entry (s₁.getOrNewAccount a).1)) a
    (f (s₁.getOrNewAccount a).1)).view = _
  rw [view_putAccount, hfst]
  show ((s₁.getOrNewAccount a).2.view.record _).setObject a _ = _
  rw [view_getOrNewAccount, ← touch_record, setObject_touch]
  rfl

theorem view_updateBalance (s : StateDB) (a : Address) (f : U256 → U256) :
    (s.updateBalance a f).1 = (s.view.accountOrNew a).balance ∧
      (s.updateBalance a f).2.view = s.view.updateBalance a f := by
  obtain ⟨hfst, hsnd⟩ := view_updateAccount s a (fun acc => .balanceChange a acc.balance)
    (fun acc => { acc with balance := f acc.balance })
  exact ⟨congrArg Account.balance hfst, hsnd⟩

theorem view_codeByHash (s : StateDB) (h : Hash) : (s.codeByHash h).2.view = s.view := by
  unfold codeByHash
  split
  · rfl
  · split
    · rfl
    · rename_i hmiss
      split
      · rename_i blob hrow
        rw [view_putCode]
        ext1
        case code =>
          -- the cached copy is the row that was shown before
          show Function.update s.codeOf h blob = s.codeOf
          rw [Function.update_eq_self_iff, Store.codeOf, hmiss, hrow]
          rfl
        all_goals rfl
      · rfl

theorem view_getCode (s : StateDB) (a : Address) : (s.getCode a).2.view = s.view := by
  unfold getCode
  rw [getCodeHash_eq]
  show (codeByHash _ _).2.view = _
  rw [view_codeByHash]
  exact view_loaded (s.noteRead (accountKey a) |>.noteRead (accountKey a)) a

theorem view_getState (s : StateDB) (id : StorageID) : (s.getState id).2.view = s.view := by
  unfold getState
  simp only
  cases hmiss : (s.noteRead (storageKey id)).storage.get? id with
  | some v => rfl
  | none =>
      cases hrow : (s.noteRead (storageKey id)).db.slot? id with
      | none => rfl
      | some v =>
          ext1
          case slot =>
            funext id'
            show ((s.storage.set id v).get? id').getD (s.db.slot id') = s.slotOf id'
            rw [GoMap.get?_set]
            split
            · rename_i heq
              subst heq
              have hmiss' : s.storage.get? id' = none := hmiss
              have hrow' : s.db.slot? id' = some v := hrow
              simp [Store.slotOf, hmiss', Database.slot, hrow']
            · rfl
          all_goals rfl

theorem codeHash_eq_accountOrNew (L : Ledger) (a : Address) :
    L.codeHash a = (L.accountOrNew a).codeHash := by
  unfold Ledger.codeHash Ledger.accountOrNew
  cases L.account? a <;> rfl

theorem codeHash_touch (L : Ledger) (a : Address) : (L.touch a).codeHash a = L.codeHash a := by
  unfold Ledger.touch
  cases hacc : L.account? a with
  | some acc => rfl
  | none =>
      by_cases hdead : a ∈ L.suicides
      · simp [Ledger.codeHash, Ledger.account?, Ledger.setObject, hdead]
      · rw [Ledger.account?, if_neg hdead] at hacc
        simp [Ledger.codeHash, Ledger.account?, Ledger.setObject, hdead, hacc, newAccount]

theorem code_touch (L : Ledger) (a : Address) : (L.touch a).code = L.code := by
  unfold Ledger.touch
  split <;> rfl

theorem previousCode_spec {s : StateDB} {a : Address} {acc : Account}
    (hacc : acc.codeHash = s.view.codeHash a) :
    (s.previousCode a acc).1 = s.view.codeBytes a ∧
      (s.previousCode a acc).2.view = s.view := by
  unfold previousCode
  by_cases hempty : acc.codeHash = emptyCodeHash
  · rw [if_pos hempty]
    rw [hempty] at hacc
    exact ⟨by rw [Ledger.codeBytes, if_pos hacc.symm], rfl⟩
  · rw [if_neg hempty]
    exact ⟨getCode_fst s a, view_getCode s a⟩

theorem view_installCode (s : StateDB) (a : Address) (acc : Account) (c : Bytes) :
    (s.installCode a acc c).view = s.view.installCode a acc c := by
  unfold installCode Ledger.installCode
  split
  · exact view_putAccount s a _
  · rw [view_putAccount, view_putCode]

theorem installCode_touch (L : Ledger) (a : Address) (acc : Account) (c : Bytes) :
    (L.touch a).installCode a acc c = L.installCode a acc c := by
  unfold Ledger.installCode
  split
  · exact setObject_touch L a _
  · unfold Ledger.touch
    split
    · rfl
    · simp only [Ledger.setObject, Ledger.putCode, Function.update_idem]

theorem view_setCodeJournaled (s : StateDB) (a : Address) (c : Bytes) :
    (s.setCodeJournaled a c).view = s.view.setCode a c := by
  have hfst := getOrNewAccount_fst (s.noteWrite (accountKey a)) a
  have hsnd := view_getOrNewAccount (s.noteWrite (accountKey a)) a
  unfold setCodeJournaled
  generalize (s.noteWrite (accountKey a)).getOrNewAccount a = found at hfst hsnd ⊢
  obtain ⟨acc, s₂⟩ := found
  change acc = s.view.accountOrNew a at hfst
  change s₂.view = s.view.touch a at hsnd
  have hhash : acc.codeHash = s₂.view.codeHash a := by
    rw [hsnd, codeHash_touch, codeHash_eq_accountOrNew, hfst]
  have hbytes : s₂.view.codeBytes a = s.view.codeBytes a := by
    rw [hsnd, Ledger.codeBytes, codeHash_touch, code_touch, Ledger.codeBytes]
  obtain ⟨hcode, hview⟩ := previousCode_spec hhash
  show (installCode (appendJournal (s₂.previousCode a acc).2
    (.codeChange a acc.codeHash (s₂.previousCode a acc).1)) a acc c).view = _
  rw [view_installCode, hcode, hbytes]
  show ((s₂.previousCode a acc).2.view.record _).installCode a acc c = _
  rw [hview, hsnd, ← touch_record, installCode_touch, hfst]
  rfl

theorem view_createAccount (s : StateDB) (a : Address) :
    (s.createAccount a).view = s.view.createAccount a := by
  unfold createAccount
  rw [getAccount_eq]
  simp only
  rw [view_putAccount, view_appendJournal, view_loaded]
  rfl

theorem exist_eq (s : StateDB) (a : Address) :
    s.exist a = (s.view.exist a, s.noteRead (accountKey a)) := by
  show (if a ∈ s.suicides then _ else _) = ((if a ∈ s.suicides then _ else _ : Bool), _)
  split <;> rfl

theorem view_setState (s : StateDB) (id : StorageID) (v : Hash) :
    (s.setState id v).view = s.view.setState id v := by
  show (putSlot ((s.noteWrite (storageKey id)).getOrNewAccount id.addr).2 id v).view = _
  rw [view_putSlot, view_getOrNewAccount]
  rfl

theorem view_setStateJournaled (s : StateDB) (id : StorageID) (v : Hash) :
    (s.setStateJournaled id v).1 = s.view.slot id ∧
      (s.setStateJournaled id v).2.view = s.view.setStateJournaled id v := by
  let s₁ := (s.getState id).2
  have hprev : (s.getState id).1 = s.view.slot id := getState_fst s id
  have hs₁ : s₁.view = s.view := view_getState s id
  unfold setStateJournaled Ledger.setStateJournaled
  simp only [hprev]
  split
  · exact ⟨rfl, hs₁⟩
  · refine ⟨rfl, ?_⟩
    rw [view_putSlot, view_getOrNewAccount, view_appendJournal, view_inScope, view_noteWrite, hs₁]

theorem view_selfDestruct (s : StateDB) (a : Address) :
    (s.selfDestruct a).1 = s.view.balance a ∧
      (s.selfDestruct a).2.view = s.view.selfDestruct a := by
  unfold selfDestruct Ledger.selfDestruct Ledger.balance
  rw [getAccount_eq, account?_view]
  cases s.account? a with
  | none => exact ⟨rfl, view_loaded s a⟩
  | some acc =>
      refine ⟨rfl, ?_⟩
      show (StateDB.putAccount _ a _).view = _
      rw [view_putAccount]
      show ((({ s with accounts := s.loaded a } : StateDB).view.record _).inScope
        fun sc => { sc with suicides := sc.suicides.insert a }).setObject a _ = _
      rw [view_loaded]
      rfl

theorem view_selfDestruct6780 (s : StateDB) (a : Address) :
    (s.selfDestruct6780 a).1 = (s.view.selfDestruct6780 a).1 ∧
      (s.selfDestruct6780 a).2.view = (s.view.selfDestruct6780 a).2 := by
  unfold selfDestruct6780 Ledger.selfDestruct6780
  by_cases hnew : a ∈ s.newContracts
  · obtain ⟨hfst, hsnd⟩ := view_selfDestruct s a
    rw [if_pos hnew, if_pos (show a ∈ s.view.newContracts from hnew)]
    exact ⟨by rw [← hfst], hsnd⟩
  · rw [if_neg hnew, if_neg (show a ∉ s.view.newContracts from hnew), getAccount_eq,
      account?_view]
    cases s.account? a with
    | none => exact ⟨rfl, view_loaded s a⟩
    | some acc =>
        refine ⟨rfl, ?_⟩
        show (StateDB.putAccount _ a _).view = _
        rw [view_putAccount]
        show (({ s with accounts := s.loaded a } : StateDB).view.record _).setObject a _ = _
        rw [view_loaded]

/-! ### Undoing -/

theorem view_forgetAccount (s : StateDB) (a : Address) :
    ({ s with
      accounts := s.accounts.delete a
      accountDirty := s.accountDirty.filter (· ≠ a) } : StateDB).view = s.view.dropObject a := by
  ext1
  case object =>
    funext b
    simp only [view, Ledger.dropObject, Store.object?, Function.update_apply, GoMap.get?_delete]
    split
    · rename_i h
      rw [h]
      rfl
    · rfl
  case present =>
    funext b
    simp only [view, Ledger.dropObject, Function.update_apply, GoMap.get?_delete]
    split
    · rename_i h
      rw [h]
      rfl
    · rfl
  all_goals rfl

theorem view_reviseAccount (s : StateDB) (a : Address) (f : Account → Account) :
    (s.reviseAccount a f).view = s.view.setObject a (f (s.view.accountOrNew a)) := by
  show (putAccount (s.getOrNewAccount a).2 a (f (s.getOrNewAccount a).1)).view = _
  rw [view_putAccount, view_getOrNewAccount, getOrNewAccount_fst, setObject_touch]

theorem view_revert (s : StateDB) (e : JournalEntry) :
    (e.revert s).view = s.view.revertEntry e := by
  cases e with
  | balanceChange a prev => exact view_reviseAccount s a _
  | nonceChange a prev => exact view_reviseAccount s a _
  | codeChange a prevHash prevCode =>
      show (reviseAccount (ite _ _ _) a _).view = Ledger.setObject (ite _ _ _) a _
      rw [view_reviseAccount]
      split
      · rw [view_putCode]
        rfl
      · rfl
  | storageChange a key prevalue => exact view_putSlot s _ _
  | createObjectChange a =>
      exact view_forgetAccount (s.inScope (JournalEntry.createObjectChange a).revertScope) a
  | suicideChange a prev prevBalance =>
      let s₁ := s.inScope (JournalEntry.suicideChange a prev prevBalance).revertScope
      rw [JournalEntry.revert, Ledger.revertEntry]
      rw [← view_inScope, account?_view, getAccount_eq]
      cases s₁.account? a with
      | none => exact view_loaded s₁ a
      | some acc =>
          show (StateDB.putAccount _ a _).view = _
          rw [view_putAccount, view_loaded]
  | refundChange | addLogChange | accessListAddAccountChange | accessListAddSlotChange
  | transientStorageChange | touchChange => rfl

theorem view_journalRevert (s : StateDB) (index : ℕ) :
    (s.journalRevert index).view = s.view.journalRevert index := by
  have hfold : ∀ (l : List JournalEntry) (t : StateDB),
      (l.foldl JournalEntry.revert t).view = l.foldl Ledger.revertEntry t.view := by
    intro l
    induction l with
    | nil => exact fun _ => rfl
    | cons e l ih =>
        intro t
        rw [List.foldl_cons, ih, view_revert, List.foldl_cons]
  unfold Ledger.journalRevert
  simp only
  rw [show s.view.journal = s.journal from rfl, ← hfold]
  rfl

theorem view_revertToSnapshot (s : StateDB) (revid : ℕ) :
    (s.revertToSnapshot revid).map view = s.view.revertToSnapshot revid := by
  unfold revertToSnapshot Ledger.revertToSnapshot
  rw [show s.view.validRevisions = s.validRevisions from rfl]
  cases findRevision revid s.validRevisions with
  | none => rfl
  | some found =>
      show Except.ok _ = Except.ok _
      rw [← view_journalRevert]
      rfl

end StateDB

/-! ## Every method does on the ledger what it does on the caches -/

open StateDB in
theorem Op.exec_view (op : Op) (s : StateDB) :
    (op.exec s).map (Prod.map id view) = op.execL s.view := by
  cases op with
  | exist a =>
      show (Except.ok (s.exist a)).map _ = _
      rw [exist_eq]
      rfl
  | existEVM a =>
      show Except.ok (Prod.map id view (if a ∈ s.suicides then (true, s) else s.exist a)) =
        Except.ok (if a ∈ s.suicides then true else s.view.exist a, s.view)
      rw [exist_eq]
      split <;> rfl
  | getBalance a =>
      exact congrArg Except.ok (Prod.ext (getBalance_fst s a)
        (view_getAccount (s.noteRead (accountKey a)) a))
  | getNonce a =>
      exact congrArg Except.ok (Prod.ext (getNonce_fst s a)
        (view_getAccount (s.noteRead (accountKey a)) a))
  | getCodeHash a =>
      refine congrArg Except.ok ?_
      rw [getCodeHash_eq]
      exact Prod.ext rfl (view_loaded (s.noteRead (accountKey a)) a)
  | getCode a => exact congrArg Except.ok (Prod.ext (getCode_fst s a) (view_getCode s a))
  | empty a =>
      refine congrArg Except.ok ?_
      rw [empty_eq]
      exact Prod.ext rfl (view_loaded s a)
  | getState id => exact congrArg Except.ok (Prod.ext (getState_fst s id) (view_getState s id))
  | addBalancePrev a x =>
      obtain ⟨hfst, hsnd⟩ := view_updateBalance s a (· + x)
      exact congrArg Except.ok (Prod.ext hfst hsnd)
  | subBalance a x =>
      obtain ⟨hfst, hsnd⟩ := view_updateBalance s a (· - x)
      exact congrArg Except.ok (Prod.ext hfst hsnd)
  | setBalanceJournaled a b =>
      exact congrArg Except.ok (Prod.ext rfl (view_updateBalance s a fun _ => b).2)
  | setNonceJournaled a n =>
      exact congrArg Except.ok (Prod.ext rfl (view_updateAccount s a
        (fun acc => .nonceChange a acc.nonce) (fun acc => { acc with nonce := n })).2)
  | setCodeJournaled a c =>
      exact congrArg Except.ok (Prod.ext rfl (view_setCodeJournaled s a c))
  | createAccount a => exact congrArg Except.ok (Prod.ext rfl (view_createAccount s a))
  | setState id v => exact congrArg Except.ok (Prod.ext rfl (view_setState s id v))
  | setStateJournaled id v =>
      obtain ⟨hfst, hsnd⟩ := view_setStateJournaled s id v
      exact congrArg Except.ok (Prod.ext hfst hsnd)
  | selfDestruct a =>
      obtain ⟨hfst, hsnd⟩ := view_selfDestruct s a
      exact congrArg Except.ok (Prod.ext hfst hsnd)
  | selfDestruct6780 a =>
      obtain ⟨hfst, hsnd⟩ := view_selfDestruct6780 s a
      exact congrArg Except.ok (Prod.ext hfst hsnd)
  | subRefund g =>
      show (((s.toTxScope.subRefund g).map fun scope =>
          ({ s with toTxScope := scope } : StateDB)).map ((), ·)).map (Prod.map id view) =
        (s.toTxScope.subRefund g).map fun scope => ((), { s.view with toTxScope := scope })
      cases s.toTxScope.subRefund g <;> rfl
  | revertToSnapshot revid =>
      show ((s.revertToSnapshot revid).map ((), ·)).map (Prod.map id view) =
        (s.view.revertToSnapshot revid).map ((), ·)
      rw [← view_revertToSnapshot]
      cases s.revertToSnapshot revid <;> rfl
  | getCommittedState | getTransientState | getRefund | hasSelfDestructed | isNewContract
  | addressInAccessList | slotInAccessList | createContract | addRefund | addLog | clearLogs
  | setTransientState | addAddressToAccessList | addSlotToAccessList | prepare | snapshot
  | panic => rfl

/-- A program does on the ledger what it does on the caches. -/
theorem StateProgram.run_view {α : Type} (p : StateProgram α) (s : StateDB) :
    (p.run Op.exec s).map (Prod.map id StateDB.view) = p.run Op.execL s.view :=
  Program.run_map Op.exec_view p s

/-- A run on the ledger is the image of a run on the caches. -/
theorem StateProgram.run_of_view {α : Type} {p : StateProgram α} {s : StateDB} {a : α} {L : Ledger}
    (h : p.run Op.execL s.view = .ok (a, L)) :
    ∃ t, p.run Op.exec s = .ok (a, t) ∧ t.view = L := by
  rw [← StateProgram.run_view] at h
  cases hrun : p.run Op.exec s with
  | error e =>
      rw [hrun] at h
      cases h
  | ok at' =>
      obtain ⟨a', t⟩ := at'
      rw [hrun] at h
      cases h
      exact ⟨t, rfl, rfl⟩

end Dew
