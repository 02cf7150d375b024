/-
# The state database

`StateDB`, the caching layer over the flat database, as the source has it: the account, slot
and code caches with their dirty marks, the set of destroyed accounts, the journal with its
revisions, and the per-transaction bookkeeping of the EVM. Every operation is a function on the
record; reads return the new record too, because they fill the caches.

The record has two groups of fields, the caches with their database (`Store`) and what lives for
one transaction (`TxScope`), besides the access tracking. Go maps are finite
maps, Go sets are lists without repetitions, and the journal and the revisions are kept newest
first, so that appending is `::` and undoing runs from the head.
-/
import Dew.Database

namespace Dew

/-! ## Access tracking -/

/-- Keys read and written by one transaction, for conflict detection. -/
structure AccessSet where
  reads : List Bytes
  writes : List Bytes
deriving DecidableEq, Repr

def AccessSet.recordRead (a : AccessSet) (k : Bytes) : AccessSet :=
  if k ∈ a.writes then a else { a with reads := a.reads.insert k }

def AccessSet.recordWrite (a : AccessSet) (k : Bytes) : AccessSet :=
  { reads := a.reads.filter (· ≠ k), writes := a.writes.insert k }

/-! ## Warm addresses and slots (EIP-2929) -/

/-- `accessList`: an address maps to `-1`, or to the index of its slot set. -/
structure AccessList where
  addresses : GoMap Address ℤ
  slots : List (List Hash)
deriving DecidableEq

namespace AccessList

def new : AccessList where
  addresses := ∅
  slots := []

def containsAddress (a : AccessList) (addr : Address) : Bool :=
  (a.addresses.get? addr).isSome

def contains (a : AccessList) (addr : Address) (slot : Hash) : Bool × Bool :=
  match a.addresses.get? addr with
  | none => (false, false)
  | some idx =>
    if idx = -1 then (true, false)
    else (true, decide (slot ∈ a.slots.getD idx.toNat []))

/-- Whether the address is new, and the list with it. -/
def addAddress (a : AccessList) (addr : Address) : Bool × AccessList :=
  if a.containsAddress addr then (false, a)
  else (true, { a with addresses := a.addresses.set addr (-1) })

/-- Whether the address and the slot are new, and the list with both. -/
def addSlot (a : AccessList) (addr : Address) (slot : Hash) : Bool × Bool × AccessList :=
  match a.addresses.get? addr with
  | none =>
    (true, true, ⟨a.addresses.set addr a.slots.length, a.slots ++ [[slot]]⟩)
  | some idx =>
    if idx = -1 then
      (false, true, ⟨a.addresses.set addr a.slots.length, a.slots ++ [[slot]]⟩)
    else if slot ∈ a.slots.getD idx.toNat [] then (false, false, a)
    else (false, true, { a with slots := a.slots.modify idx.toNat (slot :: ·) })

def deleteAddress (a : AccessList) (addr : Address) : AccessList :=
  { a with addresses := a.addresses.delete addr }

def deleteSlot (a : AccessList) (addr : Address) (slot : Hash) : AccessList :=
  match a.addresses.get? addr with
  | none => a
  | some idx =>
    if idx = -1 then a
    else
      let slots := a.slots.modify idx.toNat (·.filter (· ≠ slot))
      if slots.getD idx.toNat [] = [] then ⟨a.addresses.set addr (-1), slots⟩
      else { a with slots := slots }

end AccessList

/-- `transientStorage` (EIP-1153). -/
abbrev TransientStorage := GoMap Address (GoMap Hash Hash)

def TransientStorage.get (t : TransientStorage) (addr : Address) (key : Hash) : Hash :=
  match t.get? addr with
  | some m => (m.get? key).getD 0
  | none => 0

def TransientStorage.set (t : TransientStorage) (addr : Address) (key value : Hash) :
    TransientStorage :=
  GoMap.set t addr (((t.get? addr).getD ∅).set key value)

/-! ## The journal -/

inductive JournalEntry where
  | balanceChange (account : Address) (prev : U256)
  | nonceChange (account : Address) (prev : U64)
  | codeChange (account : Address) (prevHash : Hash) (prevCode : Bytes)
  | storageChange (account : Address) (key prevalue : Hash)
  | createObjectChange (account : Address)
  | suicideChange (account : Address) (prev : Bool) (prevBalance : U256)
  | refundChange (prev : U64)
  | addLogChange
  | accessListAddAccountChange (address : Address)
  | accessListAddSlotChange (address : Address) (slot : Hash)
  | transientStorageChange (account : Address) (key prevalue : Hash)
  | touchChange (account : Address)
deriving DecidableEq, Repr

/-- `entryDirtyAddress`: the account a journal entry dirties, if any. -/
def JournalEntry.dirtyAddress : JournalEntry → Option Address
  | balanceChange a _ | nonceChange a _ | codeChange a _ _ | storageChange a _ _
  | createObjectChange a | suicideChange a _ _ | touchChange a
  | transientStorageChange a _ _ => some a
  | _ => none

/-- Entries newest first, with the dirty count of each account. -/
structure Journal where
  entries : List JournalEntry
  dirties : GoMap Address ℕ
deriving DecidableEq

def Journal.new : Journal where
  entries := []
  dirties := ∅

def Journal.append (j : Journal) (e : JournalEntry) : Journal where
  entries := e :: j.entries
  dirties :=
    match e.dirtyAddress with
    | some a => j.dirties.set a ((j.dirties.get? a).getD 0 + 1)
    | none => j.dirties

structure Revision where
  id : ℕ
  journalIndex : ℕ
deriving DecidableEq, Repr

/-- A log record, without the block coordinates that the node fills in later. -/
structure Log where
  address : Address
  topics : List Hash
  data : Bytes
deriving DecidableEq, Repr

/-! ## The record -/

/-- Why an operation panics. -/
inductive Panic where
  | refundBelowZero
  | invalidSnapshotID
  | integerOverflow
deriving DecidableEq, Repr

/-- What lives for one transaction. -/
structure TxScope where
  suicides : List Address
  journal : Journal
  validRevisions : List Revision
  nextRevisionID : ℕ
  refund : U64
  logs : List Log
  accessList : AccessList
  transient : TransientStorage
  newContracts : List Address
  storageOrigin : GoMap StorageID Hash
deriving DecidableEq

namespace TxScope

def appendJournal (s : TxScope) (e : JournalEntry) : TxScope :=
  { s with journal := s.journal.append e }

def createContract (s : TxScope) (addr : Address) : TxScope :=
  { s with newContracts := s.newContracts.insert addr }

/-- The origin of a slot, recorded at its first journaled write in a transaction. -/
def recordOrigin (s : TxScope) (id : StorageID) (prev : Hash) : TxScope :=
  { s with storageOrigin :=
      if (s.storageOrigin.get? id).isSome then s.storageOrigin
      else s.storageOrigin.set id prev }

def addRefund (s : TxScope) (gas : U64) : TxScope :=
  let s := s.appendJournal (.refundChange s.refund)
  { s with refund := s.refund + gas }

/-- `SubRefund` panics when the counter would go below zero. -/
def subRefund (s : TxScope) (gas : U64) : Except Panic TxScope :=
  let s := s.appendJournal (.refundChange s.refund)
  if s.refund < gas then .error .refundBelowZero
  else .ok { s with refund := s.refund - gas }

def addLog (s : TxScope) (log : Log) : TxScope :=
  let s := s.appendJournal .addLogChange
  { s with logs := s.logs ++ [log] }

def clearLogs (s : TxScope) : TxScope :=
  { s with logs := [] }

def setTransientState (s : TxScope) (addr : Address) (key value : Hash) : TxScope :=
  let s := s.appendJournal (.transientStorageChange addr key (s.transient.get addr key))
  { s with transient := s.transient.set addr key value }

def addAddressToAccessList (s : TxScope) (addr : Address) : TxScope :=
  match s.accessList.addAddress addr with
  | (true, al) =>
    ({ s with accessList := al } : TxScope).appendJournal (.accessListAddAccountChange addr)
  | (false, al) => { s with accessList := al }

def addSlotToAccessList (s : TxScope) (addr : Address) (slot : Hash) : TxScope :=
  let (addrMod, slotMod, al) := s.accessList.addSlot addr slot
  let s := { s with accessList := al }
  let s := if addrMod then s.appendJournal (.accessListAddAccountChange addr) else s
  if slotMod then s.appendJournal (.accessListAddSlotChange addr slot) else s

/-- `Prepare`: a fresh access list with the warm addresses, no transient storage, no contracts
created, no refund. -/
def prepare (s : TxScope) (sender coinbase : Address) (dest : Option Address)
    (precompiles : List Address) : TxScope :=
  let s : TxScope := { s with accessList := AccessList.new, transient := ∅ }
  let warm := sender :: dest.toList ++ precompiles ++ [coinbase]
  let s := warm.foldl addAddressToAccessList s
  { s with newContracts := [], refund := 0 }

def snapshot (s : TxScope) : TxScope :=
  { s with
    nextRevisionID := s.nextRevisionID + 1
    validRevisions := ⟨s.nextRevisionID, s.journal.entries.length⟩ :: s.validRevisions }

/-- The destroyed mark of an account as it was before its `SelfDestruct`. -/
def restoreSuicide (s : TxScope) (addr : Address) (prev : Bool) : TxScope :=
  { s with suicides := if prev then s.suicides.insert addr else s.suicides.filter (· ≠ addr) }

/-- What `Finalise` resets at its end. -/
def reset (s : TxScope) : TxScope :=
  { s with
    journal := Journal.new
    validRevisions := []
    suicides := []
    newContracts := []
    storageOrigin := ∅
    refund := 0
    transient := ∅ }

end TxScope

/-- The database with the caches over it, and their dirty marks. -/
structure Store where
  db : Database
  accounts : GoMap Address Account
  storage : GoMap StorageID Hash
  code : GoMap Hash Bytes
  accountDirty : List Address
  storageDirty : List StorageID
deriving DecidableEq

structure StateDB extends Store, TxScope where
  trackAccess : Bool
  accessSet : Option AccessSet
deriving DecidableEq

namespace StateDB

/-- `New`: empty caches over `database`. -/
def new (database : Database) : StateDB where
  db := database
  accounts := ∅
  storage := ∅
  code := ∅
  accountDirty := []
  storageDirty := []
  suicides := []
  journal := Journal.new
  validRevisions := []
  nextRevisionID := 0
  refund := 0
  logs := []
  accessList := AccessList.new
  transient := ∅
  newContracts := []
  storageOrigin := ∅
  trackAccess := false
  accessSet := none

def noteRead (s : StateDB) (k : Bytes) : StateDB :=
  { s with accessSet := if s.trackAccess then s.accessSet.map (·.recordRead k) else s.accessSet }

def noteWrite (s : StateDB) (k : Bytes) : StateDB :=
  { s with accessSet := if s.trackAccess then s.accessSet.map (·.recordWrite k) else s.accessSet }

/-! ## Cache updates -/

/-- A write through a cached account object, which always comes with the dirty mark. -/
def putAccount (s : StateDB) (addr : Address) (acc : Account) : StateDB :=
  { s with accounts := s.accounts.set addr acc, accountDirty := s.accountDirty.insert addr }

def putSlot (s : StateDB) (id : StorageID) (value : Hash) : StateDB :=
  { s with storage := s.storage.set id value, storageDirty := s.storageDirty.insert id }

def putCode (s : StateDB) (codeHash : Hash) (code : Bytes) : StateDB :=
  { s with code := s.code.set codeHash code }

/-- A change of the transaction's bookkeeping alone. -/
def inScope (s : StateDB) (f : TxScope → TxScope) : StateDB :=
  { s with toTxScope := f s.toTxScope }

def appendJournal (s : StateDB) (e : JournalEntry) : StateDB :=
  s.inScope (·.appendJournal e)

/-! ## Accounts -/

/-- `getAccount`: none for destroyed accounts; a row read from the database is cached. -/
def getAccount (s : StateDB) (addr : Address) : Option Account × StateDB :=
  if addr ∈ s.suicides then (none, s)
  else
    match s.accounts.get? addr with
    | some acc => (some acc, s)
    | none =>
      match s.db.account? addr with
      | some acc => (some acc, { s with accounts := s.accounts.set addr acc })
      | none => (none, s)

/-- `GetOrNewAccount`: a missing account is created in the cache, without a journal entry. -/
def getOrNewAccount (s : StateDB) (addr : Address) : Account × StateDB :=
  match s.getAccount addr with
  | (some acc, s) => (acc, s)
  | (none, s) => (newAccount, s.putAccount addr newAccount)

def exist (s : StateDB) (addr : Address) : Bool × StateDB :=
  let s := s.noteRead (accountKey addr)
  if addr ∈ s.suicides then (false, s)
  else ((s.accounts.get? addr).isSome || (s.db.get? (accountKey addr)).isSome, s)

/-- `ExistEVM`: destroyed accounts exist until the end of the transaction. -/
def existEVM (s : StateDB) (addr : Address) : Bool × StateDB :=
  if addr ∈ s.suicides then (true, s) else s.exist addr

def getBalance (s : StateDB) (addr : Address) : U256 × StateDB :=
  let (acc, s) := (s.noteRead (accountKey addr)).getAccount addr
  ((acc.map Account.balance).getD 0, s)

def getNonce (s : StateDB) (addr : Address) : U64 × StateDB :=
  let (acc, s) := (s.noteRead (accountKey addr)).getAccount addr
  ((acc.map Account.nonce).getD 0, s)

def getCodeHash (s : StateDB) (addr : Address) : Hash × StateDB :=
  let (acc, s) := (s.noteRead (accountKey addr)).getAccount addr
  ((acc.map Account.codeHash).getD emptyCodeHash, s)

/-- The code with a given hash; no code is the empty string, and a row read from the database is
cached. -/
def codeByHash (s : StateDB) (hash : Hash) : Bytes × StateDB :=
  if hash = emptyCodeHash then ([], s)
  else
    match s.code.get? hash with
    | some code => (code, s)
    | none =>
      match s.db.code? hash with
      | some blob => (blob, s.putCode hash blob)
      | none => ([], s)

def getCode (s : StateDB) (addr : Address) : Bytes × StateDB :=
  let (hash, s) := (s.noteRead (accountKey addr)).getCodeHash addr
  s.codeByHash hash

def getCodeSize (s : StateDB) (addr : Address) : ℕ × StateDB :=
  let (code, s) := s.getCode addr
  (code.length, s)

/-- `Empty`: EIP-161 emptiness; a missing account is empty. -/
def empty (s : StateDB) (addr : Address) : Bool × StateDB :=
  match s.getAccount addr with
  | (some acc, s) => (acc.isEmpty, s)
  | (none, s) => (true, s)

/-- The shape of the journaled account setters: the entry is made from the account found or
created, which is then updated. The account as it was is returned. -/
def updateAccount (s : StateDB) (addr : Address) (entry : Account → JournalEntry)
    (f : Account → Account) : Account × StateDB :=
  let (acc, s) := (s.noteWrite (accountKey addr)).getOrNewAccount addr
  (acc, (s.appendJournal (entry acc)).putAccount addr (f acc))

def updateBalance (s : StateDB) (addr : Address) (f : U256 → U256) : U256 × StateDB :=
  let (acc, s) := s.updateAccount addr (fun acc => .balanceChange addr acc.balance)
    (fun acc => { acc with balance := f acc.balance })
  (acc.balance, s)

/-- `SubBalance`, returning the previous balance; the difference wraps around. -/
def subBalance (s : StateDB) (addr : Address) (amount : U256) : U256 × StateDB :=
  s.updateBalance addr (· - amount)

/-- `AddBalancePrev`, returning the previous balance; the sum wraps around. -/
def addBalancePrev (s : StateDB) (addr : Address) (amount : U256) : U256 × StateDB :=
  s.updateBalance addr (· + amount)

def setBalanceJournaled (s : StateDB) (addr : Address) (bal : U256) : StateDB :=
  (s.updateBalance addr fun _ => bal).2

def setNonceJournaled (s : StateDB) (addr : Address) (nonce : U64) : StateDB :=
  (s.updateAccount addr (fun acc => .nonceChange addr acc.nonce)
    (fun acc => { acc with nonce := nonce })).2

/-- The code the journal entry of `SetCodeJournaled` keeps. -/
def previousCode (s : StateDB) (addr : Address) (acc : Account) : Bytes × StateDB :=
  if acc.codeHash = emptyCodeHash then ([], s) else s.getCode addr

/-- The account `acc` with new code, which is cached unless it is empty. -/
def installCode (s : StateDB) (addr : Address) (acc : Account) (code : Bytes) : StateDB :=
  if code = [] then s.putAccount addr { acc with codeHash := emptyCodeHash }
  else
    (s.putCode (keccak256Hash code) code).putAccount addr
      { acc with codeHash := keccak256Hash code }

def setCodeJournaled (s : StateDB) (addr : Address) (code : Bytes) : StateDB :=
  let (acc, s) := (s.noteWrite (accountKey addr)).getOrNewAccount addr
  let (prevCode, s) := s.previousCode addr acc
  (s.appendJournal (.codeChange addr acc.codeHash prevCode)).installCode addr acc code

/-- `CreateAccount`: a fresh object that carries over the balance of an existing one. -/
def createAccount (s : StateDB) (addr : Address) : StateDB :=
  let (prev, s) := (s.noteWrite (accountKey addr)).getAccount addr
  let s := s.appendJournal (.createObjectChange addr)
  s.putAccount addr { newAccount with balance := (prev.map Account.balance).getD 0 }

def createContract (s : StateDB) (addr : Address) : StateDB :=
  s.inScope (·.createContract addr)

def isNewContract (s : StateDB) (addr : Address) : Bool :=
  decide (addr ∈ s.newContracts)

/-! ## Storage -/

/-- `GetState`: a row read from the database is cached, a missing one is not. -/
def getState (s : StateDB) (id : StorageID) : Hash × StateDB :=
  let s := s.noteRead (storageKey id)
  match s.storage.get? id with
  | some v => (v, s)
  | none =>
    match s.db.slot? id with
    | some v => (v, { s with storage := s.storage.set id v })
    | none => (0, s)

/-- `SetState`, which leaves no journal entry. -/
def setState (s : StateDB) (id : StorageID) (value : Hash) : StateDB :=
  let (_, s) := (s.noteWrite (storageKey id)).getOrNewAccount id.addr
  s.putSlot id value

/-- `SetStateJournaled`, returning the previous value. -/
def setStateJournaled (s : StateDB) (id : StorageID) (value : Hash) : Hash × StateDB :=
  let (prev, s) := s.getState id
  if prev = value then (prev, s)
  else
    let s := (s.noteWrite (storageKey id)).inScope (·.recordOrigin id prev)
    let s := s.appendJournal (.storageChange id.addr id.slot prev)
    let (_, s) := s.getOrNewAccount id.addr
    (prev, s.putSlot id value)

/-- `GetCommittedState`: the recorded origin, else the database row. -/
def getCommittedState (s : StateDB) (id : StorageID) : Hash :=
  match s.storageOrigin.get? id with
  | some v => v
  | none => s.db.slot id

/-! ## Self-destruction -/

/-- `SelfDestruct`, returning the balance that is cleared. -/
def selfDestruct (s : StateDB) (addr : Address) : U256 × StateDB :=
  match s.getAccount addr with
  | (none, s) => (0, s)
  | (some acc, s) =>
    let s := s.appendJournal (.suicideChange addr (decide (addr ∈ s.suicides)) acc.balance)
    let s := { s with suicides := s.suicides.insert addr }
    (acc.balance, s.putAccount addr { acc with balance := 0 })

def hasSelfDestructed (s : StateDB) (addr : Address) : Bool :=
  decide (addr ∈ s.suicides)

/-- `SelfDestruct6780`: accounts not created in this transaction only lose their balance. -/
def selfDestruct6780 (s : StateDB) (addr : Address) : (U256 × Bool) × StateDB :=
  if addr ∈ s.newContracts then
    let (bal, s) := s.selfDestruct addr
    ((bal, true), s)
  else
    match s.getAccount addr with
    | (none, s) => ((0, false), s)
    | (some acc, s) =>
      let s := s.appendJournal (.balanceChange addr acc.balance)
      ((acc.balance, false), s.putAccount addr { acc with balance := 0 })

/-! ## Refunds, logs, transient storage, access list -/

def addRefund (s : StateDB) (gas : U64) : StateDB :=
  s.inScope (·.addRefund gas)

def subRefund (s : StateDB) (gas : U64) : Except Panic StateDB :=
  (s.toTxScope.subRefund gas).map fun scope => { s with toTxScope := scope }

def addLog (s : StateDB) (log : Log) : StateDB :=
  s.inScope (·.addLog log)

def clearLogs (s : StateDB) : StateDB :=
  s.inScope (·.clearLogs)

def getTransientState (s : StateDB) (addr : Address) (key : Hash) : Hash :=
  s.transient.get addr key

def setTransientState (s : StateDB) (addr : Address) (key value : Hash) : StateDB :=
  s.inScope (·.setTransientState addr key value)

def addAddressToAccessList (s : StateDB) (addr : Address) : StateDB :=
  s.inScope (·.addAddressToAccessList addr)

def addSlotToAccessList (s : StateDB) (addr : Address) (slot : Hash) : StateDB :=
  s.inScope (·.addSlotToAccessList addr slot)

def prepare (s : StateDB) (sender coinbase : Address) (dest : Option Address)
    (precompiles : List Address) : StateDB :=
  s.inScope (·.prepare sender coinbase dest precompiles)

end StateDB

/-! ## Undoing -/

/-- The part of `revert` that concerns the transaction's bookkeeping alone. -/
def JournalEntry.revertScope (s : TxScope) : JournalEntry → TxScope
  | .createObjectChange a => { s with newContracts := s.newContracts.filter (· ≠ a) }
  | .suicideChange a prev _ => s.restoreSuicide a prev
  | .refundChange prev => { s with refund := prev }
  | .addLogChange => { s with logs := s.logs.dropLast }
  | .accessListAddAccountChange a => { s with accessList := s.accessList.deleteAddress a }
  | .accessListAddSlotChange a slot => { s with accessList := s.accessList.deleteSlot a slot }
  | .transientStorageChange a key prevalue =>
    { s with transient := s.transient.set a key prevalue }
  | _ => s

/-- How the account entries are undone: through `getOrNewAccount`, so that a missing account comes
into being. -/
def StateDB.reviseAccount (s : StateDB) (addr : Address) (f : Account → Account) : StateDB :=
  let (acc, s) := s.getOrNewAccount addr
  s.putAccount addr (f acc)

/-- `revert` of a journal entry. -/
def JournalEntry.revert (s : StateDB) (e : JournalEntry) : StateDB :=
  let s := s.inScope e.revertScope
  match e with
  | .balanceChange a prev => s.reviseAccount a fun acc => { acc with balance := prev }
  | .nonceChange a prev => s.reviseAccount a fun acc => { acc with nonce := prev }
  | .codeChange a prevHash prevCode =>
    let s := if prevHash ≠ emptyCodeHash ∧ prevCode ≠ [] then s.putCode prevHash prevCode else s
    s.reviseAccount a fun acc => { acc with codeHash := prevHash }
  | .storageChange a key prevalue => s.putSlot ⟨a, key⟩ prevalue
  | .createObjectChange a =>
    { s with
      accounts := s.accounts.delete a, accountDirty := s.accountDirty.filter (· ≠ a) }
  | .suicideChange a _ prevBalance =>
    match s.getAccount a with
    | (some acc, s) => s.putAccount a { acc with balance := prevBalance }
    | (none, s) => s
  | _ => s

namespace StateDB

def snapshot (s : StateDB) : ℕ × StateDB :=
  (s.nextRevisionID, s.inScope (·.snapshot))

/-- `journal.revert`: the entries above `index` are undone, newest first, and dropped. The dirty
counts stay. -/
def journalRevert (s : StateDB) (index : ℕ) : StateDB :=
  let n := s.journal.entries.length - index
  let s' := (s.journal.entries.take n).foldl JournalEntry.revert s
  { s' with journal := { s'.journal with entries := s.journal.entries.drop n } }

/-- The journal index of a revision, and the revisions older than it. -/
def findRevision (revid : ℕ) : List Revision → Option (ℕ × List Revision)
  | [] => none
  | r :: older => if r.id = revid then some (r.journalIndex, older) else findRevision revid older

/-- `RevertToSnapshot` panics when the snapshot is not among the valid revisions. -/
def revertToSnapshot (s : StateDB) (revid : ℕ) : Except Panic StateDB :=
  match findRevision revid s.validRevisions with
  | none => .error .invalidSnapshotID
  | some (index, older) => .ok { s.journalRevert index with validRevisions := older }

/-! ## The end of a transaction -/

/-- One round of the first loop of `Finalise`: a destroyed account leaves the cache, and its
cached slots become zero. -/
def dropSuicide (s : StateDB) (addr : Address) : StateDB :=
  { s with
    accounts := s.accounts.delete addr
    accountDirty := s.accountDirty.insert addr
    storage := GoMap.assignWhere (·.addr == addr) 0 s.storage
    storageDirty := (s.storage.keys.filter (·.addr == addr)) ∪ s.storageDirty }

/-- One round of the second loop: a dirtied account that is empty leaves the cache. -/
def dropIfEmpty (s : StateDB) (addr : Address) : StateDB :=
  match s.empty addr with
  | (true, s) =>
    { s with accounts := s.accounts.delete addr, accountDirty := s.accountDirty.insert addr }
  | (false, s) => s

def finalise (s : StateDB) (deleteEmptyObjects : Bool) : StateDB :=
  let s := s.suicides.foldl dropSuicide s
  let s := if deleteEmptyObjects then s.journal.dirties.keys.foldl dropIfEmpty s else s
  s.inScope (·.reset)

/-! ## Flushing -/

/-- The writes of one dirty account. An account that is dirty but no longer cached gets none. -/
def accountWrites (s : StateDB) (addr : Address) : List (GoMap.Write Bytes Bytes) :=
  if addr ∈ s.suicides then [⟨accountKey addr, none⟩]
  else
    match s.accounts.get? addr with
    | none => []
    | some acc =>
      ⟨accountKey addr, some (encodeAccount acc)⟩ ::
        (if acc.codeHash = emptyCodeHash then []
        else
          match s.code.get? acc.codeHash with
          | some code => [⟨codeKey acc.codeHash, some code⟩]
          | none => [])

/-- The write of one dirty slot; zero values are deleted. -/
def slotWrite (s : StateDB) (id : StorageID) : GoMap.Write Bytes Bytes :=
  let val := (s.storage.get? id).getD 0
  ⟨storageKey id, if val = 0 then none else some val.bytes⟩

/-- `FlushDirtyTo`: the writes it issues, in order. -/
def flushDirtyTo (s : StateDB) : List (GoMap.Write Bytes Bytes) :=
  s.accountDirty.flatMap s.accountWrites ++ s.storageDirty.map s.slotWrite

def clearDirty (s : StateDB) : StateDB :=
  { s with accountDirty := [], storageDirty := [], suicides := [] }

/-- A block flush: the dirty records go into the database, and the dirty marks are dropped. -/
def flush (s : StateDB) : StateDB :=
  { s with db := GoMap.applyWrites s.flushDirtyTo s.db }.clearDirty

end StateDB

end Dew
