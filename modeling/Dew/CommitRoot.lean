/-
# The root of a committed state

`StateDB.Commit` writes the dirty records into the database and computes the root over the database
with the caches laid over it. Over a database that was empty the caches say then what the rows say:
the leaves are the rows (`get?_collectLeaves`), so the root is a function of what the database holds
(`root_congr`), and the rows are a function of what the state shows (`Fresh.db_congr`).
-/
import Dew.Ledger
import Dew.Persistence
import Dew.StateRoot

namespace Dew.StateDB

/-- The state with its dirty records written into the database, by `FlushDirtyTo`. -/
def written (s : StateDB) : StateDB :=
  { s with db := GoMap.applyWrites s.flushDirtyTo s.db }

/-- `Commit` -/
def commit (s : StateDB) : Hash × StateDB :=
  let (root, s) := s.written.intermediateRoot
  (root, s.clearDirty)

/-! ## The leaves -/

/-- The rows of the state. -/
def stateRows (db : Database) : GoMap Bytes Bytes :=
  (db.entries.filter fun e => isStateKey e.1).foldl (fun m e => m.set e.1 e.2) ∅

theorem get?_stateRows (db : Database) (k : Bytes) :
    (stateRows db).get? k = if isStateKey k then db.get? k else none := by
  have hwrites : stateRows db = GoMap.applyWrites
      ((db.entries.filter fun e => isStateKey e.1).map fun e => ⟨e.1, some e.2⟩) ∅ := by
    rw [GoMap.applyWrites, List.foldl_map]
    rfl
  have hagree : ∀ w ∈ (db.entries.filter fun e => isStateKey e.1).map
      fun e => (⟨e.1, some e.2⟩ : GoMap.Write Bytes Bytes),
      w.key = k → w.value = if isStateKey k then db.get? k else none := by
    intro w hw hk
    obtain ⟨⟨k', v⟩, he, rfl⟩ := List.mem_map.mp hw
    obtain ⟨hmem, hkey⟩ := List.mem_filter.mp he
    obtain rfl : k' = k := hk
    rw [if_pos hkey, GoMap.get?_eq_some_iff.mpr hmem]
  rw [hwrites, GoMap.get?_applyWrites_of_agree hagree]
  split
  · rfl
  · rename_i hnone
    rw [GoMap.get?_empty]
    symm
    rw [ite_eq_right_iff]
    intro hkey
    cases hv : db.get? k with
    | none => rfl
    | some v =>
        exact absurd ⟨_, List.mem_map.mpr ⟨⟨k, v⟩,
          List.mem_filter.mpr ⟨GoMap.get?_eq_some_iff.mp hv, hkey⟩, rfl⟩, rfl⟩ hnone

/-- The rows say what the caches say. -/
structure Flushed (s : StateDB) : Prop where
  suicides : s.suicides = []
  account : ∀ {a acc}, s.accounts.get? a = some acc →
    s.db.get? (accountKey a) = some (encodeAccount acc)
  slot : ∀ {id v}, s.storage.get? id = some v →
    s.db.get? (storageKey id) = if v = 0 then none else some v.bytes
  code : ∀ {a acc c}, s.accounts.get? a = some acc → acc.codeHash ≠ emptyCodeHash →
    s.code.get? acc.codeHash = some c → s.db.code? acc.codeHash = some c

/-- How far laying the account cache over the rows has come: the leaves are still the rows, and of
the state only the code cache has changed, by rows read into it. -/
structure Overlaid (s : StateDB) (p : GoMap Bytes Bytes × StateDB) : Prop where
  leaves : ∀ k, p.1.get? k = (stateRows s.db).get? k
  state : ∃ code, p.2 = { s with code := code } ∧
    ∀ h, (code.get? h).or (s.db.code? h) = (s.code.get? h).or (s.db.code? h)

variable {s : StateDB}

theorem get?_set_of_row {m : GoMap Bytes Bytes} {k v : Bytes}
    (hm : ∀ k, m.get? k = (stateRows s.db).get? k) (hkey : isStateKey k = true)
    (hrow : s.db.get? k = some v) (k' : Bytes) :
    (m.set k v).get? k' = (stateRows s.db).get? k' := by
  rw [GoMap.get?_set]
  split
  · rename_i heq
    rw [heq, get?_stateRows, if_pos hkey, hrow]
  · exact hm k'

theorem Overlaid.step {p : GoMap Bytes Bytes × StateDB} {e : Address × Account}
    (hp : s.Overlaid p) (hs : s.Flushed) (he : s.accounts.get? e.1 = some e.2) :
    s.Overlaid (overlayAccount p e) := by
  obtain ⟨merged, t⟩ := p
  obtain ⟨hleaves, code, rfl, hcode⟩ := hp
  have haccount := get?_set_of_row hleaves rfl (hs.account he)
  unfold overlayAccount
  dsimp only
  rw [if_neg (by rw [hs.suicides]; exact List.not_mem_nil)]
  by_cases hempty : e.2.codeHash = emptyCodeHash
  · rw [if_pos hempty]
    exact ⟨haccount, code, rfl, hcode⟩
  · rw [if_neg hempty, leafCode]
    dsimp only
    have hsame := hcode e.2.codeHash
    cases hcached : code.get? e.2.codeHash with
    | some c =>
        rw [hcached, Option.some_or] at hsame
        have hrow : s.db.code? e.2.codeHash = some c := by
          cases hold : s.code.get? e.2.codeHash with
          | none => rw [hold, Option.none_or] at hsame; exact hsame.symm
          | some c' =>
              rw [hold, Option.some_or] at hsame
              rw [hsame]
              exact hs.code he hempty hold
        exact ⟨get?_set_of_row haccount rfl hrow, code, rfl, hcode⟩
    | none =>
        cases hrow : s.db.code? e.2.codeHash with
        | none => exact ⟨haccount, code, rfl, hcode⟩
        | some blob =>
            refine ⟨get?_set_of_row haccount rfl hrow, code.set e.2.codeHash blob, rfl, ?_⟩
            intro h
            rw [GoMap.get?_set]
            split
            · rename_i heq
              rw [heq, ← hcode, hcached, hrow]
              rfl
            · exact hcode h

theorem Overlaid.foldl {es : List (Address × Account)} {p : GoMap Bytes Bytes × StateDB}
    (hp : s.Overlaid p) (hs : s.Flushed) (hes : ∀ e ∈ es, s.accounts.get? e.1 = some e.2) :
    s.Overlaid (es.foldl overlayAccount p) := by
  induction es generalizing p with
  | nil => exact hp
  | cons e es ih =>
      obtain ⟨he, hes⟩ := List.forall_mem_cons.mp hes
      exact ih (hp.step hs he) hes

theorem get?_overlaySlots {code : GoMap Hash Bytes} {es : List (StorageID × Hash)}
    {m : GoMap Bytes Bytes} (hs : s.Flushed) (hm : ∀ k, m.get? k = (stateRows s.db).get? k)
    (hes : ∀ e ∈ es, s.storage.get? e.1 = some e.2) (k : Bytes) :
    (es.foldl (overlaySlot { s with code := code }) m).get? k = (stateRows s.db).get? k := by
  induction es generalizing m with
  | nil => exact hm k
  | cons e es ih =>
      obtain ⟨he, hes⟩ := List.forall_mem_cons.mp hes
      refine ih ?_ hes
      have hrow := hs.slot he
      unfold overlaySlot
      by_cases hzero : e.2 = 0
      · rw [if_pos (.inr hzero)]
        rw [if_pos hzero] at hrow
        intro k'
        rw [GoMap.get?_delete]
        split
        · rename_i heq
          rw [heq, get?_stateRows, hrow, ite_self]
        · exact hm k'
      · rw [if_neg]
        · rw [if_neg hzero] at hrow
          exact get?_set_of_row hm rfl hrow
        · rintro (hdead | hz)
          · have hdead : e.1.addr ∈ s.suicides := hdead
            rw [hs.suicides] at hdead
            cases hdead
          · exact hzero hz

theorem Flushed.overlaid (hs : s.Flushed) :
    s.Overlaid ((s.accounts.entries.map fun e => (e.1, e.2)).foldl overlayAccount
      (stateRows s.db, s)) := by
  refine Overlaid.foldl ⟨fun _ => rfl, s.code, rfl, fun _ => rfl⟩ hs ?_
  rintro e he
  obtain ⟨⟨a, acc⟩, hmem, rfl⟩ := List.mem_map.mp he
  exact GoMap.get?_eq_some_iff.mpr hmem

/-- The leaves of a flushed state are its rows. -/
theorem get?_collectLeaves (hs : s.Flushed) (k : Bytes) :
    s.collectLeaves.1.get? k = (stateRows s.db).get? k := by
  obtain ⟨hleaves, code, hstate, -⟩ := hs.overlaid
  unfold collectLeaves
  dsimp only
  rw [GoMap.get?_sortKeys]
  change ((List.map _ (List.foldl overlayAccount (stateRows s.db, s) _).2.storage.entries).foldl
    (overlaySlot (List.foldl overlayAccount (stateRows s.db, s) _).2) _).get? k = _
  rw [hstate]
  refine get?_overlaySlots hs hleaves ?_ k
  rintro e he
  obtain ⟨⟨id, v⟩, hmem, rfl⟩ := List.mem_map.mp he
  exact GoMap.get?_eq_some_iff.mpr hmem

theorem collectLeaves_snd (hs : s.Flushed) : ∃ code, s.collectLeaves.2 = { s with code := code } ∧
    ∀ h, (code.get? h).or (s.db.code? h) = (s.code.get? h).or (s.db.code? h) :=
  hs.overlaid.state

/-- The root of a flushed state is that of its rows. -/
theorem intermediateRoot_flushed (hs : s.Flushed) :
    s.intermediateRoot.1 = computeSMTRoot (stateRows s.db).sortKeys := by
  have hsorted : s.collectLeaves.1 = s.collectLeaves.1.sortKeys := by
    unfold collectLeaves
    exact (GoMap.sortKeys_congr fun k => GoMap.get?_sortKeys _ k).symm
  rw [intermediateRoot_fst, hsorted, GoMap.sortKeys_congr (get?_collectLeaves hs)]

/-- Flushed states with the same rows have the same root. -/
theorem root_congr {t : StateDB} (hs : s.Flushed) (ht : t.Flushed)
    (h : ∀ k, s.db.get? k = t.db.get? k) : s.intermediateRoot.1 = t.intermediateRoot.1 := by
  have hrows : (stateRows s.db).sortKeys = (stateRows t.db).sortKeys := by
    refine GoMap.sortKeys_congr fun k => ?_
    rw [get?_stateRows, get?_stateRows, h]
  rw [intermediateRoot_flushed hs, intermediateRoot_flushed ht, hrows]

/-! ## The first commit -/

/-- A state over an empty database, of which nothing has been flushed yet. -/
structure Fresh (s : StateDB) : Prop where
  db : s.db = ∅
  scope : s.toTxScope = (new ∅).toTxScope
  coherent : Coherent s.toStore

theorem fresh_new : (new ∅).Fresh :=
  ⟨rfl, rfl, coherent_new ∅⟩

/-- The states show the same accounts and slots, and have cached the same code. -/
structure Alike (s t : StateDB) : Prop where
  object : ∀ a, s.object? a = t.object? a
  slot : ∀ id, s.slotOf id = t.slotOf id
  code : ∀ h, h ≠ emptyCodeHash → s.code.get? h = t.code.get? h

/-- Every read of the one state gives what it gives in the other. -/
structure SameReads (s t : StateDB) : Prop where
  exist : ∀ a, (s.exist a).1 = (t.exist a).1
  getBalance : ∀ a, (s.getBalance a).1 = (t.getBalance a).1
  getNonce : ∀ a, (s.getNonce a).1 = (t.getNonce a).1
  getCodeHash : ∀ a, (s.getCodeHash a).1 = (t.getCodeHash a).1
  getCode : ∀ a, (s.getCode a).1 = (t.getCode a).1
  empty : ∀ a, (s.empty a).1 = (t.empty a).1
  getState : ∀ id, (s.getState id).1 = (t.getState id).1
  getCommittedState : ∀ id, s.getCommittedState id = t.getCommittedState id
  scope : s.toTxScope = t.toTxScope

namespace Fresh

theorem suicides (h : s.Fresh) : s.suicides = [] := by
  show s.toTxScope.suicides = []
  rw [h.scope]
  rfl

theorem mem_accountDirty (h : s.Fresh) {a : Address} {acc : Account}
    (hacc : s.accounts.get? a = some acc) : a ∈ s.accountDirty := by
  by_contra hclean
  have hrow := h.coherent.account a acc hacc hclean
  rw [h.db] at hrow
  cases hrow

theorem object?_eq (h : s.Fresh) (a : Address) : s.object? a = s.accounts.get? a := by
  rw [Store.object?, h.db]
  exact Option.or_none

theorem slotOf_of_clean (h : s.Fresh) {id : StorageID} (hclean : id ∉ s.storageDirty) :
    s.slotOf id = 0 := by
  have hrow : s.db.slot id = 0 := by
    rw [h.db]
    rfl
  cases hv : s.storage.get? id with
  | none => rw [Store.slotOf, hv, hrow]; rfl
  | some v =>
      rw [Store.slotOf, hv, Option.getD_some, ← h.coherent.slot id v hv hclean, hrow]

theorem accountRow (h : s.Fresh) (a : Address) :
    s.written.db.get? (accountKey a) = (s.object? a).map encodeAccount := by
  have hrow := accountKey_flush h.suicides a
  rw [h.db, GoMap.get?_empty, Option.or_none] at hrow
  rw [h.object?_eq]
  refine hrow.trans ?_
  split
  · rfl
  · rename_i hclean
    cases hacc : s.accounts.get? a with
    | none => rfl
    | some acc => exact absurd (h.mem_accountDirty hacc) hclean

theorem slotRow (h : s.Fresh) (id : StorageID) : s.written.db.get? (storageKey id) =
    if s.slotOf id = 0 then none else some (s.slotOf id).bytes := by
  have hrow := storageKey_flush h.suicides id
  rw [h.db, GoMap.get?_empty] at hrow
  refine hrow.trans ?_
  split
  · rename_i hdirty
    obtain ⟨v, hv⟩ := Option.isSome_iff_exists.mp (h.coherent.dirtySlot id hdirty)
    rw [slotWrite, Store.slotOf, hv]
    rfl
  · rename_i hclean
    rw [if_pos (h.slotOf_of_clean hclean)]

open Classical in
theorem codeRow (h : s.Fresh) {codeHash : Hash} (hne : codeHash ≠ emptyCodeHash) :
    s.written.db.code? codeHash =
      if ∃ a acc, s.object? a = some acc ∧ acc.codeHash = codeHash then s.code.get? codeHash
      else none := by
  have hnone : s.db.code? codeHash = none := by
    rw [h.db]
    rfl
  have hrow := code?_flush h.suicides hne
  rw [hnone, Option.or_none] at hrow
  refine hrow.trans (if_congr ?_ rfl rfl)
  constructor
  · rintro ⟨a, -, acc, hacc, hcode⟩
    exact ⟨a, acc, (h.object?_eq a).trans hacc, hcode⟩
  · rintro ⟨a, acc, hacc, hcode⟩
    rw [h.object?_eq] at hacc
    exact ⟨a, h.mem_accountDirty hacc, acc, hacc, hcode⟩

/-- The rows of a first commit are rows of accounts, slots and code. -/
theorem row_cases (h : s.Fresh) {k : Bytes} (hk : s.written.db.get? k ≠ none) :
    (∃ a, k = accountKey a) ∨ (∃ id, k = storageKey id) ∨
      ∃ codeHash ≠ emptyCodeHash, k = codeKey codeHash := by
  by_contra hother
  push Not at hother
  obtain ⟨haccount, hslot, hcode⟩ := hother
  have hnone : ∀ w ∈ s.flushDirtyTo, w.key ≠ k := by
    rintro w hw rfl
    rcases (mem_flushDirtyTo h.suicides).mp hw with
      ⟨a, -, acc, -, rfl | ⟨hne, c, -, rfl⟩⟩ | ⟨id, -, rfl⟩
    · exact haccount a rfl
    · exact hcode _ hne rfl
    · exact hslot id rfl
  have hrow := GoMap.get?_applyWrites_of_agree (v := none)
    (fun w hw hkey => absurd hkey (hnone w hw)) s.db
  rw [h.db, GoMap.get?_empty, ite_self, ← h.db] at hrow
  exact hk hrow

theorem flushed (h : s.Fresh) : s.written.Flushed where
  suicides := h.suicides
  account {a acc} hacc := by
    rw [h.accountRow, h.object?_eq, show s.accounts.get? a = some acc from hacc]
    rfl
  slot {id v} hv := by
    rw [h.slotRow, Store.slotOf, show s.storage.get? id = some v from hv]
    rfl
  code {a acc c} hacc hne hc := by
    rw [h.codeRow hne, if_pos ⟨a, acc, (h.object?_eq a).trans hacc, rfl⟩]
    exact hc

/-- States that show the same give the same rows. -/
theorem db_congr {t : StateDB} (hs : s.Fresh) (ht : t.Fresh) (h : s.Alike t) (k : Bytes) :
    s.written.db.get? k = t.written.db.get? k := by
  by_cases hshape : (∃ a, k = accountKey a) ∨ (∃ id, k = storageKey id) ∨
      ∃ codeHash ≠ emptyCodeHash, k = codeKey codeHash
  · rcases hshape with ⟨a, rfl⟩ | ⟨id, rfl⟩ | ⟨codeHash, hne, rfl⟩
    · rw [hs.accountRow, ht.accountRow, h.object]
    · rw [hs.slotRow, ht.slotRow, h.slot]
    · show s.written.db.code? codeHash = t.written.db.code? codeHash
      simp only [hs.codeRow hne, ht.codeRow hne, h.object, h.code _ hne]
  · have hnone : ∀ {u : StateDB}, u.Fresh → u.written.db.get? k = none := by
      intro u hu
      by_contra hk
      exact hshape (hu.row_cases hk)
    rw [hnone hs, hnone ht]

theorem root_eq {t : StateDB} (hs : s.Fresh) (ht : t.Fresh) (h : s.Alike t) :
    s.commit.1 = t.commit.1 :=
  root_congr hs.flushed ht.flushed (hs.db_congr ht h)

/-- What a first commit leaves of the state: the dirty marks are gone, and rows may have been read
into the code cache. -/
theorem commit_snd (h : s.Fresh) :
    ∃ code, s.commit.2 = { s.flush with code := code } ∧
      ∀ codeHash, codeHash ≠ emptyCodeHash →
        ((code.get? codeHash).or (s.flush.db.code? codeHash)).getD [] = s.codeOf codeHash := by
  obtain ⟨code, hstate, hcode⟩ := collectLeaves_snd h.flushed
  refine ⟨code, ?_, ?_⟩
  · show s.written.collectLeaves.2.clearDirty = _
    rw [hstate]
    rfl
  · intro codeHash hne
    rw [← codeOf_flush h.suicides hne]
    exact congrArg (Option.getD · []) (hcode codeHash)

theorem scope_commit (h : s.Fresh) : s.commit.2.toTxScope = (new ∅).toTxScope := by
  obtain ⟨code, hcommit, -⟩ := h.commit_snd
  rw [hcommit, ← h.scope]
  show { s.toTxScope with suicides := [] } = s.toTxScope
  rw [← h.suicides]

theorem account?_commit (h : s.Fresh) (a : Address) : s.commit.2.account? a = s.object? a := by
  obtain ⟨code, hcommit, -⟩ := h.commit_snd
  rw [hcommit, ← object?_flush h.suicides h.coherent]
  rfl

theorem slotOf_commit (h : s.Fresh) (id : StorageID) : s.commit.2.slotOf id = s.slotOf id := by
  obtain ⟨code, hcommit, -⟩ := h.commit_snd
  rw [hcommit, ← slotOf_flush h.suicides h.coherent]
  rfl

theorem codeOf_commit (h : s.Fresh) {codeHash : Hash} (hne : codeHash ≠ emptyCodeHash) :
    s.commit.2.codeOf codeHash = s.codeOf codeHash := by
  obtain ⟨code, hcommit, hcode⟩ := h.commit_snd
  rw [hcommit]
  exact hcode codeHash hne

theorem db_commit (h : s.Fresh) : s.commit.2.db = s.written.db := by
  obtain ⟨code, hcommit, -⟩ := h.commit_snd
  rw [hcommit]
  rfl

theorem exist_commit (h : s.Fresh) (a : Address) :
    (s.commit.2.exist a).1 = (s.object? a).isSome := by
  obtain ⟨code, hcommit, -⟩ := h.commit_snd
  rw [hcommit]
  show ((s.accounts.get? a).isSome || (s.written.db.get? (accountKey a)).isSome) = _
  rw [h.accountRow, ← h.object?_eq]
  cases s.object? a <;> rfl

/-- States that show the same before the first commit show the same after it. -/
theorem sameReads_commit {t : StateDB} (hs : s.Fresh) (ht : t.Fresh) (h : s.Alike t) :
    s.commit.2.SameReads t.commit.2 := by
  have haccount : ∀ a, s.commit.2.account? a = t.commit.2.account? a := fun a => by
    rw [hs.account?_commit, ht.account?_commit, h.object]
  have hcodeOf : ∀ codeHash, codeHash ≠ emptyCodeHash →
      s.commit.2.codeOf codeHash = t.commit.2.codeOf codeHash := by
    intro codeHash hne
    rw [hs.codeOf_commit hne, ht.codeOf_commit hne, Store.codeOf, Store.codeOf, h.code _ hne,
      hs.db, ht.db]
  have hcodeHash : ∀ a, s.commit.2.codeHashOf a = t.commit.2.codeHashOf a := fun a => by
    rw [codeHashOf, codeHashOf, haccount]
  have hrow : ∀ k, s.commit.2.db.get? k = t.commit.2.db.get? k := fun k => by
    rw [hs.db_commit, ht.db_commit, hs.db_congr ht h]
  have hscope : s.commit.2.toTxScope = t.commit.2.toTxScope := by
    rw [hs.scope_commit, ht.scope_commit]
  refine
    { exist := fun a => by rw [hs.exist_commit, ht.exist_commit, h.object]
      getBalance := fun a => by
        rw [getBalance_fst, getBalance_fst, balanceOf, balanceOf, haccount]
      getNonce := fun a => by rw [getNonce_fst, getNonce_fst, nonceOf, nonceOf, haccount]
      getCodeHash := fun a => by rw [getCodeHash_eq, getCodeHash_eq, hcodeHash]
      getCode := ?_
      empty := fun a => by rw [empty_eq, empty_eq, emptyAt, emptyAt, haccount]
      getState := fun id => by
        rw [getState_fst, getState_fst, hs.slotOf_commit, ht.slotOf_commit, h.slot]
      getCommittedState := ?_
      scope := hscope }
  · intro a
    rw [getCode_fst, getCode_fst, codeBytes, codeBytes, hcodeHash]
    split
    · rfl
    · rename_i hne
      exact hcodeOf _ hne
  · intro id
    rw [getCommittedState, getCommittedState, hscope, Database.slot, Database.slot, Database.slot?,
      Database.slot?, hrow]

end Fresh

end Dew.StateDB
