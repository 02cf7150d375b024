/-
# Accounts across finalisation, flushes and reopening

What `Finalise(true)` and a block flush do to the values a state database shows, over every run
of transactions and flushes from a freshly opened database.

`Coherent` is the invariant of the caches: what is cached without a dirty mark is what the
database holds. It makes a flush invisible (`object?_reopen`, `slotOf_reopen`). `Finalise`, on the
other hand, only drops an account from the cache, so the account falls back to its database row
(`object?_finalise`), and a destroyed account keeps the stored slots that were never cached
(`slotOf_finalise`). `keptByFinalise_iff` turns this into the exact condition under which balances,
nonces and code survive and destroyed accounts stay destroyed.
-/
import Dew.Ops

namespace Dew

/-! ## Coherence of the caches -/

/-- What is cached and not dirty is what the database holds, and dirty slots are cached. -/
structure Coherent (s : Store) : Prop where
  account : ∀ a acc, s.accounts.get? a = some acc → a ∉ s.accountDirty →
    s.db.account? a = some acc
  slot : ∀ id v, s.storage.get? id = some v → id ∉ s.storageDirty → s.db.slot id = v
  dirtySlot : ∀ id ∈ s.storageDirty, (s.storage.get? id).isSome

theorem coherent_new (db : Database) : Coherent (StateDB.new db).toStore where
  account _ _ h := by simp [StateDB.new] at h
  slot _ _ h := by simp [StateDB.new] at h
  dirtySlot _ h := by simp [StateDB.new] at h

open Store in
theorem Coherent.step {s t : Store} (hs : Coherent s) (h : Step s t) : Coherent t := by
  cases h with
  | @loadAccount a acc hmiss hrow =>
      refine ⟨fun b acc' hb hclean => ?_, hs.slot, hs.dirtySlot⟩
      rw [GoMap.get?_set] at hb
      split at hb
      · rename_i heq
        rw [heq, hrow, ← hb]
      · exact hs.account b acc' hb hclean
  | putAccount a acc =>
      refine ⟨fun b acc' hb hclean => ?_, hs.slot, hs.dirtySlot⟩
      rw [List.mem_insert_iff, not_or] at hclean
      rw [GoMap.get?_set, if_neg hclean.1] at hb
      exact hs.account b acc' hb hclean.2
  | forgetAccount a =>
      refine ⟨fun b acc' hb hclean => ?_, hs.slot, hs.dirtySlot⟩
      rw [GoMap.get?_delete] at hb
      split at hb
      · cases hb
      · rename_i hne
        exact hs.account b acc' hb (fun hb' => hclean (by simp [hb', hne]))
  | @loadSlot id v hmiss hrow =>
      refine ⟨hs.account, fun id' v' hv hclean => ?_, fun id' hd => ?_⟩
      · rw [GoMap.get?_set] at hv
        split at hv
        · rename_i heq
          rw [heq, Database.slot, hrow, Option.getD_some]
          exact Option.some.inj hv
        · exact hs.slot id' v' hv hclean
      · rw [GoMap.get?_set]
        split
        · rfl
        · exact hs.dirtySlot id' hd
  | putSlot id v =>
      refine ⟨hs.account, fun id' v' hv hclean => ?_, fun id' hd => ?_⟩
      · rw [List.mem_insert_iff, not_or] at hclean
        rw [GoMap.get?_set, if_neg hclean.1] at hv
        exact hs.slot id' v' hv hclean.2
      · rw [GoMap.get?_set]
        split
        · rfl
        · rename_i hne
          exact hs.dirtySlot id' ((List.mem_insert_iff.mp hd).resolve_left hne)
  | putCode h c => exact ⟨hs.account, hs.slot, hs.dirtySlot⟩

theorem Coherent.steps {s t : Store} (hs : Coherent s) (h : Store.Steps s t) : Coherent t := by
  induction h with
  | refl => exact hs
  | tail _ hstep ih => exact ih.step hstep

namespace StateDB

/-! ## The loops of `Finalise` -/

theorem foldl_dropSuicide_scope (l : List Address) (s : StateDB) :
    l.foldl dropSuicide s = { s with toStore := (l.foldl dropSuicide s).toStore } := by
  induction l generalizing s with
  | nil => rfl
  | cons a l ih =>
      rw [List.foldl_cons, ih]
      rfl

theorem foldl_dropSuicide_accounts (l : List Address) (s : StateDB) (a : Address) :
    (l.foldl dropSuicide s).accounts.get? a = if a ∈ l then none else s.accounts.get? a := by
  induction l generalizing s with
  | nil => simp
  | cons b l ih =>
      rw [List.foldl_cons, ih, dropSuicide, GoMap.get?_delete]
      by_cases hl : a ∈ l <;> by_cases hb : a = b <;> simp [hl, hb]

theorem foldl_dropSuicide_accountDirty (l : List Address) (s : StateDB) (a : Address) :
    a ∈ (l.foldl dropSuicide s).accountDirty ↔ a ∈ l ∨ a ∈ s.accountDirty := by
  induction l generalizing s with
  | nil => simp
  | cons b l ih =>
      rw [List.foldl_cons, ih, dropSuicide, List.mem_insert_iff, List.mem_cons]
      tauto

theorem foldl_dropSuicide_storage (l : List Address) (s : StateDB) (id : StorageID) :
    (l.foldl dropSuicide s).storage.get? id =
      if id.addr ∈ l ∧ (s.storage.get? id).isSome then some 0 else s.storage.get? id := by
  induction l generalizing s with
  | nil => simp
  | cons b l ih =>
      rw [List.foldl_cons, ih, dropSuicide, GoMap.get?_assignWhere]
      by_cases hb : id.addr = b <;> by_cases hl : id.addr ∈ l <;>
        cases h : s.storage.get? id <;> simp_all

theorem foldl_dropSuicide_storageDirty (l : List Address) (s : StateDB) (id : StorageID) :
    id ∈ (l.foldl dropSuicide s).storageDirty ↔
      (id.addr ∈ l ∧ (s.storage.get? id).isSome) ∨ id ∈ s.storageDirty := by
  induction l generalizing s with
  | nil => simp
  | cons b l ih =>
      rw [List.foldl_cons, ih]
      have hstill : ((s.dropSuicide b).storage.get? id).isSome = (s.storage.get? id).isSome := by
        rw [dropSuicide, GoMap.get?_assignWhere]
        split
        · rename_i h
          rw [h.1]
          rfl
        · rfl
      rw [hstill, dropSuicide, List.mem_union_iff, List.mem_filter, ← GoMap.isSome_get?,
        List.mem_cons, beq_iff_eq]
      tauto

theorem foldl_dropSuicide_code (l : List Address) (s : StateDB) :
    (l.foldl dropSuicide s).code = s.code := by
  induction l generalizing s with
  | nil => rfl
  | cons a l ih => rw [List.foldl_cons, ih]; rfl

theorem foldl_dropSuicide_db (l : List Address) (s : StateDB) :
    (l.foldl dropSuicide s).db = s.db := by
  induction l generalizing s with
  | nil => rfl
  | cons a l ih => rw [List.foldl_cons, ih]; rfl

theorem dropIfEmpty_eq (s : StateDB) (a : Address) :
    s.dropIfEmpty a =
      if s.emptyAt a then
        { s with
          accounts := (s.loaded a).delete a, accountDirty := s.accountDirty.insert a }
      else { s with accounts := s.loaded a } := by
  unfold dropIfEmpty
  rw [empty_eq]
  cases s.emptyAt a <;> rfl

theorem dropIfEmpty_rest (s : StateDB) (a : Address) :
    s.dropIfEmpty a = { s with
      accounts := (s.dropIfEmpty a).accounts
      accountDirty := (s.dropIfEmpty a).accountDirty } := by
  rw [dropIfEmpty_eq]
  split <;> rfl

theorem not_mem_suicides_of_not_emptyAt {s : StateDB} {a : Address} (h : s.emptyAt a = false) :
    a ∉ s.suicides := by
  intro hdead
  simp [emptyAt, account?, hdead] at h

theorem dropIfEmpty_accounts (s : StateDB) (a b : Address) :
    (s.dropIfEmpty a).accounts.get? b =
      if b = a then (if s.emptyAt a then none else s.object? a) else s.accounts.get? b := by
  rw [dropIfEmpty_eq]
  cases hempty : s.emptyAt a with
  | true => by_cases hba : b = a <;> simp [GoMap.get?_delete, get?_loaded, hba]
  | false =>
      have hlive := not_mem_suicides_of_not_emptyAt hempty
      simp [get?_loaded, hlive]

theorem dropIfEmpty_accountDirty (s : StateDB) (a b : Address) :
    b ∈ (s.dropIfEmpty a).accountDirty ↔ (b = a ∧ s.emptyAt a) ∨ b ∈ s.accountDirty := by
  rw [dropIfEmpty_eq]
  cases s.emptyAt a <;> simp

theorem foldl_dropIfEmpty_rest (l : List Address) (s : StateDB) :
    l.foldl dropIfEmpty s = { s with
      accounts := (l.foldl dropIfEmpty s).accounts
      accountDirty := (l.foldl dropIfEmpty s).accountDirty } := by
  induction l generalizing s with
  | nil => rfl
  | cons a l ih =>
      rw [List.foldl_cons, ih, dropIfEmpty_rest]

/-- Dropping one account does not change what the others show. -/
theorem emptyAt_dropIfEmpty_of_ne (s : StateDB) {a b : Address} (h : b ≠ a) :
    (s.dropIfEmpty a).emptyAt b = s.emptyAt b ∧ (s.dropIfEmpty a).object? b = s.object? b := by
  have hobj : (s.dropIfEmpty a).object? b = s.object? b := by
    unfold Store.object?
    rw [dropIfEmpty_accounts, if_neg h, dropIfEmpty_rest]
  refine ⟨?_, hobj⟩
  unfold emptyAt account?
  rw [hobj, dropIfEmpty_rest]

theorem foldl_dropIfEmpty_accounts {l : List Address} (hl : l.Nodup) (s : StateDB) (a : Address) :
    (l.foldl dropIfEmpty s).accounts.get? a =
      if a ∈ l then (if s.emptyAt a then none else s.object? a) else s.accounts.get? a := by
  induction l generalizing s with
  | nil => simp
  | cons b l ih =>
      obtain ⟨hb, hl⟩ := List.nodup_cons.mp hl
      rw [List.foldl_cons, ih hl]
      by_cases hab : a = b
      · subst hab
        simp [hb, dropIfEmpty_accounts]
      · obtain ⟨hempty, hobj⟩ := emptyAt_dropIfEmpty_of_ne s hab
        simp [hab, hempty, hobj, dropIfEmpty_accounts]

theorem foldl_dropIfEmpty_accountDirty {l : List Address} (hl : l.Nodup) (s : StateDB)
    (a : Address) :
    a ∈ (l.foldl dropIfEmpty s).accountDirty ↔ (a ∈ l ∧ s.emptyAt a) ∨ a ∈ s.accountDirty := by
  induction l generalizing s with
  | nil => simp
  | cons b l ih =>
      obtain ⟨hb, hl⟩ := List.nodup_cons.mp hl
      rw [List.foldl_cons, ih hl, dropIfEmpty_accountDirty, List.mem_cons]
      by_cases hab : a = b
      · subst hab
        simp [hb]
      · simp [hab, (emptyAt_dropIfEmpty_of_ne s hab).1]

/-! ## What `Finalise` leaves -/

/-- The accounts `Finalise(true)` drops from the cache: the destroyed ones, and those dirtied in
the transaction that are empty. -/
def Dropped (s : StateDB) (a : Address) : Prop :=
  a ∈ s.suicides ∨ (a ∈ s.journal.dirties.keys ∧ s.emptyAt a)

instance (s : StateDB) (a : Address) : Decidable (s.Dropped a) :=
  inferInstanceAs (Decidable (_ ∨ _))

/-- The caches between the two loops of `Finalise`. -/
def afterSuicides (s : StateDB) : StateDB :=
  s.suicides.foldl dropSuicide s

theorem finalise_eq (s : StateDB) :
    s.finalise true = (s.journal.dirties.keys.foldl dropIfEmpty s.afterSuicides).inScope (·.reset) := by
  have hjournal : s.afterSuicides.journal = s.journal := by
    rw [afterSuicides, foldl_dropSuicide_scope]
  show (s.afterSuicides.journal.dirties.keys.foldl dropIfEmpty s.afterSuicides).inScope (·.reset) = _
  rw [hjournal]

theorem account?_afterSuicides (s : StateDB) (a : Address) :
    s.afterSuicides.account? a = s.account? a := by
  have hsuicides : s.afterSuicides.suicides = s.suicides := by
    rw [afterSuicides, foldl_dropSuicide_scope]
  unfold account? Store.object?
  rw [hsuicides, afterSuicides, foldl_dropSuicide_accounts, foldl_dropSuicide_db]
  by_cases h : a ∈ s.suicides <;> simp [h]

theorem emptyAt_afterSuicides (s : StateDB) (a : Address) :
    s.afterSuicides.emptyAt a = s.emptyAt a := by
  rw [emptyAt, account?_afterSuicides]
  rfl

/-- The account cache after `Finalise`: dropped accounts are gone, dirtied ones are loaded. -/
theorem finalise_accounts (s : StateDB) (a : Address) :
    (s.finalise true).accounts.get? a =
      if s.Dropped a then none
      else if a ∈ s.journal.dirties.keys then s.object? a else s.accounts.get? a := by
  rw [finalise_eq]
  show (s.journal.dirties.keys.foldl dropIfEmpty s.afterSuicides).accounts.get? a = _
  rw [foldl_dropIfEmpty_accounts (AList.keys_nodup _), emptyAt_afterSuicides, Store.object?,
    afterSuicides, foldl_dropSuicide_accounts, foldl_dropSuicide_db]
  by_cases hdead : a ∈ s.suicides
  · have hempty : s.emptyAt a = true := by simp [emptyAt, account?, hdead]
    simp [Dropped, hdead, hempty]
  · by_cases hdirty : a ∈ s.journal.dirties.keys <;> cases hempty : s.emptyAt a <;>
      simp [Dropped, hdead, hdirty, hempty, Store.object?]

theorem finalise_accountDirty (s : StateDB) (a : Address) :
    a ∈ (s.finalise true).accountDirty ↔ s.Dropped a ∨ a ∈ s.accountDirty := by
  rw [finalise_eq]
  show a ∈ (s.journal.dirties.keys.foldl dropIfEmpty s.afterSuicides).accountDirty ↔ _
  rw [foldl_dropIfEmpty_accountDirty (AList.keys_nodup _), emptyAt_afterSuicides, afterSuicides,
    foldl_dropSuicide_accountDirty, Dropped]
  tauto

/-- The remaining caches are those after the first loop. -/
theorem finalise_rest (s : StateDB) :
    (s.finalise true).storage = s.afterSuicides.storage ∧
      (s.finalise true).storageDirty = s.afterSuicides.storageDirty ∧
      (s.finalise true).code = s.code ∧ (s.finalise true).db = s.db := by
  rw [finalise_eq, foldl_dropIfEmpty_rest]
  exact ⟨rfl, rfl, foldl_dropSuicide_code _ s, foldl_dropSuicide_db _ s⟩

theorem finalise_db (s : StateDB) : (s.finalise true).db = s.db :=
  (finalise_rest s).2.2.2

theorem finalise_code (s : StateDB) : (s.finalise true).code = s.code :=
  (finalise_rest s).2.2.1

theorem finalise_suicides (s : StateDB) : (s.finalise true).suicides = [] :=
  rfl

theorem finalise_storage (s : StateDB) (id : StorageID) :
    (s.finalise true).storage.get? id =
      if id.addr ∈ s.suicides ∧ (s.storage.get? id).isSome then some 0
      else s.storage.get? id := by
  rw [(finalise_rest s).1]
  exact foldl_dropSuicide_storage _ s id

/-- A dropped account falls back to its database row; the others keep their object. -/
theorem object?_finalise (s : StateDB) (a : Address) :
    (s.finalise true).object? a = if s.Dropped a then s.db.account? a else s.object? a := by
  rw [Store.object?, finalise_accounts, finalise_db]
  by_cases hdrop : s.Dropped a
  · simp [hdrop]
  · by_cases hdirty : a ∈ s.journal.dirties.keys <;>
      simp [hdrop, hdirty, Store.object?, Option.or_assoc]

/-- The cached slots of a destroyed account become zero; the others keep their value. -/
theorem slotOf_finalise (s : StateDB) (id : StorageID) :
    (s.finalise true).slotOf id =
      if id.addr ∈ s.suicides ∧ (s.storage.get? id).isSome then 0 else s.slotOf id := by
  rw [Store.slotOf, finalise_storage, finalise_db]
  split <;> rfl

theorem codeOf_finalise (s : StateDB) (h : Hash) : (s.finalise true).codeOf h = s.codeOf h := by
  rw [Store.codeOf, finalise_code, finalise_db, Store.codeOf]

theorem coherent_finalise {s : StateDB} (hs : Coherent s.toStore) :
    Coherent (s.finalise true).toStore where
  account a acc hacc hclean := by
    rw [finalise_accountDirty, not_or] at hclean
    rw [finalise_accounts, if_neg hclean.1] at hacc
    rw [finalise_db]
    cases hcached : s.accounts.get? a with
    | some acc' =>
        rw [← hacc, hs.account a acc' hcached hclean.2]
        split <;> simp [Store.object?, hcached]
    | none =>
        split at hacc
        · simpa [Store.object?, hcached] using hacc
        · rw [hcached] at hacc
          cases hacc
  slot id v hv hclean := by
    rw [(finalise_rest s).2.1, afterSuicides, foldl_dropSuicide_storageDirty, not_or] at hclean
    rw [finalise_storage, if_neg hclean.1] at hv
    rw [finalise_db]
    exact hs.slot id v hv hclean.2
  dirtySlot id hd := by
    rw [(finalise_rest s).2.1, afterSuicides, foldl_dropSuicide_storageDirty] at hd
    rw [finalise_storage]
    split
    · rfl
    · rename_i hkeep
      exact hs.dirtySlot id (hd.resolve_left hkeep)

/-! ## What a flush leaves -/

/-- The writes of a flush when no account is marked destroyed. -/
theorem mem_flushDirtyTo {s : StateDB} (hs : s.suicides = []) {w : GoMap.Write Bytes Bytes} :
    w ∈ s.flushDirtyTo ↔
      (∃ a ∈ s.accountDirty, ∃ acc, s.accounts.get? a = some acc ∧
        (w = ⟨accountKey a, some (encodeAccount acc)⟩ ∨
          (acc.codeHash ≠ emptyCodeHash ∧ ∃ c, s.code.get? acc.codeHash = some c ∧
            w = ⟨codeKey acc.codeHash, some c⟩))) ∨
      ∃ id ∈ s.storageDirty, w = s.slotWrite id := by
  unfold flushDirtyTo
  rw [List.mem_append, List.mem_flatMap, List.mem_map]
  refine or_congr ?_ (by simp only [eq_comm])
  refine exists_congr fun a => and_congr_right fun _ => ?_
  unfold accountWrites
  simp only [hs, List.not_mem_nil, if_false]
  cases s.accounts.get? a with
  | none => simp
  | some acc =>
      by_cases hcode : acc.codeHash = emptyCodeHash
      · simp [hcode]
      · cases hc : s.code.get? acc.codeHash <;> simp [hcode, hc]

theorem accountKey_flush {s : StateDB} (hs : s.suicides = []) (a : Address) :
    s.flush.db.get? (accountKey a) =
      if a ∈ s.accountDirty then
        ((s.accounts.get? a).map encodeAccount).or (s.db.get? (accountKey a))
      else s.db.get? (accountKey a) := by
  have hagree : ∀ w ∈ s.flushDirtyTo, w.key = accountKey a →
      w.value = (s.accounts.get? a).map encodeAccount := by
    intro w hw hkey
    rcases (mem_flushDirtyTo hs).mp hw with ⟨b, _, acc, hacc, rfl | ⟨_, c, _, rfl⟩⟩ | ⟨id, _, rfl⟩
    · obtain rfl := accountKey_injective hkey
      simp [hacc]
    · exact absurd hkey.symm (accountKey_ne_codeKey a _)
    · exact absurd hkey.symm (accountKey_ne_storageKey a _)
  have hwritten : (∃ w ∈ s.flushDirtyTo, w.key = accountKey a) ↔
      a ∈ s.accountDirty ∧ (s.accounts.get? a).isSome := by
    constructor
    · rintro ⟨w, hw, hkey⟩
      rcases (mem_flushDirtyTo hs).mp hw with
        ⟨b, hb, acc, hacc, rfl | ⟨_, c, _, rfl⟩⟩ | ⟨id, _, rfl⟩
      · obtain rfl := accountKey_injective hkey
        exact ⟨hb, by simp [hacc]⟩
      · exact absurd hkey.symm (accountKey_ne_codeKey a _)
      · exact absurd hkey.symm (accountKey_ne_storageKey a _)
    · rintro ⟨ha, hacc⟩
      obtain ⟨acc, hacc⟩ := Option.isSome_iff_exists.mp hacc
      exact ⟨_, (mem_flushDirtyTo hs).mpr (.inl ⟨a, ha, acc, hacc, .inl rfl⟩), rfl⟩
  show (GoMap.applyWrites s.flushDirtyTo s.db).get? (accountKey a) = _
  rw [GoMap.get?_applyWrites_of_agree hagree]
  simp only [hwritten]
  by_cases ha : a ∈ s.accountDirty <;> cases s.accounts.get? a <;> simp [ha]

theorem storageKey_flush {s : StateDB} (hs : s.suicides = []) (id : StorageID) :
    s.flush.db.get? (storageKey id) =
      if id ∈ s.storageDirty then (s.slotWrite id).value else s.db.get? (storageKey id) := by
  have hagree : ∀ w ∈ s.flushDirtyTo, w.key = storageKey id →
      w.value = (s.slotWrite id).value := by
    intro w hw hkey
    rcases (mem_flushDirtyTo hs).mp hw with ⟨b, _, acc, _, rfl | ⟨_, c, _, rfl⟩⟩ | ⟨id', _, rfl⟩
    · exact absurd hkey (accountKey_ne_storageKey b id)
    · exact absurd hkey.symm (storageKey_ne_codeKey id _)
    · obtain rfl := storageKey_injective hkey
      rfl
  have hwritten : (∃ w ∈ s.flushDirtyTo, w.key = storageKey id) ↔ id ∈ s.storageDirty := by
    constructor
    · rintro ⟨w, hw, hkey⟩
      rcases (mem_flushDirtyTo hs).mp hw with
        ⟨b, _, acc, _, rfl | ⟨_, c, _, rfl⟩⟩ | ⟨id', hid, rfl⟩
      · exact absurd hkey (accountKey_ne_storageKey b id)
      · exact absurd hkey.symm (storageKey_ne_codeKey id _)
      · obtain rfl := storageKey_injective hkey
        exact hid
    · exact fun hid => ⟨_, (mem_flushDirtyTo hs).mpr (.inr ⟨id, hid, rfl⟩), rfl⟩
  show (GoMap.applyWrites s.flushDirtyTo s.db).get? (storageKey id) = _
  rw [GoMap.get?_applyWrites_of_agree hagree]
  simp only [hwritten]

/-- Whether a flush writes the code with hash `h`: some dirty cached account has it. -/
def FlushesCode (s : StateDB) (h : Hash) : Prop :=
  ∃ a ∈ s.accountDirty, ∃ acc, s.accounts.get? a = some acc ∧ acc.codeHash = h

open Classical in
theorem code?_flush {s : StateDB} (hs : s.suicides = []) {h : Hash} (hne : h ≠ emptyCodeHash) :
    s.flush.db.code? h =
      if s.FlushesCode h then (s.code.get? h).or (s.db.code? h) else s.db.code? h := by
  have hagree : ∀ w ∈ s.flushDirtyTo, w.key = codeKey h → w.value = s.code.get? h := by
    intro w hw hkey
    rcases (mem_flushDirtyTo hs).mp hw with
      ⟨b, _, acc, _, rfl | ⟨_, c, hc, rfl⟩⟩ | ⟨id, _, rfl⟩
    · exact absurd hkey (accountKey_ne_codeKey b h)
    · obtain rfl := codeKey_injective hkey
      exact hc.symm
    · exact absurd hkey (storageKey_ne_codeKey id h)
  have hwritten : (∃ w ∈ s.flushDirtyTo, w.key = codeKey h) ↔
      s.FlushesCode h ∧ (s.code.get? h).isSome := by
    constructor
    · rintro ⟨w, hw, hkey⟩
      rcases (mem_flushDirtyTo hs).mp hw with
        ⟨b, hb, acc, hacc, rfl | ⟨_, c, hc, rfl⟩⟩ | ⟨id, _, rfl⟩
      · exact absurd hkey (accountKey_ne_codeKey b h)
      · obtain rfl := codeKey_injective hkey
        exact ⟨⟨b, hb, acc, hacc, rfl⟩, by simp [hc]⟩
      · exact absurd hkey (storageKey_ne_codeKey id h)
    · rintro ⟨⟨b, hb, acc, hacc, rfl⟩, hc⟩
      obtain ⟨c, hc⟩ := Option.isSome_iff_exists.mp hc
      exact ⟨_, (mem_flushDirtyTo hs).mpr (.inl ⟨b, hb, acc, hacc, .inr ⟨hne, c, hc, rfl⟩⟩), rfl⟩
  show (GoMap.applyWrites s.flushDirtyTo s.db).get? (codeKey h) = _
  rw [GoMap.get?_applyWrites_of_agree hagree]
  simp only [hwritten, Database.code?]
  by_cases hflush : s.FlushesCode h <;> cases s.code.get? h <;> simp [hflush]

/-- After a flush the database alone shows every account object. -/
theorem account?_flush {s : StateDB} (hs : s.suicides = []) (hc : Coherent s.toStore)
    (a : Address) : s.flush.db.account? a = s.object? a := by
  rw [Database.account?, accountKey_flush hs, Store.object?]
  cases hacc : s.accounts.get? a with
  | none => split <;> rfl
  | some acc =>
      split
      · simp
      · rename_i hclean
        rw [← Database.account?, hc.account a acc hacc hclean]
        rfl

/-- After a flush the database alone shows every slot. -/
theorem slot_flush {s : StateDB} (hs : s.suicides = []) (hc : Coherent s.toStore)
    (id : StorageID) : s.flush.db.slot id = s.slotOf id := by
  rw [Database.slot, Database.slot?, storageKey_flush hs, Store.slotOf]
  by_cases hdirty : id ∈ s.storageDirty
  · obtain ⟨v, hv⟩ := Option.isSome_iff_exists.mp (hc.dirtySlot id hdirty)
    rw [if_pos hdirty, slotWrite, hv]
    by_cases hzero : v = 0#256 <;> simp [hzero]
  · rw [if_neg hdirty, ← Database.slot?, ← Database.slot]
    cases hv : s.storage.get? id with
    | none => rfl
    | some v => exact hc.slot id v hv hdirty

theorem object?_flush {s : StateDB} (hs : s.suicides = []) (hc : Coherent s.toStore)
    (a : Address) : s.flush.object? a = s.object? a := by
  show (s.accounts.get? a).or (s.flush.db.account? a) = _
  rw [account?_flush hs hc, Store.object?, ← Option.or_assoc, Option.or_self]

theorem slotOf_flush {s : StateDB} (hs : s.suicides = []) (hc : Coherent s.toStore)
    (id : StorageID) : s.flush.slotOf id = s.slotOf id := by
  show (s.storage.get? id).getD (s.flush.db.slot id) = _
  rw [slot_flush hs hc, Store.slotOf]
  cases s.storage.get? id <;> rfl

theorem codeOf_flush {s : StateDB} (hs : s.suicides = []) {h : Hash} (hne : h ≠ emptyCodeHash) :
    s.flush.codeOf h = s.codeOf h := by
  show ((s.code.get? h).or (s.flush.db.code? h)).getD [] = _
  rw [code?_flush hs hne, Store.codeOf]
  split
  · rw [← Option.or_assoc, Option.or_self]
  · rfl

theorem coherent_flush {s : StateDB} (hs : s.suicides = []) (hc : Coherent s.toStore) :
    Coherent s.flush.toStore where
  account a acc hacc _ := by
    rw [account?_flush hs hc, Store.object?]
    rw [show s.accounts.get? a = some acc from hacc]
    rfl
  slot id v hv _ := by
    rw [slot_flush hs hc, Store.slotOf]
    rw [show s.storage.get? id = some v from hv]
    rfl
  dirtySlot id hd := by cases hd

/-! ## Runs -/

/-- The state after a list of operations. -/
def runOps (s : StateDB) (ops : List Op) : Except Panic StateDB :=
  ops.foldlM Op.apply s

/-- What happens to a state database between two transactions: another transaction, given by its
operations and ended by `Finalise(true)`, or a block flush. -/
inductive Event where
  | tx (ops : List Op)
  | flush

def Event.apply (s : StateDB) : Event → Except Panic StateDB
  | .tx ops => (s.runOps ops).map (·.finalise true)
  | .flush => .ok s.flush

def runEvents (s : StateDB) (events : List Event) : Except Panic StateDB :=
  events.foldlM Event.apply s

theorem steps_runOps {ops : List Op} {s t : StateDB} (h : s.runOps ops = .ok t) :
    Store.Steps s.toStore t.toStore := by
  induction ops generalizing s with
  | nil =>
      cases h
      exact .refl
  | cons op ops ih =>
      rw [runOps, List.foldlM_cons] at h
      cases hop : op.exec s with
      | error e =>
          simp only [Op.apply, hop] at h
          cases h
      | ok rt =>
          simp only [Op.apply, hop] at h
          exact (Op.steps hop).trans (ih h)

/-- What holds between transactions: coherent caches and no account marked destroyed. -/
structure Settled (s : StateDB) : Prop where
  coherent : Coherent s.toStore
  suicides : s.suicides = []

theorem settled_event {e : Event} {s t : StateDB} (hs : Settled s) (h : e.apply s = .ok t) :
    Settled t := by
  cases e with
  | tx ops =>
      cases hops : s.runOps ops with
      | error e =>
          simp [Event.apply, hops, Except.map] at h
      | ok u =>
          simp only [Event.apply, hops, Except.map] at h
          cases h
          exact ⟨coherent_finalise (hs.coherent.steps (steps_runOps hops)), rfl⟩
  | flush =>
      cases h
      exact ⟨coherent_flush hs.suicides hs.coherent, rfl⟩

theorem settled_runEvents {events : List Event} {s t : StateDB} (hs : Settled s)
    (h : s.runEvents events = .ok t) : Settled t := by
  induction events generalizing s with
  | nil =>
      cases h
      exact hs
  | cons e events ih =>
      rw [runEvents, List.foldlM_cons] at h
      cases he : e.apply s with
      | error p =>
          rw [he] at h
          cases h
      | ok s' =>
          rw [he] at h
          exact ih (settled_event hs he) h

theorem settled_new (db : Database) : Settled (new db) :=
  ⟨coherent_new db, rfl⟩

/-- In a run the caches are coherent at every point, also inside a transaction. -/
theorem coherent_of_run {db : Database} {events : List Event} {ops : List Op} {s₀ s : StateDB}
    (h₀ : (new db).runEvents events = .ok s₀) (h : s₀.runOps ops = .ok s) :
    Coherent s.toStore :=
  (settled_runEvents (settled_new db) h₀).coherent.steps (steps_runOps h)

/-! ## What survives the end of a transaction -/

/-- `t` shows what the state `s` just before `Finalise` promises: the accounts that are not
destroyed as in `s`, the destroyed ones empty and with all their storage zero. -/
structure ShowsEndOf (s t : StateDB) : Prop where
  balance : ∀ a ∉ s.suicides, (t.getBalance a).1 = (s.getBalance a).1
  nonce : ∀ a ∉ s.suicides, (t.getNonce a).1 = (s.getNonce a).1
  code : ∀ a ∉ s.suicides, (t.getCode a).1 = (s.getCode a).1
  destroyed : ∀ a ∈ s.suicides,
    (t.getBalance a).1 = 0 ∧ (t.getNonce a).1 = 0 ∧ (t.getCode a).1 = []
  destroyedStorage : ∀ a ∈ s.suicides, ∀ k, (t.getState ⟨a, k⟩).1 = 0

/-- The values just before `Finalise(true)` are shown right after it, after the following flush,
and by a fresh state database on the flushed database. -/
def KeptByFinalise (s : StateDB) : Prop :=
  ShowsEndOf s (s.finalise true) ∧ ShowsEndOf s (s.finalise true).flush ∧
    ShowsEndOf s (new (s.finalise true).flush.db)

/-- The account object after `Finalise`. -/
def settledObject? (s : StateDB) (a : Address) : Option Account :=
  if s.Dropped a then s.db.account? a else s.object? a

/-- A row that reads as no balance, no nonce and no code. -/
def ReadsEmpty (s : StateDB) (acc : Account) : Prop :=
  acc.balance = 0 ∧ acc.nonce = 0 ∧
    (acc.codeHash = emptyCodeHash ∨ s.codeOf acc.codeHash = [])

/-- The condition on the state just before `Finalise(true)`: an account that is dropped has no
stored row, or one that reads empty; a destroyed account has no stored slot that is neither cached
nor zero; and cached code of an account is stored, or about to be stored with a dirty account. -/
structure DropsCleanly (s : StateDB) : Prop where
  rows : ∀ a, s.Dropped a → ∀ acc, s.db.account? a = some acc → s.ReadsEmpty acc
  slots : ∀ a ∈ s.suicides, ∀ k, s.storage.get? ⟨a, k⟩ = none → s.db.slot ⟨a, k⟩ = 0
  code : ∀ a acc c, s.settledObject? a = some acc → acc.codeHash ≠ emptyCodeHash →
    s.code.get? acc.codeHash = some c →
    (s.db.code? acc.codeHash).getD [] = c ∨
      ∃ b ∈ s.accountDirty, ¬ s.Dropped b ∧
        ((s.accounts.get? b).isSome ∨ b ∈ s.journal.dirties.keys) ∧
        (s.object? b).map Account.codeHash = some acc.codeHash

theorem account?_of_no_suicides {t : StateDB} (ht : t.suicides = []) (a : Address) :
    t.account? a = t.object? a := by
  simp [account?, ht]

theorem account?_of_not_dropped {s : StateDB} {a : Address} (h : ¬ s.Dropped a) :
    s.account? a = s.settledObject? a := by
  have hlive : a ∉ s.suicides := fun hdead => h (.inl hdead)
  rw [account?, if_neg hlive, settledObject?, if_neg h]

/-- An account dropped without being destroyed shows as empty before `Finalise`. -/
theorem shows_empty_of_dropped {s : StateDB} {a : Address} (h : s.Dropped a)
    (hlive : a ∉ s.suicides) : s.balanceOf a = 0 ∧ s.nonceOf a = 0 ∧ s.codeBytes a = [] := by
  have hempty : s.emptyAt a = true := (h.resolve_left hlive).2
  unfold emptyAt at hempty
  unfold balanceOf nonceOf codeBytes codeHashOf
  cases hacc : s.account? a with
  | none => simp
  | some acc =>
      rw [hacc] at hempty
      simp only [Account.isEmpty, Bool.and_eq_true, beq_iff_eq] at hempty
      simp [hempty]

/-- What a state without destroyed accounts has to show, account by account, when its objects are
those `Finalise` leaves. -/
theorem showsEndOf_iff {s t : StateDB} (ht : t.suicides = [])
    (hobj : ∀ a, t.object? a = s.settledObject? a)
    (hslot : ∀ id, t.slotOf id = (s.finalise true).slotOf id) :
    ShowsEndOf s t ↔
      (∀ a, s.Dropped a → ∀ acc, s.db.account? a = some acc →
        acc.balance = 0 ∧ acc.nonce = 0 ∧
          (acc.codeHash = emptyCodeHash ∨ t.codeOf acc.codeHash = [])) ∧
      (∀ a ∈ s.suicides, ∀ k, s.storage.get? ⟨a, k⟩ = none → s.db.slot ⟨a, k⟩ = 0) ∧
      (∀ a, ¬ s.Dropped a → ∀ acc, s.object? a = some acc → acc.codeHash ≠ emptyCodeHash →
        t.codeOf acc.codeHash = s.codeOf acc.codeHash) := by
  have hacc : ∀ a, t.account? a = s.settledObject? a := fun a => by
    rw [account?_of_no_suicides ht, hobj]
  -- a dropped account shows as empty exactly when its row does
  have hdropped : ∀ a, s.Dropped a →
      ((t.balanceOf a = 0 ∧ t.nonceOf a = 0 ∧ t.codeBytes a = []) ↔
        ∀ acc, s.db.account? a = some acc → acc.balance = 0 ∧ acc.nonce = 0 ∧
          (acc.codeHash = emptyCodeHash ∨ t.codeOf acc.codeHash = [])) := by
    intro a hdrop
    unfold balanceOf nonceOf codeBytes codeHashOf
    rw [hacc, settledObject?, if_pos hdrop]
    cases s.db.account? a with
    | none => simp
    | some acc => simp [or_iff_not_imp_left]
  have hstorage : ∀ a ∈ s.suicides, ∀ k, t.slotOf ⟨a, k⟩ = 0 ↔
      (s.storage.get? ⟨a, k⟩ = none → s.db.slot ⟨a, k⟩ = 0) := by
    intro a ha k
    rw [hslot, slotOf_finalise, Store.slotOf]
    cases s.storage.get? ⟨a, k⟩ <;> simp [ha]
  constructor
  · intro h
    refine ⟨fun a hdrop => (hdropped a hdrop).mp ?_, fun a ha k => (hstorage a ha k).mp ?_, ?_⟩
    · by_cases hdead : a ∈ s.suicides
      · simpa using h.destroyed a hdead
      · obtain ⟨hb, hn, hc⟩ := shows_empty_of_dropped hdrop hdead
        exact ⟨by simpa [hb] using h.balance a hdead, by simpa [hn] using h.nonce a hdead,
          by simpa [hc] using h.code a hdead⟩
    · simpa using h.destroyedStorage a ha k
    · intro a hdrop acc hsome hne
      have hcode := h.code a (fun hdead => hdrop (.inl hdead))
      simpa [codeBytes, codeHashOf, hacc, account?_of_not_dropped hdrop, settledObject?, hdrop,
        hsome, hne] using hcode
  · rintro ⟨hrows, hslots, hcode⟩
    -- a live account keeps its object, or shows as empty before and after
    have hlive : ∀ a ∉ s.suicides, t.balanceOf a = s.balanceOf a ∧ t.nonceOf a = s.nonceOf a ∧
        t.codeBytes a = s.codeBytes a := by
      intro a hdead
      by_cases hdrop : s.Dropped a
      · obtain ⟨hb, hn, hc⟩ := shows_empty_of_dropped hdrop hdead
        rw [hb, hn, hc]
        exact (hdropped a hdrop).mpr (hrows a hdrop)
      · have heq : t.account? a = s.account? a := by
          rw [hacc, account?_of_not_dropped hdrop]
        refine ⟨by rw [balanceOf, heq, balanceOf], by rw [nonceOf, heq, nonceOf], ?_⟩
        unfold codeBytes codeHashOf
        rw [heq, account?_of_not_dropped hdrop, settledObject?, if_neg hdrop]
        cases hsome : s.object? a with
        | none => rfl
        | some acc =>
            by_cases hne : acc.codeHash = emptyCodeHash
            · simp [hne]
            · simp [hne, hcode a hdrop acc hsome hne]
    refine ⟨fun a ha => ?_, fun a ha => ?_, fun a ha => ?_, fun a ha => ?_, fun a ha k => ?_⟩
    · simpa using (hlive a ha).1
    · simpa using (hlive a ha).2.1
    · simpa using (hlive a ha).2.2
    · simpa using (hdropped a (.inl ha)).mpr (hrows a (.inl ha))
    · simpa using (hstorage a ha k).mpr (hslots a ha k)

theorem flushesCode_finalise (s : StateDB) (h : Hash) :
    (s.finalise true).FlushesCode h ↔
      ∃ b ∈ s.accountDirty, ¬ s.Dropped b ∧
        ((s.accounts.get? b).isSome ∨ b ∈ s.journal.dirties.keys) ∧
        (s.object? b).map Account.codeHash = some h := by
  unfold FlushesCode
  constructor
  · rintro ⟨b, hb, acc, hacc, rfl⟩
    rw [finalise_accounts] at hacc
    split at hacc
    · cases hacc
    · rename_i hdrop
      refine ⟨b, ((finalise_accountDirty s b).mp hb).resolve_left hdrop, hdrop, ?_⟩
      split at hacc
      · rename_i hdirty
        exact ⟨.inr hdirty, by simp [hacc]⟩
      · exact ⟨.inl (by simp [hacc]), by simp [Store.object?, hacc]⟩
  · rintro ⟨b, hb, hdrop, hcached, hhash⟩
    obtain ⟨acc, hobj, rfl⟩ := Option.map_eq_some_iff.mp hhash
    refine ⟨b, (finalise_accountDirty s b).mpr (.inr hb), acc, ?_, rfl⟩
    rw [finalise_accounts, if_neg hdrop]
    split
    · exact hobj
    · rename_i hdirty
      obtain ⟨acc', hacc'⟩ := Option.isSome_iff_exists.mp (hcached.resolve_right hdirty)
      simpa [Store.object?, hacc'] using hobj

/-- A reopened database shows the code with hash `h` as the caches did, exactly when the cached
code is stored or a surviving dirty account brings it along. -/
theorem codeOf_reopen_iff (s : StateDB) {h : Hash} (hne : h ≠ emptyCodeHash) :
    (new (s.finalise true).flush.db).codeOf h = s.codeOf h ↔
      ∀ c, s.code.get? h = some c →
        (s.db.code? h).getD [] = c ∨ (s.finalise true).FlushesCode h := by
  have hreopen : (new (s.finalise true).flush.db).codeOf h =
      ((s.finalise true).flush.db.code? h).getD [] := by
    simp [Store.codeOf, new]
  rw [hreopen, code?_flush (finalise_suicides s) hne, finalise_code, finalise_db, Store.codeOf]
  by_cases hflush : (s.finalise true).FlushesCode h
  · simp [hflush]
  · cases s.code.get? h <;> simp [hflush]

theorem keptByFinalise_of_coherent {s : StateDB} (hs : Coherent s.toStore) :
    KeptByFinalise s ↔ DropsCleanly s := by
  have hf : (s.finalise true).suicides = [] := finalise_suicides s
  have hc := coherent_finalise hs
  have hobj : ∀ a, (s.finalise true).object? a = s.settledObject? a := object?_finalise s
  have hflush : ∀ a, (s.finalise true).flush.object? a = s.settledObject? a := fun a => by
    rw [object?_flush hf hc, hobj]
  have hopen : ∀ a, (new (s.finalise true).flush.db).object? a = s.settledObject? a := fun a => by
    rw [← hobj a, ← account?_flush hf hc]
    rfl
  have hopenSlot : ∀ id, (new (s.finalise true).flush.db).slotOf id =
      (s.finalise true).slotOf id := fun id => by
    rw [← slot_flush hf hc]
    rfl
  unfold KeptByFinalise
  rw [showsEndOf_iff hf hobj (fun _ => rfl),
    showsEndOf_iff (s := s) (t := (s.finalise true).flush) rfl hflush (slotOf_flush hf hc),
    showsEndOf_iff (s := s) (t := new (s.finalise true).flush.db) rfl hopen hopenSlot]
  constructor
  · rintro ⟨⟨hrows, hslots, -⟩, -, ⟨hrows', -, hcode'⟩⟩
    refine ⟨fun a hdrop acc hacc => ?_, hslots, fun a acc c hsettled hne hcached => ?_⟩
    · simpa only [ReadsEmpty, codeOf_finalise] using hrows a hdrop acc hacc
    · have hsame : (new (s.finalise true).flush.db).codeOf acc.codeHash = s.codeOf acc.codeHash := by
        by_cases hdrop : s.Dropped a
        · rw [settledObject?, if_pos hdrop] at hsettled
          rw [(hrows' a hdrop acc hsettled).2.2.resolve_left hne, ← codeOf_finalise,
            (hrows a hdrop acc hsettled).2.2.resolve_left hne]
        · rw [settledObject?, if_neg hdrop] at hsettled
          exact hcode' a hdrop acc hsettled hne
      rw [← flushesCode_finalise]
      exact (codeOf_reopen_iff s hne).mp hsame c hcached
  · intro h
    have hsame : ∀ a acc, s.settledObject? a = some acc → acc.codeHash ≠ emptyCodeHash →
        (new (s.finalise true).flush.db).codeOf acc.codeHash = s.codeOf acc.codeHash := by
      intro a acc hsettled hne
      refine (codeOf_reopen_iff s hne).mpr fun c hcached => ?_
      rw [flushesCode_finalise]
      exact h.code a acc c hsettled hne hcached
    have hsettled : ∀ a acc, s.Dropped a → s.db.account? a = some acc →
        s.settledObject? a = some acc := fun a acc hdrop hacc => by
      rw [settledObject?, if_pos hdrop, hacc]
    refine ⟨⟨fun a hdrop acc hacc => ?_, h.slots, fun a _ acc _ _ => codeOf_finalise s _⟩,
      ⟨fun a hdrop acc hacc => ?_, h.slots, fun a _ acc _ hne => ?_⟩,
      ⟨fun a hdrop acc hacc => ?_, h.slots, fun a hdrop acc hacc hne => ?_⟩⟩
    · simpa only [ReadsEmpty, codeOf_finalise] using h.rows a hdrop acc hacc
    · obtain ⟨hb, hn, hcode⟩ := h.rows a hdrop acc hacc
      refine ⟨hb, hn, or_iff_not_imp_left.mpr fun hne => ?_⟩
      rw [codeOf_flush hf hne, codeOf_finalise]
      exact hcode.resolve_left hne
    · rw [codeOf_flush hf hne, codeOf_finalise]
    · obtain ⟨hb, hn, hcode⟩ := h.rows a hdrop acc hacc
      refine ⟨hb, hn, or_iff_not_imp_left.mpr fun hne => ?_⟩
      rw [hsame a acc (hsettled a acc hdrop hacc) hne]
      exact hcode.resolve_left hne
    · refine hsame a acc ?_ hne
      rw [settledObject?, if_neg hdrop, hacc]

/-- **What survives the end of a transaction.** In every run of transactions and flushes, at every
point where `Finalise(true)` may be called: it keeps what the state shows, now and after flushing
and reopening, exactly when the accounts it drops leave nothing behind in the database. -/
theorem keptByFinalise_iff {db : Database} {events : List Event} {ops : List Op}
    {s₀ s : StateDB} (h₀ : (new db).runEvents events = .ok s₀) (h : s₀.runOps ops = .ok s) :
    KeptByFinalise s ↔ DropsCleanly s :=
  keptByFinalise_of_coherent (coherent_of_run h₀ h)

/-- An account that is funded and drained in one transaction on an empty database stays empty. -/
theorem keptByFinalise_transient_account :
    KeptByFinalise (((new ∅).addBalancePrev 1 5).2.subBalance 1 5).2 := by
  have hdb : (((new ∅).addBalancePrev 1 5).2.subBalance 1 5).2.db = ∅ := rfl
  have hcode : (((new ∅).addBalancePrev 1 5).2.subBalance 1 5).2.code = ∅ := rfl
  refine (@keptByFinalise_iff ∅ [] [.addBalancePrev 1 5, .subBalance 1 5] _ _ rfl rfl).mpr
    ⟨fun a _ acc hacc => ?_, fun a _ k _ => ?_, fun a acc c _ _ hc => ?_⟩
  · rw [hdb] at hacc
    cases hacc
  · rw [hdb]
    rfl
  · rw [hcode] at hc
    cases hc

/-- A payment of `5` into account `1`, ended and flushed. -/
def fundedRun : List Event :=
  [.tx [.addBalancePrev 1 5], .flush]

/-- **A stored account that is drained comes back.** After `fundedRun` on an empty database,
withdrawing the `5` leaves a balance of `0`, and `Finalise(true)` brings the stored `5` back. -/
theorem drained_account_returns :
    ∃ s₀ s, (new ∅).runEvents fundedRun = .ok s₀ ∧ s₀.runOps [.subBalance 1 5] = .ok s ∧
      (s.getBalance 1).1 = 0 ∧ ((s.finalise true).getBalance 1).1 = 5 ∧ ¬ KeptByFinalise s := by
  have hrun : ((new ∅).runEvents fundedRun >>= fun s₀ => s₀.runOps [.subBalance 1 5]).map
      (fun s => ((s.getBalance 1).1, ((s.finalise true).getBalance 1).1, s.suicides)) =
      .ok (0, 5, []) := by
    decide
  cases h₀ : (new ∅).runEvents fundedRun with
  | error e =>
      rw [h₀] at hrun
      cases hrun
  | ok s₀ =>
      rw [h₀] at hrun
      cases h : s₀.runOps [.subBalance 1 5] with
      | error e =>
          simp only [bind, Except.bind, h] at hrun
          cases hrun
      | ok s =>
          simp only [bind, Except.bind, h, Except.map, Except.ok.injEq, Prod.mk.injEq] at hrun
          obtain ⟨hbefore, hafter, hsuicides⟩ := hrun
          refine ⟨s₀, s, rfl, h, hbefore, hafter, fun hkept => ?_⟩
          have hsame := hkept.1.balance 1 (by simp [hsuicides])
          rw [hbefore, hafter] at hsame
          exact absurd hsame (by decide)

end StateDB

end Dew
