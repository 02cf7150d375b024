/-
# Original storage values and SSTORE refunds

`SSTORE` reads the current and the original value of a slot through `GetStateAndCommittedState`,
changes the refund counter by the rules of EIP-2200 and EIP-3529, and writes the slot through
`SetStateJournaled`. The original value is `GetCommittedState`: the origin recorded at the first
journaled write of the transaction, else the database row. `SubRefund` panics below zero.

A transaction that starts on flushed storage, in which slots written by `SSTORE` are not written by
`SetState`, sees the right original values at every point, and its refund counter covers every
clearing refund still outstanding, also in the states that the open snapshots lead back to
(`Refunded`). On unflushed storage the original value is that of an older block, and a second
transaction can drive the counter below zero.
-/
import Dew.Ledger
import Dew.Persistence
import Dew.UndoLog
import Mathlib.Algebra.BigOperators.Group.Finset.Basic
import Mathlib.Algebra.Order.BigOperators.Group.Finset

namespace Dew

/-! ## SSTORE -/

/-- The refund for clearing a slot (EIP-3529). -/
def clearingRefund : U64 := 4800

/-- The refund for returning a slot to an original value of zero. -/
def resetToZeroRefund : U64 := 19900

/-- The refund for returning a slot to an original value other than zero. -/
def resetToValueRefund : U64 := 2800

/-- The refund for clearing a slot that was written before, or its return when the slot is filled
again. -/
def clearingChange (original current value : Hash) : StateProgram Unit :=
  if original = 0 then pure ()
  else if current = 0 then (Op.subRefund clearingRefund).call
  else if value = 0 then (Op.addRefund clearingRefund).call
  else pure ()

/-- The refund for a slot that returns to its original value. -/
def resetChange (original value : Hash) : StateProgram Unit :=
  if original = value then
    if original = 0 then (Op.addRefund resetToZeroRefund).call
    else (Op.addRefund resetToValueRefund).call
  else pure ()

/-- The changes of the refund counter when a slot goes from `current` to `value`. -/
def refundChanges (original current value : Hash) : StateProgram Unit :=
  if current = value then pure ()
  else if original = current then
    if original ≠ 0 ∧ value = 0 then (Op.addRefund clearingRefund).call else pure ()
  else do
    clearingChange original current value
    resetChange original value

/-- What the slot costs besides its warming. -/
def sstoreCost (original current value : Hash) : ℕ :=
  if current = value then 100
  else if original = current then if original = 0 then 20000 else 2900
  else 100

/-- The gas function of `SSTORE`: it warms the slot, changes the refund counter and returns the
cost. -/
def sstoreGas (id : StorageID) (value : Hash) : StateProgram ℕ := do
  let current ← (Op.getState id).call
  let original ← (Op.getCommittedState id).call
  let (_, warm) ← (Op.slotInAccessList id.addr id.slot).call
  if warm then
    refundChanges original current value
    return sstoreCost original current value
  else
    (Op.addSlotToAccessList id.addr id.slot).call
    refundChanges original current value
    return 2100 + sstoreCost original current value

/-- What happens inside a transaction. -/
inductive Action where
  /-- A call of a method of the state database. -/
  | call (op : Op)
  /-- An `SSTORE` that is paid for and allowed. -/
  | sstore (id : StorageID) (value : Hash)
  /-- An `SSTORE` whose frame cannot pay for it or is read-only: the gas function has run when the
  frame fails and returns to its snapshot. -/
  | sstoreFails (id : StorageID) (value : Hash) (revid : ℕ)

def Action.program : Action → StateProgram Unit
  | .call op => do
    let _ ← op.call
    return ()
  | .sstore id value => do
    let _ ← sstoreGas id value
    let _ ← (Op.setStateJournaled id value).call
    return ()
  | .sstoreFails id value revid => do
    let _ ← sstoreGas id value
    (Op.revertToSnapshot revid).call

def Action.apply (s : StateDB) (a : Action) : Except Panic StateDB :=
  (a.program.run Op.exec s).map Prod.snd

/-! ## What the refund rules watch -/

/-- The journal entries that undo a change of a slot or of the refund counter. -/
def JournalEntry.isWatched : JournalEntry → Bool
  | .storageChange _ _ _ | .refundChange _ => true
  | _ => false

/-- A change of the bookkeeping that leaves refunds, origins and revisions alone. -/
structure TxScope.Quiet (s t : TxScope) : Prop where
  entries : ∃ new, t.journal.entries = new ++ s.journal.entries ∧ ∀ e ∈ new, e.isWatched = false
  validRevisions : t.validRevisions = s.validRevisions
  storageOrigin : t.storageOrigin = s.storageOrigin
  refund : t.refund = s.refund

/-- A change that also keeps the database rows, and the slots with a recorded origin. -/
structure Ledger.Quiet (L L' : Ledger) : Prop where
  scope : TxScope.Quiet L.toTxScope L'.toTxScope
  rowSlot : L'.rowSlot = L.rowSlot
  slot : ∀ id, (L.storageOrigin.get? id).isSome → L'.slot id = L.slot id

namespace TxScope.Quiet

variable {s t u : TxScope}

theorem of_eq (hj : t.journal.entries = s.journal.entries)
    (hv : t.validRevisions = s.validRevisions) (ho : t.storageOrigin = s.storageOrigin)
    (hr : t.refund = s.refund) : Quiet s t :=
  ⟨⟨[], hj, by simp⟩, hv, ho, hr⟩

theorem refl (s : TxScope) : Quiet s s :=
  of_eq rfl rfl rfl rfl

theorem trans (hst : Quiet s t) (htu : Quiet t u) : Quiet s u := by
  obtain ⟨new₁, heq₁, hnew₁⟩ := hst.entries
  obtain ⟨new₂, heq₂, hnew₂⟩ := htu.entries
  refine ⟨⟨new₂ ++ new₁, by rw [heq₂, heq₁, List.append_assoc], ?_⟩,
    htu.validRevisions.trans hst.validRevisions, htu.storageOrigin.trans hst.storageOrigin,
    htu.refund.trans hst.refund⟩
  intro e he
  rcases List.mem_append.mp he with he | he
  · exact hnew₂ e he
  · exact hnew₁ e he

theorem appendJournal {e : JournalEntry} (he : e.isWatched = false) (s : TxScope) :
    Quiet s (s.appendJournal e) :=
  ⟨⟨[e], rfl, by simpa using he⟩, rfl, rfl, rfl⟩

theorem appendIf (c : Bool) {e : JournalEntry} (he : e.isWatched = false) (s : TxScope) :
    Quiet s (if c then s.appendJournal e else s) := by
  split
  · exact appendJournal he s
  · exact refl s

theorem addAddressToAccessList (s : TxScope) (a : Address) :
    Quiet s (s.addAddressToAccessList a) := by
  unfold TxScope.addAddressToAccessList
  rcases s.accessList.addAddress a with ⟨_ | _, al⟩
  · exact of_eq rfl rfl rfl rfl
  · exact ⟨⟨[.accessListAddAccountChange a], rfl, by simp [JournalEntry.isWatched]⟩, rfl, rfl, rfl⟩

theorem addSlotToAccessList (s : TxScope) (a : Address) (k : Hash) :
    Quiet s (s.addSlotToAccessList a k) := by
  unfold TxScope.addSlotToAccessList
  rcases s.accessList.addSlot a k with ⟨addrMod, slotMod, al⟩
  have hstart : Quiet s { s with accessList := al } := of_eq rfl rfl rfl rfl
  exact (hstart.trans (appendIf addrMod rfl _)).trans (appendIf slotMod rfl _)

/-- `Prepare` resets the refund counter, which is quiet only while it is zero. -/
theorem prepare (hrefund : s.refund = 0) (sender coinbase : Address) (dest : Option Address)
    (precompiles : List Address) : Quiet s (s.prepare sender coinbase dest precompiles) := by
  have hwarm : ∀ (warm : List Address) (u : TxScope),
      Quiet u (warm.foldl TxScope.addAddressToAccessList u) := by
    intro warm
    induction warm with
    | nil => exact refl
    | cons a warm ih => exact fun u => (addAddressToAccessList u a).trans (ih _)
  have hcleared : Quiet s { s with accessList := AccessList.new, transient := ∅ } :=
    of_eq rfl rfl rfl rfl
  have hquiet := hcleared.trans (hwarm (sender :: dest.toList ++ precompiles ++ [coinbase]) _)
  exact ⟨hquiet.entries, hquiet.validRevisions, hquiet.storageOrigin, hrefund.symm⟩

end TxScope.Quiet

namespace Ledger

namespace Quiet

variable {L L' L'' : Ledger}

theorem refl (L : Ledger) : Quiet L L :=
  ⟨.refl _, rfl, fun _ _ => rfl⟩

theorem trans (h : Quiet L L') (h' : Quiet L' L'') : Quiet L L'' := by
  refine ⟨h.scope.trans h'.scope, h'.rowSlot.trans h.rowSlot, fun id hid => ?_⟩
  have hid' : (L'.storageOrigin.get? id).isSome := by rwa [h.scope.storageOrigin]
  rw [h'.slot id hid', h.slot id hid]

theorem inScope {f : TxScope → TxScope} (h : TxScope.Quiet L.toTxScope (f L.toTxScope)) :
    Quiet L (L.inScope f) :=
  ⟨h, rfl, fun _ _ => rfl⟩

theorem record {e : JournalEntry} (he : e.isWatched = false) (L : Ledger) : Quiet L (L.record e) :=
  inScope (.appendJournal he _)

theorem setObject (L : Ledger) (a : Address) (acc : Account) : Quiet L (L.setObject a acc) :=
  ⟨.refl _, rfl, fun _ _ => rfl⟩

theorem putCode (L : Ledger) (h : Hash) (c : Bytes) : Quiet L (L.putCode h c) :=
  ⟨.refl _, rfl, fun _ _ => rfl⟩

theorem touch (L : Ledger) (a : Address) : Quiet L (L.touch a) := by
  unfold Ledger.touch
  split
  · exact refl L
  · exact setObject L a newAccount

theorem updateAccount (L : Ledger) (a : Address) {entry : Account → JournalEntry}
    (hentry : ∀ acc, (entry acc).isWatched = false) (f : Account → Account) :
    Quiet L (L.updateAccount a entry f) :=
  (record (hentry _) L).trans (setObject _ a _)

theorem setCode (L : Ledger) (a : Address) (c : Bytes) : Quiet L (L.setCode a c) := by
  let e := JournalEntry.codeChange a (L.accountOrNew a).codeHash (L.codeBytes a)
  have hrecord : Quiet L (L.record e) := record rfl L
  refine hrecord.trans ?_
  show Quiet (L.record e) ((L.record e).installCode a (L.accountOrNew a) c)
  unfold Ledger.installCode
  split
  · exact setObject _ a _
  · exact (putCode _ _ c).trans (setObject _ a _)

theorem setSlot {id : StorageID} (hid : L.storageOrigin.get? id = none) (v : Hash) :
    Quiet L (L.setSlot id v) := by
  refine ⟨.refl _, rfl, fun id' hid' => ?_⟩
  have hne : id' ≠ id := by
    rintro rfl
    simp [hid] at hid'
  exact Function.update_of_ne hne v L.slot

theorem setState {id : StorageID} (hid : L.storageOrigin.get? id = none) (v : Hash) :
    Quiet L (L.setState id v) := by
  have htouch := touch L id.addr
  exact htouch.trans (setSlot (by rwa [htouch.scope.storageOrigin]) v)

theorem selfDestruct (L : Ledger) (a : Address) : Quiet L (L.selfDestruct a) := by
  unfold Ledger.selfDestruct
  split
  · exact refl L
  · refine ((record rfl L).trans (inScope ?_)).trans (setObject _ a _)
    exact .of_eq rfl rfl rfl rfl

theorem selfDestruct6780 (L : Ledger) (a : Address) : Quiet L (L.selfDestruct6780 a).2 := by
  unfold Ledger.selfDestruct6780
  split
  · exact selfDestruct L a
  · split
    · exact refl L
    · exact (record rfl L).trans (setObject _ a _)

end Quiet

end Ledger

/-! ## The refund counter covers what is outstanding -/

/-- The slots and the refund counter as the refund rules see them. -/
@[ext] structure Tally where
  slot : StorageID → Hash
  refund : ℕ

def Tally.undo (v : Tally) : JournalEntry → Tally
  | .storageChange a k prev => { v with slot := Function.update v.slot ⟨a, k⟩ prev }
  | .refundChange prev => { v with refund := prev.toNat }
  | _ => v

/-- One clearing refund is outstanding for a slot that is cleared now and was not at first. -/
def outstanding (original current : Hash) : ℕ :=
  if original ≠ 0 ∧ current = 0 then 1 else 0

theorem outstanding_cleared {original : Hash} (h : original ≠ 0) : outstanding original 0 = 1 :=
  if_pos ⟨h, rfl⟩

theorem outstanding_filled (original : Hash) {current : Hash} (h : current ≠ 0) :
    outstanding original current = 0 :=
  if_neg fun hc => h hc.2

theorem outstanding_created (current : Hash) : outstanding 0 current = 0 :=
  if_neg fun hc => hc.1 rfl

theorem outstanding_le (original current : Hash) : outstanding original current ≤ 1 := by
  unfold outstanding
  split <;> omega

/-- The counter covers the outstanding refunds of every set of slots. -/
def Tally.Covers (row : StorageID → Hash) (v : Tally) : Prop :=
  ∀ F : Finset StorageID, 4800 * ∑ id ∈ F, outstanding (row id) (v.slot id) ≤ v.refund

/-- A write of one slot, with the change of the counter that goes with it. -/
theorem Tally.Covers.update {row : StorageID → Hash} {v : Tally} {id : StorageID} {value : Hash}
    {refund : ℕ} (hv : v.Covers row)
    (hrefund : v.refund + 4800 * outstanding (row id) value ≤
      refund + 4800 * outstanding (row id) (v.slot id)) :
    Tally.Covers row ⟨Function.update v.slot id value, refund⟩ := by
  intro F
  -- adding the slot to the set only makes the statement stronger
  have hgrow : ∑ j ∈ F, outstanding (row j) (Function.update v.slot id value j) ≤
      ∑ j ∈ insert id F, outstanding (row j) (Function.update v.slot id value j) :=
    Finset.sum_le_sum_of_subset (Finset.subset_insert id F)
  have hrest : ∑ j ∈ (insert id F).erase id,
      outstanding (row j) (Function.update v.slot id value j) =
      ∑ j ∈ (insert id F).erase id, outstanding (row j) (v.slot j) := by
    refine Finset.sum_congr rfl fun j hj => ?_
    rw [Function.update_of_ne (Finset.ne_of_mem_erase hj)]
  have hbefore := Finset.add_sum_erase (insert id F)
    (fun j => outstanding (row j) (v.slot j)) (Finset.mem_insert_self id F)
  have hafter := Finset.add_sum_erase (insert id F)
    (fun j => outstanding (row j) (Function.update v.slot id value j))
    (Finset.mem_insert_self id F)
  have hcovers := hv (insert id F)
  simp only [Function.update_self] at hbefore hafter
  show 4800 * ∑ j ∈ F, outstanding (row j) (Function.update v.slot id value j) ≤ refund
  omega

theorem Tally.Covers.mono {row : StorageID → Hash} {v : Tally} {refund : ℕ} (hv : v.Covers row)
    (hrefund : v.refund ≤ refund) : Tally.Covers row ⟨v.slot, refund⟩ :=
  fun F => (hv F).trans hrefund

theorem Tally.foldl_undo_unwatched {new : List JournalEntry}
    (hnew : ∀ e ∈ new, e.isWatched = false) (v : Tally) : new.foldl Tally.undo v = v := by
  induction new with
  | nil => rfl
  | cons e new ih =>
      have he : v.undo e = v := by
        have := hnew e (List.mem_cons_self ..)
        cases e <;> first | rfl | simp [JournalEntry.isWatched] at this
      rw [List.foldl_cons, he]
      exact ih fun e he => hnew e (List.mem_cons_of_mem _ he)

namespace Ledger

variable {L L' : Ledger}

/-- A slot without a recorded origin counts with its original value, since no `SSTORE` has written
it in this transaction. -/
def tally (L : Ledger) : Tally where
  slot id := if (L.storageOrigin.get? id).isSome then L.slot id else L.rowSlot id
  refund := L.refund.toNat

/-- The recorded origins are the original values, every journaled write has one, and the counter
covers what is outstanding in the states that the snapshots lead back to. -/
structure Tracked (L : Ledger) : Prop where
  journaled : ∀ a k prev, JournalEntry.storageChange a k prev ∈ L.journal.entries →
    (L.storageOrigin.get? ⟨a, k⟩).isSome
  origin : ∀ id v, L.storageOrigin.get? id = some v → v = L.rowSlot id
  safe : UndoLog.Safe Tally.undo (Tally.Covers L.rowSlot) L.journal.entries
    (L.validRevisions.map Revision.journalIndex) L.tally

/-- The counter also covers what is outstanding now. -/
structure Refunded (L : Ledger) : Prop extends Tracked L where
  covers : L.tally.Covers L.rowSlot

/-- A change that logs how to undo it. -/
theorem Tracked.append (h : Tracked L) {new : List JournalEntry}
    (hentries : L'.journal.entries = new ++ L.journal.entries)
    (hrevisions : L'.validRevisions = L.validRevisions) (hrow : L'.rowSlot = L.rowSlot)
    (hgrow : ∀ id, (L.storageOrigin.get? id).isSome → (L'.storageOrigin.get? id).isSome)
    (horigin : ∀ id v, L'.storageOrigin.get? id = some v → v = L.rowSlot id)
    (hnew : ∀ a k prev, JournalEntry.storageChange a k prev ∈ new →
      (L'.storageOrigin.get? ⟨a, k⟩).isSome)
    (hundo : new.foldl Tally.undo L'.tally = L.tally) : Tracked L' where
  journaled a k prev hmem := by
    rw [hentries] at hmem
    rcases List.mem_append.mp hmem with hmem | hmem
    · exact hnew a k prev hmem
    · exact hgrow _ (h.journaled a k prev hmem)
  origin id v hv := by rw [hrow, horigin id v hv]
  safe := by
    rw [hentries, hrevisions, hrow]
    exact h.safe.append hundo

theorem Quiet.tally (h : Quiet L L') : L'.tally = L.tally := by
  ext1
  · funext id
    simp only [Ledger.tally, h.scope.storageOrigin, h.rowSlot]
    split
    · exact h.slot id ‹_›
    · rfl
  · simp only [Ledger.tally, h.scope.refund]

theorem Tracked.quiet (h : Tracked L) (hq : Quiet L L') : Tracked L' := by
  obtain ⟨new, hentries, hnew⟩ := hq.scope.entries
  refine h.append hentries hq.scope.validRevisions hq.rowSlot ?_ ?_ ?_ ?_
  · intro id hid
    rwa [hq.scope.storageOrigin]
  · intro id v hv
    rw [hq.scope.storageOrigin] at hv
    exact h.origin id v hv
  · intro a k prev hmem
    exact absurd (hnew _ hmem) (by simp [JournalEntry.isWatched])
  · rw [Tally.foldl_undo_unwatched hnew, hq.tally]

theorem Refunded.quiet (h : Refunded L) (hq : Quiet L L') : Refunded L' :=
  ⟨h.toTracked.quiet hq, by rw [hq.tally, hq.rowSlot]; exact h.covers⟩

/-! ### Snapshots -/

theorem findRevision_split {revid index : ℕ} {revisions older : List Revision}
    (h : StateDB.findRevision revid revisions = some (index, older)) :
    ∃ newer r, revisions = newer ++ r :: older ∧ r.journalIndex = index := by
  induction revisions with
  | nil => cases h
  | cons r rest ih =>
      rw [StateDB.findRevision] at h
      split at h
      · cases h
        exact ⟨[], r, rfl, rfl⟩
      · obtain ⟨newer, r', rfl, hr'⟩ := ih h
        exact ⟨r :: newer, r', rfl, hr'⟩

theorem Refunded.snapshot (h : Refunded L) : Refunded (L.inScope (·.snapshot)) where
  journaled := h.journaled
  origin := h.origin
  safe := h.safe.mark h.covers
  covers := h.covers

/-- Undoing entries undoes them in the tally. -/
theorem tally_foldl_revertEntry {entries : List JournalEntry} (L : Ledger)
    (hjournaled : ∀ a k prev, JournalEntry.storageChange a k prev ∈ entries →
      (L.storageOrigin.get? ⟨a, k⟩).isSome) :
    (entries.foldl revertEntry L).tally = entries.foldl Tally.undo L.tally ∧
      (entries.foldl revertEntry L).storageOrigin = L.storageOrigin ∧
      (entries.foldl revertEntry L).rowSlot = L.rowSlot := by
  induction entries generalizing L with
  | nil => exact ⟨rfl, rfl, rfl⟩
  | cons e entries ih =>
      have hkeeps : (L.revertEntry e).storageOrigin = L.storageOrigin ∧
          (L.revertEntry e).rowSlot = L.rowSlot := by
        cases e with
        | codeChange a prevHash prevCode =>
            simp only [revertEntry]
            split <;> exact ⟨rfl, rfl⟩
        | suicideChange a prev prevBalance =>
            simp only [revertEntry]
            split <;> exact ⟨rfl, rfl⟩
        | _ => exact ⟨rfl, rfl⟩
      have htally : (L.revertEntry e).tally = L.tally.undo e := by
        cases e with
        | storageChange a k prev =>
            have hsome := hjournaled a k prev (List.mem_cons_self ..)
            ext1
            · funext id
              show (if (L.storageOrigin.get? id).isSome then
                Function.update L.slot ⟨a, k⟩ prev id else L.rowSlot id) =
                  Function.update L.tally.slot ⟨a, k⟩ prev id
              by_cases hid : id = ⟨a, k⟩
              · subst hid
                simp [hsome]
              · simp [hid, tally]
            · rfl
        | codeChange a prevHash prevCode =>
            simp only [revertEntry]
            split <;> rfl
        | suicideChange a prev prevBalance =>
            simp only [revertEntry]
            split <;> rfl
        | _ => rfl
      have hrest : ∀ a k prev, JournalEntry.storageChange a k prev ∈ entries →
          ((L.revertEntry e).storageOrigin.get? ⟨a, k⟩).isSome := by
        intro a k prev hmem
        rw [hkeeps.1]
        exact hjournaled a k prev (List.mem_cons_of_mem _ hmem)
      obtain ⟨h₁, h₂, h₃⟩ := ih (L.revertEntry e) hrest
      rw [List.foldl_cons, List.foldl_cons, h₁, h₂, h₃, htally]
      exact ⟨rfl, hkeeps⟩

/-- Returning to a snapshot restores the cover, whatever has happened since. -/
theorem Tracked.revertToSnapshot (h : Tracked L) {revid : ℕ}
    (hrev : L.revertToSnapshot revid = .ok L') : Refunded L' := by
  unfold Ledger.revertToSnapshot at hrev
  split at hrev
  · cases hrev
  rename_i index older hfind
  cases hrev
  obtain ⟨newer, r, hsplit, rfl⟩ := findRevision_split hfind
  let n := L.journal.entries.length - r.journalIndex
  have htake : ∀ a k prev, JournalEntry.storageChange a k prev ∈ L.journal.entries.take n →
      (L.storageOrigin.get? ⟨a, k⟩).isSome :=
    fun a k prev hmem => h.journaled a k prev (List.mem_of_mem_take hmem)
  obtain ⟨htally, horigin, hrow⟩ := tally_foldl_revertEntry L htake
  have hsafe := h.safe
  rw [hsplit, List.map_append, List.map_cons] at hsafe
  obtain ⟨hnow, holder⟩ := hsafe.revert
  refine ⟨⟨fun a k prev hmem => ?_, fun id v hv => ?_, ?_⟩, ?_⟩
  · show ((List.foldl revertEntry L _).storageOrigin.get? _).isSome
    rw [horigin]
    exact h.journaled a k prev (List.mem_of_mem_drop hmem)
  · change (List.foldl revertEntry L _).storageOrigin.get? id = some v at hv
    rw [horigin] at hv
    show v = (List.foldl revertEntry L _).rowSlot id
    rw [hrow]
    exact h.origin id v hv
  · show UndoLog.Safe _ (Tally.Covers (List.foldl revertEntry L _).rowSlot) _ _
      (List.foldl revertEntry L _).tally
    rw [hrow, htally]
    exact holder
  · show (List.foldl revertEntry L _).tally.Covers (List.foldl revertEntry L _).rowSlot
    rw [hrow, htally]
    exact hnow

/-! ### The refund counter -/

/-- A change of the refund counter alone, with its journal entries. -/
structure Counts (L L' : Ledger) : Prop where
  tracked : Tracked L → Tracked L'
  slot : L'.slot = L.slot
  storageOrigin : L'.storageOrigin = L.storageOrigin
  rowSlot : L'.rowSlot = L.rowSlot

theorem Counts.refl (L : Ledger) : Counts L L :=
  ⟨id, rfl, rfl, rfl⟩

theorem Counts.trans {L'' : Ledger} (h : Counts L L') (h' : Counts L' L'') : Counts L L'' :=
  ⟨h'.tracked ∘ h.tracked, h'.slot.trans h.slot, h'.storageOrigin.trans h.storageOrigin,
    h'.rowSlot.trans h.rowSlot⟩

/-- The state with another refund counter, and the entry that restores the old one. -/
def withRefund (L : Ledger) (refund : U64) : Ledger :=
  L.inScope fun s => { s.appendJournal (.refundChange s.refund) with refund := refund }

theorem counts_withRefund (L : Ledger) (refund : U64) : Counts L (L.withRefund refund) where
  tracked h := by
    have hentries : (L.withRefund refund).journal.entries =
        [.refundChange L.refund] ++ L.journal.entries := rfl
    exact h.append hentries rfl rfl (fun _ hid => hid) h.origin (by simp) rfl
  slot := rfl
  storageOrigin := rfl
  rowSlot := rfl

theorem execL_addRefund {g : U64} (hroom : L.refund.toNat + g.toNat < 2 ^ 64) :
    ∃ L', (Op.addRefund g).execL L = .ok ((), L') ∧ Counts L L' ∧
      L'.refund.toNat = L.refund.toNat + g.toNat := by
  refine ⟨_, rfl, counts_withRefund L (L.refund + g), ?_⟩
  show (L.refund + g).toNat = _
  rw [BitVec.toNat_add, Nat.mod_eq_of_lt hroom]

theorem execL_subRefund {g : U64} (hcovered : g.toNat ≤ L.refund.toNat) :
    ∃ L', (Op.subRefund g).execL L = .ok ((), L') ∧ Counts L L' ∧
      L'.refund.toNat + g.toNat = L.refund.toNat := by
  refine ⟨L.withRefund (L.refund - g), ?_, counts_withRefund L _, ?_⟩
  · have hnot : ¬ L.refund < g := by
      rw [BitVec.lt_def]
      omega
    show Except.map _ (if L.refund < g then _ else _) = _
    rw [if_neg hnot]
    rfl
  · show (L.refund - g).toNat + g.toNat = L.refund.toNat
    rw [BitVec.toNat_sub_of_le (BitVec.le_def.mpr hcovered)]
    omega

theorem run_resetChange (L : Ledger) (original value : Hash)
    (hroom : L.refund.toNat + 19900 < 2 ^ 64) :
    ∃ L', (resetChange original value).run Op.execL L = .ok ((), L') ∧ Counts L L' ∧
      L.refund.toNat ≤ L'.refund.toNat := by
  have hzero : resetToZeroRefund.toNat = 19900 := rfl
  have hvalue : resetToValueRefund.toNat = 2800 := rfl
  unfold resetChange
  split
  · split
    · obtain ⟨L', hrun, hcounts, hrefund⟩ := execL_addRefund (L := L) (g := resetToZeroRefund)
        (by omega)
      exact ⟨L', by rw [Program.run_op, hrun], hcounts, by omega⟩
    · obtain ⟨L', hrun, hcounts, hrefund⟩ := execL_addRefund (L := L) (g := resetToValueRefund)
        (by omega)
      exact ⟨L', by rw [Program.run_op, hrun], hcounts, by omega⟩
  · exact ⟨L, rfl, .refl L, le_rfl⟩

/-- A slot that is written again gives its refund back only if it is outstanding. -/
theorem run_clearingChange {original current value : Hash} (hchange : current ≠ value)
    (hcovered : 4800 * outstanding original current ≤ L.refund.toNat)
    (hroom : L.refund.toNat + 4800 < 2 ^ 64) :
    ∃ L', (clearingChange original current value).run Op.execL L = .ok ((), L') ∧ Counts L L' ∧
      L'.refund.toNat + 4800 * outstanding original current =
        L.refund.toNat + 4800 * outstanding original value := by
  have hclear : clearingRefund.toNat = 4800 := rfl
  unfold clearingChange
  by_cases horiginal : original = 0
  · refine ⟨L, by rw [if_pos horiginal, Program.run_pure], .refl L, ?_⟩
    rw [horiginal, outstanding_created, outstanding_created]
  rw [if_neg horiginal]
  by_cases hcurrent : current = 0
  · have hvalue : value ≠ 0 := fun h => hchange (hcurrent.trans h.symm)
    rw [hcurrent, outstanding_cleared horiginal] at hcovered
    obtain ⟨L', hrun, hcounts, hrefund⟩ := execL_subRefund (L := L) (g := clearingRefund)
      (by omega)
    refine ⟨L', by rw [if_pos hcurrent, Program.run_op, hrun], hcounts, ?_⟩
    rw [hcurrent, outstanding_cleared horiginal, outstanding_filled original hvalue]
    omega
  rw [if_neg hcurrent, outstanding_filled original hcurrent]
  by_cases hvalue : value = 0
  · obtain ⟨L', hrun, hcounts, hrefund⟩ := execL_addRefund (L := L) (g := clearingRefund)
      (by omega)
    refine ⟨L', by rw [if_pos hvalue, Program.run_op, hrun], hcounts, ?_⟩
    rw [hvalue, outstanding_cleared horiginal]
    omega
  · refine ⟨L, by rw [if_neg hvalue, Program.run_pure], .refl L, ?_⟩
    rw [outstanding_filled original hvalue]

/-- What a write adds to the outstanding refunds is covered by the change of the counter, and the
counter does not go below zero. -/
theorem run_refundChanges {original current : Hash} (value : Hash)
    (hcovered : 4800 * outstanding original current ≤ L.refund.toNat)
    (hroom : L.refund.toNat + 24700 < 2 ^ 64) :
    ∃ L', (refundChanges original current value).run Op.execL L = .ok ((), L') ∧ Counts L L' ∧
      L.refund.toNat + 4800 * outstanding original value ≤
        L'.refund.toNat + 4800 * outstanding original current := by
  unfold refundChanges
  by_cases hnoop : current = value
  · refine ⟨L, by rw [if_pos hnoop, Program.run_pure], .refl L, ?_⟩
    rw [hnoop]
  rw [if_neg hnoop]
  by_cases hfirst : original = current
  · have hcurrent : outstanding original current = 0 := by
      rw [outstanding, if_neg fun h => h.1 (hfirst.trans h.2)]
    rw [if_pos hfirst]
    by_cases hdelete : original ≠ 0 ∧ value = 0
    · have hclear : clearingRefund.toNat = 4800 := rfl
      obtain ⟨L', hrun, hcounts, hrefund⟩ := execL_addRefund (L := L) (g := clearingRefund)
        (by omega)
      refine ⟨L', by rw [if_pos hdelete, Program.run_op, hrun], hcounts, ?_⟩
      rw [outstanding, if_pos hdelete]
      omega
    · refine ⟨L, by rw [if_neg hdelete, Program.run_pure], .refl L, ?_⟩
      rw [outstanding, if_neg hdelete]
      omega
  · have hbound := outstanding_le original value
    obtain ⟨L₁, hrun₁, hcounts₁, hrefund₁⟩ := run_clearingChange hnoop hcovered (by omega)
    obtain ⟨L₂, hrun₂, hcounts₂, hrefund₂⟩ := run_resetChange L₁ original value (by omega)
    refine ⟨L₂, ?_, hcounts₁.trans hcounts₂, by omega⟩
    rw [if_neg hfirst, Program.run_bind, hrun₁, Program.ok_bind, hrun₂]

/-! ### SSTORE -/

theorem Tracked.committed (h : Tracked L) (id : StorageID) : L.committed id = L.rowSlot id := by
  unfold Ledger.committed
  cases horigin : L.storageOrigin.get? id with
  | none => rfl
  | some v => exact h.origin id v horigin

/-- A slot that an `SSTORE` may write: without a recorded origin it shows its original value. -/
def Writable (L : Ledger) (id : StorageID) : Prop :=
  L.storageOrigin.get? id = none → L.slot id = L.rowSlot id

theorem tally_slot_of_writable {id : StorageID} (h : L.Writable id) : L.tally.slot id = L.slot id := by
  show (if (L.storageOrigin.get? id).isSome then L.slot id else L.rowSlot id) = L.slot id
  cases horigin : L.storageOrigin.get? id with
  | none => exact (h horigin).symm
  | some v => rfl

/-- The gas function of `SSTORE` does not panic, and prepares the counter for the write. -/
theorem run_sstoreGas (h : Refunded L) {id : StorageID} (hid : L.Writable id) (value : Hash)
    (hroom : L.refund.toNat + 24700 < 2 ^ 64) :
    ∃ cost L', (sstoreGas id value).run Op.execL L = .ok (cost, L') ∧ Tracked L' ∧
      L'.slot = L.slot ∧ L'.storageOrigin = L.storageOrigin ∧ L'.rowSlot = L.rowSlot ∧
      L.refund.toNat + 4800 * outstanding (L.rowSlot id) value ≤
        L'.refund.toNat + 4800 * outstanding (L.rowSlot id) (L.slot id) := by
  have hcovered : 4800 * outstanding (L.rowSlot id) (L.slot id) ≤ L.refund.toNat := by
    have := h.covers {id}
    rwa [Finset.sum_singleton, tally_slot_of_writable hid] at this
  let warmed := L.inScope (·.addSlotToAccessList id.addr id.slot)
  have hwarmed : Quiet L warmed := .inScope (.addSlotToAccessList _ _ _)
  have hrefund : warmed.refund = L.refund := hwarmed.scope.refund
  unfold sstoreGas
  simp only [Program.run_bind, Program.run_op, Op.execL, Program.ok_bind, h.committed,
    Program.run_ite]
  split
  · obtain ⟨L', hrun, hcounts, hle⟩ := run_refundChanges value hcovered hroom
    refine ⟨_, L', by rw [hrun]; rfl, hcounts.tracked h.toTracked, hcounts.slot,
      hcounts.storageOrigin, hcounts.rowSlot, hle⟩
  · obtain ⟨L', hrun, hcounts, hle⟩ := run_refundChanges (L := warmed) value
      (by rw [hrefund]; exact hcovered) (by rw [hrefund]; exact hroom)
    refine ⟨_, L', by rw [hrun]; rfl, hcounts.tracked (h.toTracked.quiet hwarmed), hcounts.slot,
      hcounts.storageOrigin.trans hwarmed.scope.storageOrigin, hcounts.rowSlot, ?_⟩
    rwa [hrefund] at hle

/-- The write of a slot by `SetStateJournaled` when its value changes. -/
def journaledWrite (L : Ledger) (id : StorageID) (value : Hash) : Ledger :=
  (((L.inScope (·.recordOrigin id (L.slot id))).record
    (.storageChange id.addr id.slot (L.slot id))).touch id.addr).setSlot id value

theorem journaledWrite_scope (L : Ledger) (id : StorageID) (value : Hash) :
    (L.journaledWrite id value).toTxScope =
      (L.toTxScope.recordOrigin id (L.slot id)).appendJournal
        (.storageChange id.addr id.slot (L.slot id)) := by
  unfold journaledWrite Ledger.touch
  split <;> rfl

theorem journaledWrite_rowSlot (L : Ledger) (id : StorageID) (value : Hash) :
    (L.journaledWrite id value).rowSlot = L.rowSlot := by
  unfold journaledWrite Ledger.touch
  split <;> rfl

theorem journaledWrite_slot (L : Ledger) (id : StorageID) (value : Hash) :
    (L.journaledWrite id value).slot = Function.update L.slot id value := by
  unfold journaledWrite Ledger.touch
  split <;> rfl

/-- The origin of the slot is recorded now, the other origins are as before. -/
theorem journaledWrite_origin (L : Ledger) (id id' : StorageID) (value : Hash) :
    (L.journaledWrite id value).storageOrigin.get? id' =
      if id' = id then some ((L.storageOrigin.get? id).getD (L.slot id))
      else L.storageOrigin.get? id' := by
  rw [journaledWrite_scope]
  show (if (L.storageOrigin.get? id).isSome then L.storageOrigin
    else L.storageOrigin.set id (L.slot id)).get? id' = _
  cases hfound : L.storageOrigin.get? id with
  | none => simp [GoMap.get?_set]
  | some v =>
      by_cases hid : id' = id
      · simp [hid, hfound]
      · simp [hid]

theorem journaledWrite_tally (L : Ledger) (id : StorageID) (value : Hash) :
    (L.journaledWrite id value).tally =
      ⟨Function.update L.tally.slot id value, L.refund.toNat⟩ := by
  ext1
  · funext id'
    show (if ((L.journaledWrite id value).storageOrigin.get? id').isSome then
      (L.journaledWrite id value).slot id' else (L.journaledWrite id value).rowSlot id') = _
    rw [journaledWrite_origin, journaledWrite_slot, journaledWrite_rowSlot]
    by_cases hid : id' = id
    · simp [hid]
    · simp [hid, tally]
  · show (L.journaledWrite id value).refund.toNat = _
    rw [journaledWrite_scope]
    rfl

theorem Tracked.journaledWrite (h : Tracked L) {id : StorageID} (hid : L.Writable id)
    (value : Hash) : Tracked (L.journaledWrite id value) := by
  have hscope := journaledWrite_scope L id value
  have hentries : (L.journaledWrite id value).journal.entries =
      [.storageChange id.addr id.slot (L.slot id)] ++ L.journal.entries := by
    rw [hscope]
    rfl
  refine h.append hentries (by rw [hscope]; rfl) (journaledWrite_rowSlot L id value) ?_ ?_ ?_ ?_
  · intro id' hsome
    rw [journaledWrite_origin]
    split
    · rfl
    · exact hsome
  · intro id' v hv
    rw [journaledWrite_origin] at hv
    split at hv
    · -- the new origin is the value the slot shows, an old one is right already
      rename_i hid'
      subst hid'
      cases hv
      cases hfound : L.storageOrigin.get? id' with
      | none => exact hid hfound
      | some v => exact h.origin id' v hfound
    · exact h.origin id' v hv
  · intro a k prev hmem
    cases List.mem_singleton.mp hmem
    rw [journaledWrite_origin, if_pos rfl]
    rfl
  · rw [journaledWrite_tally]
    show (⟨Function.update (Function.update L.tally.slot id value) id (L.slot id), _⟩ : Tally) = _
    rw [Function.update_idem, ← tally_slot_of_writable hid, Function.update_eq_self]
    rfl

/-- The write of `SSTORE`, after the counter was prepared for it. -/
theorem Tracked.setStateJournaled (h : Tracked L) {id : StorageID} (hid : L.Writable id)
    {value : Hash} {before : ℕ} (hbefore : Tally.Covers L.rowSlot ⟨L.tally.slot, before⟩)
    (hrefund : before + 4800 * outstanding (L.rowSlot id) value ≤
      L.refund.toNat + 4800 * outstanding (L.rowSlot id) (L.slot id)) :
    Refunded (L.setStateJournaled id value) := by
  unfold Ledger.setStateJournaled
  split
  · rename_i heq
    rw [heq] at hrefund
    have hle : before ≤ L.refund.toNat := by omega
    exact ⟨h, hbefore.mono hle⟩
  · refine ⟨h.journaledWrite hid value, ?_⟩
    show (L.journaledWrite id value).tally.Covers (L.journaledWrite id value).rowSlot
    rw [journaledWrite_tally, journaledWrite_rowSlot]
    refine hbefore.update ?_
    show before + _ ≤ _ + 4800 * outstanding (L.rowSlot id) (L.tally.slot id)
    rwa [tally_slot_of_writable hid]

end Ledger

/-! ## Orderly transactions -/

/-- The condition under which an action keeps original values and refunds right: an `SSTORE` finds
a slot without recorded origin at its original value, `SetState` leaves the slots that `SSTORE` has
written alone, `Prepare` comes while no refund was counted, the counter has room, and slots and
refunds are not changed behind the back of `SSTORE`. -/
def Action.Orderly (s : StateDB) : Action → Prop
  | .call (.setState id _) => s.storageOrigin.get? id = none
  | .call (.prepare _ _ _ _) => s.refund = 0
  | .call (.setStateJournaled _ _) | .call (.addRefund _) | .call (.subRefund _)
  | .call (.panic _) => False
  | .call _ => True
  | .sstore id _ | .sstoreFails id _ _ =>
    (s.storageOrigin.get? id = none → s.slotOf id = s.db.slot id) ∧
      s.refund.toNat + 24700 < 2 ^ 64

open Ledger in
/-- A method that an orderly transaction may call either is quiet, or takes a snapshot, or returns
to one. -/
theorem Op.quiet_execL {op : Op} {s : StateDB} (h : Action.Orderly s (.call op))
    (hsnapshot : op ≠ .snapshot) (hrevert : ∀ revid, op ≠ .revertToSnapshot revid) :
    ∃ r L', op.execL s.view = .ok (r, L') ∧ Quiet s.view L' := by
  cases op with
  | setStateJournaled | addRefund | subRefund | panic => exact h.elim
  | snapshot => exact absurd rfl hsnapshot
  | revertToSnapshot revid => exact absurd rfl (hrevert revid)
  | setState id v =>
      have hid : s.view.storageOrigin.get? id = none := h
      exact ⟨_, _, rfl, .setState hid v⟩
  | prepare sender coinbase dest precompiles => exact ⟨_, _, rfl, .inScope (.prepare h ..)⟩
  | addBalancePrev a x => exact ⟨_, _, rfl, .updateAccount _ a (fun _ => rfl) _⟩
  | subBalance a x => exact ⟨_, _, rfl, .updateAccount _ a (fun _ => rfl) _⟩
  | setBalanceJournaled a b => exact ⟨_, _, rfl, .updateAccount _ a (fun _ => rfl) _⟩
  | setNonceJournaled a n => exact ⟨_, _, rfl, .updateAccount _ a (fun _ => rfl) _⟩
  | setCodeJournaled a c => exact ⟨_, _, rfl, .setCode _ a c⟩
  | createAccount a => exact ⟨_, _, rfl, (Quiet.record rfl _).trans (.setObject _ a _)⟩
  | createContract a => exact ⟨_, _, rfl, .inScope (.of_eq rfl rfl rfl rfl)⟩
  | selfDestruct a => exact ⟨_, _, rfl, .selfDestruct _ a⟩
  | selfDestruct6780 a => exact ⟨_, _, rfl, .selfDestruct6780 _ a⟩
  | addLog l =>
      exact ⟨_, _, rfl, .inScope ((TxScope.Quiet.appendJournal (e := .addLogChange) rfl _).trans
        (.of_eq rfl rfl rfl rfl))⟩
  | clearLogs => exact ⟨_, _, rfl, .inScope (.of_eq rfl rfl rfl rfl)⟩
  | setTransientState a k v =>
      exact ⟨_, _, rfl, .inScope ((TxScope.Quiet.appendJournal
        (e := .transientStorageChange a k _) rfl _).trans (.of_eq rfl rfl rfl rfl))⟩
  | addAddressToAccessList a => exact ⟨_, _, rfl, .inScope (.addAddressToAccessList _ a)⟩
  | addSlotToAccessList a k => exact ⟨_, _, rfl, .inScope (.addSlotToAccessList _ a k)⟩
  | exist | existEVM | getBalance | getNonce | getCodeHash | getCode | empty | getState
  | getCommittedState | getTransientState | getRefund | hasSelfDestructed | isNewContract
  | addressInAccessList | slotInAccessList => exact ⟨_, _, rfl, .refl _⟩

/-- How an action may end: with the refunds still covered, or in the panic of an unknown
snapshot. -/
def EndsRefunded {α : Type} (result : Except Panic (α × Ledger)) : Prop :=
  (∃ a L, result = .ok (a, L) ∧ L.Refunded) ∨ result = .error .invalidSnapshotID

open Ledger in
theorem endsRefunded_revert {L : Ledger} (h : Tracked L) (revid : ℕ) :
    EndsRefunded ((Op.revertToSnapshot revid).execL L) := by
  cases hrev : L.revertToSnapshot revid with
  | error e =>
      refine .inr ?_
      have he : e = .invalidSnapshotID := by
        unfold Ledger.revertToSnapshot at hrev
        split at hrev <;> cases hrev
        rfl
      simp only [Op.execL, hrev, he]
      rfl
  | ok L' =>
      refine .inl ⟨(), L', ?_, h.revertToSnapshot hrev⟩
      simp only [Op.execL, hrev]
      rfl

open Ledger in
theorem Action.endsRefunded {a : Action} {s : StateDB} (hs : s.view.Refunded)
    (ha : a.Orderly s) : EndsRefunded (a.program.run Op.execL s.view) := by
  cases a with
  | call op =>
      have hop : EndsRefunded (op.execL s.view) := by
        by_cases hsnapshot : op = .snapshot
        · subst hsnapshot
          exact .inl ⟨_, _, rfl, hs.snapshot⟩
        by_cases hrevert : ∃ revid, op = .revertToSnapshot revid
        · obtain ⟨revid, rfl⟩ := hrevert
          exact endsRefunded_revert hs.toTracked revid
        obtain ⟨r, L', hrun, hquiet⟩ :=
          Op.quiet_execL ha hsnapshot fun revid h => hrevert ⟨revid, h⟩
        exact .inl ⟨r, L', hrun, hs.quiet hquiet⟩
      rcases hop with ⟨r, L', hrun, hL'⟩ | hrun
      · exact .inl ⟨(), L', by simp [program, hrun], hL'⟩
      · exact .inr (by simp [program, hrun])
  | sstore id value =>
      obtain ⟨cost, L', hrun, htracked, hslot, horigin, hrow, hle⟩ :=
        run_sstoreGas hs ha.1 value ha.2
      have hwritable : L'.Writable id := by
        unfold Writable
        rw [hslot, horigin, hrow]
        exact ha.1
      have htally : L'.tally.slot = s.view.tally.slot := by
        simp only [tally, hslot, horigin, hrow]
      refine .inl ⟨(), L'.setStateJournaled id value, by simp [program, hrun, Op.execL], ?_⟩
      have hbefore : Tally.Covers L'.rowSlot ⟨L'.tally.slot, s.refund.toNat⟩ := by
        rw [htally, hrow]
        exact hs.covers
      refine htracked.setStateJournaled hwritable hbefore ?_
      rw [hrow, hslot]
      exact hle
  | sstoreFails id value revid =>
      obtain ⟨cost, L', hrun, htracked, -⟩ := run_sstoreGas hs ha.1 value ha.2
      have hend := endsRefunded_revert htracked revid
      simpa [program, hrun] using hend

theorem Action.db_eq {a : Action} {s t : StateDB} (h : a.apply s = .ok t) : t.db = s.db := by
  unfold Action.apply at h
  cases hrun : a.program.run Op.exec s with
  | error e =>
      rw [hrun] at h
      cases h
  | ok rt =>
      rw [hrun] at h
      cases h
      exact (StateProgram.steps hrun).db_eq

/-- One orderly action does not drive the counter below zero and keeps the refunds covered. -/
theorem Action.refunded {a : Action} {s : StateDB} (hs : s.view.Refunded) (ha : a.Orderly s) :
    a.apply s ≠ .error .refundBelowZero ∧ ∀ t, a.apply s = .ok t → t.view.Refunded := by
  have hview := StateProgram.run_view a.program s
  unfold Action.apply
  cases hrun : a.program.run Op.exec s with
  | error e =>
      rw [hrun] at hview
      rcases Action.endsRefunded hs ha with ⟨r, L, hL, -⟩ | hL
      · rw [hL] at hview
        cases hview
      · rw [hL] at hview
        cases hview
        exact ⟨by simp [Except.map], by simp [Except.map]⟩
  | ok rt =>
      refine ⟨by simp [Except.map], fun t ht => ?_⟩
      cases ht
      rw [hrun] at hview
      rcases Action.endsRefunded hs ha with ⟨r, L, hL, hrefunded⟩ | hL
      · rw [hL] at hview
        cases hview
        exact hrefunded
      · rw [hL] at hview
        cases hview

/-- The points of a transaction that starts in `s₀`. -/
inductive OrderlyTx (s₀ : StateDB) : StateDB → Prop
  | start : OrderlyTx s₀ s₀
  | step {s t : StateDB} {a : Action} : OrderlyTx s₀ s → a.Orderly s → a.apply s = .ok t →
      OrderlyTx s₀ t

/-- The states between transactions: fresh ones, those after the end of any transaction, and those
after a flush. -/
inductive BetweenTxs : StateDB → Prop
  | new (db : Database) : BetweenTxs (.new db)
  | tx {α : Type} {p : StateProgram α} {r : α} {s₀ s : StateDB} : BetweenTxs s₀ →
      p.run Op.exec s₀ = .ok (r, s) → BetweenTxs (s.finalise true)
  | flush {s : StateDB} : BetweenTxs s → BetweenTxs s.flush

/-- The bookkeeping of a transaction that has not begun. -/
structure AtRest (s : StateDB) : Prop extends StateDB.Settled s where
  entries : s.journal.entries = []
  validRevisions : s.validRevisions = []
  storageOrigin : s.storageOrigin = ∅
  refund : s.refund = 0

theorem BetweenTxs.atRest {s : StateDB} (h : BetweenTxs s) : AtRest s := by
  induction h with
  | new db => exact ⟨StateDB.settled_new db, rfl, rfl, rfl, rfl⟩
  | tx _ hrun ih =>
      have hcoherent := ih.coherent.steps (StateProgram.steps hrun)
      exact ⟨⟨StateDB.coherent_finalise hcoherent, rfl⟩, rfl, rfl, rfl, rfl⟩
  | flush _ ih =>
      exact ⟨⟨StateDB.coherent_flush ih.suicides ih.coherent, rfl⟩, ih.entries,
        ih.validRevisions, ih.storageOrigin, ih.refund⟩

/-- No slot written since the last flush differs from its database row. -/
def StorageFlushed (s : StateDB) : Prop :=
  ∀ id ∈ s.storageDirty, s.slotOf id = s.db.slot id

theorem storageFlushed_flush (s : StateDB) : StorageFlushed s.flush := by
  intro id hid
  simp [StateDB.flush, StateDB.clearDirty] at hid

/-- On flushed storage every slot shows its database row. -/
theorem StorageFlushed.slotOf_eq {s : StateDB} (h : StorageFlushed s) (hs : AtRest s)
    (id : StorageID) : s.slotOf id = s.db.slot id := by
  by_cases hdirty : id ∈ s.storageDirty
  · exact h id hdirty
  · rw [Store.slotOf]
    cases hcached : s.storage.get? id with
    | none => rfl
    | some v => exact (hs.coherent.slot id v hcached hdirty).symm

theorem AtRest.refunded {s : StateDB} (hs : AtRest s) : s.view.Refunded := by
  have horigin : ∀ id, s.storageOrigin.get? id = none := by
    intro id
    rw [hs.storageOrigin]
    rfl
  refine ⟨⟨fun a k prev hmem => ?_, fun id v hv => ?_, ?_⟩, fun F => ?_⟩
  · change _ ∈ s.journal.entries at hmem
    rw [hs.entries] at hmem
    cases hmem
  · change s.storageOrigin.get? id = some v at hv
    rw [horigin] at hv
    cases hv
  · show UndoLog.Safe _ _ _ (s.validRevisions.map _) _
    rw [hs.validRevisions]
    exact UndoLog.safe_nil _
  · -- every slot counts with its original value, so that nothing is outstanding
    have hzero : ∀ id ∈ F, outstanding (s.db.slot id) (s.view.tally.slot id) = 0 := by
      intro id _
      have htally : s.view.tally.slot id = s.db.slot id := by
        show (if (s.storageOrigin.get? id).isSome then _ else _) = _
        rw [horigin]
        rfl
      rw [htally, outstanding, if_neg fun h => h.1 h.2]
    show 4800 * ∑ id ∈ F, outstanding (s.db.slot id) (s.view.tally.slot id) ≤ _
    rw [Finset.sum_eq_zero hzero]
    omega

theorem OrderlyTx.refunded {s₀ s : StateDB} (h : OrderlyTx s₀ s) (hs₀ : AtRest s₀) :
    s.view.Refunded ∧ s.db = s₀.db := by
  induction h with
  | start => exact ⟨hs₀.refunded, rfl⟩
  | step _ horderly happly ih =>
      exact ⟨(Action.refunded ih.1 horderly).2 _ happly, (Action.db_eq happly).trans ih.2⟩

/-- **Original values and refunds.** At every point of an orderly transaction on flushed storage,
whatever was executed and flushed before it: `GetCommittedState` is the value that the slot showed
at the start of the transaction, and no further orderly action drives the refund counter below
zero. -/
theorem getCommittedState_eq_start {s₀ s : StateDB} (hbetween : BetweenTxs s₀)
    (hflushed : StorageFlushed s₀) (h : OrderlyTx s₀ s) :
    (∀ id, s.getCommittedState id = (s₀.getState id).1) ∧
      ∀ a : Action, a.Orderly s → a.apply s ≠ .error .refundBelowZero := by
  have hrest := hbetween.atRest
  obtain ⟨hrefunded, hdb⟩ := h.refunded hrest
  refine ⟨fun id => ?_, fun a ha => (Action.refunded hrefunded ha).1⟩
  calc s.getCommittedState id = s.db.slot id := hrefunded.toTracked.committed id
    _ = s₀.db.slot id := by rw [hdb]
    _ = s₀.slotOf id := (hflushed.slotOf_eq hrest id).symm
    _ = (s₀.getState id).1 := (StateDB.getState_fst s₀ id).symm

/-- Slot `0` of the contract at address `7`. -/
def contractSlot : StorageID := ⟨7, 0⟩

/-- A block in which the contract comes into being and stores `5`, executed and flushed. -/
def storedFive : StateDB :=
  ((((StateDB.new ∅).setNonceJournaled 7 1).setStateJournaled contractSlot 5).2.finalise true).flush

theorem betweenTxs_storedFive : BetweenTxs storedFive := by
  let creation : StateProgram Hash := do
    (Op.setNonceJournaled 7 1).call
    (Op.setStateJournaled contractSlot 5).call
  have hrun : creation.run Op.exec (StateDB.new ∅) =
      .ok (((StateDB.new ∅).setNonceJournaled 7 1).setStateJournaled contractSlot 5) := rfl
  exact .flush (.tx (.new ∅) hrun)

/-- The transaction that clears the slot has `5` as its original value, and may fill it again. -/
theorem cleared_slot_refills :
    ∃ s, (Action.sstore contractSlot 0).apply storedFive = .ok s ∧
      s.getCommittedState contractSlot = (storedFive.getState contractSlot).1 ∧
      (Action.sstore contractSlot 9).apply s ≠ .error .refundBelowZero := by
  have hfacts : ((Action.sstore contractSlot 0).apply storedFive).map
      (fun s => (decide (s.storageOrigin.get? contractSlot = none), s.refund)) =
      .ok (false, 4800) := by
    decide
  cases hclear : (Action.sstore contractSlot 0).apply storedFive with
  | error e =>
      rw [hclear] at hfacts
      cases hfacts
  | ok s =>
      simp only [hclear, Except.map, Except.ok.injEq, Prod.mk.injEq, decide_eq_false_iff_not] at hfacts
      have horderly : (Action.sstore contractSlot 0).Orderly storedFive := by
        refine ⟨fun _ => ?_, ?_⟩ <;> decide
      obtain ⟨horigin, hpanic⟩ := getCommittedState_eq_start betweenTxs_storedFive
        (storageFlushed_flush _) (.step .start horderly hclear)
      refine ⟨s, rfl, horigin contractSlot, hpanic _ ⟨fun hnone => absurd hnone hfacts.1, ?_⟩⟩
      rw [hfacts.2]
      decide

/-- **A slot cleared in one transaction and filled in the next.** Without a flush between them the
second transaction takes the `5` of the older block for the original value although the slot shows
`0` at its start, and its `SSTORE` drives the refund counter below zero. -/
theorem refilled_slot_panics :
    ∃ s, (Action.sstore contractSlot 0).apply storedFive = .ok s ∧
      BetweenTxs (s.finalise true) ∧
      (s.finalise true).getCommittedState contractSlot = 5 ∧
      ((s.finalise true).getState contractSlot).1 = 0 ∧
      (Action.sstore contractSlot 9).apply (s.finalise true) = .error .refundBelowZero := by
  have hfacts : ((Action.sstore contractSlot 0).apply storedFive).map
      (fun s => ((s.finalise true).getCommittedState contractSlot,
        ((s.finalise true).getState contractSlot).1,
        (Action.sstore contractSlot 9).apply (s.finalise true))) =
      .ok (5, 0, .error .refundBelowZero) := by
    decide
  cases hclear : (Action.sstore contractSlot 0).program.run Op.exec storedFive with
  | error e =>
      simp only [Action.apply, hclear] at hfacts
      cases hfacts
  | ok rs =>
      have happly : (Action.sstore contractSlot 0).apply storedFive = .ok rs.2 := by
        simp only [Action.apply, hclear]
        rfl
      simp only [happly, Except.map, Except.ok.injEq, Prod.mk.injEq] at hfacts
      exact ⟨rs.2, happly, .tx betweenTxs_storedFive hclear, hfacts⟩

end Dew
