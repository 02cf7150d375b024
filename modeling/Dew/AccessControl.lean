/-
# Access control of native transactions

Which accounts `ApplyDewTx` can change. A rejected transaction changes none. An applied one writes
the accounts that it reports as touched, and two more things happen to others: the delegators of the
fee sink are paid through the staking module, whose account and storage nobody has to list; and
`Finalise` drops accounts that earlier transactions left destroyed or empty, whose database rows then
show again.

`Op.Within` bounds the accesses of a program, and `StateDB.Frame` is what such a program leaves alone.
The last part combines the frames of the steps of `ApplyDewTx` with the exact effect of `Finalise` and
of the payment to the delegators.
-/
import Dew.StakeSolvency

open Program

namespace Dew

/-! ## What bounded accesses leave alone -/

/-- Accesses that write the accounts `A` at most, reach the slots `R` at most, and write the slots `W`
at most. -/
def Op.Within (A : Set Address) (R W : Set StorageID) : Op → Prop
  | .getBalance _ | .getNonce _ => True
  | .subBalance a _ | .addBalancePrev a _ | .setNonceJournaled a _ => a ∈ A
  | .getState id => id ∈ R
  | .setState id _ => id ∈ R ∧ id ∈ W ∧ id.addr ∈ A
  | _ => False

/-- What such accesses leave alone on the ledger. -/
structure Ledger.Frame (A : Set Address) (W : Set StorageID) (L L' : Ledger) : Prop where
  suicides : L'.suicides = L.suicides
  code : L'.code = L.code
  row : L'.rowObject = L.rowObject
  object : ∀ a ∉ A, L'.object a = L.object a
  marked : ∀ a ∉ A, (L'.Marked a ↔ L.Marked a)
  slot : ∀ id ∉ W, L'.slot id = L.slot id

namespace Ledger.Frame

variable {A : Set Address} {W : Set StorageID} {L L' L'' : Ledger}

theorem refl (L : Ledger) : Frame A W L L where
  suicides := rfl
  code := rfl
  row := rfl
  object _ _ := rfl
  marked _ _ := Iff.rfl
  slot _ _ := rfl

theorem trans (h : Frame A W L L') (h' : Frame A W L' L'') : Frame A W L L'' where
  suicides := h'.suicides.trans h.suicides
  code := h'.code.trans h.code
  row := h'.row.trans h.row
  object a ha := (h'.object a ha).trans (h.object a ha)
  marked a ha := (h'.marked a ha).trans (h.marked a ha)
  slot id hid := (h'.slot id hid).trans (h.slot id hid)

theorem mono {A' : Set Address} {W' : Set StorageID} (h : Frame A W L L') (hA : A ⊆ A')
    (hW : W ⊆ W') : Frame A' W' L L' where
  suicides := h.suicides
  code := h.code
  row := h.row
  object a ha := h.object a fun hmem => ha (hA hmem)
  marked a ha := h.marked a fun hmem => ha (hA hmem)
  slot id hid := h.slot id fun hmem => hid (hW hmem)

theorem updateAccount {a : Address} (ha : a ∈ A) {entry : Account → JournalEntry}
    (hentry : ∀ acc, (entry acc).dirtyAddress = some a) (f : Account → Account) :
    Frame A W L (L.updateAccount a entry f) where
  suicides := rfl
  code := rfl
  row := rfl
  object b hb := Function.update_of_ne (ne_of_mem_of_not_mem ha hb).symm _ _
  marked b hb := by
    refine (Journal.mem_dirties_append (hentry _) L.journal b).trans (or_iff_left ?_)
    exact (ne_of_mem_of_not_mem ha hb).symm
  slot _ _ := rfl

theorem updateBalance {a : Address} (ha : a ∈ A) (f : U256 → U256) :
    Frame A W L (L.updateBalance a f) :=
  updateAccount ha (fun _ => rfl) _

theorem setState {id : StorageID} (hid : id ∈ W) (ha : id.addr ∈ A) (v : Hash) :
    Frame A W L (L.setState id v) := by
  have htouch : Frame A W L (L.touch id.addr) := by
    unfold Ledger.touch
    split
    · exact refl L
    · exact ⟨rfl, rfl, rfl, fun b hb => Function.update_of_ne (ne_of_mem_of_not_mem ha hb).symm _ _,
        fun _ _ => Iff.rfl, fun _ _ => rfl⟩
  refine htouch.trans ⟨rfl, rfl, rfl, fun _ _ => rfl, fun _ _ => Iff.rfl, fun id' hid' => ?_⟩
  exact Function.update_of_ne (ne_of_mem_of_not_mem hid hid').symm _ _

end Ledger.Frame

theorem Op.frame_execL {A : Set Address} {R W : Set StorageID} (op : Op) (hop : op.Within A R W)
    (L : Ledger) : ∃ r L', op.execL L = .ok (r, L') ∧ Ledger.Frame A W L L' := by
  cases op with
  | getBalance a | getNonce a | getState id => exact ⟨_, _, rfl, .refl L⟩
  | subBalance a x | addBalancePrev a x => exact ⟨_, _, rfl, .updateBalance hop _⟩
  | setNonceJournaled a n => exact ⟨_, _, rfl, .updateAccount hop (fun _ => rfl) _⟩
  | setState id v => exact ⟨_, _, rfl, .setState hop.2.1 hop.2.2 v⟩
  | _ => exact hop.elim

namespace StateDB

/-- The slot is in the cache. -/
def Cached (s : StateDB) (id : StorageID) : Prop :=
  (s.storage.get? id).isSome = true

theorem storage_getAccount (s : StateDB) (a : Address) : (s.getAccount a).2.storage = s.storage := by
  rw [getAccount_eq]

theorem storage_getOrNewAccount (s : StateDB) (a : Address) :
    (s.getOrNewAccount a).2.storage = s.storage := by
  unfold getOrNewAccount
  rw [getAccount_eq]
  cases s.account? a <;> rfl

theorem storage_updateAccount (s : StateDB) (a : Address) (entry : Account → JournalEntry)
    (f : Account → Account) : (s.updateAccount a entry f).2.storage = s.storage :=
  storage_getOrNewAccount (s.noteWrite (accountKey a)) a

theorem storage_updateBalance (s : StateDB) (a : Address) (f : U256 → U256) :
    (s.updateBalance a f).2.storage = s.storage :=
  storage_updateAccount s a (fun acc => .balanceChange a acc.balance)
    (fun acc => { acc with balance := f acc.balance })

/-- Reading a slot caches it, unless it has no database row. -/
theorem cached_getState (s : StateDB) (id id' : StorageID) :
    (s.getState id).2.Cached id' ↔ s.Cached id' ∨ id' = id ∧ (s.db.slot? id).isSome = true := by
  have hcache : (s.noteRead (storageKey id)).storage = s.storage := rfl
  have hdb : (s.noteRead (storageKey id)).db = s.db := rfl
  unfold getState Cached
  dsimp only
  rw [hcache, hdb]
  cases hget : s.storage.get? id with
  | some v =>
      show (s.storage.get? id').isSome = true ↔ _
      refine (or_iff_left_of_imp ?_).symm
      rintro ⟨rfl, -⟩
      rw [hget]
      rfl
  | none =>
      cases s.db.slot? id with
      | none => simp [noteRead]
      | some v =>
          show ((s.storage.set id v).get? id').isSome = true ↔ _
          rw [GoMap.get?_set]
          by_cases hid : id' = id <;> simp [hid]

theorem cached_setState (s : StateDB) (id id' : StorageID) (v : Hash) :
    (s.setState id v).Cached id' ↔ s.Cached id' ∨ id' = id := by
  show ((GoMap.set ((s.noteWrite (storageKey id)).getOrNewAccount id.addr).2.storage id v).get?
    id').isSome = true ↔ _
  rw [storage_getOrNewAccount, GoMap.get?_set]
  by_cases hid : id' = id
  · simp [hid]
  · simp [hid, Cached, noteWrite]

/-- What bounded accesses leave alone, the cache of slots included. -/
structure Frame (A : Set Address) (R W : Set StorageID) (s t : StateDB) : Prop where
  ledger : s.view.Frame A W t.view
  db : t.db = s.db
  cached : ∀ id, s.Cached id → t.Cached id
  fresh : ∀ id ∉ R, (t.Cached id ↔ s.Cached id)

namespace Frame

variable {A : Set Address} {R W : Set StorageID} {s t u : StateDB}

theorem refl (s : StateDB) : Frame A R W s s where
  ledger := .refl _
  db := rfl
  cached _ h := h
  fresh _ _ := Iff.rfl

theorem trans (h : Frame A R W s t) (h' : Frame A R W t u) : Frame A R W s u where
  ledger := h.ledger.trans h'.ledger
  db := h'.db.trans h.db
  cached id hid := h'.cached id (h.cached id hid)
  fresh id hid := (h'.fresh id hid).trans (h.fresh id hid)

theorem mono {A' : Set Address} {R' W' : Set StorageID} (h : Frame A R W s t) (hA : A ⊆ A')
    (hR : R ⊆ R') (hW : W ⊆ W') : Frame A' R' W' s t where
  ledger := h.ledger.mono hA hW
  db := h.db
  cached := h.cached
  fresh id hid := h.fresh id fun hmem => hid (hR hmem)

end Frame

end StateDB

/-- One bounded access. -/
theorem Op.frame_exec {A : Set Address} {R W : Set StorageID} (op : Op) (hop : op.Within A R W)
    (s : StateDB) : ∃ r t, op.exec s = .ok (r, t) ∧ StateDB.Frame A R W s t := by
  obtain ⟨r, L, hL, hframe⟩ := op.frame_execL hop s.view
  have hprog : op.call.run Op.execL s.view = .ok (r, L) := by rw [run_op, hL]
  obtain ⟨t, ht, rfl⟩ := StateProgram.run_of_view hprog
  rw [run_op] at ht
  have hsame : t.storage = s.storage → (∀ id, s.Cached id → t.Cached id) ∧
      ∀ id ∉ R, (t.Cached id ↔ s.Cached id) := by
    intro h
    refine ⟨fun id hid => ?_, fun id _ => ?_⟩
    · rw [StateDB.Cached, h]
      exact hid
    · rw [StateDB.Cached, h, StateDB.Cached]
  have hcache : (∀ id, s.Cached id → t.Cached id) ∧ ∀ id ∉ R, (t.Cached id ↔ s.Cached id) := by
    cases op with
    | getBalance a | getNonce a =>
        rw [← snd_eq_of_ok ht] at hsame ⊢
        exact hsame (StateDB.storage_getAccount (s.noteRead _) a)
    | subBalance a x | addBalancePrev a x =>
        rw [← snd_eq_of_ok ht] at hsame ⊢
        exact hsame (StateDB.storage_updateBalance s a _)
    | setNonceJournaled a n =>
        rw [← snd_eq_of_ok ht] at hsame ⊢
        exact hsame (StateDB.storage_updateAccount s a (fun acc => .nonceChange a acc.nonce)
          (fun acc => { acc with nonce := n }))
    | getState id =>
        rw [← snd_eq_of_ok ht]
        refine ⟨fun id' h => (StateDB.cached_getState s id id').mpr (.inl h), fun id' hid' => ?_⟩
        refine (StateDB.cached_getState s id id').trans (or_iff_left ?_)
        rintro ⟨rfl, -⟩
        exact hid' hop
    | setState id v =>
        rw [← snd_eq_of_ok ht]
        refine ⟨fun id' h => (StateDB.cached_setState s id id' v).mpr (.inl h), fun id' hid' => ?_⟩
        refine (StateDB.cached_setState s id id' v).trans (or_iff_left ?_)
        rintro rfl
        exact hid' hop.1
    | _ => exact hop.elim
  exact ⟨r, t, ht, hframe, (Op.steps ht).db_eq, hcache.1, hcache.2⟩

theorem Op.frame_of_exec {A : Set Address} {R W : Set StorageID} {op : Op} {s t : StateDB}
    {r : op.Result} (h : op.exec s = .ok (r, t)) (hop : op.Within A R W) :
    StateDB.Frame A R W s t := by
  obtain ⟨r', t', h', hframe⟩ := op.frame_exec hop s
  obtain ⟨-, rfl⟩ := Prod.mk.inj (Except.ok.inj (h'.symm.trans h))
  exact hframe

/-- A program of bounded accesses ends, and leaves alone what each of them does. -/
theorem StateProgram.frame {α : Type} {A : Set Address} {R W : Set StorageID} {p : StateProgram α}
    (hp : p.Calls (Op.Within A R W)) (s : StateDB) :
    ∃ a t, p.run Op.exec s = .ok (a, t) ∧ StateDB.Frame A R W s t := by
  obtain ⟨a, t, hrun⟩ := hp.run_ok (h := Op.exec) (fun op hop s => by
    obtain ⟨r, t, h, -⟩ := op.frame_exec hop s
    exact ⟨r, t, h⟩) s
  refine ⟨a, t, hrun, ?_⟩
  exact hp.run_trans (h := Op.exec) (T := StateDB.Frame A R W) .refl .trans
    (fun _ hop {_ _ _} h => Op.frame_of_exec h hop) hrun

/-! ## What is seen of an account -/

namespace StateDB

/-- What an account object shows: its balance, its nonce and its code. -/
def seen (s : StateDB) (o : Option Account) : U256 × U64 × Bytes :=
  let codeHash := (o.map Account.codeHash).getD emptyCodeHash
  ((o.map Account.balance).getD 0, (o.map Account.nonce).getD 0,
    if codeHash = emptyCodeHash then [] else s.codeOf codeHash)

/-- The states show the same balance, nonce, code and storage of an account. -/
structure SameAt (s t : StateDB) (a : Address) : Prop where
  balance : t.balanceOf a = s.balanceOf a
  nonce : t.nonceOf a = s.nonceOf a
  code : t.codeBytes a = s.codeBytes a
  storage : ∀ k, t.slotOf ⟨a, k⟩ = s.slotOf ⟨a, k⟩

theorem sameAt_iff {s t : StateDB} {a : Address} :
    s.SameAt t a ↔ t.seen (t.account? a) = s.seen (s.account? a) ∧
      ∀ k, t.slotOf ⟨a, k⟩ = s.slotOf ⟨a, k⟩ := by
  constructor
  · intro h
    exact ⟨Prod.ext h.balance (Prod.ext h.nonce h.code), h.storage⟩
  · rintro ⟨h, hstorage⟩
    obtain ⟨hbalance, hrest⟩ := Prod.mk.inj h
    obtain ⟨hnonce, hcode⟩ := Prod.mk.inj hrest
    exact ⟨hbalance, hnonce, hcode, hstorage⟩

/-- The database row of an account shows the balance `b`, and neither a nonce nor code. -/
def RowReads (s : StateDB) (a : Address) (b : U256) : Prop :=
  s.seen (s.db.account? a) = (b, 0, [])

/-- `Finalise` leaves what is seen of the account as it is: if the account is dropped, then its row
shows nothing, and if it was destroyed, then its cached slots are all zero. -/
structure Undisturbed (s : StateDB) (a : Address) : Prop where
  row : s.Dropped a → s.RowReads a 0
  slots : a ∈ s.suicides → ∀ k, s.Cached ⟨a, k⟩ → s.slotOf ⟨a, k⟩ = 0

theorem seen_congr {s t : StateDB} (h : t.codeOf = s.codeOf) (o : Option Account) :
    t.seen o = s.seen o := by
  unfold seen
  rw [h]

theorem seen_finalise (s : StateDB) (a : Address) :
    (s.finalise true).seen ((s.finalise true).account? a) =
      s.seen (if s.Dropped a then s.db.account? a else s.object? a) := by
  rw [account?_of_no_suicides (finalise_suicides s), object?_finalise]
  exact seen_congr (funext (codeOf_finalise s)) _

theorem seen_of_dropped {s : StateDB} {a : Address} (h : s.Dropped a) :
    s.seen (s.account? a) = (0, 0, []) := by
  by_cases hdead : a ∈ s.suicides
  · rw [account?, if_pos hdead]
    rfl
  · obtain ⟨hbalance, hnonce, hcode⟩ := shows_empty_of_dropped h hdead
    exact Prod.ext hbalance (Prod.ext hnonce hcode)

theorem seen_eq (s : StateDB) (o : Option Account) : s.seen o = s.seen (some (o.getD newAccount)) := by
  cases o <;> rfl

/-- An account that a run left alone, after the `Finalise` that follows. -/
theorem sameAt_finalise_iff {s t : StateDB} {a : Address} (hsuicides : t.suicides = s.suicides)
    (hcode : t.codeOf = s.codeOf) (hrow : t.db.account? a = s.db.account? a)
    (haccount : t.view.accountOrNew a = s.view.accountOrNew a) (hmarked : t.Marked a ↔ s.Marked a)
    (hslot : ∀ k, t.slotOf ⟨a, k⟩ = s.slotOf ⟨a, k⟩) :
    s.SameAt (t.finalise true) a ↔ (s.Dropped a → s.RowReads a 0) ∧
      (a ∈ s.suicides → ∀ k, t.Cached ⟨a, k⟩ → s.slotOf ⟨a, k⟩ = 0) := by
  have hdropped : t.Dropped a ↔ s.Dropped a := by
    have hempty : t.emptyAt a = s.emptyAt a := by
      show t.view.emptyAt a = s.view.emptyAt a
      rw [Ledger.emptyAt_eq_accountOrNew, haccount, Ledger.emptyAt_eq_accountOrNew]
    exact or_congr (by rw [hsuicides]) (and_congr hmarked (by rw [hempty]))
  have hseen : (t.finalise true).seen ((t.finalise true).account? a) = s.seen (s.account? a) ↔
      (s.Dropped a → s.RowReads a 0) := by
    rw [seen_finalise, seen_congr hcode, hrow]
    by_cases hdrop : s.Dropped a
    · rw [if_pos (hdropped.mpr hdrop), seen_of_dropped hdrop]
      exact ⟨fun h _ => h, fun h => h hdrop⟩
    · have hlive : a ∉ t.suicides := fun hdead => hdrop (.inl (hsuicides ▸ hdead))
      have hobject : t.object? a = t.account? a := (if_neg hlive).symm
      rw [if_neg (fun h => hdrop (hdropped.mp h)), hobject, seen_eq s (t.account? a),
        seen_eq s (s.account? a)]
      exact ⟨fun _ h => absurd h hdrop, fun _ => congrArg (fun acc => s.seen (some acc)) haccount⟩
  rw [sameAt_iff, hseen]
  refine and_congr_right fun _ => ?_
  constructor
  · intro h hdead k hcached
    rw [← h k, slotOf_finalise, if_pos ⟨hsuicides ▸ hdead, hcached⟩]
  · intro h k
    rw [slotOf_finalise]
    split
    · rename_i hwiped
      exact (h (hsuicides ▸ hwiped.1) k hwiped.2).symm
    · exact hslot k

/-- A destroyed account after a run and the `Finalise` that follows. -/
theorem sameAt_finalise_of_destroyed {s t : StateDB} {a : Address} (hdead : a ∈ s.suicides)
    (hsuicides : t.suicides = s.suicides) (hcode : t.codeOf = s.codeOf)
    (hrow : t.db.account? a = s.db.account? a) (h : s.SameAt (t.finalise true) a) :
    s.RowReads a 0 ∧ (∀ k, t.Cached ⟨a, k⟩ → s.slotOf ⟨a, k⟩ = 0) := by
  have hdead' : a ∈ t.suicides := hsuicides ▸ hdead
  obtain ⟨hseen, hslot⟩ := sameAt_iff.mp h
  constructor
  · rw [seen_finalise, if_pos (.inl hdead'), seen_congr hcode, hrow, seen_of_dropped (.inl hdead)]
      at hseen
    exact hseen
  · intro k hcached
    rw [← hslot k, slotOf_finalise, if_pos ⟨hdead', hcached⟩]

theorem Frame.accountOrNew {A : Set Address} {R W : Set StorageID} {s t : StateDB}
    (h : Frame A R W s t) {a : Address} (ha : a ∉ A) :
    t.view.accountOrNew a = s.view.accountOrNew a := by
  unfold Ledger.accountOrNew Ledger.account?
  rw [h.ledger.suicides, h.ledger.object a ha]

/-- An account outside of a frame is disturbed by `Finalise` alone. -/
theorem Frame.sameAt_finalise_iff {A : Set Address} {R W : Set StorageID} {s t : StateDB}
    (h : Frame A R W s t) {a : Address} (ha : a ∉ A)
    (hR : ∀ k, ⟨a, k⟩ ∈ R → s.slotOf ⟨a, k⟩ = 0) (hW : ∀ k, ⟨a, k⟩ ∉ W) :
    s.SameAt (t.finalise true) a ↔ s.Undisturbed a := by
  rw [StateDB.sameAt_finalise_iff h.ledger.suicides h.ledger.code (by rw [h.db])
    (h.accountOrNew ha) (h.ledger.marked a ha) fun k => h.ledger.slot _ (hW k)]
  constructor
  · rintro ⟨hrow, hslots⟩
    exact ⟨hrow, fun hdead k hk => hslots hdead k (h.cached _ hk)⟩
  · rintro ⟨hrow, hslots⟩
    refine ⟨hrow, fun hdead k hk => ?_⟩
    by_cases hmem : ⟨a, k⟩ ∈ R
    · exact hR k hmem
    · exact hslots hdead k ((h.fresh _ hmem).mp hk)

/-- A slot that is not cached after it was read is zero. -/
theorem slotOf_of_not_cached {s : StateDB} {id : StorageID} (h : ¬(s.getState id).2.Cached id) :
    s.slotOf id = 0 := by
  rw [cached_getState, not_or] at h
  obtain ⟨hcached, hrow⟩ := h
  have hnone : s.storage.get? id = none := by simpa [Cached] using hcached
  have hmissing : s.db.slot? id = none := by simpa using hrow
  rw [Store.slotOf, hnone, Database.slot, hmissing]
  rfl

end StateDB

/-! ## The payment to the delegators -/

namespace Staking

/-- The slots of the module. -/
def moduleSlots : Set StorageID :=
  {id | id.addr = stakingModuleAddr}

section Within

variable {A : Set Address} {R W : Set StorageID}

theorem within_pay {a : Address} (ha : a ∈ A) (x : U256) : (pay a x).Calls (Op.Within A R W) := by
  unfold pay
  split
  · trivial
  · exact Calls.bind ((Calls.op_iff _).mpr ha) fun _ => trivial

theorem within_load (hR : moduleSlots ⊆ R) (slot : Hash) : (load slot).Calls (Op.Within A R W) :=
  (Calls.op_iff _).mpr (hR rfl)

theorem within_sharesToWei (hR : moduleSlots ⊆ R) (v : Address) (shares : U256) :
    (sharesToWei v shares).Calls (Op.Within A R W) := by
  unfold sharesToWei
  split
  · trivial
  · exact Calls.bind (Calls.bind (within_load hR _) fun _ => trivial) fun _ => trivial

theorem within_payDelegators (hmodule : stakingModuleAddr ∈ A) (hR : moduleSlots ⊆ R)
    (hW : moduleSlots ⊆ W) {v : Address} (hv : v ∈ A) (part : U256) :
    (payDelegators v part).Calls (Op.Within A R W) := by
  unfold payDelegators
  split
  · trivial
  refine Calls.bind (within_load hR _) fun shares => ?_
  split
  · exact within_pay hv part
  refine Calls.bind (within_pay hmodule part) fun _ => ?_
  unfold increaseRewardIndex
  split
  · trivial
  dsimp only
  split
  · trivial
  · exact Calls.bind (within_load hR _) fun _ => (Calls.op_iff _).mpr ⟨hR rfl, hW rfl, hmodule⟩

end Within

/-- `DistributeProposerIncome` after the stakes were read. -/
def shareOut (v : Address) (amount self shares : U256) : StateProgram Unit := do
  let delegated ← sharesToWei v shares
  if self + delegated = 0 then pay v amount
  else
    let commission ← commissionBps v
    let valGets := validatorPart amount self delegated commission
    pay v valGets
    payDelegators v (amount - valGets)

theorem within_shareOut (v : Address) (amount self shares : U256) :
    (shareOut v amount self shares).Calls
      (Op.Within {v, stakingModuleAddr} moduleSlots moduleSlots) := by
  have hv : v ∈ ({v, stakingModuleAddr} : Set Address) := .inl rfl
  refine Calls.bind (within_sharesToWei le_rfl v shares) fun delegated => ?_
  split
  · exact within_pay hv amount
  · exact Calls.bind (Calls.bind (within_load le_rfl _) fun _ => trivial) fun commission =>
      Calls.bind (within_pay hv _) fun _ => within_payDelegators (.inr rfl) le_rfl le_rfl hv _

/-- The state database after the stakes of the proposer were read. -/
def readStakes (s : StateDB) (v : Address) : StateDB :=
  ((s.getState ⟨stakingModuleAddr, selfSlot v⟩).2.getState ⟨stakingModuleAddr, delTotSlot v⟩).2

/-- With staking enabled, an income is shared out by the stakes, which are read first. -/
theorem run_distribute_enabled (s : StateDB) (v : Address) {amount : U256} (hamount : amount ≠ 0) :
    (distributeProposerIncome v amount true).run Op.exec s =
      (shareOut v amount (s.slotOf ⟨stakingModuleAddr, selfSlot v⟩)
        (s.slotOf ⟨stakingModuleAddr, delTotSlot v⟩)).run Op.exec (readStakes s v) := by
  have hshares : (s.getState ⟨stakingModuleAddr, selfSlot v⟩).2.slotOf
      ⟨stakingModuleAddr, delTotSlot v⟩ = s.slotOf ⟨stakingModuleAddr, delTotSlot v⟩ :=
    congrFun (congrArg Ledger.slot (StateDB.view_getState s _)) _
  unfold distributeProposerIncome shareOut
  rw [if_neg hamount]
  simp only [Bool.not_true, Bool.false_eq_true, if_false, selfStake, delegatedTotal,
    delegatedTotalShares, load, Program.run_bind, Program.run_op, Op.exec, Program.ok_bind, readStakes,
    hshares, StateDB.getState_fst]

theorem run_distribute_disabled (s : StateDB) (v : Address) {amount : U256} (hamount : amount ≠ 0) :
    (distributeProposerIncome v amount false).run Op.exec s = (pay v amount).run Op.exec s := by
  unfold distributeProposerIncome
  rw [if_neg hamount]
  rfl

theorem frame_readStakes (s : StateDB) (v : Address) :
    s.Frame ∅ {⟨stakingModuleAddr, selfSlot v⟩, ⟨stakingModuleAddr, delTotSlot v⟩} ∅
      (readStakes s v) := by
  have hself : (Op.getState ⟨stakingModuleAddr, selfSlot v⟩).Within ∅
      {⟨stakingModuleAddr, selfSlot v⟩, ⟨stakingModuleAddr, delTotSlot v⟩} ∅ := .inl rfl
  have htot : (Op.getState ⟨stakingModuleAddr, delTotSlot v⟩).Within ∅
      {⟨stakingModuleAddr, selfSlot v⟩, ⟨stakingModuleAddr, delTotSlot v⟩} ∅ := .inr rfl
  exact (Op.frame_of_exec rfl hself).trans (Op.frame_of_exec rfl htot)

/-- `DistributeProposerIncome` reaches the proposer and the module only. -/
theorem frame_distribute (s : StateDB) (v : Address) (amount : U256) (enabled : Bool) :
    ∃ t, (distributeProposerIncome v amount enabled).run Op.exec s = .ok ((), t) ∧
      s.Frame {v, stakingModuleAddr} moduleSlots moduleSlots t := by
  by_cases hamount : amount = 0
  · refine ⟨s, ?_, .refl s⟩
    unfold distributeProposerIncome
    rw [if_pos hamount]
    rfl
  cases enabled with
  | false =>
      obtain ⟨_, t, hrun, hframe⟩ := StateProgram.frame
        (within_pay (A := {v, stakingModuleAddr}) (R := moduleSlots) (W := moduleSlots) (.inl rfl)
          amount) s
      exact ⟨t, (run_distribute_disabled s v hamount).trans hrun, hframe⟩
  | true =>
      obtain ⟨_, t, hrun, hframe⟩ := StateProgram.frame (within_shareOut v amount _ _)
        (readStakes s v)
      refine ⟨t, (run_distribute_enabled s v hamount).trans hrun, .trans ?_ hframe⟩
      refine (frame_readStakes s v).mono (Set.empty_subset _) ?_ (Set.empty_subset _)
      rintro id (rfl | rfl)
      · rfl
      · rfl

/-- What the module receives from a payment of `x`: a standing account is credited, and marked in the
journal unless there was nothing to pay. -/
structure Receives (L L' : Ledger) (x : U256) : Prop where
  suicides : L'.suicides = L.suicides
  account : L'.accountOrNew stakingModuleAddr = { L.accountOrNew stakingModuleAddr with
    balance := (L.accountOrNew stakingModuleAddr).balance + x }
  marked : L'.Marked stakingModuleAddr ↔ L.Marked stakingModuleAddr ∨ x ≠ 0

namespace Receives

variable {L L' L'' : Ledger} {x : U256}

theorem refl (L : Ledger) : Receives L L 0 where
  suicides := rfl
  account := by
    rw [show (0 : U256) = 0#256 from rfl, BitVec.add_zero]
  marked := by simp

/-- After a payment to somebody else. -/
theorem of_nothing (h : Receives L L' 0) (h' : Receives L' L'' x) : Receives L L'' x where
  suicides := h'.suicides.trans h.suicides
  account := by
    rw [h'.account, h.account]
    simp
  marked := by
    rw [h'.marked, h.marked]
    simp

theorem pay_other {a : Address} (ha : a ≠ stakingModuleAddr) (x : U256) :
    Receives L (L.pay a x) 0 := by
  have hframe : Ledger.Frame {a} ∅ L (L.pay a x) := by
    unfold Ledger.pay
    split
    · exact .refl L
    · exact .updateBalance (Set.mem_singleton a) _
  have hmodule : stakingModuleAddr ∉ ({a} : Set Address) := fun h => ha h.symm
  refine ⟨hframe.suicides, ?_, by simpa using hframe.marked _ hmodule⟩
  rw [show (0 : U256) = 0#256 from rfl, BitVec.add_zero, Ledger.accountOrNew, Ledger.account?,
    hframe.suicides, hframe.object _ hmodule]
  rfl

theorem pay_module (hlive : stakingModuleAddr ∉ L.suicides) {x : U256} (hx : x ≠ 0) :
    Receives L (L.pay stakingModuleAddr x) x := by
  unfold Ledger.pay
  rw [if_neg hx]
  refine ⟨rfl, ?_, ?_⟩
  · rw [Ledger.updateBalance, Ledger.accountOrNew_updateAccount hlive, Function.update_self]
  · refine (Journal.mem_dirties_append rfl L.journal _).trans ?_
    exact iff_of_true (.inr rfl) (.inr hx)

theorem setState (hlive : stakingModuleAddr ∉ L.suicides) (slot v : Hash) :
    Receives L (L.setState ⟨stakingModuleAddr, slot⟩ v) 0 := by
  have htouch : (L.touch stakingModuleAddr).toTxScope = L.toTxScope := by
    unfold Ledger.touch
    split <;> rfl
  refine ⟨congrArg TxScope.suicides htouch, ?_, ?_⟩
  · show (L.touch stakingModuleAddr).accountOrNew stakingModuleAddr = _
    rw [Ledger.accountOrNew_touch hlive, show (0 : U256) = 0#256 from rfl, BitVec.add_zero]
  · have hmarked : (L.setState ⟨stakingModuleAddr, slot⟩ v).Marked stakingModuleAddr ↔
        L.Marked stakingModuleAddr := by
      unfold TxScope.Marked
      rw [← htouch]
      rfl
    simpa using hmarked

end Receives

/-- The words of the module after the reward index of `v` grew by `inc`. -/
def bumped (slot : StorageID → Hash) (v : Address) (inc : U256) : StorageID → Hash :=
  if inc = 0 then slot
  else Function.update slot ⟨stakingModuleAddr, rewIdxSlot v⟩
    (slot ⟨stakingModuleAddr, rewIdxSlot v⟩ + inc)

theorem bumped_zero (slot : StorageID → Hash) (v : Address) : bumped slot v 0 = slot :=
  if_pos rfl

theorem run_payDelegators_module {L : Ledger} (hlive : stakingModuleAddr ∉ L.suicides) {v : Address}
    {part : U256} (hpart : part ≠ 0) (hshares : word L (delTotSlot v) ≠ 0) :
    ∃ L', (payDelegators v part).run Op.execL L = .ok ((), L') ∧ Receives L L' part ∧
      L'.slot = bumped L.slot v (part * stakePrecision / word L (delTotSlot v)) := by
  have hpay := Receives.pay_module hlive hpart
  have hlive' : stakingModuleAddr ∉ (L.pay stakingModuleAddr part).suicides :=
    hpay.suicides ▸ hlive
  unfold payDelegators
  simp only [if_neg hpart, delegatedTotalShares, Program.run_bind, run_load, Program.ok_bind,
    if_neg hshares, run_pay]
  unfold increaseRewardIndex bumped
  rw [if_neg (not_or.mpr ⟨hpart, hshares⟩)]
  dsimp only
  split
  · exact ⟨_, rfl, hpay, slot_pay L _ _⟩
  · have hword : word (L.pay stakingModuleAddr part) (rewIdxSlot v) = word L (rewIdxSlot v) :=
      congrFun (slot_pay L _ _) _
    simp only [rewardIndex, Program.run_bind, run_load, Program.ok_bind, run_store, hword]
    refine ⟨_, rfl, ?_, ?_⟩
    · have hstore := Receives.setState hlive' (rewIdxSlot v)
        (word L (rewIdxSlot v) + part * stakePrecision / word L (delTotSlot v))
      exact ⟨hstore.suicides.trans hpay.suicides, by rw [hstore.account, hpay.account]; simp,
        by rw [hstore.marked, hpay.marked]; simp⟩
    · show Function.update (Ledger.touch _ _).slot _ _ = _
      rw [slot_touch, slot_pay]
      rfl

/-- What the module has after the income of a proposer other than itself was paid out. -/
theorem run_distribute_module {L : Ledger} (hlive : stakingModuleAddr ∉ L.suicides) {v : Address}
    (hv : v ≠ stakingModuleAddr) (amount : U256) (enabled : Bool) :
    ∃ L', (distributeProposerIncome v amount enabled).run Op.execL L = .ok ((), L') ∧
      Receives L L' (delegatorPart (wordsOf L) v amount enabled) ∧
      L'.slot = bumped L.slot v (delegatorPart (wordsOf L) v amount enabled * stakePrecision /
        wordsOf L (.delTot v)) := by
  -- the module gets nothing when the proposer is paid only
  have hnothing : delegatorPart (wordsOf L) v amount enabled = 0 → ∀ L',
      (distributeProposerIncome v amount enabled).run Op.execL L = .ok ((), L') →
      Receives L L' 0 → L'.slot = L.slot → ∃ L',
        (distributeProposerIncome v amount enabled).run Op.execL L = .ok ((), L') ∧
          Receives L L' (delegatorPart (wordsOf L) v amount enabled) ∧
          L'.slot = bumped L.slot v (delegatorPart (wordsOf L) v amount enabled * stakePrecision /
            wordsOf L (.delTot v)) := by
    intro hzero L' hrun hrec hslot
    refine ⟨L', hrun, hzero ▸ hrec, ?_⟩
    rw [hzero, show (0 : U256) * stakePrecision / wordsOf L (.delTot v) = 0 by simp, bumped_zero]
    exact hslot
  have hother : ∀ x, Receives L (L.pay v x) 0 := fun x => .pay_other hv x
  by_cases hamount : amount = 0
  · refine hnothing (if_pos (.inl hamount)) L ?_ (.refl L) rfl
    unfold distributeProposerIncome
    rw [if_pos hamount]
    rfl
  cases enabled with
  | false =>
      refine hnothing (if_pos (.inr (.inl rfl))) (L.pay v amount) ?_ (hother amount) (slot_pay L _ _)
      unfold distributeProposerIncome
      rw [if_neg hamount]
      exact run_pay L v amount
  | true =>
      have hrun : (distributeProposerIncome v amount true).run Op.execL L =
          if word L (selfSlot v) + delegatedOf L v = 0 then (pay v amount).run Op.execL L
          else (payDelegators v (amount - validatorPart amount (word L (selfSlot v))
            (delegatedOf L v) ((word L (commSlot v)).setWidth 64))).run Op.execL
              (L.pay v (validatorPart amount (word L (selfSlot v)) (delegatedOf L v)
                ((word L (commSlot v)).setWidth 64))) := by
        unfold distributeProposerIncome
        rw [if_neg hamount]
        simp only [Bool.not_true, Bool.false_eq_true, if_false, Program.run_bind, selfStake, run_load,
          Program.ok_bind, run_delegatedTotal, Program.run_ite, commissionBps, Program.run_pure,
          run_pay]
      by_cases hstake : word L (selfSlot v) + delegatedOf L v = 0
      · refine hnothing (if_pos (.inr (.inr (.inl hstake)))) (L.pay v amount) ?_ (hother amount)
          (slot_pay L _ _)
        rw [hrun, if_pos hstake, run_pay]
      rw [if_neg hstake] at hrun
      generalize hval : validatorPart amount (word L (selfSlot v)) (delegatedOf L v)
        ((word L (commSlot v)).setWidth 64) = valGets at hrun
      have hpaid := hother valGets
      have hword : word (L.pay v valGets) (delTotSlot v) = word L (delTotSlot v) :=
        congrFun (slot_pay L _ _) _
      by_cases hshares : word L (delTotSlot v) = 0
      · -- nobody delegates, and the proposer gets the rest
        have hrest : (payDelegators v (amount - valGets)).run Op.execL (L.pay v valGets) =
            .ok ((), (L.pay v valGets).pay v (amount - valGets)) := by
          unfold payDelegators
          by_cases hzero : amount - valGets = 0
          · rw [if_pos hzero, show (L.pay v valGets).pay v (amount - valGets) = L.pay v valGets from
              if_pos hzero]
            rfl
          · simp only [if_neg hzero, delegatedTotalShares, Program.run_bind, run_load, Program.ok_bind,
              hword, if_pos hshares, run_pay]
        refine hnothing (if_pos (.inr (.inr (.inr hshares)))) _ (hrun.trans hrest)
          (hpaid.of_nothing (.pay_other hv _)) ?_
        rw [slot_pay, slot_pay]
      have hpart : delegatorPart (wordsOf L) v amount true = amount - valGets := by
        rw [← hval]
        refine if_neg ?_
        rintro (h | h | h | h)
        · exact hamount h
        · cases h
        · exact hstake h
        · exact hshares h
      by_cases hzero : amount - valGets = 0
      · refine hnothing (hpart.trans hzero) _ (hrun.trans ?_) hpaid (slot_pay L _ _)
        unfold payDelegators
        rw [if_pos hzero]
        rfl
      · obtain ⟨L', hrest, hrec, hslot⟩ := run_payDelegators_module
          (hpaid.suicides.symm ▸ hlive) hzero (hword.symm ▸ hshares)
        rw [hpart]
        refine ⟨L', hrun.trans hrest, hpaid.of_nothing hrec, ?_⟩
        rw [hslot, hword, slot_pay]
        rfl

end Staking

/-! ## Accounts that a transaction does not touch -/

namespace NativeExecutor

/-- The accounts that a transaction reports as touched. -/
def touchedBy (e : NativeExecutor) (tx : DewTx) (extra : Option (Address × U256)) : Set Address :=
  {a | a ∈ (e.successResult tx extra).touched}

/-- An applied transaction on the caches: it writes accounts it reports, pays out the fee, writes the
nonce, and ends with `Finalise`. -/
theorem applyDewTx_steps {e : NativeExecutor} {tx : DewTx} {s : StateDB}
    {extra : Option (Address × U256)} (h : e.Accepts tx s extra) :
    ∃ s₁ s₂ t : StateDB, s.Frame (e.touchedBy tx extra) ∅ ∅ s₁ ∧
      (Staking.distributeProposerIncome e.feeSink ((effectiveFee tx).setWidth 256)
        e.stakingEnabled).run Op.exec s₁ = .ok ((), s₂) ∧
      s₂.Frame (e.touchedBy tx extra) ∅ ∅ t ∧
      e.applyDewTx (some tx) s = .ok (.ok (e.successResult tx extra), t.finalise true) := by
  have hsender : tx.sender ∈ e.touchedBy tx extra := List.mem_cons_self
  have hreceiver : tx.receiver ∈ e.touchedBy tx extra := List.mem_cons_of_mem _ List.mem_cons_self
  have hextra : (payExtra extra).Calls (Op.Within (e.touchedBy tx extra) ∅ ∅) := by
    rcases extra with _ | ⟨a, x⟩
    · trivial
    · refine Staking.within_pay ?_ x
      simp [touchedBy, successResult]
  -- the checks read the sender's account
  have hnonce : (Op.getNonce tx.sender).exec s = .ok (tx.nonce, (s.getNonce tx.sender).2) := by
    rw [← h.nonce, ← StateDB.getNonce_fst]
    rfl
  generalize (s.getNonce tx.sender).2 = s₀ at hnonce
  have hframe₀ : s.Frame (e.touchedBy tx extra) ∅ ∅ s₀ := Op.frame_of_exec hnonce trivial
  have hview : s₀.view = s.view := by
    have := Op.exec_view (.getNonce tx.sender) s
    rw [hnonce] at this
    exact congrArg Prod.snd (Except.ok.inj this)
  have hbalance : (Op.getBalance tx.sender).exec s₀ =
      .ok (s.balanceOf tx.sender, (s₀.getBalance tx.sender).2) := by
    rw [show s.balanceOf tx.sender = s₀.balanceOf tx.sender from
      (congrFun (congrArg Ledger.balance hview) _).symm, ← StateDB.getBalance_fst]
    rfl
  generalize (s₀.getBalance tx.sender).2 = u₀ at hbalance
  have hframe₁ : s₀.Frame (e.touchedBy tx extra) ∅ ∅ u₀ := Op.frame_of_exec hbalance trivial
  -- the debit and the credits
  obtain ⟨_, u₁, hsub, hframe₂⟩ := Op.frame_exec (A := e.touchedBy tx extra) (R := ∅) (W := ∅)
    (.subBalance tx.sender (need tx extra)) hsender u₀
  obtain ⟨_, u₂, hpay, hframe₃⟩ := StateProgram.frame
    (Staking.within_pay (R := ∅) (W := ∅) hreceiver (tx.amount.getD 0)) u₁
  obtain ⟨_, s₁, hcredit, hframe₄⟩ := StateProgram.frame hextra u₂
  obtain ⟨s₂, hincome, -⟩ := Staking.frame_distribute s₁ e.feeSink ((effectiveFee tx).setWidth 256)
    e.stakingEnabled
  obtain ⟨_, t, hset, hframe₅⟩ := Op.frame_exec (A := e.touchedBy tx extra) (R := ∅) (W := ∅)
    (.setNonceJournaled tx.sender (tx.nonce + 1)) hsender s₂
  refine ⟨s₁, s₂, t, (((hframe₀.trans hframe₁).trans hframe₂).trans hframe₃).trans hframe₄, hincome,
    hframe₅, ?_⟩
  have hmutate : (e.mutate tx extra).run Op.exec u₀ = .ok ((), t) := by
    unfold mutate
    simp only [Program.run_bind, Program.run_op, hsub, Program.ok_bind, hpay, hcredit,
      if_pos (effectiveFee_ne_zero tx), hincome, hset]
  have hexecute : (e.execute tx).run Op.exec s = .ok (.ok (e.successResult tx extra), t) := by
    unfold execute
    rw [if_neg (not_not.mpr h.version), if_neg (BitVec.not_lt.mpr h.fee), Program.run_bind,
      Program.run_op, hnonce, Program.ok_bind]
    simp only [ne_eq, not_true_eq_false, if_false, h.module]
    rw [Program.run_bind, Program.run_op, hbalance, Program.ok_bind]
    simp only
    rw [if_neg (BitVec.not_lt.mpr h.covered), Program.run_bind, hmutate, Program.ok_bind]
    rfl
  simp [applyDewTx, hexecute, successResult]

/-- A payment to the module that cannot be seen afterwards: it is too small to move the reward index,
and it wraps the module's balance around to zero, so that `Finalise` drops the account, whose row
shows the old balance. -/
structure Hidden (s : StateDB) (v : Address) (part : U256) : Prop where
  index : part * stakePrecision / Staking.wordsOf s.view (.delTot v) = 0
  balance : s.balanceOf stakingModuleAddr + part = 0
  nonce : s.nonceOf stakingModuleAddr = 0
  code : s.codeHashOf stakingModuleAddr = emptyCodeHash
  row : s.RowReads stakingModuleAddr (s.balanceOf stakingModuleAddr)

section Module

variable {T : Set Address} {v : Address} {amount : U256} {s s₁ s₂ t : StateDB}

/-- The module when it was destroyed before: what is read of it is wiped by `Finalise`. -/
theorem sameAt_module_of_destroyed (hv : v ∈ T) (hmodule : stakingModuleAddr ∉ T)
    (hamount : amount ≠ 0) {enabled : Bool} (hdead : stakingModuleAddr ∈ s.suicides)
    (h₁ : s.Frame T ∅ ∅ s₁)
    (hrun : (Staking.distributeProposerIncome v amount enabled).run Op.exec s₁ = .ok ((), s₂))
    (h₂ : s₂.Frame T ∅ ∅ t) :
    s.SameAt (t.finalise true) stakingModuleAddr ↔
      s.Undisturbed stakingModuleAddr ∧ (enabled = true →
        s.slotOf ⟨stakingModuleAddr, Staking.selfSlot v⟩ = 0 ∧
        s.slotOf ⟨stakingModuleAddr, Staking.delTotSlot v⟩ = 0) := by
  have hpay : ∀ {u}, (Staking.pay v amount).run Op.exec u = .ok ((), s₂) → u.Frame T ∅ ∅ s₂ := by
    intro u h
    obtain ⟨_, u', hrun', hframe⟩ := StateProgram.frame
      (Staking.within_pay (A := T) (R := ∅) (W := ∅) hv amount) u
    obtain ⟨-, rfl⟩ := Prod.mk.inj (Except.ok.inj (hrun'.symm.trans h))
    exact hframe
  cases enabled with
  | false =>
      rw [Staking.run_distribute_disabled s₁ v hamount] at hrun
      rw [((h₁.trans (hpay hrun)).trans h₂).sameAt_finalise_iff hmodule (fun _ h => h.elim)
        (fun _ h => h.elim)]
      simp
  | true =>
      rw [Staking.run_distribute_enabled s₁ v hamount] at hrun
      have hslot : ∀ id, s₁.slotOf id = s.slotOf id := fun id => h₁.ledger.slot id fun h => h.elim
      constructor
      · intro hsame
        have hshare : (Staking.readStakes s₁ v).Frame {v, stakingModuleAddr} Staking.moduleSlots
            Staking.moduleSlots s₂ := by
          obtain ⟨_, u, hrun', hframe⟩ := StateProgram.frame (Staking.within_shareOut v amount
            (s₁.slotOf ⟨stakingModuleAddr, Staking.selfSlot v⟩)
            (s₁.slotOf ⟨stakingModuleAddr, Staking.delTotSlot v⟩)) (Staking.readStakes s₁ v)
          obtain ⟨-, rfl⟩ := Prod.mk.inj (Except.ok.inj (hrun'.symm.trans hrun))
          exact hframe
        have hread := Staking.frame_readStakes s₁ v
        have hsuicides : t.suicides = s.suicides := h₂.ledger.suicides.trans
          (hshare.ledger.suicides.trans (hread.ledger.suicides.trans h₁.ledger.suicides))
        have hcode : t.codeOf = s.codeOf := h₂.ledger.code.trans
          (hshare.ledger.code.trans (hread.ledger.code.trans h₁.ledger.code))
        have hdb : t.db = s.db := h₂.db.trans (hshare.db.trans (hread.db.trans h₁.db))
        have hcached : ∀ id, (Staking.readStakes s₁ v).Cached id → t.Cached id :=
          fun id h => h₂.cached id (hshare.cached id h)
        obtain ⟨hrow, hzero⟩ := StateDB.sameAt_finalise_of_destroyed hdead hsuicides hcode
          (by rw [hdb]) hsame
        -- a stake that is not cached after it was read has no row
        have hself : s.slotOf ⟨stakingModuleAddr, Staking.selfSlot v⟩ = 0 := by
          by_cases hc : (Staking.readStakes s₁ v).Cached ⟨stakingModuleAddr, Staking.selfSlot v⟩
          · exact hzero _ (hcached _ hc)
          · rw [← hslot]
            refine StateDB.slotOf_of_not_cached fun h => hc ?_
            exact (StateDB.cached_getState _ _ _).mpr (.inl h)
        have htot : s.slotOf ⟨stakingModuleAddr, Staking.delTotSlot v⟩ = 0 := by
          by_cases hc : (Staking.readStakes s₁ v).Cached ⟨stakingModuleAddr, Staking.delTotSlot v⟩
          · exact hzero _ (hcached _ hc)
          · have hnext := StateDB.slotOf_of_not_cached hc
            rw [← hslot, ← hnext]
            exact (congrFun (congrArg Ledger.slot (StateDB.view_getState s₁ _)) _).symm
        refine ⟨⟨fun _ => hrow, fun _ k hk => hzero k (hcached _ ?_)⟩, fun _ => ⟨hself, htot⟩⟩
        exact hread.cached _ (h₁.cached _ hk)
      · rintro ⟨hquiet, hstakes⟩
        obtain ⟨hself, htot⟩ := hstakes rfl
        have hshare : Staking.shareOut v amount (s₁.slotOf ⟨stakingModuleAddr, Staking.selfSlot v⟩)
            (s₁.slotOf ⟨stakingModuleAddr, Staking.delTotSlot v⟩) = Staking.pay v amount := by
          rw [hslot, hslot, hself, htot]
          rfl
        rw [hshare] at hrun
        have hread := (Staking.frame_readStakes s₁ v).mono (Set.empty_subset T) le_rfl le_rfl
        have hall := ((h₁.mono le_rfl (Set.empty_subset _) le_rfl).trans hread).trans
          (((hpay hrun).trans h₂).mono le_rfl (Set.empty_subset _) le_rfl)
        refine (hall.sameAt_finalise_iff hmodule ?_ fun _ h => h.elim).mpr hquiet
        rintro k (h | h)
        · rw [h]
          exact hself
        · rw [h]
          exact htot

/-- A payment to the delegators can be seen of the module, unless it is hidden. -/
theorem sameAt_iff_hidden {part : U256} (hpart : part ≠ 0) (hlive : stakingModuleAddr ∉ s.suicides)
    (hsuicides : t.suicides = s.suicides) (hcode : t.codeOf = s.codeOf)
    (hrow : t.db.account? stakingModuleAddr = s.db.account? stakingModuleAddr)
    (haccount : t.view.accountOrNew stakingModuleAddr =
      { s.view.accountOrNew stakingModuleAddr with
        balance := (s.view.accountOrNew stakingModuleAddr).balance + part })
    (hmarked : t.Marked stakingModuleAddr)
    (hslot : ∀ k, t.slotOf ⟨stakingModuleAddr, k⟩ = Staking.bumped s.view.slot v
      (part * stakePrecision / Staking.wordsOf s.view (.delTot v)) ⟨stakingModuleAddr, k⟩) :
    s.SameAt (t.finalise true) stakingModuleAddr ↔ Hidden s v part := by
  have hlive' : stakingModuleAddr ∉ t.suicides := hsuicides.symm ▸ hlive
  have hbalance : s.balanceOf stakingModuleAddr =
      (s.view.accountOrNew stakingModuleAddr).balance :=
    Ledger.balance_eq_accountOrNew s.view _
  have hnonce : s.nonceOf stakingModuleAddr = (s.view.accountOrNew stakingModuleAddr).nonce :=
    Ledger.nonce_eq_accountOrNew s.view _
  have hhash : s.codeHashOf stakingModuleAddr =
      (s.view.accountOrNew stakingModuleAddr).codeHash :=
    StateDB.codeHash_eq_accountOrNew s.view _
  have hdropped : t.Dropped stakingModuleAddr ↔ s.nonceOf stakingModuleAddr = 0 ∧
      s.balanceOf stakingModuleAddr + part = 0 ∧
      s.codeHashOf stakingModuleAddr = emptyCodeHash := by
    have hempty : t.emptyAt stakingModuleAddr =
        (t.view.accountOrNew stakingModuleAddr).isEmpty :=
      Ledger.emptyAt_eq_accountOrNew t.view _
    refine (or_iff_right hlive').trans ((and_iff_right hmarked).trans ?_)
    rw [hempty, haccount, hbalance, hnonce, hhash]
    simp [Account.isEmpty, and_assoc]
  have hseen : ∀ acc, s.seen (some acc) = (acc.balance, acc.nonce,
      if acc.codeHash = emptyCodeHash then [] else s.codeOf acc.codeHash) := fun _ => rfl
  have hbefore : s.seen (s.account? stakingModuleAddr) =
      s.seen (some (s.view.accountOrNew stakingModuleAddr)) := StateDB.seen_eq s _
  constructor
  · intro hsame
    obtain ⟨hafter, hstorage⟩ := StateDB.sameAt_iff.mp hsame
    have hindex : part * stakePrecision / Staking.wordsOf s.view (.delTot v) = 0 := by
      by_contra hne
      have hword := hstorage (Staking.rewIdxSlot v)
      rw [StateDB.slotOf_finalise, if_neg fun h => hlive' h.1, hslot, Staking.bumped, if_neg hne,
        Function.update_self] at hword
      have hgrown : s.slotOf ⟨stakingModuleAddr, Staking.rewIdxSlot v⟩ +
          part * stakePrecision / Staking.wordsOf s.view (.delTot v) =
            s.slotOf ⟨stakingModuleAddr, Staking.rewIdxSlot v⟩ := hword
      exact hne (by simpa using hgrown)
    rw [StateDB.seen_finalise, StateDB.seen_congr hcode, hrow, hbefore] at hafter
    by_cases hdrop : t.Dropped stakingModuleAddr
    · obtain ⟨hn, hb, hc⟩ := hdropped.mp hdrop
      refine ⟨hindex, hb, hn, hc, ?_⟩
      rw [if_pos hdrop, hseen, ← hbalance, ← hnonce, ← hhash, hn, if_pos hc] at hafter
      exact hafter
    · -- the account stays, with another balance
      have hobject : t.object? stakingModuleAddr = t.account? stakingModuleAddr :=
        (if_neg hlive').symm
      rw [if_neg hdrop, hobject, StateDB.seen_eq s (t.account? _),
        show (t.account? stakingModuleAddr).getD newAccount = _ from haccount] at hafter
      have hsum := congrArg Prod.fst hafter
      exact absurd (by simpa [hseen] using hsum) hpart
  · rintro ⟨hindex, hb, hn, hc, hreads⟩
    refine StateDB.sameAt_iff.mpr ⟨?_, fun k => ?_⟩
    · rw [StateDB.seen_finalise, StateDB.seen_congr hcode, hrow,
        if_pos (hdropped.mpr ⟨hn, hb, hc⟩), hreads, hbefore, hseen, ← hbalance, ← hnonce, ← hhash, hn,
        if_pos hc]
    · rw [StateDB.slotOf_finalise, if_neg fun h => hlive' h.1, hslot, hindex, Staking.bumped_zero]
      rfl

/-- The module when it stands: it shows the payment to the delegators. -/
theorem sameAt_module_of_live (hv : v ∈ T) (hmodule : stakingModuleAddr ∉ T) {enabled : Bool}
    (hlive : stakingModuleAddr ∉ s.suicides) (h₁ : s.Frame T ∅ ∅ s₁)
    (hrun : (Staking.distributeProposerIncome v amount enabled).run Op.exec s₁ = .ok ((), s₂))
    (h₂ : s₂.Frame T ∅ ∅ t) {part : U256}
    (hpart : part = Staking.delegatorPart (Staking.wordsOf s.view) v amount enabled) :
    s.SameAt (t.finalise true) stakingModuleAddr ↔
      (part = 0 → s.Undisturbed stakingModuleAddr) ∧ (part ≠ 0 → Hidden s v part) := by
  have hv' : v ≠ stakingModuleAddr := ne_of_mem_of_not_mem hv hmodule
  have hslot₁ : s₁.view.slot = s.view.slot := funext fun id => h₁.ledger.slot id fun h => h.elim
  have hwords : Staking.wordsOf s₁.view = Staking.wordsOf s.view := by
    unfold Staking.wordsOf
    rw [hslot₁]
  obtain ⟨L, hL, hrec, hbump⟩ := Staking.run_distribute_module (L := s₁.view)
    (h₁.ledger.suicides.symm ▸ hlive) hv' amount enabled
  have hview : L = s₂.view := by
    rw [← StateProgram.run_view, hrun] at hL
    exact (congrArg Prod.snd (Except.ok.inj hL)).symm
  rw [hview, hwords, ← hpart] at hrec hbump
  obtain ⟨u, hu, hframe⟩ := Staking.frame_distribute s₁ v amount enabled
  rw [show u = s₂ from congrArg Prod.snd (Except.ok.inj (hu.symm.trans hrun))] at hframe
  have hsuicides : t.suicides = s.suicides :=
    h₂.ledger.suicides.trans (hrec.suicides.trans h₁.ledger.suicides)
  have hcode : t.codeOf = s.codeOf :=
    h₂.ledger.code.trans (hframe.ledger.code.trans h₁.ledger.code)
  have hdb : t.db = s.db := h₂.db.trans (hframe.db.trans h₁.db)
  have haccount : t.view.accountOrNew stakingModuleAddr =
      { s.view.accountOrNew stakingModuleAddr with
        balance := (s.view.accountOrNew stakingModuleAddr).balance + part } := by
    rw [h₂.accountOrNew hmodule, hrec.account, h₁.accountOrNew hmodule]
  have hmarked : t.Marked stakingModuleAddr ↔ s.Marked stakingModuleAddr ∨ part ≠ 0 :=
    (h₂.ledger.marked _ hmodule).trans
      (hrec.marked.trans (or_congr (h₁.ledger.marked _ hmodule) Iff.rfl))
  have hslot : ∀ k, t.slotOf ⟨stakingModuleAddr, k⟩ = Staking.bumped s.view.slot v
      (part * stakePrecision / Staking.wordsOf s.view (.delTot v)) ⟨stakingModuleAddr, k⟩ := by
    intro k
    rw [show t.slotOf ⟨stakingModuleAddr, k⟩ = s₂.view.slot ⟨stakingModuleAddr, k⟩ from
      h₂.ledger.slot _ fun h => h.elim, hbump, hslot₁]
  by_cases hzero : part = 0
  · have hnothing : t.view.accountOrNew stakingModuleAddr =
        s.view.accountOrNew stakingModuleAddr := by
      rw [haccount, hzero, show (0 : U256) = 0#256 from rfl, BitVec.add_zero]
    have hkept : ∀ k, t.slotOf ⟨stakingModuleAddr, k⟩ = s.slotOf ⟨stakingModuleAddr, k⟩ := by
      intro k
      rw [hslot, hzero, show (0 : U256) * stakePrecision /
        Staking.wordsOf s.view (.delTot v) = 0 by simp, Staking.bumped_zero]
      rfl
    rw [StateDB.sameAt_finalise_iff hsuicides hcode (by rw [hdb]) hnothing
      (hmarked.trans (or_iff_left fun h => h hzero)) hkept]
    constructor
    · rintro ⟨hrow, -⟩
      exact ⟨fun _ => ⟨hrow, fun h => absurd h hlive⟩, fun h => absurd hzero h⟩
    · rintro ⟨h, -⟩
      exact ⟨(h hzero).row, fun hdead => absurd hdead hlive⟩
  · rw [sameAt_iff_hidden hzero hlive hsuicides hcode (by rw [hdb]) haccount
      (hmarked.mpr (.inr hzero)) hslot]
    exact ⟨fun h => ⟨fun hz => absurd hz hzero, fun _ => h⟩, fun h => h.2 hzero⟩

end Module

/-! ## Fail-closed access control -/

/-- What the access control of `ApplyDewTx` promises: an error and a failed result change nothing;
after a success, an account that changed was allowed to the transaction and is reported. -/
def FailClosed (e : NativeExecutor) (tx : DewTx) (s : StateDB) : Prop :=
  ∃ r t, e.applyDewTx (some tx) s = .ok (r, t) ∧
    (¬Succeeded r → ∀ a, s.SameAt t a ∧ (t.exist a).1 = (s.exist a).1) ∧
    ∀ result, r = .ok result → result.failed = false → ∀ a, ¬s.SameAt t a →
      (a = tx.sender ∨ a = tx.receiver ∨ a ∈ tx.accessList ∨ a = e.feeSink) ∧ a ∈ result.touched

/-- What the staking module must be like if it is not touched by a transaction that is applied. -/
structure ModuleUndisturbed (e : NativeExecutor) (tx : DewTx) (s : StateDB) : Prop where
  destroyed : stakingModuleAddr ∈ s.suicides → s.Undisturbed stakingModuleAddr ∧
    (e.stakingEnabled = true → s.slotOf ⟨stakingModuleAddr, Staking.selfSlot e.feeSink⟩ = 0 ∧
      s.slotOf ⟨stakingModuleAddr, Staking.delTotSlot e.feeSink⟩ = 0)
  unpaid : stakingModuleAddr ∉ s.suicides → Staking.delegatorPart (Staking.wordsOf s.view) e.feeSink
    ((effectiveFee tx).setWidth 256) e.stakingEnabled = 0 → s.Undisturbed stakingModuleAddr
  paid : stakingModuleAddr ∉ s.suicides → Staking.delegatorPart (Staking.wordsOf s.view) e.feeSink
    ((effectiveFee tx).setWidth 256) e.stakingEnabled ≠ 0 → Hidden s e.feeSink
      (Staking.delegatorPart (Staking.wordsOf s.view) e.feeSink ((effectiveFee tx).setWidth 256)
        e.stakingEnabled)

/-- The accounts that an applied transaction does not touch are left alone. -/
structure Contained (e : NativeExecutor) (tx : DewTx) (extra : Option (Address × U256))
    (s : StateDB) : Prop where
  others : ∀ a, a ∉ e.touchedBy tx extra → a ≠ stakingModuleAddr → s.Undisturbed a
  module : stakingModuleAddr ∉ e.touchedBy tx extra → e.ModuleUndisturbed tx s

/-- The touched accounts are allowed. -/
theorem allowed_of_touched {e : NativeExecutor} {tx : DewTx} {extra : Option (Address × U256)}
    (h : e.module tx = .ok extra) {a : Address} (ha : a ∈ e.touchedBy tx extra) :
    a = tx.sender ∨ a = tx.receiver ∨ a ∈ tx.accessList ∨ a = e.feeSink := by
  have hparse : e.parsePayload tx = .ok extra := by
    unfold module at h
    cases hp : e.parsePayload tx with
    | error err => simp [hp] at h
    | ok extra' => simpa [hp, require, allowed] using h
  have hcredit : ∀ b x, extra = some (b, x) → e.allowed tx b = true := by
    rintro b x rfl
    unfold parsePayload at hparse
    split at hparse
    · cases hparse
    · split at hparse
      · split at hparse
        · cases hparse
        · rename_i tag body _ _ _
          cases hallowed : e.allowed tx (addressOfBytes (body.take 20)) with
          | false => simp [require, hallowed] at hparse
          | true =>
              obtain ⟨rfl, -⟩ : addressOfBytes (body.take 20) = b ∧ _ := by
                simpa [require, hallowed] using hparse
              exact hallowed
      · cases hparse
  have hallowed : ∀ b, e.allowed tx b = true →
      b = tx.sender ∨ b = tx.receiver ∨ b ∈ tx.accessList ∨ b = e.feeSink := by
    intro b hb
    simpa [allowed, or_assoc] using hb
  have hmem : a ∈ [tx.sender, tx.receiver, e.feeSink] ++ (extra.map Prod.fst).toList := ha
  simp only [List.mem_append, List.mem_cons, List.not_mem_nil, or_false, Option.mem_toList] at hmem
  rcases hmem with (rfl | rfl | rfl) | hextra
  · exact .inl rfl
  · exact .inr (.inl rfl)
  · exact .inr (.inr (.inr rfl))
  · obtain ⟨⟨b, x⟩, hsome, rfl⟩ := Option.map_eq_some_iff.mp hextra
    exact hallowed b (hcredit b x hsome)

theorem sameAt_untouched_iff {e : NativeExecutor} {tx : DewTx} {extra : Option (Address × U256)}
    {s s₁ s₂ t : StateDB} (h₁ : s.Frame (e.touchedBy tx extra) ∅ ∅ s₁)
    (hrun : (Staking.distributeProposerIncome e.feeSink ((effectiveFee tx).setWidth 256)
      e.stakingEnabled).run Op.exec s₁ = .ok ((), s₂))
    (h₂ : s₂.Frame (e.touchedBy tx extra) ∅ ∅ t) :
    (∀ a ∉ e.touchedBy tx extra, s.SameAt (t.finalise true) a) ↔ e.Contained tx extra s := by
  have hsink : e.feeSink ∈ e.touchedBy tx extra := by simp [touchedBy, successResult]
  have hfee : (effectiveFee tx).setWidth 256 ≠ 0 := by
    intro h
    have hnat := congrArg BitVec.toNat h
    rw [BitVec.toNat_setWidth_of_le (by decide)] at hnat
    exact effectiveFee_ne_zero tx (BitVec.eq_of_toNat_eq (by simpa using hnat))
  obtain ⟨u, hu, hframe⟩ := Staking.frame_distribute s₁ e.feeSink ((effectiveFee tx).setWidth 256)
    e.stakingEnabled
  rw [show u = s₂ from congrArg Prod.snd (Except.ok.inj (hu.symm.trans hrun))] at hframe
  have hall : s.Frame (insert stakingModuleAddr (e.touchedBy tx extra)) Staking.moduleSlots
      Staking.moduleSlots t := by
    have hsub : {e.feeSink, stakingModuleAddr} ⊆ insert stakingModuleAddr (e.touchedBy tx extra) := by
      rintro a (rfl | rfl)
      · exact .inr hsink
      · exact .inl rfl
    have hinsert := Set.subset_insert stakingModuleAddr (e.touchedBy tx extra)
    have hempty := Set.empty_subset Staking.moduleSlots
    exact ((h₁.mono hinsert hempty hempty).trans (hframe.mono hsub le_rfl le_rfl)).trans
      (h₂.mono hinsert hempty hempty)
  have hothers : ∀ a, a ∉ e.touchedBy tx extra → a ≠ stakingModuleAddr →
      (s.SameAt (t.finalise true) a ↔ s.Undisturbed a) := by
    intro a ha hne
    exact hall.sameAt_finalise_iff (fun h => h.elim hne ha) (fun k hk => absurd hk hne)
      (fun k hk => hne hk)
  have hmodule : stakingModuleAddr ∉ e.touchedBy tx extra →
      (s.SameAt (t.finalise true) stakingModuleAddr ↔ e.ModuleUndisturbed tx s) := by
    intro hm
    by_cases hdead : stakingModuleAddr ∈ s.suicides
    · rw [sameAt_module_of_destroyed hsink hm hfee hdead h₁ hrun h₂]
      exact ⟨fun h => ⟨fun _ => h, fun hlive => absurd hdead hlive, fun hlive => absurd hdead hlive⟩,
        fun h => h.destroyed hdead⟩
    · rw [sameAt_module_of_live hsink hm hdead h₁ hrun h₂ rfl]
      exact ⟨fun h => ⟨fun h' => absurd h' hdead, fun _ => h.1, fun _ => h.2⟩,
        fun h => ⟨h.unpaid hdead, h.paid hdead⟩⟩
  constructor
  · intro h
    exact ⟨fun a ha hne => (hothers a ha hne).mp (h a ha), fun hm => (hmodule hm).mp (h _ hm)⟩
  · intro h a ha
    by_cases hne : a = stakingModuleAddr
    · rw [hne] at ha ⊢
      exact (hmodule ha).mpr (h.module ha)
    · exact (hothers a ha hne).mpr (h.others a ha hne)

theorem exist_fst (s : StateDB) (a : Address) : (s.exist a).1 = s.view.exist a :=
  congrArg Prod.fst (Except.ok.inj (Op.exec_view (.exist a) s))

/-- A transaction that is accepted and fails closed stays within what it lists. -/
theorem contained_of_failClosed {e : NativeExecutor} {tx : DewTx} {s : StateDB}
    {extra : Option (Address × U256)} (h : e.FailClosed tx s) (haccept : e.Accepts tx s extra) :
    e.Contained tx extra s := by
  obtain ⟨s₁, s₂, t, h₁, hincome, h₂, hrun⟩ := applyDewTx_steps haccept
  obtain ⟨r, t', hrun', -, hclosed⟩ := h
  rw [hrun] at hrun'
  obtain ⟨rfl, rfl⟩ := Prod.mk.inj (Except.ok.inj hrun')
  refine (sameAt_untouched_iff h₁ hincome h₂).mp fun a ha => not_not.mp fun hchanged => ha ?_
  exact (hclosed _ rfl rfl a hchanged).2

/-- The exact condition under which `ApplyDewTx` is fail-closed, in any state. -/
theorem applyDewTx_failClosed_iff (e : NativeExecutor) (tx : DewTx) (s : StateDB) :
    e.FailClosed tx s ↔ ∀ extra, e.Accepts tx s extra → e.Contained tx extra s := by
  by_cases haccepted : ∃ extra, e.Accepts tx s extra
  swap
  · -- a rejected transaction changes nothing
    obtain ⟨r, t, hrun, hfail, hview⟩ := applyDewTx_of_rejected (not_exists.mp haccepted)
    refine iff_of_true ⟨r, t, hrun, fun _ a => ⟨?_, ?_⟩, fun result hr hok => ?_⟩ ?_
    · exact ⟨congrFun (congrArg Ledger.balance hview) a, congrFun (congrArg Ledger.nonce hview) a,
        congrFun (congrArg Ledger.codeBytes hview) a,
        fun k => congrFun (congrArg Ledger.slot hview) _⟩
    · rw [exist_fst, hview, exist_fst]
    · exact absurd ⟨result, hr, hok⟩ hfail
    · exact fun extra h => absurd ⟨extra, h⟩ haccepted
  obtain ⟨extra, haccept⟩ := haccepted
  obtain ⟨s₁, s₂, t, h₁, hincome, h₂, hrun⟩ := applyDewTx_steps haccept
  have hcontained := sameAt_untouched_iff h₁ hincome h₂
  constructor
  · intro h extra' haccept'
    exact contained_of_failClosed h haccept'
  · intro h
    refine ⟨_, _, hrun, fun hfail => absurd ⟨_, rfl, rfl⟩ hfail, ?_⟩
    rintro result hr - a hchanged
    obtain rfl := Except.ok.inj hr
    have htouched : a ∈ e.touchedBy tx extra :=
      not_not.mp fun ha => hchanged (hcontained.mpr (h extra haccept) a ha)
    exact ⟨allowed_of_touched haccept.module htouched, htouched⟩

/-- The account `0x01` holds `10 ^ 18`, and validator `9` has one share of delegations. -/
def delegatedState : StateDB :=
  { tableDB stakingModuleAddr Staking.Key.slot [(.delTot 9, 1)] with
    accounts := GoMap.set ∅ 0x01 ⟨0, 1000000000000000000, emptyCodeHash⟩ }

theorem wordsOf_delegatedState {k : Staking.Key} (hk : k ∈ Staking.soloKeys) :
    Staking.wordsOf delegatedState.view k = Staking.ofTable [(.delTot 9, 1)] k :=
  slot_tableDB Staking.injOn_soloKeys (K := {k | k ∈ Staking.soloKeys}) (by decide) hk

/-- With the fee sink `9` and staking enabled, the fee of a plain transfer goes to the staking module,
which is neither listed by the transaction nor reported as touched. -/
theorem transferFive_not_failClosed :
    Staking.delegatorPart (Staking.wordsOf delegatedState.view) 9 2100000000000 true =
        2100000000000 ∧
      stakingModuleAddr ∉ (⟨9, true⟩ : NativeExecutor).touchedBy transferFive none ∧
      ¬(⟨9, true⟩ : NativeExecutor).FailClosed transferFive delegatedState := by
  have hself := wordsOf_delegatedState (k := .self 9) (by decide)
  have htot := wordsOf_delegatedState (k := .delTot 9) (by decide)
  have hrate := wordsOf_delegatedState (k := .delRate 9) (by decide)
  have hcomm := wordsOf_delegatedState (k := .comm 9) (by decide)
  have hpart : Staking.delegatorPart (Staking.wordsOf delegatedState.view) 9 2100000000000 true =
      2100000000000 := by
    simp only [Staking.delegatorPart, Staking.weiOf, Staking.rate, hself, htot, hrate, hcomm]
    decide
  have hmodule : stakingModuleAddr ∉ (⟨9, true⟩ : NativeExecutor).touchedBy transferFive none := by
    show stakingModuleAddr ∉ [(0x01 : Address), 0x02, 9]
    decide
  have haccepts : (⟨9, true⟩ : NativeExecutor).Accepts transferFive delegatedState none :=
    ⟨rfl, by decide, by decide, by decide, by decide⟩
  refine ⟨hpart, hmodule, fun h => ?_⟩
  have hcontained := contained_of_failClosed h haccepts
  have hfee : (effectiveFee transferFive).setWidth 256 = (2100000000000 : U256) := by decide
  have hhidden := (hcontained.module hmodule).paid List.not_mem_nil
  rw [hfee] at hhidden
  have hindex := (hhidden (by rw [hpart]; decide)).index
  rw [hpart, htot] at hindex
  exact absurd hindex (by decide)

end NativeExecutor

end Dew
