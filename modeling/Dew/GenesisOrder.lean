/-
# The order of the genesis loops

Reading an entry of the genesis file gives a list of assignments to the fields of an account, and a
run of `ApplyAlloc` makes all of them, entry by entry, in the order of its loops (`applyAlloc_eq`).
What the state shows after the run is a fold over three functions, for accounts, slots and code
(`allocation_run`). Assignments that agree commute, so if any two assignments of the file agree, then all runs end in
the same root and show the same. If two do not, each of them has an order in which it comes last, and
the two runs show different values (`commit_deterministic_iff`).
-/
import Dew.GenesisFile
import Dew.Loops

namespace Dew

namespace GenesisFile

/-! ## Assignments -/

/-- What an entry of the file sets. -/
inductive Assignment where
  | balance (a : Address) (v : U256)
  | nonce (a : Address) (v : U64)
  | code (a : Address) (c : Bytes)
  | slot (id : StorageID) (v : Hash)
deriving DecidableEq, Repr

def Assignment.apply (s : StateDB) : Assignment → StateDB
  | .balance a v => s.setBalance a v
  | .nonce a v => s.setNonce a v
  | .code a c => s.setCode a c
  | .slot id v => s.setState id v

/-- The assignments of an entry but for its storage. -/
def readHead (e : String × GenesisAccount) : Except CommitError (Address × List Assignment) := do
  let addr ← (hexToAddress e.1).mapError (.address e.1)
  let bal ← readBalance e.1 e.2.balance
  let nonce := if e.2.nonce ≠ 0 then [.nonce addr e.2.nonce] else []
  if e.2.code = "" then .ok (addr, .balance addr bal :: nonce)
  else do
    let code ← (parseHexBytes e.2.code).mapError (.code e.1)
    .ok (addr, .balance addr bal :: nonce ++ [.code addr code])

def readSlot (addrStr : String) (addr : Address) (e : String × String) :
    Except CommitError Assignment := do
  let slot ← (hexToHash e.1).mapError (.storageKey addrStr)
  let val ← (hexToHash e.2).mapError (.storageVal addrStr)
  .ok (.slot ⟨addr, slot⟩ val)

/-- The assignments of an entry, with its storage in the given order. -/
def read (slots : List (String × String)) (e : String × GenesisAccount) :
    Except CommitError (List Assignment) := do
  let (addr, ws) ← readHead e
  let ss ← slots.mapM (readSlot e.1 addr)
  .ok (ws ++ ss)

/-- The assignments of the file in the order of a run. -/
def assignments (g : GenesisFile) (o : g.Order) : Except CommitError (List Assignment) :=
  (o.alloc.mapM fun e => read (o.storage e.1) e).map List.flatten

theorem applySlot_eq (addrStr : String) (addr : Address) (s : StateDB) (e : String × String) :
    applySlot addrStr addr s e = (readSlot addrStr addr e).map (Assignment.apply s) := by
  unfold applySlot readSlot
  cases hexToHash e.1 with
  | error err => rfl
  | ok slot => cases hexToHash e.2 <;> rfl

theorem applyAccount_eq (slots : List (String × String)) (s : StateDB)
    (e : String × GenesisAccount) :
    applyAccount slots s e = (read slots e).map fun ws => ws.foldl Assignment.apply s := by
  have hslots : ∀ addr (t : StateDB), slots.foldlM (applySlot e.1 addr) t =
      (slots.mapM (readSlot e.1 addr)).map fun ws => ws.foldl Assignment.apply t :=
    fun addr t => Loops.foldlM_eq_mapM (applySlot_eq e.1 addr) slots t
  unfold applyAccount read readHead
  cases hexToAddress e.1 with
  | error err => rfl
  | ok addr =>
      cases readBalance e.1 e.2.balance with
      | error err => rfl
      | ok bal =>
          simp only [Except.mapError, Program.ok_bind]
          have hnonce : ∀ t : StateDB, (if e.2.nonce ≠ 0 then t.setNonce addr e.2.nonce else t) =
              (if e.2.nonce ≠ 0 then [Assignment.nonce addr e.2.nonce] else []).foldl
                Assignment.apply t := by
            intro t
            split <;> rfl
          by_cases hcode : e.2.code = ""
          · rw [if_pos hcode, if_pos hcode, hnonce]
            simp only [Program.ok_bind]
            rw [hslots]
            cases slots.mapM (readSlot e.1 addr) with
            | error err => rfl
            | ok ss => simp [Except.map, Assignment.apply]
          · rw [if_neg hcode, if_neg hcode, hnonce]
            cases parseHexBytes e.2.code with
            | error err => rfl
            | ok code =>
                simp only [Program.ok_bind]
                rw [hslots]
                cases slots.mapM (readSlot e.1 addr) with
                | error err => rfl
                | ok ss => simp [Except.map, Assignment.apply]

theorem applyAlloc_eq (g : GenesisFile) (o : g.Order) (s : StateDB) :
    g.applyAlloc o s = (g.assignments o).map fun ws => ws.foldl Assignment.apply s := by
  have hround : ∀ s e, applyAccount (o.storage e.1) s e =
      (read (o.storage e.1) e).map ((fun s ws => ws.foldl Assignment.apply s) s) :=
    fun s e => applyAccount_eq (o.storage e.1) s e
  have hfold := Loops.foldlM_eq_mapM hround o.alloc s
  unfold applyAlloc assignments
  rw [hfold]
  cases o.alloc.mapM fun e => read (o.storage e.1) e with
  | error err => rfl
  | ok wss =>
      show Except.ok (wss.foldl (fun s ws => ws.foldl Assignment.apply s) s) =
        Except.ok (wss.flatten.foldl Assignment.apply s)
      rw [List.foldl_flatten]

/-! ## What the state shows -/

/-- What the assignments make of a state: its accounts, the values of its slots, and its code by the
hashes other than that of no code. -/
@[ext] structure Allocation where
  account : Address → Option Account
  slot : StorageID → Hash
  code : Hash → Option Bytes

/-- What a state over an empty database shows. -/
def allocationOf (s : StateDB) : Allocation where
  account := s.object?
  slot := s.slotOf
  code h := if h = emptyCodeHash then none else s.code.get? h

namespace Assignment

/-- The account an assignment is to. -/
def addr : Assignment → Address
  | .balance a _ | .nonce a _ | .code a _ => a
  | .slot id _ => id.addr

/-- What an assignment changes in its account; storage is no part of it. -/
def edit : Assignment → Account → Account
  | .balance _ v, acc => { acc with balance := v }
  | .nonce _ v, acc => { acc with nonce := v }
  | .code _ c, acc => { acc with codeHash := keccak256Hash c }
  | .slot _ _, acc => acc

def onSlots : Assignment → (StorageID → Hash) → StorageID → Hash
  | .slot id v, slots => Function.update slots id v
  | _, slots => slots

def onCode : Assignment → (Hash → Option Bytes) → Hash → Option Bytes
  | .code _ c, codes =>
    if keccak256Hash c = emptyCodeHash then codes
    else Function.update codes (keccak256Hash c) (some c)
  | _, codes => codes

/-- The assignment on what the state shows. -/
def act (A : Allocation) (w : Assignment) : Allocation where
  account := Function.update A.account w.addr
    (some (w.edit ((A.account w.addr).getD newAccount)))
  slot := w.onSlots A.slot
  code := w.onCode A.code

/-- The assignments set different cells, or the same cell to the same value. Code has two cells: the
hash in its account, and the code under that hash. -/
def Agree : Assignment → Assignment → Prop
  | .balance a v, .balance a' v' => a = a' → v = v'
  | .nonce a v, .nonce a' v' => a = a' → v = v'
  | .code a c, .code a' c' =>
    (a = a' → keccak256Hash c = keccak256Hash c') ∧
      (keccak256Hash c = keccak256Hash c' → keccak256Hash c = emptyCodeHash ∨ c = c')
  | .slot id v, .slot id' v' => id = id' → v = v'
  | _, _ => True

end Assignment

theorem code_getOrNewAccount (s : StateDB) (a : Address) :
    (s.getOrNewAccount a).2.code = s.code := by
  unfold StateDB.getOrNewAccount
  rw [StateDB.getAccount_eq]
  cases s.account? a <;> rfl

theorem account?_fresh {s : StateDB} (h : s.Fresh) (a : Address) : s.account? a = s.object? a := by
  rw [StateDB.account?, h.suicides, if_neg List.not_mem_nil]

theorem accountOrNew_fresh {s : StateDB} (h : s.Fresh) (a : Address) :
    s.view.accountOrNew a = (s.object? a).getD newAccount := by
  rw [Ledger.accountOrNew]
  exact congrArg (Option.getD · newAccount) (account?_fresh h a)

theorem allocationOf_reviseAccount {s : StateDB} (h : s.Fresh) (k : Bytes) (a : Address)
    (f : Account → Account) :
    allocationOf ((s.noteWrite k).reviseAccount a f) =
      { allocationOf s with
        account := Function.update s.object? a (some (f ((s.object? a).getD newAccount))) } := by
  have hview := StateDB.view_reviseAccount (s.noteWrite k) a f
  have hcode : ((s.noteWrite k).reviseAccount a f).code = s.code :=
    code_getOrNewAccount (s.noteWrite k) a
  rw [StateDB.view_noteWrite, accountOrNew_fresh h] at hview
  ext1
  · exact congrArg Ledger.object hview
  · exact congrArg Ledger.slot hview
  · funext codeHash
    show (if _ then none else GoMap.get? (StateDB.reviseAccount _ a f).code codeHash) = _
    rw [hcode]
    rfl

theorem code_setCode (s : StateDB) (a : Address) (c : Bytes) :
    (s.setCode a c).code = if c = [] then s.code else s.code.set (keccak256Hash c) c := by
  have hcode := code_getOrNewAccount (s.noteWrite (accountKey a)) a
  show (StateDB.installCode ((s.noteWrite (accountKey a)).getOrNewAccount a).2 a
    ((s.noteWrite (accountKey a)).getOrNewAccount a).1 c).code = _
  unfold StateDB.installCode
  split
  · exact hcode
  · exact congrArg (GoMap.set · (keccak256Hash c) c) hcode

theorem view_setCode (s : StateDB) (a : Address) (c : Bytes) :
    (s.setCode a c).view = s.view.installCode a (s.view.accountOrNew a) c := by
  show (StateDB.installCode ((s.noteWrite (accountKey a)).getOrNewAccount a).2 a
    ((s.noteWrite (accountKey a)).getOrNewAccount a).1 c).view = _
  rw [StateDB.view_installCode, StateDB.view_getOrNewAccount, StateDB.getOrNewAccount_fst,
    StateDB.installCode_touch]
  rfl

theorem object_installCode (L : Ledger) (a : Address) (acc : Account) (c : Bytes) :
    (L.installCode a acc c).object =
      Function.update L.object a (some { acc with codeHash := keccak256Hash c }) := by
  unfold Ledger.installCode
  split
  · rename_i hc
    rw [hc, ← emptyCodeHash_eq]
    rfl
  · rfl

theorem object_touch {s : StateDB} (h : s.Fresh) (a : Address) : (s.view.touch a).object =
    Function.update s.object? a (some ((s.object? a).getD newAccount)) := by
  have haccount : s.view.account? a = s.object? a := account?_fresh h a
  unfold Ledger.touch
  rw [haccount]
  cases hobj : s.object? a with
  | some acc =>
      show s.object? = _
      rw [Option.getD_some, ← hobj, Function.update_eq_self]
  | none => rfl

/-- The state after an assignment shows what the assignment makes of what it showed. -/
theorem allocationOf_apply {s : StateDB} (h : s.Fresh) (w : Assignment) :
    allocationOf (w.apply s) = w.act (allocationOf s) := by
  cases w with
  | balance a v => exact allocationOf_reviseAccount h _ a _
  | nonce a v => exact allocationOf_reviseAccount h _ a _
  | code a c =>
      have hview := view_setCode s a c
      rw [accountOrNew_fresh h] at hview
      ext1
      · exact (congrArg Ledger.object hview).trans (object_installCode _ _ _ _)
      · refine (congrArg Ledger.slot hview).trans ?_
        unfold Ledger.installCode
        split <;> rfl
      · funext codeHash
        show (if codeHash = emptyCodeHash then none else (s.setCode a c).code.get? codeHash) =
          Assignment.onCode (.code a c) (allocationOf s).code codeHash
        rw [code_setCode, Assignment.onCode]
        by_cases hc : c = []
        · rw [if_pos hc, hc, if_pos emptyCodeHash_eq.symm]
          rfl
        · rw [if_neg hc, GoMap.get?_set]
          by_cases hempty : keccak256Hash c = emptyCodeHash
          · rw [if_pos hempty, hempty]
            show (if codeHash = emptyCodeHash then none else _) =
              if codeHash = emptyCodeHash then none else _
            split <;> rfl
          · rw [if_neg hempty, Function.update_apply]
            show _ = if codeHash = keccak256Hash c then some c
              else if codeHash = emptyCodeHash then none else _
            by_cases hhash : codeHash = keccak256Hash c
            · rw [if_pos hhash, if_pos hhash, hhash, if_neg hempty]
            · rw [if_neg hhash, if_neg hhash]
  | slot id v =>
      have hview := StateDB.view_setState s id v
      have hcode : (s.setState id v).code = s.code :=
        code_getOrNewAccount (s.noteWrite (storageKey id)) id.addr
      ext1
      · refine (congrArg Ledger.object hview).trans ?_
        exact object_touch h id.addr
      · refine (congrArg Ledger.slot hview).trans ?_
        show Function.update (s.view.touch id.addr).slot id v = Function.update s.slotOf id v
        unfold Ledger.touch
        split <;> rfl
      · funext codeHash
        show (if codeHash = emptyCodeHash then none else (s.setState id v).code.get? codeHash) = _
        rw [hcode]
        rfl

theorem Assignment.fresh_apply {s : StateDB} (h : s.Fresh) (w : Assignment) :
    (w.apply s).Fresh := by
  have hof : ∀ {t : StateDB}, Store.Steps s.toStore t.toStore → t.toTxScope = s.toTxScope →
      t.Fresh :=
    fun hsteps hscope => ⟨hsteps.db_eq.trans h.db, hscope.trans h.scope, h.coherent.steps hsteps⟩
  have hscope : ∀ k a, (((s.noteWrite k).getOrNewAccount a).2).toTxScope = s.toTxScope := by
    intro k a
    unfold StateDB.getOrNewAccount
    rw [StateDB.getAccount_eq]
    cases (s.noteWrite k).account? a <;> rfl
  cases w with
  | balance a v => exact hof (StateDB.steps_reviseAccount (s.noteWrite (accountKey a)) a _) (hscope _ a)
  | nonce a v => exact hof (StateDB.steps_reviseAccount (s.noteWrite (accountKey a)) a _) (hscope _ a)
  | code a c =>
      refine hof ((StateDB.steps_getOrNewAccount (s.noteWrite (accountKey a)) a).trans
        (StateDB.steps_installCode _ a _ c)) ?_
      refine Eq.trans ?_ (hscope (accountKey a) a)
      show (StateDB.installCode _ a _ c).toTxScope = _
      unfold StateDB.installCode
      split <;> rfl
  | slot id v => exact hof (StateDB.steps_setState s id v) (hscope _ _)

/-- A run shows what its assignments make of the empty state, one after the other. -/
theorem allocationOf_run (ws : List Assignment) {s : StateDB} (h : s.Fresh) :
    (ws.foldl Assignment.apply s).Fresh ∧
      allocationOf (ws.foldl Assignment.apply s) = ws.foldl Assignment.act (allocationOf s) := by
  induction ws generalizing s with
  | nil => exact ⟨h, rfl⟩
  | cons w ws ih =>
      obtain ⟨hfresh, hrun⟩ := ih (w.fresh_apply h)
      exact ⟨hfresh, by rw [List.foldl_cons, List.foldl_cons, hrun, allocationOf_apply h]⟩

theorem alike_of_allocationOf_eq {s t : StateDB} (h : allocationOf s = allocationOf t) :
    s.Alike t where
  object a := congrFun (congrArg Allocation.account h) a
  slot id := congrFun (congrArg Allocation.slot h) id
  code codeHash hne := by
    have hcode := congrFun (congrArg Allocation.code h) codeHash
    simpa only [allocationOf, if_neg hne] using hcode

/-! ## Assignments that agree commute -/

namespace Assignment

variable {w w' : Assignment}

theorem Agree.edit_comm (h : w.Agree w') (haddr : w.addr = w'.addr) (acc : Account) :
    w'.edit (w.edit acc) = w.edit (w'.edit acc) := by
  cases w <;> cases w' <;> simp only [edit]
  · rw [h haddr]
  · rw [h haddr]
  · rw [h.1 haddr]

theorem Agree.onSlots_comm (h : w.Agree w') (slots : StorageID → Hash) :
    w'.onSlots (w.onSlots slots) = w.onSlots (w'.onSlots slots) := by
  cases w <;> cases w' <;> simp only [onSlots]
  rename_i id v id' v'
  by_cases hid : id = id'
  · obtain rfl := hid
    rw [h rfl]
  · exact Function.update_comm hid _ _ _

theorem Agree.onCode_comm (h : w.Agree w') (codes : Hash → Option Bytes) :
    w'.onCode (w.onCode codes) = w.onCode (w'.onCode codes) := by
  cases w <;> cases w' <;> simp only [onCode]
  rename_i a c a' c'
  by_cases hc : keccak256Hash c = emptyCodeHash
  · simp only [if_pos hc]
  · by_cases hc' : keccak256Hash c' = emptyCodeHash
    · simp only [if_pos hc']
    · simp only [if_neg hc, if_neg hc']
      by_cases hhash : keccak256Hash c = keccak256Hash c'
      · rw [(h.2 hhash).resolve_left hc]
      · exact Function.update_comm hhash _ _ _

theorem Agree.act_comm (h : w.Agree w') (A : Allocation) :
    w'.act (w.act A) = w.act (w'.act A) := by
  ext1
  · show Function.update (Function.update A.account w.addr _) w'.addr _ =
      Function.update (Function.update A.account w'.addr _) w.addr _
    by_cases haddr : w.addr = w'.addr
    · simp only [act, haddr, Function.update_idem, Function.update_self, Option.getD_some,
        h.edit_comm haddr]
    · simp only [act, Function.update_of_ne haddr, Function.update_of_ne (Ne.symm haddr)]
      exact Function.update_comm haddr _ _ _
  · exact h.onSlots_comm A.slot
  · exact h.onCode_comm A.code

end Assignment

/-- Assignments that agree can be made in any order. -/
theorem foldl_act_perm {ws ws' : List Assignment} (hperm : ws.Perm ws')
    (h : ∀ w ∈ ws, ∀ w' ∈ ws, w.Agree w') (A : Allocation) :
    ws.foldl Assignment.act A = ws'.foldl Assignment.act A :=
  hperm.foldl_eq' (fun w hw w' hw' A => (h w hw w' hw').act_comm A) A

/-! ## The orders of one file -/

variable {g : GenesisFile}

theorem read_eq_ok_iff {slots : List (String × String)} {e : String × GenesisAccount}
    {ws : List Assignment} :
    read slots e = .ok ws ↔ ∃ addr head ss, readHead e = .ok (addr, head) ∧
      slots.mapM (readSlot e.1 addr) = .ok ss ∧ ws = head ++ ss := by
  unfold read
  cases readHead e with
  | error err => simp
  | ok p =>
      obtain ⟨addr, head⟩ := p
      simp only [Program.ok_bind, Except.ok.injEq, Prod.mk.injEq]
      cases hslots : slots.mapM (readSlot e.1 addr) with
      | error err =>
          constructor
          · intro h
            cases h
          · rintro ⟨_, _, ss, ⟨rfl, rfl⟩, hss, -⟩
            rw [hslots] at hss
            cases hss
      | ok ss =>
          constructor
          · intro h
            exact ⟨addr, head, ss, ⟨rfl, rfl⟩, hslots, (Except.ok.inj h).symm⟩
          · rintro ⟨_, _, ss', ⟨rfl, rfl⟩, hss, rfl⟩
            rw [hslots] at hss
            rw [Except.ok.inj hss]
            rfl

theorem read_perm {slots slots' : List (String × String)} (hperm : slots'.Perm slots)
    {e : String × GenesisAccount} {ws : List Assignment} (h : read slots e = .ok ws) :
    ∃ ws', read slots' e = .ok ws' ∧ ws'.Perm ws := by
  obtain ⟨addr, head, ss, hhead, hss, rfl⟩ := read_eq_ok_iff.mp h
  obtain ⟨ss', hss', hp⟩ := Loops.mapM_perm hperm hss
  exact ⟨head ++ ss', read_eq_ok_iff.mpr ⟨addr, head, ss', hhead, hss', rfl⟩, hp.append_left head⟩

theorem assignments_eq_ok_iff {o : g.Order} {ws : List Assignment} :
    g.assignments o = .ok ws ↔
      ∃ wss, (o.alloc.mapM fun e => read (o.storage e.1) e) = .ok wss ∧ ws = wss.flatten := by
  unfold assignments
  cases o.alloc.mapM fun e => read (o.storage e.1) e with
  | error err => simp [Except.map]
  | ok wss => simp [Except.map, eq_comm]

/-- Every run makes the same assignments, each run in its own order. -/
theorem assignments_perm {o : g.Order} {ws : List Assignment} (h : g.assignments o = .ok ws)
    (o' : g.Order) : ∃ ws', g.assignments o' = .ok ws' ∧ ws'.Perm ws := by
  obtain ⟨wss, hwss, rfl⟩ := assignments_eq_ok_iff.mp h
  have hround : ∀ e ∈ o'.alloc, ∀ ws, read (o.storage e.1) e = .ok ws →
      ∃ ws', read (o'.storage e.1) e = .ok ws' ∧ ws'.Perm ws := by
    intro e he ws hread
    have hmem := o'.alloc_perm.mem_iff.mp he
    exact read_perm ((o'.storage_perm e hmem).trans (o.storage_perm e hmem).symm) hread
  obtain ⟨wss', hwss', hperm⟩ := Loops.mapM_flatten_perm
    (o'.alloc_perm.trans o.alloc_perm.symm) hround hwss
  exact ⟨_, assignments_eq_ok_iff.mpr ⟨wss', hwss', rfl⟩, hperm⟩

/-- The order with the entry `e` last and its storage in the order `slots`. -/
def Order.ending (o : g.Order) (e : String × GenesisAccount) (init : List (String × GenesisAccount))
    (slots : List (String × String)) (halloc : (init ++ [e]).Perm o.alloc)
    (hslots : slots.Perm (o.storage e.1)) : g.Order where
  alloc := init ++ [e]
  storage := Function.update o.storage e.1 slots
  alloc_perm := halloc.trans o.alloc_perm
  storage_perm e' he' := by
    by_cases hkey : e'.1 = e.1
    · have he : e ∈ g.alloc.pairs :=
        (halloc.trans o.alloc_perm).mem_iff.mp (List.mem_append_right init List.mem_cons_self)
      have hentry : e' = e := by
        have hval := GoMap.mem_pairs.mp he'
        rw [hkey, GoMap.mem_pairs.mp he] at hval
        exact Prod.ext hkey (Option.some.inj hval).symm
      rw [hentry, Function.update_self]
      exact hslots.trans (o.storage_perm e he)
    · rw [Function.update_of_ne hkey]
      exact o.storage_perm e' he'

theorem assignments_ending {o : g.Order} {ws : List Assignment} (h : g.assignments o = .ok ws)
    {e : String × GenesisAccount} {init : List (String × GenesisAccount)}
    {slots : List (String × String)} (halloc : (init ++ [e]).Perm o.alloc)
    (hslots : slots.Perm (o.storage e.1)) {last : List Assignment}
    (hlast : read slots e = .ok last) :
    ∃ (o' : g.Order) (before : List Assignment), g.assignments o' = .ok (before ++ last) := by
  obtain ⟨ws', hws', -⟩ := assignments_perm h (o.ending e init slots halloc hslots)
  obtain ⟨wss, hwss, rfl⟩ := assignments_eq_ok_iff.mp hws'
  obtain ⟨before, last', hlast', rfl⟩ := Loops.mapM_append_singleton hwss
  have hslots' : (o.ending e init slots halloc hslots).storage e.1 = slots :=
    Function.update_self _ _ _
  rw [hslots', hlast] at hlast'
  obtain rfl := Except.ok.inj hlast'
  refine ⟨o.ending e init slots halloc hslots, before.flatten, ?_⟩
  rw [hws', List.flatten_append, List.flatten_singleton]

/-- The fields of an account that the file sets. -/
inductive Field where
  | balance
  | nonce
  | code
  | storage
deriving DecidableEq, Repr

def Assignment.field : Assignment → Field
  | .balance _ _ => .balance
  | .nonce _ _ => .nonce
  | .code _ _ => .code
  | .slot _ _ => .storage

/-- Apart from its storage an entry sets each field once. -/
theorem readHead_fields {e : String × GenesisAccount} {addr : Address} {head : List Assignment}
    (h : readHead e = .ok (addr, head)) :
    (head.Pairwise fun w w' => w'.field ≠ w.field) ∧ ∀ w ∈ head, w.field ≠ .storage := by
  have hshape : ∃ bal nonce code, head = .balance addr bal ::
      (if e.2.nonce ≠ 0 then [.nonce addr nonce] else []) ++
        (if e.2.code = "" then [] else [.code addr code]) := by
    unfold readHead at h
    cases haddr : hexToAddress e.1 with
    | error err =>
        rw [haddr] at h
        cases h
    | ok a =>
        cases hbal : readBalance e.1 e.2.balance with
        | error err =>
            rw [haddr, hbal] at h
            cases h
        | ok bal =>
            rw [haddr, hbal] at h
            simp only [Except.mapError, Program.ok_bind] at h
            by_cases hcode : e.2.code = ""
            · rw [if_pos hcode] at h
              obtain ⟨rfl, rfl⟩ := Prod.mk.inj (Except.ok.inj h)
              exact ⟨bal, e.2.nonce, [], by rw [if_pos hcode, List.append_nil]⟩
            · rw [if_neg hcode] at h
              cases hhex : parseHexBytes e.2.code with
              | error err =>
                  rw [hhex] at h
                  cases h
              | ok c =>
                  rw [hhex] at h
                  obtain ⟨rfl, rfl⟩ := Prod.mk.inj (Except.ok.inj h)
                  exact ⟨bal, e.2.nonce, c, by rw [if_neg hcode]⟩
  obtain ⟨bal, nonce, code, rfl⟩ := hshape
  constructor
  · split <;> split <;> simp [Assignment.field]
  · split <;> split <;> simp [Assignment.field]

theorem readSlot_field {addrStr : String} {addr : Address} {f : String × String} {w : Assignment}
    (h : readSlot addrStr addr f = .ok w) : w.field = .storage := by
  unfold readSlot at h
  cases hslot : hexToHash f.1 with
  | error err =>
      rw [hslot] at h
      cases h
  | ok slot =>
      cases hval : hexToHash f.2 with
      | error err =>
          rw [hslot, hval] at h
          cases h
      | ok val =>
          rw [hslot, hval] at h
          obtain rfl := Except.ok.inj h
          rfl

/-- Every assignment of the file has an order in which nothing after it sets the same field. -/
theorem exists_last {o : g.Order} {ws : List Assignment} (h : g.assignments o = .ok ws)
    {w : Assignment} (hw : w ∈ ws) : ∃ (o' : g.Order) (before after : List Assignment),
      g.assignments o' = .ok (before ++ w :: after) ∧ ∀ w' ∈ after, w'.field ≠ w.field := by
  obtain ⟨wss, hwss, rfl⟩ := assignments_eq_ok_iff.mp h
  obtain ⟨own, hown, hw⟩ := List.mem_flatten.mp hw
  obtain ⟨e, he, hread⟩ := (Loops.mem_mapM_iff hwss).mp hown
  obtain ⟨l₁, l₂, halloc⟩ := List.append_of_mem he
  have hinit : (l₁ ++ l₂ ++ [e]).Perm o.alloc := by
    rw [halloc]
    exact (List.perm_append_singleton e (l₁ ++ l₂)).trans List.perm_middle.symm
  obtain ⟨addr, head, ss, hhead, hss, rfl⟩ := read_eq_ok_iff.mp hread
  obtain ⟨hpairwise, hstorage⟩ := readHead_fields hhead
  rcases List.mem_append.mp hw with hw | hw
  · -- a field of the account: only its storage and other fields come after it
    obtain ⟨h₁, h₂, rfl⟩ := List.append_of_mem hw
    obtain ⟨o', before, hws⟩ := assignments_ending h hinit (List.Perm.refl _) hread
    refine ⟨o', before ++ h₁, h₂ ++ ss, ?_, ?_⟩
    · rw [hws]
      simp
    · intro w' hw'
      rcases List.mem_append.mp hw' with hw' | hw'
      · exact (List.pairwise_cons.mp (List.pairwise_append.mp hpairwise).2.1).1 w' hw'
      · obtain ⟨f, -, hf⟩ := (Loops.mem_mapM_iff hss).mp hw'
        rw [readSlot_field hf]
        exact (hstorage w hw).symm
  · -- a slot: its storage entry is moved to the end
    obtain ⟨f, hf, hreadf⟩ := (Loops.mem_mapM_iff hss).mp hw
    obtain ⟨k₁, k₂, hslots⟩ := List.append_of_mem hf
    have hperm : (k₁ ++ k₂ ++ [f]).Perm (o.storage e.1) := by
      rw [hslots]
      exact (List.perm_append_singleton f (k₁ ++ k₂)).trans List.perm_middle.symm
    obtain ⟨ss', hss', -⟩ := Loops.mapM_perm hperm hss
    obtain ⟨init, w', hw', rfl⟩ := Loops.mapM_append_singleton hss'
    obtain rfl : w = w' := Except.ok.inj (hreadf.symm.trans hw')
    obtain ⟨o', before, hws⟩ := assignments_ending h hinit hperm
      (read_eq_ok_iff.mpr ⟨addr, head, _, hhead, hss', rfl⟩)
    refine ⟨o', before ++ head ++ init, [], ?_, fun _ hnil => absurd hnil List.not_mem_nil⟩
    rw [hws]
    simp

/-! ## What the last assignment to a field leaves -/

namespace Assignment

/-- What was assigned is still there. -/
def Holds (A : Allocation) : Assignment → Prop
  | .balance a v => (A.account a).map Account.balance = some v
  | .nonce a v => (A.account a).map Account.nonce = some v
  | .code a c => (A.account a).map Account.codeHash = some (keccak256Hash c) ∧
      (keccak256Hash c ≠ emptyCodeHash → A.code (keccak256Hash c) = some c)
  | .slot id v => A.slot id = v

theorem holds_act (A : Allocation) (w : Assignment) : w.Holds (w.act A) := by
  cases w with
  | balance a v => simp [Holds, act, addr, edit]
  | nonce a v => simp [Holds, act, addr, edit]
  | code a c =>
      refine ⟨by simp [act, addr, edit], ?_⟩
      intro hne
      simp [act, onCode, hne]
  | slot id v => simp [Holds, act, onSlots]

theorem account_act (A : Allocation) (w : Assignment) (a : Address) :
    (w.act A).account a =
      if a = w.addr then some (w.edit ((A.account a).getD newAccount)) else A.account a := by
  by_cases ha : a = w.addr
  · rw [if_pos ha, ha]
    exact Function.update_self _ _ _
  · rw [if_neg ha]
    exact Function.update_of_ne ha _ _

/-- An assignment keeps what it does not edit of an account that is there. -/
theorem map_account_act {β : Type} {proj : Account → β} {w : Assignment}
    (hproj : ∀ acc, proj (w.edit acc) = proj acc) {A : Allocation} {a : Address} {b : β}
    (h : (A.account a).map proj = some b) : ((w.act A).account a).map proj = some b := by
  obtain ⟨acc, hacc, rfl⟩ := Option.map_eq_some_iff.mp h
  rw [account_act, hacc]
  split
  · rw [Option.map_some, Option.getD_some, hproj]
  · rfl

/-- An assignment to another field changes nothing of it. -/
theorem Holds.act {w w' : Assignment} {A : Allocation} (h : w.Holds A)
    (hfield : w'.field ≠ w.field) : w.Holds (w'.act A) := by
  cases w with
  | balance a v =>
      refine map_account_act ?_ h
      cases w' <;> first | exact fun _ => rfl | exact absurd rfl hfield
  | nonce a v =>
      refine map_account_act ?_ h
      cases w' <;> first | exact fun _ => rfl | exact absurd rfl hfield
  | code a c =>
      refine ⟨map_account_act ?_ h.1, fun hne => ?_⟩
      · cases w' <;> first | exact fun _ => rfl | exact absurd rfl hfield
      · refine Eq.trans ?_ (h.2 hne)
        cases w' <;> first | rfl | exact absurd rfl hfield
  | slot id v =>
      refine Eq.trans ?_ h
      cases w' <;> first | rfl | exact absurd rfl hfield

theorem holds_foldl {w : Assignment} {after : List Assignment}
    (hafter : ∀ w' ∈ after, w'.field ≠ w.field) {A : Allocation} (h : w.Holds A) :
    w.Holds (after.foldl Assignment.act A) := by
  induction after generalizing A with
  | nil => exact h
  | cons w' after ih =>
      obtain ⟨hw', hafter⟩ := List.forall_mem_cons.mp hafter
      exact ih hafter (h.act hw')

end Assignment

/-! ## Runs of `Commit` -/

/-- The state before it is committed. -/
def run (ws : List Assignment) : StateDB :=
  ws.foldl Assignment.apply (StateDB.new ∅)

theorem fresh_run (ws : List Assignment) : (run ws).Fresh :=
  (allocationOf_run ws StateDB.fresh_new).1

theorem alike_run {ws ws' : List Assignment} (hperm : ws.Perm ws')
    (h : ∀ w ∈ ws, ∀ w' ∈ ws, w.Agree w') : (run ws).Alike (run ws') := by
  refine alike_of_allocationOf_eq ?_
  rw [run, run, (allocationOf_run ws StateDB.fresh_new).2,
    (allocationOf_run ws' StateDB.fresh_new).2, foldl_act_perm hperm h]

theorem holds_run {w : Assignment} {before after : List Assignment}
    (hafter : ∀ w' ∈ after, w'.field ≠ w.field) :
    w.Holds (allocationOf (run (before ++ w :: after))) := by
  rw [run, (allocationOf_run _ StateDB.fresh_new).2, List.foldl_append, List.foldl_cons]
  exact Assignment.holds_foldl hafter (Assignment.holds_act _ w)

theorem commit_eq_ok_iff {o : g.Order} {h : GenesisHeader} {s : StateDB} :
    g.commit o ∅ = .ok (h, s) ↔ ∃ ws, g.assignments o = .ok ws ∧
      g.header (run ws).commit.1 = .ok h ∧ s = (run ws).commit.2 := by
  unfold commit
  rw [applyAlloc_eq]
  cases g.assignments o with
  | error err =>
      constructor
      · intro hc
        cases hc
      · rintro ⟨ws, hws, -⟩
        cases hws
  | ok ws =>
      change (g.header (run ws).commit.1 >>= fun header =>
        Except.ok (header, (run ws).commit.2)) = .ok (h, s) ↔ _
      cases hheader : g.header (run ws).commit.1 with
      | error err =>
          constructor
          · intro hc
            cases hc
          · rintro ⟨ws', hws, hh, -⟩
            obtain rfl := Except.ok.inj hws
            rw [hheader] at hh
            cases hh
      | ok h' =>
          constructor
          · intro hc
            obtain ⟨rfl, rfl⟩ := Prod.mk.inj (Except.ok.inj hc)
            exact ⟨ws, rfl, hheader, rfl⟩
          · rintro ⟨ws', hws, hh, rfl⟩
            obtain rfl := Except.ok.inj hws
            rw [hheader] at hh
            obtain rfl := Except.ok.inj hh
            rfl

section Reads

variable {s : StateDB}

theorem getBalance_of_holds (hs : s.Fresh) {a : Address} {v : U256}
    (h : (Assignment.balance a v).Holds (allocationOf s)) : (s.commit.2.getBalance a).1 = v := by
  rw [StateDB.getBalance_fst, StateDB.balanceOf, hs.account?_commit]
  exact congrArg (Option.getD · 0) h

theorem getNonce_of_holds (hs : s.Fresh) {a : Address} {v : U64}
    (h : (Assignment.nonce a v).Holds (allocationOf s)) : (s.commit.2.getNonce a).1 = v := by
  rw [StateDB.getNonce_fst, StateDB.nonceOf, hs.account?_commit]
  exact congrArg (Option.getD · 0) h

theorem getCodeHash_of_holds (hs : s.Fresh) {a : Address} {c : Bytes}
    (h : (Assignment.code a c).Holds (allocationOf s)) :
    (s.commit.2.getCodeHash a).1 = keccak256Hash c := by
  rw [StateDB.getCodeHash_eq, StateDB.codeHashOf, hs.account?_commit]
  exact congrArg (Option.getD · emptyCodeHash) h.1

theorem getCode_of_code (hs : s.Fresh) {a : Address} {c : Bytes}
    (hhash : (s.commit.2.getCodeHash a).1 = keccak256Hash c)
    (hne : keccak256Hash c ≠ emptyCodeHash)
    (hcode : (allocationOf s).code (keccak256Hash c) = some c) : (s.commit.2.getCode a).1 = c := by
  have hhash : s.commit.2.codeHashOf a = keccak256Hash c := by
    rw [StateDB.getCodeHash_eq] at hhash
    exact hhash
  rw [StateDB.getCode_fst, StateDB.codeBytes, hhash, if_neg hne, hs.codeOf_commit hne,
    Store.codeOf]
  have hcache : s.code.get? (keccak256Hash c) = some c := by
    simpa only [allocationOf, if_neg hne] using hcode
  rw [hcache]
  rfl

theorem getState_of_holds (hs : s.Fresh) {id : StorageID} {v : Hash}
    (h : (Assignment.slot id v).Holds (allocationOf s)) : (s.commit.2.getState id).1 = v := by
  rw [StateDB.getState_fst, hs.slotOf_commit]
  exact h

/-- Assignments that hold in two states with the same reads agree. -/
theorem agree_of_sameReads {t : StateDB} (hs : s.Fresh) (ht : t.Fresh)
    (hreads : t.commit.2.SameReads s.commit.2) {w w' : Assignment} (hw : w.Holds (allocationOf s))
    (hw' : w'.Holds (allocationOf t)) : w.Agree w' := by
  cases w <;> cases w' <;> try trivial
  · rintro rfl
    rw [← getBalance_of_holds hs hw, ← hreads.getBalance, getBalance_of_holds ht hw']
  · rintro rfl
    rw [← getNonce_of_holds hs hw, ← hreads.getNonce, getNonce_of_holds ht hw']
  · rename_i a c a' c'
    constructor
    · rintro rfl
      rw [← getCodeHash_of_holds hs hw, ← hreads.getCodeHash, getCodeHash_of_holds ht hw']
    · intro hhash
      by_cases hne : keccak256Hash c = emptyCodeHash
      · exact .inl hne
      · right
        -- the code of the first account, read in both states
        have hcode := hw.2 hne
        have hcode' := hw'.2 (hhash ▸ hne)
        have hfirst := getCodeHash_of_holds hs hw
        have hsecond := (hreads.getCodeHash a).trans (hfirst.trans hhash)
        rw [← getCode_of_code hs hfirst hne hcode, ← hreads.getCode,
          getCode_of_code ht hsecond (hhash ▸ hne) hcode']
  · rintro rfl
    rw [← getState_of_holds hs hw, ← hreads.getState, getState_of_holds ht hw']

end Reads

/-- Some run accepts the file. -/
def Accepted (g : GenesisFile) : Prop :=
  ∃ o r, g.commit o ∅ = .ok r

/-- If one run on an empty database accepts the file, then all do, with the same state root, the same
block hash, and states that read the same. -/
def Deterministic (g : GenesisFile) : Prop :=
  ∀ (o o' : g.Order) (h : GenesisHeader) (s : StateDB), g.commit o ∅ = .ok (h, s) →
    ∃ h' s', g.commit o' ∅ = .ok (h', s') ∧ h'.stateRoot = h.stateRoot ∧ h'.hash = h.hash ∧
      s'.SameReads s

/-- No two assignments of the file set one cell to different values. -/
def Agrees (g : GenesisFile) : Prop :=
  ∀ (o : g.Order) (ws : List Assignment), g.assignments o = .ok ws →
    ∀ w ∈ ws, ∀ w' ∈ ws, w.Agree w'

/-- The genesis of an accepted file is independent of the order of the Go maps exactly when the
spellings of one address or slot in the file never come with different values. -/
theorem commit_deterministic_iff (g : GenesisFile) :
    g.Deterministic ↔ (g.Accepted → g.Agrees) := by
  constructor
  · rintro hdet ⟨o₀, ⟨h₀, s₀⟩, hcommit₀⟩ o ws hws w hw w' hw'
    obtain ⟨o₁, before₁, after₁, hws₁, hafter₁⟩ := exists_last hws hw
    obtain ⟨o₂, before₂, after₂, hws₂, hafter₂⟩ := exists_last hws hw'
    obtain ⟨h₁, s₁, hcommit₁, -⟩ := hdet o₀ o₁ h₀ s₀ hcommit₀
    obtain ⟨h₂, s₂, hcommit₂, -, -, hreads⟩ := hdet o₁ o₂ h₁ s₁ hcommit₁
    obtain ⟨ws₁, hrun₁, -, rfl⟩ := commit_eq_ok_iff.mp hcommit₁
    obtain ⟨ws₂, hrun₂, -, rfl⟩ := commit_eq_ok_iff.mp hcommit₂
    obtain rfl := Except.ok.inj (hws₁.symm.trans hrun₁)
    obtain rfl := Except.ok.inj (hws₂.symm.trans hrun₂)
    exact agree_of_sameReads (fresh_run _) (fresh_run _) hreads (holds_run hafter₁)
      (holds_run hafter₂)
  · intro hagrees o o' h s hcommit
    obtain ⟨ws, hws, hheader, rfl⟩ := commit_eq_ok_iff.mp hcommit
    obtain ⟨ws', hws', hperm⟩ := assignments_perm hws o'
    have halike : (run ws').Alike (run ws) :=
      alike_run hperm (hagrees ⟨o, _, hcommit⟩ o' ws' hws')
    have hroot := (fresh_run ws').root_eq (fresh_run ws) halike
    refine ⟨h, (run ws').commit.2, commit_eq_ok_iff.mpr ⟨ws', hws', ?_, rfl⟩, rfl, rfl,
      (fresh_run ws').sameReads_commit (fresh_run ws) halike⟩
    rw [hroot, hheader]

/-- A file with two spellings of the address seven. -/
def twoSpellings : GenesisFile where
  timestamp := 0
  extraData := ""
  gasLimit := ""
  baseFeePerGas := ""
  alloc :=
    { entries :=
        [⟨"0x0000000000000000000000000000000000000007", ⟨"1", "", ∅, 0⟩⟩,
          ⟨"0000000000000000000000000000000000000007", ⟨"2", "", ∅, 0⟩⟩]
      nodupKeys := by simp [List.NodupKeys, List.keys] }

/-- The run in which the entries come as they stand in the file, and the run in which they come the
other way round. -/
def twoSpellings.inOrder : twoSpellings.Order where
  alloc := twoSpellings.alloc.pairs
  storage _ := []
  alloc_perm := List.Perm.refl _
  storage_perm := by decide

def twoSpellings.reversed : twoSpellings.Order where
  alloc := twoSpellings.alloc.pairs.reverse
  storage _ := []
  alloc_perm := List.reverse_perm _
  storage_perm := by decide

/-- The balance is that of the spelling that comes last. -/
theorem twoSpellings_differ : ∃ h s h' s', twoSpellings.commit twoSpellings.inOrder ∅ = .ok (h, s) ∧
    twoSpellings.commit twoSpellings.reversed ∅ = .ok (h', s') ∧
    (s.getBalance 7).1 = 2 ∧ (s'.getBalance 7).1 = 1 := by
  have hread : twoSpellings.assignments twoSpellings.inOrder =
      .ok ([.balance 7 1] ++ .balance 7 2 :: []) := by decide
  have hread' : twoSpellings.assignments twoSpellings.reversed =
      .ok ([.balance 7 2] ++ .balance 7 1 :: []) := by decide
  have hheader : ∀ root, ∃ h, twoSpellings.header root = .ok h :=
    fun root => ⟨⟨root, 0, 120000000, 1000000000, []⟩, rfl⟩
  obtain ⟨h, hh⟩ := hheader (run ([.balance 7 1] ++ .balance 7 2 :: [])).commit.1
  obtain ⟨h', hh'⟩ := hheader (run ([.balance 7 2] ++ .balance 7 1 :: [])).commit.1
  refine ⟨h, _, h', _, commit_eq_ok_iff.mpr ⟨_, hread, hh, rfl⟩,
    commit_eq_ok_iff.mpr ⟨_, hread', hh', rfl⟩, ?_, ?_⟩
  · exact getBalance_of_holds (fresh_run _) (holds_run fun _ hnil => absurd hnil List.not_mem_nil)
  · exact getBalance_of_holds (fresh_run _) (holds_run fun _ hnil => absurd hnil List.not_mem_nil)

end GenesisFile

end Dew
