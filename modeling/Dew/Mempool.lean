/-
# The mempool

The admission pool for EVM transactions and `DewTx`: entries by hash, and for every sender the hash
at each nonce. `AddEVM` and `AddDew` check a transaction against the policy and hand the entry to
`add`, which replaces an entry with the same sender and nonce, evicts a cheaper one when the pool is
full, or refuses. The loop that looks for the cheapest entry ranges over a map, so its order is a
parameter.

Every run keeps the two maps consistent and within the limits, and each addition changes the
entries by the new one and at most one removal (`pool_run`).
-/
import Dew.Node

namespace Dew

namespace Mempool

/-! ## Configuration -/

/-- `Kind` -/
inductive Kind where
  | evm
  | dew
deriving DecidableEq, Repr

/-- Errors of admission. -/
inductive PoolError where
  | poolFull
  | senderLimit
  | txTooLarge
  | underpriced
  | replaceUnder
  | alreadyKnown
  | rbfDisabled
  | invalidTx
  | wrongChain
deriving DecidableEq, Repr

def PoolError.text : PoolError → String
  | poolFull => "mempool: pool full"
  | senderLimit => "mempool: per-sender limit"
  | txTooLarge => "mempool: transaction too large"
  | underpriced => "mempool: underpriced"
  | replaceUnder => "mempool: replacement underpriced"
  | alreadyKnown => "mempool: already known"
  | rbfDisabled => "mempool: replace-by-fee disabled"
  | invalidTx => "mempool: invalid transaction"
  | wrongChain => "mempool: wrong chain id"

/-- `Config` -/
structure Config where
  maxGlobal : ℤ
  maxPerSender : ℤ
  maxTxBytes : ℤ
  minGasPriceWei : Option ℤ
  minTipWei : Option ℤ
  minDewFeeWei : U64
  priceBumpPercent : U64
deriving DecidableEq, Repr

/-- `DefaultConfig` -/
def defaultConfig : Config where
  maxGlobal := 4096
  maxPerSender := 16
  maxTxBytes := 131072
  minGasPriceWei := some 1000000000
  minTipWei := some 1
  minDewFeeWei := 2100000000000
  priceBumpPercent := 10

/-- The configuration of a pool, with the defaults filled in. -/
structure Policy where
  maxGlobal : ℤ
  maxPerSender : ℤ
  maxTxBytes : ℤ
  minGasPriceWei : ℤ
  minTipWei : ℤ
  minDewFeeWei : U64
  priceBumpPercent : U64
deriving DecidableEq, Repr

/-- The defaults that `New` applies; a bump of zero stays, it turns replacement off. -/
def Config.policy (cfg : Config) : Policy where
  maxGlobal := if cfg.maxGlobal ≤ 0 then 4096 else cfg.maxGlobal
  maxPerSender := if cfg.maxPerSender ≤ 0 then 16 else cfg.maxPerSender
  maxTxBytes := if cfg.maxTxBytes ≤ 0 then 131072 else cfg.maxTxBytes
  minGasPriceWei := cfg.minGasPriceWei.getD 1000000000
  minTipWei := cfg.minTipWei.getD 1
  minDewFeeWei := if cfg.minDewFeeWei = 0 then 2100000000000 else cfg.minDewFeeWei
  priceBumpPercent := cfg.priceBumpPercent

/-! ## The pool -/

/-- `Entry` -/
structure Entry where
  hash : Hash
  sender : Address
  nonce : U64
  kind : Kind
  raw : Bytes
  price : ℕ
  tip : Option ℕ
  size : ℕ
  addedAt : ℕ
deriving DecidableEq, Repr

/-- `RejectCounters` -/
structure RejectCounters where
  poolFull : U64
  senderLimit : U64
  underpriced : U64
  replaceUnder : U64
  alreadyKnown : U64
  txTooLarge : U64
  invalid : U64
  wrongChain : U64
  rbfDisabled : U64
  total : U64
deriving DecidableEq, Repr

/-- `Pool` -/
structure Pool where
  policy : Policy
  byHash : GoMap Hash Entry
  bySender : GoMap Address (GoMap U64 Hash)
  admits : U64
  replaces : U64
  evictions : U64
  rejects : RejectCounters

/-- `New` -/
def new (cfg : Config) : Pool where
  policy := cfg.policy
  byHash := ∅
  bySender := ∅
  admits := 0
  replaces := 0
  evictions := 0
  rejects := ⟨0, 0, 0, 0, 0, 0, 0, 0, 0, 0⟩

/-- An order in which `range` goes through the values of a map. -/
structure RangeOrder (K V : Type) where
  list : GoMap K V → List V
  perm : ∀ m, (list m).Perm m.values

namespace Pool

variable (p : Pool)

/-- `noteRejectLocked` -/
def noteReject (err : PoolError) : Pool :=
  let r := { p.rejects with total := p.rejects.total + 1 }
  { p with
    rejects :=
      match err with
      | .poolFull => { r with poolFull := r.poolFull + 1 }
      | .senderLimit => { r with senderLimit := r.senderLimit + 1 }
      | .underpriced => { r with underpriced := r.underpriced + 1 }
      | .replaceUnder => { r with replaceUnder := r.replaceUnder + 1 }
      | .alreadyKnown => { r with alreadyKnown := r.alreadyKnown + 1 }
      | .txTooLarge => { r with txTooLarge := r.txTooLarge + 1 }
      | .wrongChain => { r with wrongChain := r.wrongChain + 1 }
      | .rbfDisabled => { r with rbfDisabled := r.rbfDisabled + 1 }
      | .invalidTx => { r with invalid := r.invalid + 1 } }

/-- `removeLocked` -/
def remove (hash : Hash) : Pool :=
  match p.byHash.get? hash with
  | none => p
  | some e =>
    { p with
      byHash := p.byHash.delete hash
      bySender :=
        match p.bySender.get? e.sender with
        | none => p.bySender
        | some m =>
          let m := m.delete e.nonce
          if m.len = 0 then p.bySender.delete e.sender else p.bySender.set e.sender m }

/-- The price that a replacement of `old` has to reach. -/
def replacementPrice (old : Entry) : ℤ :=
  old.price * (100 + p.policy.priceBumpPercent).toInt / 100

/-- The first part of `add`: an entry with the same sender and nonce is removed if the new one may
replace it. The flag tells whether one was removed. -/
def replaceOld (e : Entry) : Except PoolError (Bool × Pool) :=
  match p.bySender.get? e.sender with
  | none => .ok (false, p)
  | some m =>
    match m.get? e.nonce with
    | none => .ok (false, p)
    | some oldHash =>
      match p.byHash.get? oldHash with
      | none => .ok (false, { p with bySender := p.bySender.set e.sender (m.delete e.nonce) })
      | some old =>
        if p.policy.priceBumpPercent = 0 then .error .rbfDisabled
        else if (e.price : ℤ) < p.replacementPrice old then .error .replaceUnder
        else .ok (true, p.remove oldHash)

/-- The number of nonces under which a sender has an entry. -/
def senderCount (a : Address) : ℕ :=
  match p.bySender.get? a with
  | none => 0
  | some m => m.len

/-- One step of the search for the cheapest entry below a price. -/
def cheaper (price : ℕ) (worst : Option Entry) (e : Entry) : Option Entry :=
  if price ≤ e.price then worst
  else
    match worst with
    | none => some e
    | some w => if e.price < w.price then some e else some w

/-- `evictCheaperThan` -/
def evictCheaperThan (order : RangeOrder Hash Entry) (price : ℕ) : Bool × Pool :=
  match (order.list p.byHash).foldl (cheaper price) none with
  | none => (false, p)
  | some worst =>
    (true, { p.remove worst.hash with evictions := (p.remove worst.hash).evictions + 1 })

/-- The last part of `add`: the entry goes into both maps. -/
def insert (e : Entry) (replaced : Bool) : Pool :=
  { p with
    byHash := p.byHash.set e.hash e
    bySender :=
      p.bySender.set e.sender (((p.bySender.get? e.sender).getD ∅).set e.nonce e.hash)
    admits := p.admits + 1
    replaces := if replaced then p.replaces + 1 else p.replaces }

/-- `add`: the hash and the error it returns, and the pool. -/
def add (order : RangeOrder Hash Entry) (e : Entry) : (Hash × Option PoolError) × Pool :=
  if (p.byHash.get? e.hash).isSome then ((e.hash, some .alreadyKnown), p.noteReject .alreadyKnown)
  else
    match p.replaceOld e with
    | .error err => ((0, some err), p.noteReject err)
    | .ok (replaced, p) =>
      if p.policy.maxPerSender ≤ p.senderCount e.sender then
        ((0, some .senderLimit), p.noteReject .senderLimit)
      else if p.policy.maxGlobal ≤ p.byHash.len then
        match p.evictCheaperThan order e.price with
        | (false, p) => ((0, some .poolFull), p.noteReject .poolFull)
        | (true, p) => ((e.hash, none), p.insert e replaced)
      else ((e.hash, none), p.insert e replaced)

end Pool

/-! ## Admission -/

/-- `evmPrice` -/
def evmPrice (policy : Policy) (tx : EthTx) : Except PoolError (ℕ × Option ℕ) :=
  if tx.txType = 2 then
    if (tx.gasFeeCap : ℤ) < policy.minGasPriceWei then .error .underpriced
    else if (tx.gasTipCap : ℤ) < policy.minTipWei then .error .underpriced
    else .ok (tx.gasFeeCap, some tx.gasTipCap)
  else if (tx.gasPrice : ℤ) < policy.minGasPriceWei then .error .underpriced
  else .ok (tx.gasPrice, none)

/-- The arguments of `AddEVM`; `marshalled` is what `MarshalBinary` of the transaction gives, which
is read if there are no raw bytes. -/
structure EvmArgs where
  tx : Option EthTx
  sender : Address
  raw : Bytes
  marshalled : Option Bytes
  chainID : Option ℕ
  now : ℕ

/-- The entry that `AddEVM` builds, if the transaction passes its checks. -/
def EvmArgs.entry (policy : Policy) (args : EvmArgs) : Except PoolError Entry :=
  match args.tx with
  | none => .error .invalidTx
  | some tx =>
    match if args.raw = [] then args.marshalled else some args.raw with
    | none => .error .invalidTx
    | some raw =>
      if policy.maxTxBytes < raw.length then .error .txTooLarge
      else if tx.chainID ≠ 0 ∧ ∃ c ∈ args.chainID, tx.chainID ≠ c then .error .wrongChain
      else
        match evmPrice policy tx with
        | .error err => .error err
        | .ok (price, tip) =>
          .ok ⟨tx.hash, args.sender, tx.nonce, .evm, raw, price, tip, raw.length, args.now⟩

/-- The arguments of `AddDew`. -/
structure DewArgs where
  tx : Option DewTx
  raw : Bytes
  chainID : Option ℕ
  now : ℕ

/-- The entry that `AddDew` builds, if the transaction passes its checks. -/
def DewArgs.entry (policy : Policy) (args : DewArgs) : Except PoolError Entry :=
  match args.tx with
  | none => .error .invalidTx
  | some tx =>
    let raw := if args.raw = [] then tx.marshalBinary else args.raw
    if policy.maxTxBytes < raw.length then .error .txTooLarge
    else if ∃ c ∈ args.chainID, tx.chainID ≠ c then .error .wrongChain
    else
      let fee := if tx.fee = 0 then policy.minDewFeeWei else tx.fee
      if fee < policy.minDewFeeWei then .error .underpriced
      else .ok ⟨tx.hash, tx.sender, tx.nonce, .dew, raw, fee.toNat, none, raw.length, args.now⟩

namespace Pool

/-- What `AddEVM` and `AddDew` do with the outcome of their checks. -/
def accept (p : Pool) (order : RangeOrder Hash Entry) (entry : Except PoolError Entry) :
    (Hash × Option PoolError) × Pool :=
  match entry with
  | .error err => ((0, some err), p.noteReject err)
  | .ok e => p.add order e

/-- `AddEVM` -/
def addEVM (p : Pool) (order : RangeOrder Hash Entry) (args : EvmArgs) :
    (Hash × Option PoolError) × Pool :=
  p.accept order (args.entry p.policy)

/-- `AddDew` -/
def addDew (p : Pool) (order : RangeOrder Hash Entry) (args : DewArgs) :
    (Hash × Option PoolError) × Pool :=
  p.accept order (args.entry p.policy)

end Pool

/-! ## The two maps -/

namespace Pool

/-- The hash under a sender and a nonce. -/
def slot (p : Pool) (a : Address) (n : U64) : Option Hash :=
  (p.bySender.get? a).bind fun m => m.get? n

/-- Both maps describe the same entries, one for each sender and nonce, and no sender has an empty
map. -/
structure Indexed (p : Pool) : Prop where
  hash_eq : ∀ {h e}, p.byHash.get? h = some e → e.hash = h
  slot_iff : ∀ {a n h},
    p.slot a n = some h ↔ ∃ e, p.byHash.get? h = some e ∧ e.sender = a ∧ e.nonce = n
  nonempty : ∀ {a m}, p.bySender.get? a = some m → m.len ≠ 0

variable {p : Pool}

theorem Indexed.slot_of_entry (hp : p.Indexed) {h : Hash} {e : Entry}
    (he : p.byHash.get? h = some e) : p.slot e.sender e.nonce = some h :=
  hp.slot_iff.mpr ⟨e, he, rfl, rfl⟩

/-- The map of a sender that has an entry. -/
theorem Indexed.senderMap (hp : p.Indexed) {h : Hash} {e : Entry}
    (he : p.byHash.get? h = some e) :
    ∃ m, p.bySender.get? e.sender = some m ∧ m.get? e.nonce = some h :=
  Option.bind_eq_some_iff.mp (hp.slot_of_entry he)

theorem indexed_new (cfg : Config) : (new cfg).Indexed where
  hash_eq h := by
    rw [new, GoMap.get?_empty] at h
    cases h
  slot_iff := by
    intro a n h
    simp [slot, new]
  nonempty h := by
    rw [new, GoMap.get?_empty] at h
    cases h

theorem Indexed.noteReject (hp : p.Indexed) (err : PoolError) : (p.noteReject err).Indexed where
  hash_eq := hp.hash_eq
  slot_iff := hp.slot_iff
  nonempty := hp.nonempty

/-! ### Removal -/

theorem remove_of_none {h : Hash} (hnone : p.byHash.get? h = none) : p.remove h = p := by
  rw [remove, hnone]

theorem byHash_remove_of_some {h : Hash} {e : Entry} (he : p.byHash.get? h = some e) :
    (p.remove h).byHash = p.byHash.delete h := by
  rw [remove, he]

theorem get?_byHash_remove (h h' : Hash) :
    (p.remove h).byHash.get? h' = if h' = h then none else p.byHash.get? h' := by
  cases he : p.byHash.get? h with
  | none =>
      rw [remove_of_none he]
      by_cases heq : h' = h
      · rw [if_pos heq, heq, he]
      · rw [if_neg heq]
  | some e => rw [byHash_remove_of_some he, GoMap.get?_delete]

theorem policy_remove (h : Hash) : (p.remove h).policy = p.policy := by
  unfold remove
  split <;> rfl

/-- The map of the sender loses the nonce, and is dropped when nothing is left. -/
theorem get?_bySender_remove {h : Hash} {e : Entry} {m : GoMap U64 Hash}
    (he : p.byHash.get? h = some e) (hm : p.bySender.get? e.sender = some m) (a : Address) :
    (p.remove h).bySender.get? a =
      if a = e.sender then if (m.delete e.nonce).len = 0 then none else some (m.delete e.nonce)
      else p.bySender.get? a := by
  rw [remove, he]
  dsimp only
  rw [hm]
  dsimp only
  by_cases hlen : (m.delete e.nonce).len = 0
  · rw [if_pos hlen, if_pos hlen, GoMap.get?_delete]
  · rw [if_neg hlen, if_neg hlen, GoMap.get?_set]

theorem slot_remove (hp : p.Indexed) {h : Hash} {e : Entry} (he : p.byHash.get? h = some e)
    (a : Address) (n : U64) :
    (p.remove h).slot a n = if a = e.sender ∧ n = e.nonce then none else p.slot a n := by
  obtain ⟨m, hm, -⟩ := hp.senderMap he
  rw [slot, get?_bySender_remove he hm]
  by_cases ha : a = e.sender
  · subst ha
    rw [if_pos rfl, slot, hm]
    by_cases hlen : (m.delete e.nonce).len = 0
    · -- nothing is left, so there was no other nonce
      have hnil := GoMap.entries_eq_nil_iff.mp (List.length_eq_zero_iff.mp hlen) n
      rw [GoMap.get?_delete] at hnil
      rw [if_pos hlen]
      by_cases hn : n = e.nonce
      · rw [if_pos ⟨rfl, hn⟩]
        rfl
      · rw [if_neg hn] at hnil
        rw [if_neg (fun h => hn h.2)]
        exact hnil.symm
    · rw [if_neg hlen]
      show (m.delete e.nonce).get? n = _
      rw [GoMap.get?_delete]
      simp
  · rw [if_neg ha, if_neg (fun h => ha h.1), slot]

theorem Indexed.remove (hp : p.Indexed) (h : Hash) : (p.remove h).Indexed := by
  cases he : p.byHash.get? h with
  | none => rwa [remove_of_none he]
  | some e =>
      obtain ⟨m, hm, -⟩ := hp.senderMap he
      refine ⟨?_, ?_, ?_⟩
      · intro h' e' he'
        rw [get?_byHash_remove] at he'
        split at he'
        · cases he'
        · exact hp.hash_eq he'
      · intro a n h'
        rw [slot_remove hp he]
        simp only [get?_byHash_remove]
        by_cases hslot : a = e.sender ∧ n = e.nonce
        · obtain ⟨rfl, rfl⟩ := hslot
          rw [if_pos ⟨rfl, rfl⟩]
          constructor
          · intro hnone
            cases hnone
          · -- another entry at the same sender and nonce would have the same hash
            rintro ⟨e', he', hsender, hnonce⟩
            split at he'
            · cases he'
            · rename_i hne
              have hslot := hp.slot_of_entry he'
              rw [hsender, hnonce, hp.slot_of_entry he] at hslot
              exact absurd (Option.some.inj hslot).symm hne
        · rw [if_neg hslot, hp.slot_iff]
          constructor
          · rintro ⟨e', he', hsender, hnonce⟩
            refine ⟨e', ?_, hsender, hnonce⟩
            rw [if_neg, he']
            rintro rfl
            rw [he] at he'
            obtain rfl := Option.some.inj he'
            exact hslot ⟨hsender.symm, hnonce.symm⟩
          · rintro ⟨e', he', hsender, hnonce⟩
            split at he'
            · cases he'
            · exact ⟨e', he', hsender, hnonce⟩
      · intro a m' hm'
        rw [get?_bySender_remove he hm] at hm'
        split at hm'
        · split at hm'
          · cases hm'
          · rename_i hlen
            rwa [← Option.some.inj hm']
        · exact hp.nonempty hm'

theorem len_remove_of_some {h : Hash} {e : Entry} (he : p.byHash.get? h = some e) :
    (p.remove h).byHash.len + 1 = p.byHash.len := by
  rw [byHash_remove_of_some he]
  exact GoMap.len_delete_of_some he

/-! ### Insertion -/

theorem get?_byHash_insert (e : Entry) (r : Bool) (h : Hash) :
    (p.insert e r).byHash.get? h = if h = e.hash then some e else p.byHash.get? h :=
  GoMap.get?_set _ _ _ _

theorem get?_bySender_insert (e : Entry) (r : Bool) (a : Address) :
    (p.insert e r).bySender.get? a =
      if a = e.sender then some (((p.bySender.get? e.sender).getD ∅).set e.nonce e.hash)
      else p.bySender.get? a :=
  GoMap.get?_set _ _ _ _

theorem slot_insert (e : Entry) (r : Bool) (a : Address) (n : U64) :
    (p.insert e r).slot a n =
      if a = e.sender ∧ n = e.nonce then some e.hash else p.slot a n := by
  rw [slot, get?_bySender_insert]
  by_cases ha : a = e.sender
  · subst ha
    rw [if_pos rfl, slot]
    show GoMap.get? _ n = _
    rw [GoMap.get?_set]
    cases p.bySender.get? e.sender with
    | none => simp
    | some m => simp
  · rw [if_neg ha, if_neg (fun h => ha h.1), slot]

theorem Indexed.insert (hp : p.Indexed) {e : Entry} (hnew : p.byHash.get? e.hash = none)
    (hslot : p.slot e.sender e.nonce = none) (r : Bool) : (p.insert e r).Indexed := by
  refine ⟨?_, ?_, ?_⟩
  · intro h e' he'
    rw [get?_byHash_insert] at he'
    split at he'
    · rename_i heq
      rw [← Option.some.inj he', heq]
    · exact hp.hash_eq he'
  · intro a n h
    rw [slot_insert]
    simp only [get?_byHash_insert]
    by_cases hs : a = e.sender ∧ n = e.nonce
    · obtain ⟨rfl, rfl⟩ := hs
      rw [if_pos ⟨rfl, rfl⟩]
      constructor
      · intro h'
        obtain rfl := Option.some.inj h'
        exact ⟨e, if_pos rfl, rfl, rfl⟩
      · rintro ⟨e', he', hsender, hnonce⟩
        split at he'
        · rename_i heq
          rw [heq]
        · have := hp.slot_of_entry he'
          rw [hsender, hnonce, hslot] at this
          cases this
    · rw [if_neg hs, hp.slot_iff]
      constructor
      · rintro ⟨e', he', hsender, hnonce⟩
        refine ⟨e', ?_, hsender, hnonce⟩
        rw [if_neg, he']
        rintro rfl
        rw [hnew] at he'
        cases he'
      · rintro ⟨e', he', hsender, hnonce⟩
        split at he'
        · obtain rfl := Option.some.inj he'
          exact absurd ⟨hsender.symm, hnonce.symm⟩ hs
        · exact ⟨e', he', hsender, hnonce⟩
  · intro a m hm
    rw [get?_bySender_insert] at hm
    split at hm
    · -- the new nonce is in the map
      intro hlen
      have hnone := GoMap.entries_eq_nil_iff.mp (List.length_eq_zero_iff.mp hlen) e.nonce
      rw [← Option.some.inj hm, GoMap.get?_set, if_pos rfl] at hnone
      cases hnone
    · exact hp.nonempty hm

/-! ### Entries of a sender -/

/-- The entries of the pool. -/
def entries (p : Pool) : List Entry :=
  p.byHash.values

theorem mem_entries {e : Entry} : e ∈ p.entries ↔ ∃ h, p.byHash.get? h = some e :=
  GoMap.mem_values

/-- No two entries have the same sender and nonce. -/
theorem Indexed.pairwise (hp : p.Indexed) :
    p.entries.Pairwise fun e e' => e.sender = e'.sender → e.nonce ≠ e'.nonce := by
  refine List.pairwise_map.mpr (p.byHash.nodupKeys.pairwise_ne.imp_of_mem ?_)
  intro x y hx hy hne hsender hnonce
  have hslot := hp.slot_of_entry (GoMap.get?_eq_some_iff.mpr hx)
  rw [hsender, hnonce, hp.slot_of_entry (GoMap.get?_eq_some_iff.mpr hy)] at hslot
  exact hne (Option.some.inj hslot).symm

/-- The map of a sender has one nonce for each of its entries. -/
theorem senderCount_eq (hp : p.Indexed) (a : Address) :
    p.senderCount a = (p.entries.filter fun e => e.sender = a).length := by
  have hmem (n : U64) : n ∈ (p.entries.filter fun e => e.sender = a).map Entry.nonce ↔
      (p.slot a n).isSome := by
    rw [Option.isSome_iff_exists]
    simp only [hp.slot_iff, List.mem_map, List.mem_filter, mem_entries, decide_eq_true_eq]
    constructor
    · rintro ⟨e, ⟨⟨h, he⟩, hsender⟩, hnonce⟩
      exact ⟨h, e, he, hsender, hnonce⟩
    · rintro ⟨h, e, he, hsender, hnonce⟩
      exact ⟨e, ⟨⟨h, he⟩, hsender⟩, hnonce⟩
  unfold senderCount
  cases hm : p.bySender.get? a with
  | none =>
      symm
      rw [List.length_eq_zero_iff, ← List.map_eq_nil_iff (f := Entry.nonce),
        List.eq_nil_iff_forall_not_mem]
      intro n hn
      have hslot := (hmem n).mp hn
      rw [slot, hm] at hslot
      cases hslot
  | some m =>
      have hnodup : ((p.entries.filter fun e => e.sender = a).map Entry.nonce).Nodup := by
        refine List.pairwise_map.mpr ((hp.pairwise.filter _).imp_of_mem ?_)
        intro e e' he he' hne
        simp only [List.mem_filter, decide_eq_true_eq] at he he'
        exact hne (he.2.trans he'.2.symm)
      have hperm : m.keys.Perm ((p.entries.filter fun e => e.sender = a).map Entry.nonce) := by
        rw [List.perm_ext_iff_of_nodup m.keys_nodup hnodup]
        intro n
        rw [hmem, slot, hm, ← GoMap.isSome_get?]
        rfl
      have hlen := hperm.length_eq
      rw [List.length_map] at hlen
      rw [← hlen]
      simp [AList.keys, List.keys, GoMap.len]

theorem senderCount_remove (hp : p.Indexed) {h : Hash} {e : Entry}
    (he : p.byHash.get? h = some e) (a : Address) :
    (p.remove h).senderCount a + (if a = e.sender then 1 else 0) = p.senderCount a := by
  obtain ⟨m, hm, hnonce⟩ := hp.senderMap he
  have hlen := GoMap.len_delete_of_some hnonce
  unfold senderCount
  rw [get?_bySender_remove he hm]
  by_cases ha : a = e.sender
  · subst ha
    rw [if_pos rfl, if_pos rfl, hm]
    by_cases hzero : (m.delete e.nonce).len = 0
    · rw [if_pos hzero]
      dsimp only
      omega
    · rw [if_neg hzero]
      dsimp only
      omega
  · rw [if_neg ha, if_neg ha, Nat.add_zero]

theorem senderCount_insert {e : Entry} (hslot : p.slot e.sender e.nonce = none) (r : Bool)
    (a : Address) :
    (p.insert e r).senderCount a = p.senderCount a + if a = e.sender then 1 else 0 := by
  unfold senderCount
  rw [get?_bySender_insert]
  by_cases ha : a = e.sender
  · subst ha
    rw [if_pos rfl, if_pos rfl]
    rw [slot] at hslot
    cases hm : p.bySender.get? e.sender with
    | none => exact GoMap.len_set_of_none (GoMap.get?_empty _) _
    | some m =>
        rw [hm] at hslot
        exact GoMap.len_set_of_none hslot _
  · rw [if_neg ha, if_neg ha, Nat.add_zero]

/-! ### Eviction -/

theorem cheaper_eq_none {price : ℕ} {w : Option Entry} {e : Entry} (h : cheaper price w e = none) :
    w = none ∧ price ≤ e.price := by
  unfold cheaper at h
  split at h
  · rename_i hprice
    exact ⟨h, hprice⟩
  · split at h
    · cases h
    · split at h <;> cases h

theorem cheaper_eq_some {price : ℕ} {w : Option Entry} {e x : Entry}
    (hw : ∀ y ∈ w, y.price < price) (h : cheaper price w e = some x) :
    (x ∈ w ∨ x = e) ∧ x.price < price ∧ (∀ y ∈ w, x.price ≤ y.price) ∧ x.price ≤ e.price := by
  unfold cheaper at h
  split at h
  · rename_i hprice
    have hx := hw x h
    refine ⟨.inl h, hx, ?_, by omega⟩
    intro y hy
    rw [Option.some.inj (h.symm.trans hy)]
  · rename_i hprice
    split at h
    · obtain rfl := Option.some.inj h
      exact ⟨.inr rfl, by omega, by simp, le_rfl⟩
    · rename_i v
      have hv := hw v rfl
      split at h
      · obtain rfl := Option.some.inj h
        refine ⟨.inr rfl, by omega, ?_, le_rfl⟩
        intro y hy
        rw [← Option.some.inj hy]
        omega
      · obtain rfl := Option.some.inj h
        refine ⟨.inl rfl, hv, ?_, by omega⟩
        intro y hy
        rw [Option.some.inj hy]

/-- The loop ends with a cheapest one of the entries it may take. -/
theorem foldl_cheaper_some {price : ℕ} {l : List Entry} {w : Option Entry} {worst : Entry}
    (hw : ∀ y ∈ w, y.price < price) (h : l.foldl (cheaper price) w = some worst) :
    (worst ∈ w ∨ worst ∈ l) ∧ worst.price < price ∧ (∀ y ∈ w, worst.price ≤ y.price) ∧
      ∀ e ∈ l, worst.price ≤ e.price := by
  induction l generalizing w with
  | nil =>
      rw [List.foldl_nil] at h
      subst h
      refine ⟨.inl rfl, hw worst rfl, ?_, by simp⟩
      intro y hy
      rw [Option.some.inj hy]
  | cons e l ih =>
      rw [List.foldl_cons] at h
      cases hstep : cheaper price w e with
      | none =>
          obtain ⟨rfl, hprice⟩ := cheaper_eq_none hstep
          rw [hstep] at h
          obtain ⟨hmem, hworst, -, hl⟩ := ih (by simp) h
          have hmem : worst ∈ l := hmem.resolve_left (by simp)
          exact ⟨.inr (List.mem_cons_of_mem e hmem), hworst, by simp,
            List.forall_mem_cons.mpr ⟨by omega, hl⟩⟩
      | some x =>
          obtain ⟨hx, hprice, hxw, hxe⟩ := cheaper_eq_some hw hstep
          rw [hstep] at h
          obtain ⟨hmem, hworst, hle, hl⟩ := ih (by simpa using hprice) h
          have hle : worst.price ≤ x.price := hle x rfl
          refine ⟨?_, hworst, ?_, List.forall_mem_cons.mpr ⟨by omega, hl⟩⟩
          · rcases hmem with hmem | hmem
            · obtain rfl := Option.some.inj hmem
              rcases hx with hx | rfl
              · exact .inl hx
              · exact .inr List.mem_cons_self
            · exact .inr (List.mem_cons_of_mem e hmem)
          · intro y hy
            exact hle.trans (hxw y hy)

/-- What `evictCheaperThan` removes: an entry of least price, if that is below the given one. -/
theorem evictCheaperThan_cases (hp : p.Indexed) (order : RangeOrder Hash Entry) (price : ℕ) :
    (p.evictCheaperThan order price = (false, p)) ∨
      ∃ worst q, p.evictCheaperThan order price = (true, q) ∧ q.policy = p.policy ∧
        q.byHash = (p.remove worst.hash).byHash ∧ q.bySender = (p.remove worst.hash).bySender ∧
        p.byHash.get? worst.hash = some worst ∧ worst.price < price ∧
        ∀ e ∈ p.entries, worst.price ≤ e.price := by
  unfold evictCheaperThan
  cases hfold : (order.list p.byHash).foldl (cheaper price) none with
  | none => exact .inl rfl
  | some worst =>
      obtain ⟨hmem, hprice, -, hle⟩ := foldl_cheaper_some (by simp) hfold
      have hmem : worst ∈ order.list p.byHash := hmem.resolve_left (by simp)
      obtain ⟨h, hget⟩ := mem_entries.mp ((order.perm p.byHash).mem_iff.mp hmem)
      obtain rfl := hp.hash_eq hget
      refine .inr ⟨worst, _, rfl, policy_remove _, rfl, rfl, hget, hprice, ?_⟩
      intro e he
      exact hle e ((order.perm p.byHash).mem_iff.mpr he)

/-! ### Replacement -/

/-- What the first part of `add` does with consistent maps. -/
theorem replaceOld_cases (hp : p.Indexed) (e : Entry) :
    (∃ err, p.replaceOld e = .error err) ∨
      (p.replaceOld e = .ok (false, p) ∧ p.slot e.sender e.nonce = none) ∨
      ∃ old, p.replaceOld e = .ok (true, p.remove old.hash) ∧ p.byHash.get? old.hash = some old ∧
        old.sender = e.sender ∧ old.nonce = e.nonce ∧ p.policy.priceBumpPercent ≠ 0 ∧
        p.replacementPrice old ≤ e.price := by
  unfold replaceOld
  cases hm : p.bySender.get? e.sender with
  | none => exact .inr (.inl ⟨rfl, by rw [slot, hm]; rfl⟩)
  | some m =>
      dsimp only
      cases hnonce : m.get? e.nonce with
      | none => exact .inr (.inl ⟨rfl, by rw [slot, hm]; exact hnonce⟩)
      | some h =>
          dsimp only
          have hslot : p.slot e.sender e.nonce = some h := by
            rw [slot, hm]
            exact hnonce
          obtain ⟨old, hold, hsender, hold_nonce⟩ := hp.slot_iff.mp hslot
          obtain rfl := hp.hash_eq hold
          rw [hold]
          dsimp only
          by_cases hbump : p.policy.priceBumpPercent = 0
          · exact .inl ⟨_, if_pos hbump⟩
          by_cases hprice : (e.price : ℤ) < p.replacementPrice old
          · exact .inl ⟨_, by rw [if_neg hbump, if_pos hprice]⟩
          · refine .inr (.inr ⟨old, ?_, hold, hsender, hold_nonce, hbump, not_lt.mp hprice⟩)
            rw [if_neg hbump, if_neg hprice]

/-! ## Additions -/

/-- The maps are consistent and the limits are kept. -/
structure Sound (p : Pool) : Prop where
  indexed : p.Indexed
  globally : (p.byHash.len : ℤ) ≤ p.policy.maxGlobal
  perSender : ∀ a, (p.senderCount a : ℤ) ≤ p.policy.maxPerSender

/-- The entry in whose place a new one comes, if any: the one it replaces, or a cheapest one of a
full pool. -/
inductive Displaced (p : Pool) (e : Entry) : Option Entry → Prop
  | none : Displaced p e none
  | replaced {old : Entry} (hmem : old ∈ p.entries) (hsender : old.sender = e.sender)
      (hnonce : old.nonce = e.nonce) (hbump : 0 < p.policy.priceBumpPercent.toNat)
      (hprice : old.price * (100 + p.policy.priceBumpPercent.toNat) / 100 ≤ e.price) :
      Displaced p e (some old)
  | evicted {worst : Entry} (hmem : worst ∈ p.entries)
      (hleast : ∀ e' ∈ p.entries, worst.price ≤ e'.price) (hprice : worst.price < e.price)
      (hfull : (p.entries.length : ℤ) = p.policy.maxGlobal) : Displaced p e (some worst)

/-- The new entry is in the pool, and of the old ones at most one displaced entry is not. -/
def Gains (p q : Pool) (e : Entry) : Prop :=
  e ∉ p.entries ∧ ∃ removed, Displaced p e removed ∧
    ∀ x, x ∈ q.entries ↔ x = e ∨ x ∈ p.entries ∧ removed ≠ some x

theorem replacementPrice_eq (hbump : p.policy.priceBumpPercent.toNat < 2 ^ 63 - 100) (old : Entry) :
    p.replacementPrice old =
      (old.price * (100 + p.policy.priceBumpPercent.toNat) / 100 : ℕ) := by
  have hsum : (100 + p.policy.priceBumpPercent).toNat = 100 + p.policy.priceBumpPercent.toNat := by
    rw [BitVec.toNat_add]
    show (100 + p.policy.priceBumpPercent.toNat) % 2 ^ 64 = _
    omega
  have hfactor : (100 + p.policy.priceBumpPercent).toInt =
      ((100 + p.policy.priceBumpPercent.toNat : ℕ) : ℤ) := by
    rw [BitVec.toInt_eq_toNat_of_lt (by omega), hsum]
  rw [replacementPrice, hfactor]
  push_cast
  rfl

theorem not_mem_entries (hp : p.Indexed) {e : Entry} (hnew : p.byHash.get? e.hash = none) :
    e ∉ p.entries := by
  intro hmem
  obtain ⟨h, he⟩ := mem_entries.mp hmem
  rw [← hp.hash_eq he, hnew] at he
  cases he

theorem mem_entries_insert_remove (hp : p.Indexed) {q : Pool} {e old : Entry}
    (hold : p.byHash.get? old.hash = some old) (hq : q.byHash = (p.remove old.hash).byHash)
    (hnew : p.byHash.get? e.hash = none) (r : Bool) (x : Entry) :
    x ∈ (q.insert e r).entries ↔ x = e ∨ x ∈ p.entries ∧ some old ≠ some x := by
  simp only [mem_entries, get?_byHash_insert, hq, get?_byHash_remove]
  constructor
  · rintro ⟨h, hx⟩
    split at hx
    · exact .inl (Option.some.inj hx).symm
    · split at hx
      · cases hx
      · rename_i hne
        refine .inr ⟨⟨h, hx⟩, ?_⟩
        rintro heq
        rw [Option.some.inj heq] at hne
        exact hne (hp.hash_eq hx).symm
  · rintro (rfl | ⟨⟨h, hx⟩, hne⟩)
    · exact ⟨x.hash, if_pos rfl⟩
    · refine ⟨h, ?_⟩
      rw [if_neg, if_neg, hx]
      · rintro rfl
        rw [hold] at hx
        exact hne hx
      · rintro rfl
        rw [hnew] at hx
        cases hx

theorem mem_entries_insert {e : Entry} (hnew : p.byHash.get? e.hash = none) (r : Bool) (x : Entry) :
    x ∈ (p.insert e r).entries ↔ x = e ∨ x ∈ p.entries := by
  simp only [mem_entries, get?_byHash_insert]
  constructor
  · rintro ⟨h, hx⟩
    split at hx
    · exact .inl (Option.some.inj hx).symm
    · exact .inr ⟨h, hx⟩
  · rintro (rfl | ⟨h, hx⟩)
    · exact ⟨x.hash, if_pos rfl⟩
    · refine ⟨h, ?_⟩
      rw [if_neg, hx]
      rintro rfl
      rw [hnew] at hx
      cases hx

theorem Sound.noteReject (hp : p.Sound) (err : PoolError) : (p.noteReject err).Sound :=
  ⟨hp.indexed.noteReject err, hp.globally, hp.perSender⟩

/-- Only the policy and the two maps matter. -/
theorem Sound.congr {q : Pool} (hp : p.Sound) (hpolicy : q.policy = p.policy)
    (hbyHash : q.byHash = p.byHash) (hbySender : q.bySender = p.bySender) : q.Sound := by
  have hslot (a : Address) (n : U64) : q.slot a n = p.slot a n := by rw [slot, slot, hbySender]
  refine ⟨⟨?_, ?_, ?_⟩, ?_, ?_⟩
  · intro h e he
    rw [hbyHash] at he
    exact hp.indexed.hash_eq he
  · intro a n h
    rw [hslot, hbyHash]
    exact hp.indexed.slot_iff
  · intro a m hm
    rw [hbySender] at hm
    exact hp.indexed.nonempty hm
  · rw [hbyHash, hpolicy]
    exact hp.globally
  · intro a
    have hcount : q.senderCount a = p.senderCount a := by
      rw [senderCount, senderCount, hbySender]
    rw [hcount, hpolicy]
    exact hp.perSender a

theorem Sound.remove (hp : p.Sound) (h : Hash) : (p.remove h).Sound := by
  cases he : p.byHash.get? h with
  | none => rwa [remove_of_none he]
  | some e =>
      have hlen := len_remove_of_some he
      refine ⟨hp.indexed.remove h, ?_, ?_⟩
      · have := hp.globally
        rw [policy_remove]
        omega
      · intro a
        have hcount := senderCount_remove hp.indexed he a
        have := hp.perSender a
        rw [policy_remove]
        omega

/-- A new entry fits in where the limits leave room. -/
theorem Sound.insert (hp : p.Sound) {e : Entry} (hnew : p.byHash.get? e.hash = none)
    (hslot : p.slot e.sender e.nonce = none)
    (hcount : (p.senderCount e.sender : ℤ) < p.policy.maxPerSender)
    (hlen : (p.byHash.len : ℤ) < p.policy.maxGlobal) (r : Bool) : (p.insert e r).Sound := by
  refine ⟨hp.indexed.insert hnew hslot r, ?_, ?_⟩
  · show ((p.byHash.set e.hash e).len : ℤ) ≤ p.policy.maxGlobal
    rw [GoMap.len_set_of_none hnew]
    push_cast
    omega
  · intro a
    rw [senderCount_insert hslot]
    show ((p.senderCount a + if a = e.sender then 1 else 0 : ℕ) : ℤ) ≤ p.policy.maxPerSender
    have ha := hp.perSender a
    split
    · rename_i heq
      rw [← heq] at hcount
      push_cast
      omega
    · exact ha

/-- The outcome of an addition: an error without a change of the entries, or the new entry. -/
structure Added (p : Pool) (e : Entry) (out : (Hash × Option PoolError) × Pool) : Prop where
  sound : out.2.Sound
  policy : out.2.policy = p.policy
  error : ∀ err, out.1.2 = some err → out.2.entries = p.entries
  ok : out.1.2 = none → p.Gains out.2 e

theorem added_of_error (hp : p.Sound) (e : Entry) (h : Hash) (err : PoolError) :
    p.Added e ((h, some err), p.noteReject err) where
  sound := hp.noteReject err
  policy := rfl
  error _ _ := rfl
  ok h := by cases h

/-- An addition in the place of an entry that is removed. -/
theorem added_of_removed (hp : p.Sound) {e old : Entry} {q : Pool} (hpolicy : q.policy = p.policy)
    (hbyHash : q.byHash = (p.remove old.hash).byHash)
    (hbySender : q.bySender = (p.remove old.hash).bySender)
    (hold : p.byHash.get? old.hash = some old) (hnew : p.byHash.get? e.hash = none)
    (hslot : (p.remove old.hash).slot e.sender e.nonce = none)
    (hcount : ((p.remove old.hash).senderCount e.sender : ℤ) < p.policy.maxPerSender)
    (hdisplaced : p.Displaced e (some old)) (r : Bool) :
    p.Added e ((e.hash, none), q.insert e r) := by
  have hq : q.Sound :=
    (hp.remove old.hash).congr (hpolicy.trans (policy_remove _).symm) hbyHash hbySender
  have hlen : q.byHash.len + 1 = p.byHash.len := by
    rw [hbyHash, len_remove_of_some hold]
  have hglobally := hp.globally
  refine ⟨hq.insert ?_ ?_ ?_ ?_ r, hpolicy, ?_, ?_⟩
  · rw [hbyHash, get?_byHash_remove, hnew, ite_self]
  · rwa [slot, hbySender]
  · rwa [senderCount, hbySender, hpolicy]
  · rw [hpolicy]
    omega
  · intro err herr
    cases herr
  · intro _
    exact ⟨not_mem_entries hp.indexed hnew, some old, hdisplaced,
      mem_entries_insert_remove hp.indexed hold hbyHash hnew r⟩

/-- The last part of `add` when nothing is replaced. -/
theorem added_of_free (hp : p.Sound) (order : RangeOrder Hash Entry) {e : Entry}
    (hnew : p.byHash.get? e.hash = none) (hslot : p.slot e.sender e.nonce = none)
    (hcount : (p.senderCount e.sender : ℤ) < p.policy.maxPerSender) :
    p.Added e
      (if p.policy.maxGlobal ≤ p.byHash.len then
        match p.evictCheaperThan order e.price with
        | (false, p) => ((0, some .poolFull), p.noteReject .poolFull)
        | (true, p) => ((e.hash, none), p.insert e false)
      else ((e.hash, none), p.insert e false)) := by
  have hglobally := hp.globally
  by_cases hfull : p.policy.maxGlobal ≤ p.byHash.len
  · rw [if_pos hfull]
    rcases evictCheaperThan_cases hp.indexed order e.price with
      hnone | ⟨worst, q, hq, hpolicy, hbyHash, hbySender, hworst, hprice, hleast⟩
    · rw [hnone]
      exact added_of_error hp e 0 .poolFull
    · rw [hq]
      refine added_of_removed hp hpolicy hbyHash hbySender hworst hnew ?_ ?_ ?_ false
      · rw [slot_remove hp.indexed hworst, hslot, ite_self]
      · have := senderCount_remove hp.indexed hworst e.sender
        omega
      · refine .evicted (mem_entries.mpr ⟨_, hworst⟩) hleast hprice ?_
        rw [entries, GoMap.length_values]
        omega
  · rw [if_neg hfull]
    refine ⟨hp.insert hnew hslot hcount (not_le.mp hfull) false, rfl, ?_, ?_⟩
    · intro err herr
      cases herr
    · intro _
      refine ⟨not_mem_entries hp.indexed hnew, none, .none, ?_⟩
      intro x
      rw [mem_entries_insert hnew]
      simp

theorem Sound.add (hp : p.Sound) (hbump : p.policy.priceBumpPercent.toNat < 2 ^ 63 - 100)
    (order : RangeOrder Hash Entry) (e : Entry) : p.Added e (p.add order e) := by
  unfold Pool.add
  cases hnew : p.byHash.get? e.hash with
  | some old => exact added_of_error hp e e.hash .alreadyKnown
  | none =>
      rw [if_neg (by simp)]
      rcases replaceOld_cases hp.indexed e with
        ⟨err, herr⟩ | ⟨hok, hslot⟩ | ⟨old, hok, hold, hsender, hnonce, hpercent, hprice⟩
      · rw [herr]
        exact added_of_error hp e 0 err
      · rw [hok]
        dsimp only
        by_cases hcount : p.policy.maxPerSender ≤ p.senderCount e.sender
        · rw [if_pos hcount]
          exact added_of_error hp e 0 .senderLimit
        · rw [if_neg hcount]
          exact added_of_free hp order hnew hslot (not_le.mp hcount)
      · -- the removed entry leaves room under both limits
        have hcount := senderCount_remove hp.indexed hold e.sender
        rw [if_pos hsender.symm] at hcount
        have hlen := len_remove_of_some hold
        have hper := hp.perSender e.sender
        have hglobally := hp.globally
        rw [hok]
        dsimp only
        rw [policy_remove, if_neg (by omega), if_neg (by omega)]
        refine added_of_removed hp (policy_remove _) rfl rfl hold hnew ?_ (by omega) ?_ true
        · rw [slot_remove hp.indexed hold, if_pos ⟨hsender.symm, hnonce.symm⟩]
        · refine .replaced (mem_entries.mpr ⟨_, hold⟩) hsender hnonce ?_ ?_
          · rw [Nat.pos_iff_ne_zero]
            intro hzero
            exact hpercent (BitVec.eq_of_toNat_eq hzero)
          · rw [replacementPrice_eq hbump] at hprice
            exact_mod_cast hprice

end Pool

/-! ## Runs -/

/-- The two ways to add a transaction. -/
inductive Addition where
  | evm (args : EvmArgs)
  | dew (args : DewArgs)

/-- The entry of an addition, if it passes the checks. -/
def Addition.entry (policy : Policy) : Addition → Except PoolError Entry
  | .evm args => args.entry policy
  | .dew args => args.entry policy

/-- What an addition returns, and the pool after it. -/
def Addition.run (p : Pool) (order : RangeOrder Hash Entry) :
    Addition → (Hash × Option PoolError) × Pool
  | .evm args => p.addEVM order args
  | .dew args => p.addDew order args

/-- The operations that change a pool. -/
inductive PoolOp where
  | add (order : RangeOrder Hash Entry) (a : Addition)
  | remove (hash : Hash)

def PoolOp.apply (p : Pool) : PoolOp → Pool
  | .add order a => (a.run p order).2
  | .remove hash => p.remove hash

theorem Addition.run_eq_admit (p : Pool) (order : RangeOrder Hash Entry) (a : Addition) :
    a.run p order = p.accept order (a.entry p.policy) := by
  cases a <;> rfl

/-- An addition keeps a pool sound; an error leaves the entries alone, and success means one new
entry in the place of at most one old one. -/
theorem Addition.spec {p : Pool} (hp : p.Sound)
    (hbump : p.policy.priceBumpPercent.toNat < 2 ^ 63 - 100) (order : RangeOrder Hash Entry)
    (a : Addition) :
    (a.run p order).2.Sound ∧ (a.run p order).2.policy = p.policy ∧
      (∀ err, (a.run p order).1.2 = some err → (a.run p order).2.entries = p.entries) ∧
      ((a.run p order).1.2 = none →
        ∃ e, a.entry p.policy = .ok e ∧ p.Gains (a.run p order).2 e) := by
  rw [a.run_eq_admit]
  unfold Pool.accept
  cases hentry : a.entry p.policy with
  | error err =>
      refine ⟨hp.noteReject err, rfl, fun _ _ => rfl, ?_⟩
      intro h
      cases h
  | ok e =>
      have hadded := hp.add hbump order e
      exact ⟨hadded.sound, hadded.policy, hadded.error, fun h => ⟨e, rfl, hadded.ok h⟩⟩

theorem sound_new {cfg : Config} (hglobal : 1 ≤ cfg.maxGlobal) (hper : 1 ≤ cfg.maxPerSender) :
    (new cfg).Sound where
  indexed := Pool.indexed_new cfg
  globally := by
    show ((0 : ℕ) : ℤ) ≤ if cfg.maxGlobal ≤ 0 then 4096 else cfg.maxGlobal
    split <;> omega
  perSender a := by
    show ((0 : ℕ) : ℤ) ≤ if cfg.maxPerSender ≤ 0 then 16 else cfg.maxPerSender
    split <;> omega

theorem sound_run {p : Pool} (hp : p.Sound)
    (hbump : p.policy.priceBumpPercent.toNat < 2 ^ 63 - 100) (ops : List PoolOp) :
    (ops.foldl PoolOp.apply p).Sound ∧ (ops.foldl PoolOp.apply p).policy = p.policy := by
  induction ops generalizing p with
  | nil => exact ⟨hp, rfl⟩
  | cons op ops ih =>
      cases op with
      | add order a =>
          obtain ⟨hsound, hpolicy, -⟩ := a.spec hp hbump order
          obtain ⟨hrun, hrun_policy⟩ := ih hsound (by rwa [hpolicy])
          exact ⟨hrun, hrun_policy.trans hpolicy⟩
      | remove h =>
          have hpolicy := Pool.policy_remove (p := p) h
          obtain ⟨hrun, hrun_policy⟩ := ih (hp.remove h) (by rwa [hpolicy])
          exact ⟨hrun, hrun_policy.trans hpolicy⟩

/-- The pool after any run: both maps describe the same entries, one for each sender and nonce and
within the limits; and every further addition that fails leaves the entries alone, while one that
succeeds brings in its entry and displaces at most one: the one with the same sender and nonce at
the price of a replacement, or a cheapest one of a full pool. -/
theorem pool_run (cfg : Config) (hglobal : 1 ≤ cfg.maxGlobal) (hper : 1 ≤ cfg.maxPerSender)
    (hbump : cfg.priceBumpPercent.toNat < 2 ^ 63 - 100) (ops : List PoolOp) :
    let p := ops.foldl PoolOp.apply (new cfg)
    (p.policy = cfg.policy ∧ p.Indexed ∧
      (p.entries.Pairwise fun e e' => e.sender = e'.sender → e.nonce ≠ e'.nonce) ∧
      (p.entries.length : ℤ) ≤ cfg.maxGlobal ∧
      ∀ a, ((p.entries.filter fun e => e.sender = a).length : ℤ) ≤ cfg.maxPerSender) ∧
    ∀ order (a : Addition),
      (∀ err, (a.run p order).1.2 = some err → (a.run p order).2.entries = p.entries) ∧
      ((a.run p order).1.2 = none →
        ∃ e, a.entry p.policy = .ok e ∧ p.Gains (a.run p order).2 e) := by
  intro p
  obtain ⟨hsound, hpolicy⟩ := sound_run (sound_new hglobal hper) hbump ops
  have hmaxGlobal : p.policy.maxGlobal = cfg.maxGlobal := by
    rw [hpolicy]
    exact if_neg (by omega)
  have hmaxPerSender : p.policy.maxPerSender = cfg.maxPerSender := by
    rw [hpolicy]
    exact if_neg (by omega)
  refine ⟨⟨hpolicy, hsound.indexed, hsound.indexed.pairwise, ?_, ?_⟩, ?_⟩
  · rw [← hmaxGlobal, Pool.entries, GoMap.length_values]
    exact hsound.globally
  · intro a
    rw [← hmaxPerSender, ← Pool.senderCount_eq hsound.indexed]
    exact hsound.perSender a
  · intro order a
    obtain ⟨-, -, herror, hok⟩ := a.spec hsound (by rwa [hpolicy]) order
    exact ⟨herror, hok⟩

/-- A transfer by the first account. -/
def sampleTx (nonce : U64) (gasPrice : ℕ) (hash : Hash) : EthTx :=
  ⟨0, 1, nonce, gasPrice, 0, 0, 21000, some 2, 0, [], hash⟩

/-- The order of the map itself. -/
def plainOrder : RangeOrder Hash Entry :=
  ⟨GoMap.values, fun _ => List.Perm.refl _⟩

/-- A transaction, one that replaces it at ten percent more, and one that is too cheap for that. -/
def sampleRun : List PoolOp :=
  [(sampleTx 0 1000000000 5), (sampleTx 0 1100000000 6), (sampleTx 0 1200000000 7)].map fun tx =>
    .add plainOrder (.evm ⟨some tx, 1, [0], none, some 1, 0⟩)

theorem sampleRun_consistent :
    (sampleRun.foldl PoolOp.apply (new defaultConfig)).entries.map Entry.hash = [6] ∧
      (sampleRun.foldl PoolOp.apply (new defaultConfig)).Indexed :=
  ⟨by decide,
    (pool_run defaultConfig (by decide) (by decide) (by decide) sampleRun).1.2.1⟩

end Mempool

end Dew
