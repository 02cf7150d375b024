/-
# The transactions of a block

`TransactionsInBlock` lists the lookups that are in memory first, in the order in which the map is
ranged over, then those of the body, and then what a scan of the lookup rows still finds, in the
order of the hashes. Every transaction of the block is listed once, whatever was in memory. The list
is in the order of the block for every order of the map exactly when nothing but the first
transaction is in memory and, for a block without a body, the others follow in the order of their
hashes (`lookupsForBlock_ordered_iff`).
-/
import Dew.Admission
import Dew.ChainRuns

open Bytes

namespace Dew

/-! ## The lookups of a block -/

/-- What is listed already is not listed again. -/
theorem ChainNode.foldl_addLookup {l : List Lookup} (hl : (l.map Lookup.txHash).Nodup)
    (out : List Lookup) :
    l.foldl addLookup out = out ++ l.filter fun look => look.txHash ∉ out.map Lookup.txHash :=
  Loops.foldl_addNew hl out

namespace ExecutedBlock

variable {e : ExecutedBlock}

theorem getElem?_placed (e : ExecutedBlock) (i : ℕ) :
    e.placed[i]? = e.results[i]?.map fun res => ⟨e.block, res, i⟩ := by
  simp [placed, Option.map_map, Function.comp_def]

/-- The indexes of a block run from zero without gaps. -/
theorem map_index_lookups (e : ExecutedBlock) :
    e.lookups.map Lookup.index = List.range e.results.length := by
  refine List.ext_getElem? fun i => ?_
  simp only [lookups, List.map_map, List.getElem?_map, getElem?_placed, Option.map_map]
  by_cases hi : i < e.results.length
  · simp [hi, Placed.lookup]
  · simp [not_lt.mp hi]

theorem map_txHash_lookups (e : ExecutedBlock) :
    e.lookups.map Lookup.txHash = e.results.map ExecResult.txHash := by
  refine List.ext_getElem? fun i => ?_
  simp only [lookups, List.map_map, List.getElem?_map, getElem?_placed, Option.map_map]
  rfl

/-- A lookup at the front of the block is that of its first transaction. -/
theorem index_of_head {look : Lookup} {rest : List Lookup} (h : e.lookups = look :: rest) :
    look.index = 0 ∧ ∀ x ∈ rest, x.index ≠ 0 := by
  have hrange := e.map_index_lookups
  rw [h, List.map_cons] at hrange
  cases hlen : e.results.length with
  | zero =>
      rw [hlen] at hrange
      cases hrange
  | succ m =>
      rw [hlen, List.range_succ_eq_map] at hrange
      obtain ⟨hhead, htail⟩ := List.cons.inj hrange
      refine ⟨hhead, fun x hx => ?_⟩
      have hmem : x.index ∈ (List.range m).map Nat.succ := htail ▸ List.mem_map_of_mem hx
      obtain ⟨i, -, hi⟩ := List.mem_map.mp hmem
      omega

end ExecutedBlock

theorem Hash.bytes_lt_bytes_iff {a b : Hash} : a.bytes < b.bytes ↔ a < b := by
  have hlt : ∀ x : Hash, x.toNat < 256 ^ 32 := fun x => lt_of_lt_of_eq x.isLt (by norm_num)
  rw [Hash.bytes, Hash.bytes, beBytes_lt_beBytes_iff (hlt a) (hlt b), BitVec.lt_def]

/-! ## The three passes -/

/-- A lookup is in memory. -/
def ChainNode.caches (n : ChainNode) (look : Lookup) : Bool :=
  (n.txIndex.get? look.txHash).isSome

namespace KeepsChain

variable {lib : Library} {n : ChainNode} {chain : List ExecutedBlock} {opened : ℕ} {num : U64}
  {e : ExecutedBlock}

/-- The lookups of the chain at a height are those of the block there. -/
theorem mem_lookups_iff (h : KeepsChain lib n chain opened) (he : chain[num.toNat]? = some e)
    {p : Placed} (hp : p ∈ placedIn chain) : p.lookup ∈ e.lookups ↔ p.block.number = num := by
  have hmem : e ∈ chain := List.mem_of_getElem? he
  have hnumber : e.block.number = num := BitVec.eq_of_toNat_eq (h.sound.numbered _ e he)
  constructor
  · intro hlook
    obtain ⟨q, hq, heq⟩ := List.mem_map.mp hlook
    have hblock : q.block.number = p.block.number := congrArg Lookup.blockNumber heq
    rw [← hblock, (ExecutedBlock.mem_placed.mp hq).1, hnumber]
  · intro hp'
    obtain ⟨e', he', hpe⟩ := mem_placedIn.mp hp
    have hblock := (ExecutedBlock.mem_placed.mp hpe).1
    obtain rfl := h.sound.eq_of_number he' hmem (by rw [← hblock, hp', hnumber])
    exact List.mem_map_of_mem hpe

theorem mem_placedIn_of_lookup (he : chain[num.toNat]? = some e) {look : Lookup}
    (hlook : look ∈ e.lookups) : ∃ p ∈ placedIn chain, p.lookup = look ∧ p ∈ e.placed := by
  obtain ⟨p, hp, rfl⟩ := List.mem_map.mp hlook
  exact ⟨p, mem_placedIn.mpr ⟨e, List.mem_of_getElem? he, hp⟩, rfl, hp⟩

theorem nodup_txHash (h : KeepsChain lib n chain opened) (he : chain[num.toNat]? = some e) :
    (e.lookups.map Lookup.txHash).Nodup := by
  have hhashes := h.sound.txHashes
  rw [placedIn, List.map_flatMap, List.nodup_flatMap] at hhashes
  have hplaced := hhashes.1 e (List.mem_of_getElem? he)
  simpa [ExecutedBlock.lookups, Placed.lookup, Function.comp_def] using hplaced

theorem nodup_lookups (h : KeepsChain lib n chain opened) (he : chain[num.toNat]? = some e) :
    e.lookups.Nodup :=
  (h.nodup_txHash he).of_map _

/-- What memory has of a lookup of the chain is that lookup. -/
theorem get?_txIndex (h : KeepsChain lib n chain opened) {p : Placed} (hp : p ∈ placedIn chain)
    {look : Lookup} (hget : n.txIndex.get? p.res.txHash = some look) : look = p.lookup := by
  obtain ⟨q, hq, hhash, rfl⟩ := h.cached _ look hget
  rw [h.sound.eq_of_txHash hq hp hhash]

/-- The first pass lists what is in memory of the block. -/
theorem perm_cached (h : KeepsChain lib n chain opened) (he : chain[num.toNat]? = some e)
    (order : Mempool.RangeOrder Hash Lookup) :
    ((order.list n.txIndex).filter (·.blockNumber = num)).Perm (e.lookups.filter n.caches) := by
  have hkeys : n.txIndex.values.map Lookup.txHash = n.txIndex.keys := by
    refine GoMap.map_values fun hash look hget => ?_
    obtain ⟨p, -, rfl, rfl⟩ := h.cached hash look hget
    rfl
  have hnodup : n.txIndex.values.Nodup :=
    List.Nodup.of_map Lookup.txHash (hkeys ▸ n.txIndex.keys_nodup)
  refine (List.perm_ext_iff_of_nodup
    (((order.perm n.txIndex).nodup_iff.mpr hnodup).filter _)
    ((h.nodup_lookups he).filter _)).mpr fun look => ?_
  rw [List.mem_filter, (order.perm n.txIndex).mem_iff, GoMap.mem_values, List.mem_filter,
    decide_eq_true_eq]
  constructor
  · rintro ⟨⟨hash, hget⟩, hnum⟩
    obtain ⟨p, hp, rfl, rfl⟩ := h.cached hash look hget
    refine ⟨(h.mem_lookups_iff he hp).mpr hnum, ?_⟩
    rw [ChainNode.caches, Option.isSome_iff_exists]
    exact ⟨p.lookup, hget⟩
  · rintro ⟨hlook, hcached⟩
    obtain ⟨p, hp, rfl, -⟩ := mem_placedIn_of_lookup he hlook
    obtain ⟨look, hget⟩ := Option.isSome_iff_exists.mp hcached
    obtain rfl := h.get?_txIndex hp hget
    exact ⟨⟨_, hget⟩, (h.mem_lookups_iff he hp).mp hlook⟩

/-- The second pass lists the lookups of the transactions of a body. -/
theorem fst_listBody (h : KeepsChain lib n chain opened) {ps : List Placed}
    {txs : List Transaction} (hps : ∀ p ∈ ps, p ∈ placedIn chain)
    (htxs : txs.map Transaction.hash = ps.map fun p => p.res.txHash) (out : List Lookup) :
    (ChainNode.listBody lib out txs n).1 =
      (ps.map Placed.lookup).foldl ChainNode.addLookup out := by
  induction ps generalizing txs n out with
  | nil =>
      obtain rfl : txs = [] := by simpa using htxs
      rfl
  | cons p ps ih =>
      cases txs with
      | nil => cases htxs
      | cons tx txs =>
          obtain ⟨hhead, htail⟩ := List.cons.inj htxs
          obtain ⟨hp, hps⟩ := List.forall_mem_cons.mp hps
          have hload := h.loadTxLookup tx.hash
          have hfst := h.fst_loadTxLookup hp
          rw [← show tx.hash = p.res.txHash from hhead] at hfst
          unfold ChainNode.listBody
          rcases hstep : n.loadTxLookup lib tx.hash with ⟨found, n₁⟩
          rw [hstep] at hload hfst
          obtain rfl : found = some p.lookup := hfst
          exact ih hload hps htail _

/-- A row of a lookup and its transaction. -/
def RowOf (lib : Library) (row : Bytes × Bytes) (p : Placed) : Prop :=
  row.1 = txLookupKey p.res.txHash ∧ Dew.decodeTxLookup lib row.2 p.res.txHash = .ok p.lookup

theorem exists_rowsOf {rows : List (Bytes × Bytes)}
    (h : ∀ row ∈ rows, ∃ p ∈ placedIn chain, RowOf lib row p) :
    ∃ ps : List Placed, (∀ p ∈ ps, p ∈ placedIn chain) ∧ List.Forall₂ (RowOf lib) rows ps := by
  induction rows with
  | nil => exact ⟨[], by simp, .nil⟩
  | cons row rows ih =>
      obtain ⟨hhead, htail⟩ := List.forall_mem_cons.mp h
      obtain ⟨p, hp, hrow⟩ := hhead
      obtain ⟨ps, hps, hrows⟩ := ih htail
      exact ⟨p :: ps, List.forall_mem_cons.mpr ⟨hp, hps⟩, .cons hrow hrows⟩

theorem map_key_rowsOf {rows : List (Bytes × Bytes)} {ps : List Placed}
    (h : List.Forall₂ (RowOf lib) rows ps) :
    ps.map (fun p => txLookupKey p.res.txHash) = rows.map Prod.fst := by
  induction h with
  | nil => rfl
  | cons hrow _ ih => rw [List.map_cons, List.map_cons, ih, hrow.1]

/-- The rows that a scan of the lookups visits are the transactions of the chain, in the order of
their hashes. -/
theorem exists_scanned (h : KeepsChain lib n chain opened) :
    ∃ ps : List Placed, (∀ p, p ∈ ps ↔ p ∈ placedIn chain) ∧
      ps.Pairwise (fun p q => p.res.txHash < q.res.txHash) ∧
      List.Forall₂ (RowOf lib) (n.node.db.withPrefix [0x54]) ps := by
  have hvisited : ∀ row ∈ n.node.db.withPrefix [0x54], ∃ p ∈ placedIn chain, RowOf lib row p :=
    fun row hrow => h.mem_withPrefix (show (row.1, row.2) ∈ _ from hrow)
  obtain ⟨ps, hps, hrows⟩ := exists_rowsOf hvisited
  have hkeys : ps.map (fun p => txLookupKey p.res.txHash) =
      (n.node.db.withPrefix [0x54]).map Prod.fst :=
    map_key_rowsOf hrows
  refine ⟨ps, fun p => ⟨hps p, fun hp => ?_⟩, ?_, hrows⟩
  · obtain ⟨blob, hget⟩ := h.get?_txLookupKey hp
    have hrow : (txLookupKey p.res.txHash, blob) ∈ n.node.db.withPrefix [0x54] :=
      Dew.mem_withPrefix.mpr ⟨hget, _, rfl⟩
    have hkey : txLookupKey p.res.txHash ∈ ps.map fun p => txLookupKey p.res.txHash :=
      hkeys ▸ List.mem_map_of_mem hrow
    obtain ⟨q, hq, heq⟩ := List.mem_map.mp hkey
    rwa [h.sound.eq_of_txHash hp (hps q hq) (Hash.bytes_injective (List.cons.inj heq).2.symm)]
  · have hsorted := pairwise_withPrefix n.node.db [0x54]
    rw [← List.pairwise_map, ← hkeys, List.pairwise_map] at hsorted
    refine hsorted.imp fun {p q} hlt => ?_
    rw [txLookupKey, txLookupKey, List.cons_lt_cons_iff, Hash.bytes_lt_bytes_iff] at hlt
    simpa using hlt

/-- The third pass lists the lookups at the height that the rows have. -/
theorem fst_listRows {rows : List (Bytes × Bytes)} {ps : List Placed}
    (hrows : List.Forall₂ (RowOf lib) rows ps)
    (num : U64) (out : List Lookup) (n : ChainNode) :
    (ChainNode.listRows lib num out rows n).1 =
      ((ps.map Placed.lookup).filter (·.blockNumber = num)).foldl ChainNode.addLookup out := by
  induction hrows generalizing n out with
  | nil => rfl
  | @cons row p rows ps hrow _ ih =>
      obtain ⟨key, value⟩ := row
      obtain ⟨rfl, hdecode⟩ : key = txLookupKey p.res.txHash ∧ _ := hrow
      have hhash : bytesToHash (txLookupKey p.res.txHash).tail = p.res.txHash := bytesToHash_bytes _
      have hlength : (txLookupKey p.res.txHash).length = 1 + 32 := by
        simp [txLookupKey]
      unfold ChainNode.listRows
      rw [hhash]
      dsimp only
      rw [hdecode, List.map_cons]
      by_cases hnum : p.lookup.blockNumber = num
      · rw [List.filter_cons_of_pos (by simpa using hnum), List.foldl_cons]
        by_cases hseen : p.res.txHash ∈ out.map Lookup.txHash
        · rw [if_pos (Or.inr hseen), ih, ChainNode.addLookup, Loops.addNew,
            if_pos (show p.lookup.txHash ∈ _ from hseen)]
        · rw [if_neg (by simp [hlength, hseen])]
          dsimp only
          rw [if_neg (not_not.mpr hnum), ih]
      · rw [List.filter_cons_of_neg (by simpa using hnum)]
        split
        · exact ih out n
        · dsimp only
          rw [if_pos hnum]
          exact ih out n

/-- The lookups that the scan finds at a height, in the order of their hashes. -/
theorem exists_scannedAt (h : KeepsChain lib n chain opened) (he : chain[num.toNat]? = some e) :
    ∃ found : List Lookup, found.Perm e.lookups ∧
      found.Pairwise (fun a b => a.txHash < b.txHash) ∧
      ∀ (out : List Lookup) (n' : ChainNode),
        (ChainNode.listRows lib num out (n.node.db.withPrefix [0x54]) n').1 =
          found.foldl ChainNode.addLookup out := by
  obtain ⟨ps, hps, hsorted, hrows⟩ := h.exists_scanned
  have hlt : ((ps.map Placed.lookup).filter (·.blockNumber = num)).Pairwise
      fun a b => a.txHash < b.txHash := by
    refine List.Pairwise.filter _ (List.pairwise_map.mpr ?_)
    exact hsorted
  have hnodup : ((ps.map Placed.lookup).filter (·.blockNumber = num)).Nodup :=
    hlt.imp fun hab heq => absurd (heq ▸ hab) (BitVec.lt_irrefl _)
  refine ⟨_, ?_, hlt, fun out n' => fst_listRows hrows num out n'⟩
  refine (List.perm_ext_iff_of_nodup hnodup (h.nodup_lookups he)).mpr fun look => ?_
  rw [List.mem_filter, decide_eq_true_eq, List.mem_map]
  constructor
  · rintro ⟨⟨p, hp, rfl⟩, hnum⟩
    exact (h.mem_lookups_iff he ((hps p).mp hp)).mpr hnum
  · intro hlook
    obtain ⟨p, hp, rfl, -⟩ := mem_placedIn_of_lookup he hlook
    exact ⟨⟨p, (hps p).mpr hp, rfl⟩, (h.mem_lookups_iff he hp).mp hlook⟩

/-- What is listed: the lookups in memory, then the others. -/
theorem fst_lookupsForBlock (h : KeepsChain lib n chain opened) (he : chain[num.toNat]? = some e)
    (order : Mempool.RangeOrder Hash Lookup) : ∃ rest : List Lookup,
      (n.lookupsForBlock lib order num).1 =
        (order.list n.txIndex).filter (·.blockNumber = num) ++ rest ∧
      (e.block.transactions ≠ [] → rest = e.lookups.filter fun look => !n.caches look) ∧
      (e.block.transactions = [] → rest.Perm (e.lookups.filter fun look => !n.caches look) ∧
        rest.Pairwise fun a b => a.txHash < b.txHash) := by
  have hperm := h.perm_cached he order
  generalize hC : (order.list n.txIndex).filter (·.blockNumber = num) = C at hperm
  have hnodup : (C.map Lookup.txHash).Nodup :=
    (hperm.map Lookup.txHash).nodup_iff.mpr
      ((h.nodup_txHash he).sublist (List.filter_sublist.map Lookup.txHash))
  have hfirst : C.foldl ChainNode.addLookup [] = C := by
    rw [ChainNode.foldl_addLookup hnodup]
    simp
  have hseen : ∀ look ∈ e.lookups, (look.txHash ∈ C.map Lookup.txHash ↔ n.caches look = true) := by
    intro look hlook
    constructor
    · intro hmem
      obtain ⟨c, hc, heq⟩ := List.mem_map.mp hmem
      obtain ⟨hclook, hcached⟩ := List.mem_filter.mp (hperm.mem_iff.mp hc)
      rwa [List.inj_on_of_nodup_map (h.nodup_txHash he) hclook hlook heq] at hcached
    · intro hcached
      exact List.mem_map_of_mem (hperm.mem_iff.mpr (List.mem_filter.mpr ⟨hlook, hcached⟩))
  have hrest : ∀ l : List Lookup, (∀ look ∈ l, look ∈ e.lookups) →
      l.filter (fun look => look.txHash ∉ C.map Lookup.txHash) =
        l.filter fun look => !n.caches look := by
    intro l hl
    refine List.filter_congr fun look hlook => ?_
    rw [Bool.eq_iff_iff, decide_eq_true_eq, hseen look (hl look hlook)]
    simp
  obtain ⟨b, hb, hblock⟩ := h.blocks.fst_loadBlockByNumber h.sound he
  have htxs : b.transactions = e.block.transactions := by
    rcases hblock with rfl | rfl <;> rfl
  have h₁ := h.loadBlockByNumber num
  have h₂ := h₁.listBody C e.block.transactions
  obtain ⟨found, hfound, hsorted, hscan⟩ := h₂.exists_scannedAt he
  have hload : (n.loadBlockByNumber num).1 = some b := hb
  have hlist : (n.lookupsForBlock lib order num).1 = found.foldl ChainNode.addLookup
      (ChainNode.listBody lib C e.block.transactions (n.loadBlockByNumber num).2).1 := by
    rw [← hscan _ (ChainNode.listBody lib C e.block.transactions (n.loadBlockByNumber num).2).2]
    simp only [ChainNode.lookupsForBlock, hC, hfirst, hload, Option.map_some, Option.getD_some, htxs]
  have hfoundNodup : (found.map Lookup.txHash).Nodup :=
    (hfound.map Lookup.txHash).nodup_iff.mpr (h.nodup_txHash he)
  by_cases hbody : e.block.transactions = []
  · -- nothing is in the body, and the scan finds the rest
    refine ⟨found.filter fun look => !n.caches look, ?_, fun hne => absurd hbody hne, fun _ => ?_⟩
    · rw [hlist, hbody, ChainNode.listBody, ChainNode.foldl_addLookup hfoundNodup,
        hrest found fun look hlook => hfound.mem_iff.mp hlook]
    · exact ⟨hfound.filter _, hsorted.filter _⟩
  · -- the body has every transaction of the block, and the scan finds nothing new
    refine ⟨e.lookups.filter fun look => !n.caches look, ?_, fun _ => rfl,
      fun hnil => absurd hnil hbody⟩
    have hhashes : e.block.transactions.map Transaction.hash =
        e.placed.map fun p => p.res.txHash := by
      rw [(h.sound.bodies e (List.mem_of_getElem? he)).resolve_left hbody, ← e.map_txHash_lookups,
        ExecutedBlock.lookups, List.map_map]
      rfl
    have hsecond := h₁.fst_listBody (fun p hp =>
      mem_placedIn.mpr ⟨e, List.mem_of_getElem? he, hp⟩) hhashes C
    rw [hlist, hsecond, ← ExecutedBlock.lookups, ChainNode.foldl_addLookup (h.nodup_txHash he),
      hrest e.lookups fun _ hlook => hlook, ChainNode.foldl_addLookup hfoundNodup]
    refine List.append_right_eq_self.mpr (List.filter_eq_nil_iff.mpr fun look hlook => ?_)
    have hmem : look ∈ e.lookups := hfound.mem_iff.mp hlook
    rw [decide_eq_true_eq, not_not, List.map_append, List.mem_append, hseen look hmem]
    cases hcached : n.caches look with
    | true => exact Or.inl rfl
    | false =>
        exact Or.inr (List.mem_map_of_mem (List.mem_filter.mpr ⟨hmem, by rw [hcached]; rfl⟩))

end KeepsChain

/-! ## The order of the list -/

/-- An order that lists one value first. -/
noncomputable def Mempool.RangeOrder.first {K V : Type} [DecidableEq V] (m : GoMap K V) (v : V)
    (hv : v ∈ m.values) : Mempool.RangeOrder K V where
  list m' := open Classical in if m' = m then v :: m.values.erase v else m'.values
  perm m' := by
    split
    · rename_i heq
      rw [heq]
      exact (List.perm_cons_erase hv).symm
    · exact List.Perm.refl _

theorem Mempool.RangeOrder.list_first {K V : Type} [DecidableEq V] {m : GoMap K V} {v : V}
    (hv : v ∈ m.values) : (Mempool.RangeOrder.first m v hv).list m = v :: m.values.erase v :=
  if_pos rfl

/-- Every transaction of a block is listed once. The list has the order of the block, for every order
of the map in memory, exactly when none but the first transaction is in memory and the others of a
block without a body follow in the order of their hashes. -/
theorem lookupsForBlock_ordered_iff {lib : Library} {n : ChainNode} {chain : List ExecutedBlock}
    {opened : ℕ} (h : Reaches lib n chain opened) {num : U64} {e : ExecutedBlock}
    (he : chain[num.toNat]? = some e) :
    e.lookups.map Lookup.index = List.range e.results.length ∧
    (∀ order, (n.lookupsForBlock lib order num).1.Perm e.lookups) ∧
    ((∀ order, (n.lookupsForBlock lib order num).1 = e.lookups) ↔
      (∀ look ∈ e.lookups, n.caches look → look.index = 0) ∧
      (e.block.transactions = [] → (e.lookups.filter fun look => !n.caches look).Pairwise
        fun a b => a.txHash < b.txHash)) := by
  have hkeeps := keepsChain_of_reaches h
  refine ⟨e.map_index_lookups, fun order => ?_, ?_, ?_⟩
  · obtain ⟨rest, hlist, hbody, hscan⟩ := hkeeps.fst_lookupsForBlock he order
    have hrest : rest.Perm (e.lookups.filter fun look => !n.caches look) := by
      by_cases hnil : e.block.transactions = []
      · exact (hscan hnil).1
      · rw [hbody hnil]
    rw [hlist]
    exact ((hkeeps.perm_cached he order).append hrest).trans (List.filter_append_perm _ _)
  · intro hall
    refine ⟨fun look hlook hcached => ?_, fun hnil => ?_⟩
    · -- with this lookup at the front of the map, it is at the front of the list
      obtain ⟨p, hp, rfl, -⟩ := KeepsChain.mem_placedIn_of_lookup he hlook
      obtain ⟨look, hget⟩ := Option.isSome_iff_exists.mp hcached
      obtain rfl := hkeeps.get?_txIndex hp hget
      have hvalue : p.lookup ∈ n.txIndex.values := GoMap.mem_values.mpr ⟨_, hget⟩
      obtain ⟨rest, hlist, -⟩ := hkeeps.fst_lookupsForBlock he
        (Mempool.RangeOrder.first n.txIndex p.lookup hvalue)
      have hnum : p.lookup.blockNumber = num := (hkeeps.mem_lookups_iff he hp).mp hlook
      rw [hall, Mempool.RangeOrder.list_first,
        List.filter_cons_of_pos (by simpa using hnum), List.cons_append] at hlist
      exact (ExecutedBlock.index_of_head hlist).1
    · obtain ⟨rest, hlist, -, hscan⟩ := hkeeps.fst_lookupsForBlock he
        ⟨GoMap.values, fun _ => List.Perm.refl _⟩
      obtain ⟨hperm, hsorted⟩ := hscan hnil
      have hcached := hkeeps.perm_cached he ⟨GoMap.values, fun _ => List.Perm.refl _⟩
      rw [hall] at hlist
      have hrest : (e.lookups.filter fun look => !n.caches look) = rest := by
        rw [hlist, List.filter_append, List.filter_eq_nil_iff.mpr, List.nil_append,
          List.filter_eq_self.mpr]
        · intro look hlook
          exact (List.mem_filter.mp (hperm.mem_iff.mp hlook)).2
        · intro look hlook
          rw [(List.mem_filter.mp (hcached.mem_iff.mp hlook)).2]
          decide
      rw [hrest]
      exact hsorted
  · rintro ⟨hfirst, hsorted⟩ order
    obtain ⟨rest, hlist, hbody, hscan⟩ := hkeeps.fst_lookupsForBlock he order
    have hcached := hkeeps.perm_cached he order
    have hrest : rest = e.lookups.filter fun look => !n.caches look := by
      by_cases hnil : e.block.transactions = []
      · obtain ⟨hperm, hpairwise⟩ := hscan hnil
        refine hperm.eq_of_pairwise (fun a b _ _ hab hba => ?_) hpairwise (hsorted hnil)
        exact absurd (BitVec.lt_trans hab hba) (BitVec.lt_irrefl _)
      · exact hbody hnil
    rw [hlist, hrest]
    -- only the front of the block can be in memory
    cases hlooks : e.lookups with
    | nil =>
        rw [hlooks] at hcached
        rw [List.perm_nil.mp hcached]
        rfl
    | cons look looks =>
        obtain ⟨-, htail⟩ := ExecutedBlock.index_of_head hlooks
        have huncached : ∀ x ∈ looks, n.caches x = false := by
          intro x hx
          rw [Bool.eq_false_iff]
          intro hx'
          exact htail x hx (hfirst x (hlooks ▸ List.mem_cons_of_mem look hx) hx')
        have hnone : looks.filter n.caches = [] :=
          List.filter_eq_nil_iff.mpr fun x hx => by rw [huncached x hx]; decide
        have hall : (looks.filter fun x => !n.caches x) = looks :=
          List.filter_eq_self.mpr fun x hx => by rw [huncached x hx]; rfl
        rw [hlooks] at hcached
        cases hlook : n.caches look with
        | true =>
            rw [List.filter_cons_of_pos hlook, hnone] at hcached
            rw [List.perm_singleton.mp hcached, List.filter_cons_of_neg (by simp [hlook]), hall]
            rfl
        | false =>
            rw [List.filter_cons_of_neg (by simp [hlook]), hnone] at hcached
            rw [List.perm_nil.mp hcached, List.filter_cons_of_pos (by simp [hlook]), hall]
            rfl

/-! ## A block of two transfers -/

theorem emptyTxRoot_eq : emptyTxRoot =
    0x1dcc4de8dec75d7aab85b567b6ccd41ad312451b948a7413f0a142fd40d49347 := by
  rw [emptyTxRoot, keccak256Hash, Keccak.keccak256_eq_evalNat (by decide)]
  decide +kernel

/-- A header over a state and a list of transactions that are left open. -/
def plainHeader (parent txRoot : Hash) (number : U64) : Header :=
  ⟨parent, 0, txRoot, 0x1dcc4de8dec75d7aab85b567b6ccd41ad312451b948a7413f0a142fd40d49347, number,
    number, 0, 0, some 0, [], 0⟩

theorem stateRows_new (k : Bytes) (hrow : (StateDB.new ∅).db.get? k ≠ none) :
    StateDB.isStateKey k = true := by
  simp [StateDB.new] at hrow

/-- A block with an empty body. -/
def plainBlock (parent : Hash) (number : U64) : Block :=
  ⟨plainHeader parent 0x1dcc4de8dec75d7aab85b567b6ccd41ad312451b948a7413f0a142fd40d49347 number, []⟩

theorem plainBlock_storable (parent : Hash) (number : U64) : (plainBlock parent number).Storable :=
  Node.storable_empty emptyTxRoot_eq.symm emptyTxRoot_eq.symm
    (show ([] : Bytes).length < 56 by decide) (show 0 < 256 ^ 8 by decide)

def plainGenesis : Genesis where
  chainID := 1
  statedb := StateDB.new ∅
  block := plainBlock 0 0
  stateRows := stateRows_new
  number := rfl
  storable := plainBlock_storable 0 0

/-- The hash of `plainGenesis`. -/
def hashZero : Hash :=
  0x532b902dfce536a9f358f4939dc17dbaf300666fe08d567daf5584d56decdb61

theorem plainGenesis_hash : plainGenesis.block.hash = hashZero := by
  rw [Block.hash, Header.hash, keccak256Hash, Keccak.keccak256_eq_evalBlocks]
  decide +kernel

/-- The hash of the block of two transfers. -/
def hashPair : Hash :=
  0xbde65c1d021468127d776a0150946341bbf6f30e3c002860379f205bb86aee31

/-- A transfer, with its result in the first block. -/
def transfer (nonce : U64) : DewTx :=
  { DewTx.plainTx (some 5) with nonce := nonce }

def transferResult (nonce : U64) : ExecResult :=
  ⟨(transfer nonce).hash, none, some (transfer nonce), 1,
    ⟨0xdf, 1, 0, 0, 0, [], none, (transfer nonce).hash, 0, 1, 0⟩, []⟩

def pairBlock : ExecutedBlock :=
  ⟨plainBlock hashZero 1, [transferResult 0, transferResult 1]⟩

theorem pairBlock_hash : pairBlock.block.hash = hashPair := by
  rw [Block.hash, Header.hash, keccak256Hash, Keccak.keccak256_eq_evalBlocks]
  decide +kernel

/-- The hashes of the two transfers. -/
def transferHash (nonce : U64) : Hash :=
  if nonce = 0 then 0xee34af0b7bd22d5822fc3d79955f46c83058e1cd78696a0e911174cf4aaa169b
  else 0x414162493e05674eb434d5952ef17ebbdad62eaca2b34d6d09ce83e27e3eeb6d

theorem transfer_hash {nonce : U64} (h : nonce = 0 ∨ nonce = 1) :
    (transfer nonce).hash = transferHash nonce := by
  rcases h with rfl | rfl
  all_goals
    rw [DewTx.hash, keccak256Hash, Keccak.keccak256_eq_evalNat (by decide)]
    decide +kernel

set_option maxRecDepth 4000 in
theorem transfer_made {nonce : U64} {index : ℕ}
    (hnonce : nonce = 0 ∧ index = 0 ∨ nonce = 1 ∧ index = 1) :
    (⟨pairBlock.block, transferResult nonce, index⟩ : Placed).Made accessListLibrary := by
  have hhash : (transfer nonce).hash = transferHash nonce :=
    transfer_hash (hnonce.imp And.left And.left)
  have hread : DewTx.unmarshalBinary (transfer nonce).marshalBinary = .ok (transfer nonce) := by
    rcases hnonce with ⟨rfl, -⟩ | ⟨rfl, -⟩
    all_goals exact DewTx.unmarshalBinary_marshalBinary rfl (DewTx.sized_signedRLP (by decide))
  have hindex : index < 2 := by omega
  refine ⟨⟨by show index < 2 ^ 64; omega, Or.inl ⟨_, _, hread, rfl, rfl⟩⟩, rfl, rfl,
    ⟨by show 0xdf < 2 ^ 8; decide, by show 1 < 2 ^ 64; decide, by show index < 2 ^ 64; omega⟩,
    by show index < 2 ^ 32; omega, by show 0 ≤ 2 ^ 32; omega, ?_⟩
  intro rows hrows
  have hvalue : rows = [(receiptKey (transferHash nonce),
      encodeReceipt ⟨0xdf, 1, 0, 0, 0, [], none, transferHash nonce, hashPair, 1, index⟩),
      (txLookupKey (transferHash nonce), Rlp.encodeList (TxLookupStorage.items ⟨hashPair.bytes, 1,
        index, Address.bytes 1, txKindDew, (transfer nonce).marshalBinary⟩))] := by
    rw [← Except.ok.injEq, ← hrows, ← hhash, ← pairBlock_hash]
    rfl
  rw [hvalue]
  rcases hnonce with ⟨rfl, rfl⟩ | ⟨rfl, rfl⟩
  all_goals
    intro row hrow
    rcases List.mem_pair.mp hrow with rfl | rfl
    · decide
    · decide

theorem soundChain_pairBlock :
    SoundChain accessListLibrary ([⟨plainGenesis.block, []⟩] ++ [pairBlock]) := by
  have hplaced : pairBlock.placed =
      [⟨pairBlock.block, transferResult 0, 0⟩, ⟨pairBlock.block, transferResult 1, 1⟩] := rfl
  have hgenesis : SoundChain accessListLibrary [⟨plainGenesis.block, []⟩] :=
    soundChain_genesis accessListLibrary rfl
  refine hgenesis.append rfl (plainBlock_storable _ _) ?_ ?_ ?_ ?_ (Or.inl rfl)
  · intro e' he'
    obtain rfl := List.mem_singleton.mp he'
    rw [pairBlock_hash]
    show plainGenesis.block.hash ≠ hashPair
    rw [plainGenesis_hash]
    decide
  · rw [hplaced]
    intro p hp
    rcases List.mem_pair.mp hp with rfl | rfl
    · exact transfer_made (Or.inl ⟨rfl, rfl⟩)
    · exact transfer_made (Or.inr ⟨rfl, rfl⟩)
  · rw [hplaced]
    show [(transfer 0).hash, (transfer 1).hash].Nodup
    rw [transfer_hash (Or.inl rfl), transfer_hash (Or.inr rfl)]
    decide
  · intro p hp
    cases hp

/-- The node after the block of two transfers was persisted. -/
def pairNode : ChainNode :=
  let n := ChainNode.newFromGenesis plainGenesis Node.emptyNode.config
  (n.persistBlock accessListLibrary n.node.statedb true pairBlock).2

theorem reaches_pairNode :
    Reaches accessListLibrary pairNode [⟨plainGenesis.block, []⟩, pairBlock] 1 :=
  (Reaches.genesis plainGenesis Node.emptyNode.config rfl).persist soundChain_pairBlock

theorem pairNode_listed_once :
    Reaches accessListLibrary pairNode [⟨plainGenesis.block, []⟩, pairBlock] 1 ∧
    ∀ order, (pairNode.lookupsForBlock accessListLibrary order 1).1.Perm pairBlock.lookups := by
  have hat : [⟨plainGenesis.block, []⟩, pairBlock][(1 : U64).toNat]? = some pairBlock := rfl
  exact ⟨reaches_pairNode, (lookupsForBlock_ordered_iff reaches_pairNode hat).2.1⟩

theorem get?_pairNode : pairNode.txIndex.get? (transfer 1).hash =
    some (Placed.lookup ⟨pairBlock.block, transferResult 1, 1⟩) := by
  obtain ⟨db, hpersist⟩ := soundChain_pairBlock.persistBlock
    (ChainNode.newFromGenesis plainGenesis Node.emptyNode.config)
    (ChainNode.newFromGenesis plainGenesis Node.emptyNode.config).node.statedb
  rw [pairNode, hpersist]
  exact (GoMap.get?_set _ _ _ _).trans (if_pos rfl)

/-- The block that was just persisted may be listed backwards. -/
theorem pairNode_listed_backwards :
    Reaches accessListLibrary pairNode [⟨plainGenesis.block, []⟩, pairBlock] 1 ∧
    ∃ order, (pairNode.lookupsForBlock accessListLibrary order 1).1.map Lookup.index = [1, 0] := by
  have hkeeps := keepsChain_of_reaches reaches_pairNode
  have hvalue := GoMap.mem_values.mpr ⟨_, get?_pairNode⟩
  have hat : [⟨plainGenesis.block, []⟩, pairBlock][(1 : U64).toNat]? = some pairBlock := rfl
  refine ⟨reaches_pairNode, Mempool.RangeOrder.first pairNode.txIndex _ hvalue, ?_⟩
  obtain ⟨rest, hlist, hbody, hscan⟩ := hkeeps.fst_lookupsForBlock hat
    (Mempool.RangeOrder.first pairNode.txIndex _ hvalue)
  have hrest := (hkeeps.perm_cached hat (Mempool.RangeOrder.first pairNode.txIndex _ hvalue)).append
    (hscan rfl).1
  rw [← hlist] at hrest
  replace hrest := (hrest.trans (List.filter_append_perm _ _)).map Lookup.index
  rw [hlist, Mempool.RangeOrder.list_first, List.filter_cons_of_pos (by rfl), List.cons_append,
    List.map_cons] at hrest ⊢
  have hswap : (1 :: [0] : List ℕ).Perm (pairBlock.lookups.map Lookup.index) := by
    rw [pairBlock.map_index_lookups]
    decide
  have htail := (hrest.trans hswap.symm).cons_inv
  rw [List.perm_singleton.mp htail]
  rfl

end Dew
