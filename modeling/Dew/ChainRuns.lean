/-
# Runs of the chain index

`KeepsChain` says what a node over a chain of executed blocks has: the rows of each kind are those of
the chain, blocks and lookups in memory are among them, and the logs in memory are those of the
blocks since the node was opened. It holds along every run of persisted blocks, queries and
reopenings (`keepsChain_of_reaches`).
-/
import Dew.ChainIndex
import Dew.Reopening

open Bytes

namespace Dew

/-! ## The blocks of the database -/

/-- Two databases with the same rows but for those of the index and its marker. -/
def Database.SameBlocks (db db' : Database) : Prop :=
  ∀ k, ¬ IsIndexKey k → k ≠ metaLogIndexVersionKey → db'.get? k = db.get? k

namespace Database.SameBlocks

variable {db db' : Database}

theorem canonical?_eq (h : SameBlocks db db') (num : U64) :
    db'.canonical? num = db.canonical? num := by
  rw [canonical?, canonical?, h (canonicalKey num) (by simp [canonicalKey, IsIndexKey])]
  simp [canonicalKey, metaLogIndexVersionKey, ascii]

theorem readTip_eq (h : SameBlocks db db') : db'.readTip = db.readTip := by
  rw [readTip, readTip, h metaTipKey (by unfold IsIndexKey; decide) (by decide)]

theorem readBlock_eq (h : SameBlocks db db') (hash : Hash) :
    db'.readBlock hash = db.readBlock hash := by
  have hheader : headerKey hash ≠ metaLogIndexVersionKey := by
    simp [headerKey, metaLogIndexVersionKey, ascii]
  have hbody : bodyKey hash ≠ metaLogIndexVersionKey := by
    simp [bodyKey, metaLogIndexVersionKey, ascii]
  rw [readBlock, readBlock, h (headerKey hash) (by simp [headerKey, IsIndexKey]) hheader,
    h (bodyKey hash) (by simp [bodyKey, IsIndexKey]) hbody]

end Database.SameBlocks

/-- Rows of the index leave the blocks. -/
theorem Database.sameBlocks_put (db : Database) {rows : List (Bytes × Bytes)}
    (h : ∀ row ∈ rows, IsIndexKey row.1) :
    db.SameBlocks (db.put (rows ++ [logIndexVersionRow])) := by
  intro k hk hversion
  refine get?_put_of_not_mem fun v hmem => ?_
  rcases List.mem_append.mp hmem with hmem | hmem
  · exact hk (h _ hmem)
  · exact hversion (congrArg Prod.fst (List.mem_singleton.mp hmem))

theorem Database.writeChainKeys_sameBlocks {lib : Library} {db db' : Database} {e : ExecutedBlock}
    (hmade : ∀ p ∈ e.placed, p.Made lib) (h : db.writeChainKeys lib e = .ok db') :
    (db.writeBlock e.block).SameBlocks db' := by
  obtain ⟨rows, hrows, hmem⟩ := ExecutedBlock.exists_rows hmade
  rw [writeChainKeys, hrows] at h
  obtain rfl := Except.ok.inj h
  refine sameBlocks_put _ fun row hrow => ?_
  obtain ⟨p, -, hp⟩ := (hmem row.1 row.2).mp hrow
  exact hp.isIndexKey

/-- The blocks of the chain are in the database, and those in memory are among them. -/
structure KeepsBlocks (n : Node) (chain : List ExecutedBlock) : Prop where
  head : ∃ e, chain.getLast? = some e ∧ n.header.number = e.block.number ∧
    n.db.readTip = some (e.block.number, e.block.hash)
  canonical : ∀ num : U64, n.db.canonical? num = chain[num.toNat]?.map fun e => e.block.hash
  stored : ∀ hash b, n.db.readBlock hash = some b ↔
    ∃ e ∈ chain, e.block.hash = hash ∧ b = e.block.stored
  blocks : ∀ hash b, n.blocks.get? hash = some b →
    ∃ e ∈ chain, e.block.hash = hash ∧ (b = e.block ∨ b = e.block.stored)
  blockNum : ∀ num hash, n.blockNum.get? num = some hash → n.db.canonical? num = some hash

/-- What a query does to the blocks and the logs in memory. -/
structure Node.Loads (n n' : Node) : Prop where
  allLogs : n'.allLogs = n.allLogs
  blocks : ∀ hash b, n'.blocks.get? hash = some b →
    n.blocks.get? hash = some b ∨ n.db.readBlock hash = some b

namespace Node

theorem loads_refl (n : Node) : Loads n n :=
  ⟨rfl, fun _ _ h => Or.inl h⟩

theorem loads_loadBlockByHash (n : Node) (hash : Hash) : Loads n (n.loadBlockByHash hash).2 := by
  unfold loadBlockByHash
  split
  · exact loads_refl n
  · split
    · exact loads_refl n
    · rename_i block hread
      have hset : ∀ x b, (n.blocks.set hash block).get? x = some b →
          n.blocks.get? x = some b ∨ n.db.readBlock x = some b := by
        intro x b h
        rw [GoMap.get?_set] at h
        split at h
        · rename_i heq
          rw [heq, ← h]
          exact Or.inr hread
        · exact Or.inl h
      dsimp only
      split
      · exact ⟨rfl, hset⟩
      · exact ⟨rfl, hset⟩

theorem loads_loadCanonical (n : Node) (num : U64) :
    Loads n (loadBlockByNumber.loadCanonical num n).2 := by
  unfold loadBlockByNumber.loadCanonical
  split
  · exact loads_refl n
  · rename_i hash hrow
    obtain ⟨hlogs, hblocks⟩ :=
      loads_loadBlockByHash { n with blockNum := n.blockNum.set num hash } hash
    exact ⟨hlogs, hblocks⟩

theorem loads_loadBlockByNumber (n : Node) (num : U64) : Loads n (n.loadBlockByNumber num).2 := by
  unfold loadBlockByNumber
  split
  · split
    · exact loads_refl n
    · exact loads_loadCanonical n num
  · exact loads_loadCanonical n num

end Node

namespace KeepsBlocks

variable {lib : Library} {n n' : Node} {chain : List ExecutedBlock}

/-- A query reads blocks of the chain. -/
theorem asked (h : KeepsBlocks n chain) (hs : SoundChain lib chain) (ha : Node.Asked n n')
    (hl : Node.Loads n n') : KeepsBlocks n' chain := by
  have hdb : n'.db = n.db := congrArg (fun s : StateDB => s.db) ha.statedb
  refine ⟨?_, ?_, ?_, ?_, ?_⟩
  · rw [ha.header, hdb]
    exact h.head
  · rw [hdb]
    exact h.canonical
  · rw [hdb]
    exact h.stored
  · intro hash b hget
    rcases hl.blocks hash b hget with hold | hread
    · exact h.blocks hash b hold
    · obtain ⟨e, he, hhash, rfl⟩ := (h.stored hash b).mp hread
      exact ⟨e, he, hhash, Or.inr rfl⟩
  · intro num hash hget
    rw [hdb]
    rcases ha.blockNum num hash hget with hold | hrow | ⟨b, hread, rfl⟩
    · exact h.blockNum num hash hold
    · exact hrow
    · obtain ⟨e, he, rfl, rfl⟩ := (h.stored hash b).mp hread
      rw [h.canonical, Block.number_stored, hs.getElem?_number he]
      rfl

/-- The block of a hash, as it was made or as it was stored. -/
theorem fst_loadBlockByHash (h : KeepsBlocks n chain) (hs : SoundChain lib chain) {e : ExecutedBlock}
    (he : e ∈ chain) : ∃ b, (n.loadBlockByHash e.block.hash).1 = some b ∧
      (b = e.block ∨ b = e.block.stored) := by
  unfold Node.loadBlockByHash
  cases hblock : n.blocks.get? e.block.hash with
  | some b =>
      obtain ⟨e', he', hhash, hb⟩ := h.blocks _ b hblock
      obtain rfl := hs.eq_of_hash he' he hhash
      exact ⟨b, rfl, hb⟩
  | none =>
      rw [(h.stored e.block.hash e.block.stored).mpr ⟨e, he, rfl, rfl⟩]
      refine ⟨e.block.stored, ?_, Or.inr rfl⟩
      dsimp only
      split <;> rfl

/-- The block of a height. -/
theorem fst_loadBlockByNumber (h : KeepsBlocks n chain) (hs : SoundChain lib chain) {num : U64}
    {e : ExecutedBlock} (he : chain[num.toNat]? = some e) :
    ∃ b, (n.loadBlockByNumber num).1 = some b ∧ (b = e.block ∨ b = e.block.stored) := by
  have hmem : e ∈ chain := List.mem_of_getElem? he
  have hrow : n.db.canonical? num = some e.block.hash := by
    rw [h.canonical, he]
    rfl
  have hset : KeepsBlocks { n with blockNum := n.blockNum.set num e.block.hash } chain := by
    refine ⟨h.head, h.canonical, h.stored, h.blocks, fun num' hash hget => ?_⟩
    rw [GoMap.get?_set] at hget
    split at hget
    · rename_i heq
      rw [heq, ← hget]
      exact hrow
    · exact h.blockNum num' hash hget
  have hcanonical : ∃ b, (Node.loadBlockByNumber.loadCanonical num n).1 = some b ∧
      (b = e.block ∨ b = e.block.stored) := by
    unfold Node.loadBlockByNumber.loadCanonical
    rw [hrow]
    exact hset.fst_loadBlockByHash hs hmem
  unfold Node.loadBlockByNumber
  cases hnum : n.blockNum.get? num with
  | none => exact hcanonical
  | some hash =>
      dsimp only
      cases hblock : n.blocks.get? hash with
      | none => exact hcanonical
      | some b =>
          have hhash := h.blockNum num hash hnum
          rw [hrow] at hhash
          obtain rfl := Option.some.inj hhash
          obtain ⟨e', he', heq, hb⟩ := h.blocks _ b hblock
          obtain rfl := hs.eq_of_hash he' hmem heq
          exact ⟨b, rfl, hb⟩

/-- A block that is persisted is the new head. -/
theorem commitBlock {m : ChainNode} {s : StateDB} {e : ExecutedBlock} (h : KeepsBlocks m.node chain)
    (hs : SoundChain lib (chain ++ [e])) (hdb : s.db = m.node.db) {db : Database}
    (hwrite : Database.writeChainKeys lib s.flush.db e = .ok db) :
    KeepsBlocks (m.commitBlock s db e).node (chain ++ [e]) := by
  have hmade : ∀ p ∈ e.placed, p.Made lib := fun p hp =>
    hs.made p (mem_placedIn.mpr ⟨e, by simp, hp⟩)
  have hsame : m.node.db.SameChain s.flush.db := fun k hk => by
    rw [StateDB.get?_flush_of_not_state _ hk, hdb]
  have hblocks := Database.writeChainKeys_sameBlocks hmade hwrite
  have hnew : ∀ e' ∈ chain, e'.block.hash ≠ e.block.hash := by
    intro e' he' heq
    have hnodup := hs.hashes
    rw [List.map_append, List.nodup_append] at hnodup
    exact hnodup.2.2 _ (List.mem_map_of_mem he') _ (by simp) heq
  have hcanonical : ∀ num : U64, db.canonical? num =
      ((chain ++ [e])[num.toNat]?).map fun e => e.block.hash := by
    intro num
    rw [hblocks.canonical?_eq, Database.canonical?_writeBlock, hsame.canonical?_eq, h.canonical]
    split
    · rename_i heq
      rw [heq, hs.number_last]
      simp
    · rename_i hne
      have hlen : num.toNat ≠ chain.length := by
        rw [← hs.number_last]
        exact fun heq => hne (BitVec.eq_of_toNat_eq heq)
      rcases Nat.lt_or_gt_of_ne hlen with hlt | hgt
      · rw [List.getElem?_append_left hlt]
      · rw [List.getElem?_eq_none (by omega), List.getElem?_eq_none (by simp; omega)]
  refine ⟨⟨e, by simp, rfl, ?_⟩, hcanonical, ?_, ?_, ?_⟩
  · show db.readTip = _
    rw [hblocks.readTip_eq, Database.readTip_writeBlock]
  · intro hash b
    show db.readBlock hash = some b ↔ _
    rw [hblocks.readBlock_eq]
    by_cases hhash : hash = e.block.hash
    · subst hhash
      rw [Database.readBlock_writeBlock _ (hs.storable e (by simp)), Option.some.injEq]
      constructor
      · rintro rfl
        exact ⟨e, by simp, rfl, rfl⟩
      · rintro ⟨e', he', heq, rfl⟩
        rw [hs.eq_of_hash he' (by simp) heq]
    · rw [Database.readBlock_writeBlock_of_ne _ hhash, hsame.readBlock_eq, h.stored]
      constructor
      · rintro ⟨e', he', heq, hb⟩
        exact ⟨e', List.mem_append_left _ he', heq, hb⟩
      · rintro ⟨e', he', heq, hb⟩
        rcases List.mem_append.mp he' with he' | he'
        · exact ⟨e', he', heq, hb⟩
        · obtain rfl := List.mem_singleton.mp he'
          exact absurd heq.symm hhash
  · intro hash b hget
    replace hget : (m.node.blocks.set e.block.hash e.block).get? hash = some b := hget
    rw [GoMap.get?_set] at hget
    split at hget
    · rename_i heq
      exact ⟨e, by simp, heq.symm, Or.inl (Option.some.inj hget).symm⟩
    · obtain ⟨e', he', hb⟩ := h.blocks hash b hget
      exact ⟨e', List.mem_append_left _ he', hb⟩
  · intro num hash hget
    show db.canonical? num = some hash
    replace hget : (m.node.blockNum.set e.block.number e.block.hash).get? num = some hash := hget
    rw [hblocks.canonical?_eq, Database.canonical?_writeBlock, hsame.canonical?_eq]
    rw [GoMap.get?_set] at hget
    split at hget
    · rename_i heq
      rw [if_pos heq, hget]
    · rename_i hne
      rw [if_neg hne]
      exact h.blockNum num hash hget

/-- Opening a database puts its tip into memory. -/
theorem openWithDatabase {chainID : ℕ} {config : Vm.Config} (h : KeepsBlocks n chain)
    (hs : SoundChain lib chain) (hopen : Node.openWithDatabase chainID config n.db = some n') :
    KeepsBlocks n' chain ∧ n'.db = n.db ∧ n'.allLogs = [] := by
  obtain ⟨e, hlast, -, htip⟩ := h.head
  have hmem : e ∈ chain := List.mem_of_getLast? hlast
  have hread := (h.stored e.block.hash e.block.stored).mpr ⟨e, hmem, rfl, rfl⟩
  unfold Node.openWithDatabase at hopen
  simp only [htip, hread, Option.bind_eq_bind, Option.bind_some, Block.number_stored, if_true,
    Option.some.injEq] at hopen
  subst hopen
  refine ⟨⟨⟨e, hlast, rfl, htip⟩, h.canonical, h.stored, ?_, ?_⟩, rfl, rfl⟩
  · intro hash b hget
    rw [Node.opened, GoMap.get?_set, GoMap.get?_empty] at hget
    split at hget
    · rename_i heq
      exact ⟨e, hmem, heq.symm, Or.inr (Option.some.inj hget).symm⟩
    · cases hget
  · intro num hash hget
    rw [Node.opened, GoMap.get?_set, GoMap.get?_empty] at hget
    split at hget
    · rename_i heq
      show n.db.canonical? num = some hash
      rw [heq, h.canonical, hs.getElem?_number hmem, ← hget]
      rfl
    · cases hget

end KeepsBlocks

/-! ## Runs -/

/-- What a node has over a chain of which `opened` blocks were there when it was opened. -/
structure KeepsChain (lib : Library) (n : ChainNode) (chain : List ExecutedBlock) (opened : ℕ) :
    Prop where
  sound : SoundChain lib chain
  blocks : KeepsBlocks n.node chain
  rows : KeepsRows lib n.node.db chain
  cached : ∀ hash look, n.txIndex.get? hash = some look →
    ∃ p ∈ placedIn chain, p.res.txHash = hash ∧ p.lookup = look
  opened_le : opened ≤ chain.length
  logs : n.node.allLogs = (placedIn (chain.drop opened)).flatMap Placed.logs

/-- The lookups of a block enter the map. -/
theorem get?_foldl_lookup {ps : List Placed} {m : GoMap Hash Lookup} {hash : Hash} {look : Lookup}
    (h : (ps.foldl (fun m p => m.set p.res.txHash p.lookup) m).get? hash = some look) :
    m.get? hash = some look ∨ ∃ p ∈ ps, p.res.txHash = hash ∧ p.lookup = look := by
  induction ps generalizing m with
  | nil => exact Or.inl h
  | cons p ps ih =>
      rcases ih h with hset | ⟨q, hq, hlook⟩
      · rw [GoMap.get?_set] at hset
        split at hset
        · rename_i heq
          exact Or.inr ⟨p, List.mem_cons_self, heq.symm, Option.some.inj hset⟩
        · exact Or.inl hset
      · exact Or.inr ⟨q, List.mem_cons_of_mem p hq, hlook⟩

namespace KeepsChain

variable {lib : Library} {n n' : ChainNode} {chain : List ExecutedBlock} {opened : ℕ}

/-- The lookup of a row of the database. -/
theorem decodeTxLookup (h : KeepsChain lib n chain opened) {txHash : Hash} {blob : Bytes}
    (hrow : n.node.db.get? (txLookupKey txHash) = some blob) :
    ∃ p ∈ placedIn chain, p.res.txHash = txHash ∧
      Dew.decodeTxLookup lib blob txHash = .ok p.lookup := by
  obtain ⟨p, hp, hhas⟩ := (h.rows.rows _ _ (Or.inr (Or.inl rfl))).mp hrow
  obtain ⟨rfl, hencode⟩ := Placed.hasRow_lookup.mp hhas
  have hmade := h.sound.made p hp
  obtain ⟨b, hb, hdecode⟩ := Lookup.decodeTxLookup_encode hmade.written
  obtain rfl := Except.ok.inj (hb.symm.trans hencode)
  exact ⟨p, hp, rfl, hdecode (hmade.length_lt hhas)⟩

theorem get?_txLookupKey (h : KeepsChain lib n chain opened) {p : Placed}
    (hp : p ∈ placedIn chain) : ∃ blob, n.node.db.get? (txLookupKey p.res.txHash) = some blob := by
  obtain ⟨b, hb, -⟩ := Lookup.decodeTxLookup_encode (h.sound.made p hp).written
  exact ⟨b, (h.rows.rows _ _ (Or.inr (Or.inl rfl))).mpr
    ⟨p, hp, Placed.hasRow_lookup.mpr ⟨rfl, hb⟩⟩⟩

/-- A lookup of the chain enters the map. -/
theorem setLookup (h : KeepsChain lib n chain opened) {p : Placed} (hp : p ∈ placedIn chain) :
    KeepsChain lib { n with txIndex := n.txIndex.set p.res.txHash p.lookup } chain opened := by
  refine ⟨h.sound, h.blocks, h.rows, fun hash look hget => ?_, h.opened_le, h.logs⟩
  rw [GoMap.get?_set] at hget
  split at hget
  · rename_i heq
    exact ⟨p, hp, heq.symm, Option.some.inj hget⟩
  · exact h.cached hash look hget

theorem loadTxLookup (h : KeepsChain lib n chain opened) (hash : Hash) :
    KeepsChain lib (n.loadTxLookup lib hash).2 chain opened := by
  unfold ChainNode.loadTxLookup
  split
  · exact h
  · split
    · exact h
    · rename_i blob hrow
      obtain ⟨p, hp, rfl, hdecode⟩ := h.decodeTxLookup hrow
      rw [hdecode]
      exact h.setLookup hp

/-- The lookup of a transaction of the chain is found. -/
theorem fst_loadTxLookup (h : KeepsChain lib n chain opened) {p : Placed}
    (hp : p ∈ placedIn chain) : (n.loadTxLookup lib p.res.txHash).1 = some p.lookup := by
  unfold ChainNode.loadTxLookup
  cases hcached : n.txIndex.get? p.res.txHash with
  | some look =>
      obtain ⟨q, hq, hhash, rfl⟩ := h.cached _ look hcached
      rw [h.sound.eq_of_txHash hq hp hhash]
  | none =>
      obtain ⟨blob, hrow⟩ := h.get?_txLookupKey hp
      obtain ⟨q, hq, hhash, hdecode⟩ := h.decodeTxLookup hrow
      rw [h.sound.eq_of_txHash hq hp hhash] at hdecode
      rw [hrow]
      dsimp only
      rw [hdecode]

theorem asked (h : KeepsChain lib n chain opened) {node : Node} (ha : Node.Asked n.node node)
    (hl : Node.Loads n.node node) : KeepsChain lib { n with node := node } chain opened := by
  have hdb : node.db = n.node.db := congrArg (fun s : StateDB => s.db) ha.statedb
  refine ⟨h.sound, h.blocks.asked h.sound ha hl, ?_, h.cached, h.opened_le, ?_⟩
  · show KeepsRows lib node.db chain
    rw [hdb]
    exact h.rows
  · exact hl.allLogs.trans h.logs

theorem loadBlockByNumber (h : KeepsChain lib n chain opened) (num : U64) :
    KeepsChain lib (n.loadBlockByNumber num).2 chain opened :=
  h.asked (Node.asked_loadBlockByNumber n.node num) (Node.loads_loadBlockByNumber n.node num)

theorem loadBlockByHash (h : KeepsChain lib n chain opened) (hash : Hash) :
    KeepsChain lib (n.loadBlockByHash hash).2 chain opened :=
  h.asked (Node.asked_loadBlockByHash n.node hash) (Node.loads_loadBlockByHash n.node hash)

theorem listBody (h : KeepsChain lib n chain opened) (out : List Lookup) (txs : List Transaction) :
    KeepsChain lib (ChainNode.listBody lib out txs n).2 chain opened := by
  induction txs generalizing n out with
  | nil => exact h
  | cons tx txs ih =>
      have hload := h.loadTxLookup tx.hash
      unfold ChainNode.listBody
      rcases hstep : n.loadTxLookup lib tx.hash with ⟨_ | look, n₁⟩
      · rw [hstep] at hload
        exact ih hload out
      · rw [hstep] at hload
        exact ih hload _

/-- A row that the scan of the lookups visits. -/
theorem mem_withPrefix (h : KeepsChain lib n chain opened) {key value : Bytes}
    (hrow : (key, value) ∈ n.node.db.withPrefix [0x54]) :
    ∃ p ∈ placedIn chain, key = txLookupKey p.res.txHash ∧
      Dew.decodeTxLookup lib value p.res.txHash = .ok p.lookup := by
  obtain ⟨hget, rest, rfl⟩ := Dew.mem_withPrefix.mp hrow
  obtain ⟨p, hp, hhas⟩ := (h.rows.rows _ _ (Or.inr (Or.inl rfl))).mp hget
  have hkey : [0x54] ++ rest = txLookupKey p.res.txHash := by
    rcases hhas with ⟨hkey, -⟩ | ⟨hkey, -⟩ | ⟨il, -, hkey, -⟩
    · simp [receiptKey] at hkey
    · exact hkey
    · simp [IndexedLog.key, logIndexKey, logIndexBlockPrefix] at hkey
  rw [hkey] at hget
  obtain ⟨q, hq, hhash, hdecode⟩ := h.decodeTxLookup hget
  rw [h.sound.eq_of_txHash hq hp hhash] at hdecode
  exact ⟨p, hp, hkey, hdecode⟩

theorem listRows (h : KeepsChain lib n chain opened) (num : U64) (out : List Lookup)
    {rows : List (Bytes × Bytes)} (hrows : ∀ row ∈ rows, row ∈ n.node.db.withPrefix [0x54]) :
    KeepsChain lib (ChainNode.listRows lib num out rows n).2 chain opened := by
  induction rows generalizing n out with
  | nil => exact h
  | cons row rows ih =>
      obtain ⟨hrow, htail⟩ := List.forall_mem_cons.mp hrows
      obtain ⟨key, value⟩ := row
      obtain ⟨p, hp, rfl, hdecode⟩ := h.mem_withPrefix hrow
      have hhash : bytesToHash (txLookupKey p.res.txHash).tail = p.res.txHash := bytesToHash_bytes _
      unfold ChainNode.listRows
      rw [hhash]
      dsimp only
      rw [hdecode]
      split
      · exact ih h out htail
      · dsimp only
        split
        · exact ih h out htail
        · exact ih (h.setLookup hp) _ htail

theorem lookupsForBlock (h : KeepsChain lib n chain opened)
    (order : Mempool.RangeOrder Hash Lookup) (num : U64) :
    KeepsChain lib (n.lookupsForBlock lib order num).2 chain opened :=
  ((h.loadBlockByNumber num).listBody _ _).listRows num _ fun _ hrow => hrow

/-- The batch of a block was written. -/
theorem commitBlock {s : StateDB} {e : ExecutedBlock} (h : KeepsChain lib n chain opened)
    (hs : SoundChain lib (chain ++ [e])) (hdb : s.db = n.node.db) {db : Database}
    (hwrite : Database.writeChainKeys lib s.flush.db e = .ok db) :
    KeepsChain lib (n.commitBlock s db e) (chain ++ [e]) opened := by
  have hsame : n.node.db.SameChain s.flush.db := fun k hk => by
    rw [StateDB.get?_flush_of_not_state _ hk, hdb]
  have hle : opened ≤ (chain ++ [e]).length := by
    have := h.opened_le
    simp only [List.length_append, List.length_singleton]
    omega
  refine ⟨hs, h.blocks.commitBlock hs hdb hwrite, h.rows.writeChainKeys hs hsame hwrite, ?_, hle,
    ?_⟩
  · intro hash look hget
    rw [placedIn_append, placedIn_singleton]
    rcases get?_foldl_lookup hget with hold | ⟨p, hp, hlook⟩
    · obtain ⟨p, hp, hlook⟩ := h.cached hash look hold
      exact ⟨p, List.mem_append_left _ hp, hlook⟩
    · exact ⟨p, List.mem_append_right _ hp, hlook⟩
  · show n.node.allLogs ++ e.logs = _
    rw [List.drop_append_of_le_length h.opened_le, placedIn_append, placedIn_singleton,
      List.flatMap_append, h.logs]
    rfl

/-- The batch of a block was not written. -/
theorem withState (h : KeepsChain lib n chain opened) {s : StateDB} (hdb : s.db = n.node.db) :
    KeepsChain lib { n with node := { n.node with statedb := s } } chain opened := by
  have hdb' : ({ n.node with statedb := s } : Node).db = n.node.db := hdb
  refine ⟨h.sound, ⟨?_, ?_, ?_, h.blocks.blocks, ?_⟩, ?_, h.cached, h.opened_le, h.logs⟩
  · rw [hdb']
    exact h.blocks.head
  · rw [hdb']
    exact h.blocks.canonical
  · rw [hdb']
    exact h.blocks.stored
  · rw [hdb']
    exact h.blocks.blockNum
  · rw [hdb']
    exact h.rows

/-- Opening the database again. -/
theorem openWithDatabase {chainID : ℕ} {config : Vm.Config} (h : KeepsChain lib n chain opened)
    (hopen : ChainNode.openWithDatabase chainID config n.node.db = some n') :
    KeepsChain lib n' chain chain.length := by
  unfold ChainNode.openWithDatabase at hopen
  obtain ⟨node, hnode, hopen⟩ := Option.bind_eq_some_iff.mp hopen
  rw [h.rows.ensureLogIndex] at hopen
  obtain rfl := Option.some.inj hopen
  obtain ⟨hblocks, hdb, hlogs⟩ := h.blocks.openWithDatabase h.sound hnode
  have hmap : node.mapDB (fun _ => n.node.db) = node := by
    rw [← hdb]
    rfl
  refine ⟨h.sound, ?_, ?_, ?_, le_rfl, ?_⟩
  · rw [hmap]
    exact hblocks
  · rw [hmap, hdb]
    exact h.rows
  · intro hash look hget
    cases hget
  · rw [hmap, hlogs, List.drop_length]
    rfl

end KeepsChain

/-- A node can be opened again on its database. -/
theorem KeepsChain.exists_open {lib : Library} {n : ChainNode} {chain : List ExecutedBlock}
    {opened : ℕ} (h : KeepsChain lib n chain opened) (chainID : ℕ) (config : Vm.Config) :
    ∃ n', ChainNode.openWithDatabase chainID config n.node.db = some n' := by
  obtain ⟨e, hlast, -, htip⟩ := h.blocks.head
  have hread := (h.blocks.stored e.block.hash e.block.stored).mpr
    ⟨e, List.mem_of_getLast? hlast, rfl, rfl⟩
  refine ⟨⟨(Node.opened chainID config n.node.db e.block.number e.block.hash
    e.block.stored).mapDB fun _ => n.node.db, ∅⟩, ?_⟩
  rw [ChainNode.openWithDatabase, Node.openWithDatabase]
  simp only [htip, hread, h.rows.ensureLogIndex, Option.bind_eq_bind, Option.bind_some,
    Block.number_stored, if_true]

/-- The chain of a genesis block. -/
theorem soundChain_genesis (lib : Library) {gen : Genesis} (hbody : gen.block.transactions = []) :
    SoundChain lib [⟨gen.block, []⟩] where
  numbered i e h := by
    obtain ⟨hlt, rfl⟩ := List.getElem?_eq_some_iff.mp h
    obtain rfl : i = 0 := by simpa using hlt
    exact congrArg BitVec.toNat gen.number
  storable e h := by
    obtain rfl := List.mem_singleton.mp h
    exact gen.storable
  hashes := List.nodup_singleton _
  made p h := by cases h
  txHashes := List.nodup_nil
  bodies e h := by
    obtain rfl := List.mem_singleton.mp h
    exact Or.inl hbody

theorem keepsChain_newFromGenesis (lib : Library) {gen : Genesis} (config : Vm.Config)
    (hbody : gen.block.transactions = []) :
    KeepsChain lib (ChainNode.newFromGenesis gen config) [⟨gen.block, []⟩] 1 := by
  have hnone : ∀ k, StateDB.isStateKey k = false → gen.statedb.db.get? k = none := by
    intro k hk
    by_contra hrow
    rw [gen.stateRows k hrow] at hk
    cases hk
  have hsame : (gen.statedb.db.writeBlock gen.block).SameBlocks
      (ChainNode.newFromGenesis gen config).node.db :=
    Database.sameBlocks_put _ fun row (hrow : row ∈ []) => absurd hrow List.not_mem_nil
  have hs := soundChain_genesis lib hbody
  have hcanonical : ∀ num : U64, (ChainNode.newFromGenesis gen config).node.db.canonical? num =
      if num = 0 then some gen.block.hash else none := by
    intro num
    rw [hsame.canonical?_eq, Database.canonical?_writeBlock, gen.number, Database.canonical?,
      hnone _ (by simp [canonicalKey, StateDB.isStateKey])]
    rfl
  refine ⟨hs, ⟨⟨_, rfl, rfl, ?_⟩, ?_, ?_, ?_, ?_⟩, ⟨?_, ?_⟩, ?_, le_rfl, rfl⟩
  · rw [hsame.readTip_eq, Database.readTip_writeBlock]
    rfl
  · intro num
    rw [hcanonical]
    split
    · rename_i heq
      rw [heq]
      rfl
    · rename_i hne
      have hpos : 0 < num.toNat := by
        rw [Nat.pos_iff_ne_zero]
        exact fun h => hne (BitVec.eq_of_toNat_eq h)
      rw [List.getElem?_eq_none (by simpa [Nat.succ_le_iff] using hpos)]
      rfl
  · intro hash b
    rw [hsame.readBlock_eq]
    by_cases hhash : hash = gen.block.hash
    · subst hhash
      rw [Database.readBlock_writeBlock _ gen.storable]
      simp [eq_comm]
    · rw [Database.readBlock_writeBlock_of_ne _ hhash, Database.readBlock,
        hnone _ (by simp [headerKey, StateDB.isStateKey])]
      simp [Ne.symm hhash]
  · intro hash b hget
    replace hget : ((∅ : GoMap Hash Block).set gen.block.hash gen.block).get? hash = some b := hget
    rw [GoMap.get?_set, GoMap.get?_empty] at hget
    split at hget
    · rename_i heq
      exact ⟨_, List.mem_singleton_self _, heq.symm, Or.inl (Option.some.inj hget).symm⟩
    · cases hget
  · intro num hash hget
    replace hget : ((∅ : GoMap U64 Hash).set 0 gen.block.hash).get? num = some hash := hget
    rw [GoMap.get?_set, GoMap.get?_empty] at hget
    rw [hcanonical, hget]
  · intro k v hk
    have hput : ∀ w, (k, w) ∉ [Database.logIndexVersionRow] := by
      intro w hw
      obtain rfl := congrArg Prod.fst (List.mem_singleton.mp hw)
      exact Database.not_isIndexKey_logIndexVersion hk
    show ((gen.statedb.db.writeBlock gen.block).put [Database.logIndexVersionRow]).get? k = _ ↔ _
    rw [Database.get?_put_of_not_mem hput, Database.get?_writeBlock_of_isIndexKey _ hk,
      hnone k (Database.isStateKey_of_isIndexKey hk)]
    simp [placedIn, ExecutedBlock.placed]
  · exact Database.get?_put_of_mem (List.mem_singleton_self _)
      fun v' hv' => congrArg Prod.snd (List.mem_singleton.mp hv')
  · intro hash look hget
    cases hget

/-- The nodes that runs of persisted blocks, queries and reopenings reach, with the chain and the
number of its blocks that were there at the last opening. -/
inductive Reaches (lib : Library) : ChainNode → List ExecutedBlock → ℕ → Prop where
  | genesis (gen : Genesis) (config : Vm.Config) : gen.block.transactions = [] →
      Reaches lib (ChainNode.newFromGenesis gen config) [⟨gen.block, []⟩] 1
  | persisted {n n' : ChainNode} {chain : List ExecutedBlock} {opened : ℕ} (s : StateDB)
      (written : Bool) (e : ExecutedBlock) : Reaches lib n chain opened → s.db = n.node.db →
      SoundChain lib (chain ++ [e]) → n.persistBlock lib s written e = (none, n') →
      Reaches lib n' (chain ++ [e]) opened
  | failed {n n' : ChainNode} {chain : List ExecutedBlock} {opened : ℕ} (s : StateDB)
      (written : Bool) (e : ExecutedBlock) (err : PersistError) : Reaches lib n chain opened →
      s.db = n.node.db → n.persistBlock lib s written e = (some err, n') →
      Reaches lib n' chain opened
  | transaction {n : ChainNode} {chain : List ExecutedBlock} {opened : ℕ} (hash : Hash) :
      Reaches lib n chain opened → Reaches lib (n.loadTxLookup lib hash).2 chain opened
  | blockByNumber {n : ChainNode} {chain : List ExecutedBlock} {opened : ℕ} (num : U64) :
      Reaches lib n chain opened → Reaches lib (n.loadBlockByNumber num).2 chain opened
  | blockByHash {n : ChainNode} {chain : List ExecutedBlock} {opened : ℕ} (hash : Hash) :
      Reaches lib n chain opened → Reaches lib (n.loadBlockByHash hash).2 chain opened
  | transactionsInBlock {n : ChainNode} {chain : List ExecutedBlock} {opened : ℕ}
      (order : Mempool.RangeOrder Hash Lookup) (num : U64) : Reaches lib n chain opened →
      Reaches lib (n.lookupsForBlock lib order num).2 chain opened
  | reopened {n n' : ChainNode} {chain : List ExecutedBlock} {opened : ℕ} (chainID : ℕ)
      (config : Vm.Config) : Reaches lib n chain opened →
      ChainNode.openWithDatabase chainID config n.node.db = some n' →
      Reaches lib n' chain chain.length

theorem keepsChain_of_reaches {lib : Library} {n : ChainNode} {chain : List ExecutedBlock}
    {opened : ℕ} (h : Reaches lib n chain opened) : KeepsChain lib n chain opened := by
  induction h with
  | genesis gen config hbody => exact keepsChain_newFromGenesis lib config hbody
  | persisted s written e _ hdb hs hpersist ih =>
      unfold ChainNode.persistBlock at hpersist
      split at hpersist
      · cases hpersist
      · rename_i db hwrite
        split at hpersist
        · cases hpersist
          exact ih.commitBlock hs hdb hwrite
        · cases hpersist
  | failed s written e err _ hdb hpersist ih =>
      unfold ChainNode.persistBlock at hpersist
      split at hpersist
      · cases hpersist
        exact ih.withState hdb
      · split at hpersist
        · cases hpersist
        · cases hpersist
          exact ih.withState hdb
  | transaction hash _ ih => exact ih.loadTxLookup hash
  | blockByNumber num _ ih => exact ih.loadBlockByNumber num
  | blockByHash hash _ ih => exact ih.loadBlockByHash hash
  | transactionsInBlock order num _ ih => exact ih.lookupsForBlock order num
  | reopened chainID config _ hopen ih => exact ih.openWithDatabase hopen

/-- A block that follows the chain is persisted when its batch is written. -/
theorem SoundChain.persistBlock {lib : Library} {chain : List ExecutedBlock} {e : ExecutedBlock}
    (hs : SoundChain lib (chain ++ [e])) (n : ChainNode) (s : StateDB) :
    ∃ db, n.persistBlock lib s true e = (none, n.commitBlock s db e) := by
  have hmade : ∀ p ∈ e.placed, p.Made lib := fun p hp =>
    hs.made p (mem_placedIn.mpr ⟨e, by simp, hp⟩)
  obtain ⟨rows, hrows, -⟩ := ExecutedBlock.exists_rows hmade
  have hwrite : Database.writeChainKeys lib s.flush.db e =
      .ok ((s.flush.db.writeBlock e.block).put (rows ++ [Database.logIndexVersionRow])) := by
    rw [Database.writeChainKeys, hrows]
    rfl
  refine ⟨(s.flush.db.writeBlock e.block).put (rows ++ [Database.logIndexVersionRow]), ?_⟩
  rw [ChainNode.persistBlock, hwrite]
  rfl

theorem Reaches.persist {lib : Library} {n : ChainNode} {chain : List ExecutedBlock} {opened : ℕ}
    (h : Reaches lib n chain opened) {e : ExecutedBlock} (hs : SoundChain lib (chain ++ [e])) :
    Reaches lib (n.persistBlock lib n.node.statedb true e).2 (chain ++ [e]) opened := by
  obtain ⟨db, hpersist⟩ := hs.persistBlock n n.node.statedb
  refine .persisted n.node.statedb true e h rfl hs ?_
  rw [hpersist]

end Dew
