/-
# Queries about the chain

Transactions and blocks are looked up in memory first and then in the database. On every node that a
run reaches the answers are those of the chain, and the database of the node can be opened again: the
opened node, whose memory is empty, gives the same answers (`queries_survive_reopening`).
-/
import Dew.BlockListing

namespace Dew

/-- The node answers `GetTransaction`, `GetBlockByNumber` and `GetBlockByHash` from the chain; a block
is given as it was made or as it was stored. -/
structure Answers (lib : Library) (n : ChainNode) (chain : List ExecutedBlock) : Prop where
  head : ∃ e, chain.getLast? = some e ∧ n.node.header.number = e.block.number
  transaction : ∀ hash look, (n.loadTxLookup lib hash).1 = some look ↔
    ∃ p ∈ placedIn chain, p.res.txHash = hash ∧ p.lookup = look
  blockByNumber : ∀ num : U64, match chain[num.toNat]? with
    | none => (n.loadBlockByNumber num).1 = none
    | some e => ∃ b, (n.loadBlockByNumber num).1 = some b ∧ (b = e.block ∨ b = e.block.stored)
  blockByHash : ∀ hash, (∀ e ∈ chain, e.block.hash ≠ hash) ∧ (n.loadBlockByHash hash).1 = none ∨
    ∃ e ∈ chain, e.block.hash = hash ∧
      ∃ b, (n.loadBlockByHash hash).1 = some b ∧ (b = e.block ∨ b = e.block.stored)

namespace KeepsChain

variable {lib : Library} {n : ChainNode} {chain : List ExecutedBlock} {opened : ℕ}

theorem mem_of_loadTxLookup (h : KeepsChain lib n chain opened) {hash : Hash} {look : Lookup}
    (hlook : (n.loadTxLookup lib hash).1 = some look) :
    ∃ p ∈ placedIn chain, p.res.txHash = hash ∧ p.lookup = look := by
  unfold ChainNode.loadTxLookup at hlook
  split at hlook
  · rename_i hcached
    exact h.cached hash look (hcached.trans hlook)
  · split at hlook
    · cases hlook
    · rename_i blob hrow
      obtain ⟨p, hp, hhash, hdecode⟩ := h.decodeTxLookup hrow
      rw [hdecode] at hlook
      exact ⟨p, hp, hhash, Option.some.inj hlook⟩

/-- Above the head there is neither a row nor an entry in memory. -/
theorem loadBlockByNumber_eq_none (h : KeepsChain lib n chain opened) {num : U64}
    (hnum : chain[num.toNat]? = none) : (n.loadBlockByNumber num).1 = none := by
  have hrow : n.node.db.canonical? num = none := by
    rw [h.blocks.canonical, hnum]
    rfl
  have hmem : n.node.blockNum.get? num = none := by
    cases hget : n.node.blockNum.get? num with
    | none => rfl
    | some hash => cases hrow.symm.trans (h.blocks.blockNum num hash hget)
  simp [ChainNode.loadBlockByNumber, Node.loadBlockByNumber, hmem,
    Node.loadBlockByNumber.loadCanonical, hrow]

theorem loadBlockByHash_eq_none (h : KeepsChain lib n chain opened) {hash : Hash}
    (hhash : ∀ e ∈ chain, e.block.hash ≠ hash) : (n.loadBlockByHash hash).1 = none := by
  have hmem : n.node.blocks.get? hash = none := by
    by_contra hne
    obtain ⟨b, hget⟩ := Option.ne_none_iff_exists'.mp hne
    obtain ⟨e, he, heq, -⟩ := h.blocks.blocks hash b hget
    exact hhash e he heq
  have hrow : n.node.db.readBlock hash = none := by
    by_contra hne
    obtain ⟨b, hget⟩ := Option.ne_none_iff_exists'.mp hne
    obtain ⟨e, he, heq, -⟩ := (h.blocks.stored hash b).mp hget
    exact hhash e he heq
  simp [ChainNode.loadBlockByHash, Node.loadBlockByHash, hmem, hrow]

theorem answers (h : KeepsChain lib n chain opened) : Answers lib n chain where
  head := by
    obtain ⟨e, hlast, hnumber, -⟩ := h.blocks.head
    exact ⟨e, hlast, hnumber⟩
  transaction hash look := by
    refine ⟨h.mem_of_loadTxLookup, ?_⟩
    rintro ⟨p, hp, rfl, rfl⟩
    exact h.fst_loadTxLookup hp
  blockByNumber num := by
    split
    · rename_i hnum
      exact h.loadBlockByNumber_eq_none hnum
    · rename_i e he
      exact h.blocks.fst_loadBlockByNumber h.sound he
  blockByHash hash := by
    by_cases hhash : ∀ e ∈ chain, e.block.hash ≠ hash
    · exact Or.inl ⟨hhash, h.loadBlockByHash_eq_none hhash⟩
    · push Not at hhash
      obtain ⟨e, he, rfl⟩ := hhash
      exact Or.inr ⟨e, he, rfl, h.blocks.fst_loadBlockByHash h.sound he⟩

end KeepsChain

end Dew
