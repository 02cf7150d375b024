/-
# Import over a reopened chain

Import recognises a stored block by the height map, which is in memory only. Opening a node puts the
tip into it, importing a block its height, and asking for a block the height of that block. Along
every run of imports, queries and reopenings the map agrees with the canonical rows, so that a stored
block whose height is in the map is recognised; one whose height is not is refused like a block that
does not follow the head.
-/
import Dew.BlockExecution
import Dew.Chaindata

namespace Dew

namespace Node

variable {g : Geth} {n n' : Node}

/-! ## What an import does to the chain -/

theorem rollback_spec {s : StateDB} {snap : ℕ} {e : NodeError} {err : Option NodeError}
    (h : n.rollback s snap e = .ok (err, n')) :
    err = some e ∧ ∃ t : StateDB, n' = { n with statedb := t } ∧
      Store.Steps s.toStore t.toStore := by
  unfold rollback at h
  cases hrev : s.revertToSnapshot snap with
  | error p =>
      rw [hrev] at h
      cases h
  | ok t =>
      rw [hrev] at h
      cases h
      exact ⟨rfl, t, rfl, StateDB.steps_revertToSnapshot hrev⟩

/-- A block that is not applied leaves everything but the caches of the state. -/
theorem applyBlock_failed {written : Bool} {b : Block} {e : NodeError}
    (h : n.applyBlock g written b = .ok (some e, n')) :
    ∃ t : StateDB, n' = { n with statedb := t } ∧ t.db = n.db := by
  unfold applyBlock at h
  cases hrun : n.executeBlockTxs g b.header b.transactions 0 0 n.statedb.snapshot.2 with
  | error p =>
      simp only [hrun] at h
      cases h
  | ok out =>
      obtain ⟨res, s⟩ := out
      have hdb : s.db = n.db := executeBlockTxs_preserves (s := n.statedb.snapshot.2)
        (P := fun s => s.db = n.db) (fun hs hx => hx.db_eq.trans hs) rfl hrun
      have hroll : ∀ {u : StateDB} {e' : NodeError}, Store.Steps s.toStore u.toStore →
          n.rollback u n.statedb.snapshot.1 e' = .ok (some e, n') →
          ∃ t : StateDB, n' = { n with statedb := t } ∧ t.db = n.db := by
        intro u e' hsteps hr
        obtain ⟨-, t, rfl, ht⟩ := rollback_spec hr
        exact ⟨t, rfl, (ht.db_eq.trans hsteps.db_eq).trans hdb⟩
      cases res with
      | error e' =>
          simp only [hrun] at h
          exact hroll .refl h
      | ok r =>
          obtain ⟨results, totalGas⟩ := r
          simp only [hrun, Program.ok_bind] at h
          split at h
          · exact hroll .refl h
          · split at h
            · exact hroll (StateDB.steps_intermediateRoot s) h
            · split at h
              · exact hroll (StateDB.steps_intermediateRoot s) h
              · cases h

/-- The results of a block touch the indexes, the pool and the logs only. -/
theorem foldl_commitResult_chain (b : Block) (l : List (TxExecResult × ℕ)) (n : Node) :
    (l.foldl (commitResult b) n).header = n.header ∧
      (l.foldl (commitResult b) n).blockNum = n.blockNum ∧
      (l.foldl (commitResult b) n).statedb = n.statedb := by
  induction l generalizing n with
  | nil => exact ⟨rfl, rfl, rfl⟩
  | cons e l ih => exact ih (commitResult b n e)

/-- What an import can do to the head, the height map and the rows of the chain: nothing, or make
the block that follows the head the new head. -/
theorem importBlock_cases {written : Bool} {b : Block} {err : Option NodeError}
    (h : n.importBlock g written b = .ok (err, n')) :
    (n'.header = n.header ∧ n'.blockNum = n.blockNum ∧ n.db.SameChain n'.db) ∨
      (n.blockNum.get? b.number = none ∧ b.number = n.header.number + 1 ∧ n'.header = b.header ∧
        n'.blockNum = n.blockNum.set b.number b.hash ∧
        ∃ db, n.db.SameChain db ∧ n'.db = db.writeBlock b) := by
  unfold importBlock at h
  cases himport : n.importCommittedBlock g written b with
  | error p =>
      rw [himport] at h
      cases h
  | ok out =>
      obtain ⟨err', m⟩ := out
      rw [himport, Program.ok_bind] at h
      dsimp only at h
      unfold importCommittedBlock at himport
      cases hnum : n.blockNum.get? b.header.number with
      | some existing =>
          left
          rw [if_neg (by rw [Block.number, hnum]; simp)] at h
          rw [hnum] at himport
          dsimp only at himport
          split at himport
          all_goals
            cases himport
            cases h
            exact ⟨rfl, rfl, fun _ _ => rfl⟩
      | none =>
          rw [hnum] at himport
          dsimp only at himport
          split at himport
          · left
            cases himport
            cases h
            exact ⟨rfl, rfl, fun _ _ => rfl⟩
          · rename_i hnext
            split at himport
            · left
              cases himport
              cases h
              exact ⟨rfl, rfl, fun _ _ => rfl⟩
            · cases err' with
              | some e =>
                  left
                  obtain ⟨t, rfl, hdb⟩ := applyBlock_failed himport
                  rw [if_neg (by simp)] at h
                  cases h
                  exact ⟨rfl, rfl, fun k _ => congrArg (GoMap.get? · k) hdb⟩
              | none =>
                  right
                  obtain ⟨-, results, s, hrun, -, rfl⟩ :=
                    (applyBlock_ok_iff g n written b m).mp himport
                  have hdb : s.db = n.db := executeBlockTxs_preserves (s := n.statedb.snapshot.2)
                    (P := fun s => s.db = n.db) (fun hs hx => hx.db_eq.trans hs) rfl hrun
                  have hroot := (StateDB.steps_intermediateRoot s).db_eq
                  obtain ⟨hheader, hblockNum, hstate⟩ := foldl_commitResult_chain b results.zipIdx
                    { n with
                      statedb := s.intermediateRoot.2.flush
                      blocks := n.blocks.set b.hash b
                      blockNum := n.blockNum.set b.header.number b.hash
                      header := b.header
                      baseFee := b.header.baseFee.getD n.baseFee }
                  rw [if_pos ⟨rfl, hnum⟩] at h
                  cases h
                  refine ⟨hnum, not_not.mp hnext, hheader, hblockNum,
                    s.intermediateRoot.2.flush.db, ?_, ?_⟩
                  · intro k hk
                    rw [StateDB.get?_flush_of_not_state _ hk, hroot, hdb]
                  · exact congrArg (fun t : StateDB => t.db.writeBlock b) hstate

/-! ## What asking for a block does -/

/-- What a query can do: blocks of the database enter the height map. -/
structure Asked (n n' : Node) : Prop where
  header : n'.header = n.header
  statedb : n'.statedb = n.statedb
  blockNum : ∀ num hash, n'.blockNum.get? num = some hash → n.blockNum.get? num = some hash ∨
    n.db.canonical? num = some hash ∨ ∃ b, n.db.readBlock hash = some b ∧ b.number = num

theorem asked_refl (n : Node) : Asked n n :=
  ⟨rfl, rfl, fun _ _ h => .inl h⟩

theorem asked_loadBlockByHash (n : Node) (hash : Hash) : Asked n (n.loadBlockByHash hash).2 := by
  unfold loadBlockByHash
  split
  · exact asked_refl n
  · split
    · exact asked_refl n
    · rename_i b hread
      dsimp only
      split
      · refine ⟨rfl, rfl, ?_⟩
        intro num x h
        dsimp only at h
        rw [GoMap.get?_set] at h
        split at h
        · rename_i heq
          obtain rfl := Option.some.inj h
          exact .inr (.inr ⟨b, hread, heq.symm⟩)
        · exact .inl h
      · exact ⟨rfl, rfl, fun _ _ h => .inl h⟩

theorem asked_loadCanonical (n : Node) (num : U64) :
    Asked n (loadBlockByNumber.loadCanonical num n).2 := by
  unfold loadBlockByNumber.loadCanonical
  split
  · exact asked_refl n
  · rename_i hash hrow
    obtain ⟨hheader, hstate, hmap⟩ :=
      asked_loadBlockByHash { n with blockNum := n.blockNum.set num hash } hash
    refine ⟨hheader, hstate, ?_⟩
    intro k x h
    rcases hmap k x h with h | h
    · dsimp only at h
      rw [GoMap.get?_set] at h
      split at h
      · rename_i heq
        rw [heq, ← h]
        exact .inr (.inl hrow)
      · exact .inl h
    · exact .inr h

theorem asked_loadBlockByNumber (n : Node) (num : U64) : Asked n (n.loadBlockByNumber num).2 := by
  unfold loadBlockByNumber
  split
  · split
    · exact asked_refl n
    · exact asked_loadCanonical n num
  · exact asked_loadCanonical n num

/-! ## The invariant of the chain rows -/

/-- The height map and the stored blocks agree with the canonical rows, which end at the head. -/
structure Indexed (n : Node) : Prop where
  cached : ∀ num hash, n.blockNum.get? num = some hash → n.db.canonical? num = some hash
  stored : ∀ hash b, n.db.readBlock hash = some b → n.db.canonical? b.number = some hash
  above : ∀ num, n.header.number < num → n.db.canonical? num = none
  tip : ∃ hash, n.db.readTip = some (n.header.number, hash)

theorem indexed_newFromGenesis (gen : Genesis) (config : Vm.Config) :
    Indexed (newFromGenesis gen config) := by
  have hnone : ∀ k, StateDB.isStateKey k = false → gen.statedb.db.get? k = none := by
    intro k hk
    by_contra hrow
    rw [gen.stateRows k hrow] at hk
    cases hk
  have hcanonical : ∀ num, gen.statedb.db.canonical? num = none := by
    intro num
    rw [Database.canonical?, hnone _ (by simp [canonicalKey, StateDB.isStateKey])]
    rfl
  have hrows : ∀ num, (newFromGenesis gen config).db.canonical? num =
      if num = 0 then some gen.block.hash else none := by
    intro num
    show (gen.statedb.db.writeBlock gen.block).canonical? num = _
    rw [Database.canonical?_writeBlock, gen.number, hcanonical]
  refine ⟨?_, ?_, ?_, gen.block.hash, ?_⟩
  · intro num hash h
    rw [newFromGenesis, GoMap.get?_set, GoMap.get?_empty] at h
    rw [hrows, h]
  · intro hash b h
    by_cases hhash : hash = gen.block.hash
    · subst hhash
      rw [hrows, Database.number_of_readBlock_writeBlock _ gen.storable.header h, gen.number,
        if_pos rfl]
    · have h : (gen.statedb.db.writeBlock gen.block).readBlock hash = some b := h
      rw [Database.readBlock_writeBlock_of_ne _ hhash, Database.readBlock,
        hnone _ (by simp [headerKey, StateDB.isStateKey])] at h
      cases h
  · intro num h
    have hzero : (newFromGenesis gen config).header.number = 0 := gen.number
    rw [hzero] at h
    rw [hrows, if_neg]
    rintro rfl
    exact absurd h (BitVec.lt_irrefl _)
  · exact Database.readTip_writeBlock _ _

theorem Indexed.asked (h : Indexed n) (ha : Asked n n') : Indexed n' := by
  have hdb : n'.db = n.db := congrArg (fun s : StateDB => s.db) ha.statedb
  refine ⟨?_, ?_, ?_, ?_⟩
  · intro num hash hget
    rw [hdb]
    rcases ha.blockNum num hash hget with hold | hrow | ⟨b, hread, rfl⟩
    · exact h.cached num hash hold
    · exact hrow
    · exact h.stored hash b hread
  · rw [hdb]
    exact h.stored
  · rw [hdb, ha.header]
    exact h.above
  · rw [hdb, ha.header]
    exact h.tip

/-- The rows of the chain as another database has them. -/
theorem Indexed.sameChain (h : Indexed n) (hheader : n'.header = n.header)
    (hmap : n'.blockNum = n.blockNum) (hdb : n.db.SameChain n'.db) : Indexed n' := by
  refine ⟨?_, ?_, ?_, ?_⟩
  · intro num hash hget
    rw [hdb.canonical?_eq]
    exact h.cached num hash (hmap ▸ hget)
  · intro hash b hread
    rw [hdb.canonical?_eq]
    exact h.stored hash b (hdb.readBlock_eq hash ▸ hread)
  · intro num hlt
    rw [hdb.canonical?_eq]
    exact h.above num (hheader ▸ hlt)
  · rw [hdb.readTip_eq, hheader]
    exact h.tip

theorem Indexed.importBlock {written : Bool} {b : Block} {err : Option NodeError}
    (h : Indexed n) (hroom : n.header.number.toNat + 1 < 2 ^ 64)
    (hsize : b.header.items.flatten.length < 256 ^ 8)
    (himport : n.importBlock g written b = .ok (err, n')) : Indexed n' := by
  rcases importBlock_cases himport with
    ⟨hheader, hmap, hdb⟩ | ⟨-, hnext, hheader, hmap, db, hdb, hrows⟩
  · exact h.sameChain hheader hmap hdb
  -- the height of the block is above the head, so its canonical row is new
  have habove : n.header.number < b.number := by
    rw [hnext, BitVec.lt_def, BitVec.toNat_add]
    simp only [BitVec.reduceToNat]
    omega
  have hnew : db.canonical? b.number = none := by
    rw [hdb.canonical?_eq]
    exact h.above _ habove
  refine ⟨?_, ?_, ?_, b.hash, ?_⟩
  · intro num hash hget
    rw [hmap, GoMap.get?_set] at hget
    rw [hrows, Database.canonical?_writeBlock, hdb.canonical?_eq]
    split at hget
    · rename_i heq
      rw [if_pos heq, hget]
    · rename_i hne
      rw [if_neg hne]
      exact h.cached num hash hget
  · intro hash c hread
    rw [hrows] at hread ⊢
    rw [Database.canonical?_writeBlock]
    by_cases hhash : hash = b.hash
    · subst hhash
      rw [Database.number_of_readBlock_writeBlock db hsize hread, if_pos rfl]
    · rw [Database.readBlock_writeBlock_of_ne _ hhash, hdb.readBlock_eq] at hread
      have hold := h.stored hash c hread
      rw [← hdb.canonical?_eq] at hold
      rw [if_neg, hold]
      intro heq
      rw [heq, hnew] at hold
      cases hold
  · intro num hlt
    rw [hheader] at hlt
    have hlt' : n.header.number < num := BitVec.lt_trans habove hlt
    rw [hrows, Database.canonical?_writeBlock, if_neg, hdb.canonical?_eq]
    · exact h.above num hlt'
    · rintro rfl
      exact absurd hlt (BitVec.lt_irrefl _)
  · rw [hrows, hheader]
    exact Database.readTip_writeBlock db b

theorem Indexed.openWithDatabase {chainID : ℕ} {config : Vm.Config} (h : Indexed n)
    (hopen : Node.openWithDatabase chainID config n.db = some n') :
    Indexed n' ∧ n'.header.number = n.header.number := by
  obtain ⟨tipHash, htip⟩ := h.tip
  unfold Node.openWithDatabase at hopen
  simp only [htip, Option.bind_eq_bind, Option.bind_some] at hopen
  obtain ⟨tip, hread, hopen⟩ := Option.bind_eq_some_iff.mp hopen
  split at hopen
  · rename_i hnum
    obtain rfl := Option.some.inj hopen
    refine ⟨⟨?_, h.stored, ?_, tipHash, ?_⟩, hnum⟩
    · intro num hash hget
      rw [opened, GoMap.get?_set, GoMap.get?_empty] at hget
      split at hget
      · rename_i heq
        obtain rfl := Option.some.inj hget
        rw [heq, ← hnum]
        exact h.stored tipHash tip hread
      · cases hget
    · intro num hlt
      exact h.above num (hnum ▸ hlt)
    · show n.db.readTip = some (tip.number, tipHash)
      rw [hnum, htip]
  · cases hopen

/-! ## Runs -/

/-- What is asked of a node: an import, a block by its height or its hash, and closing and opening
it again. `TransactionsInBlock` reads blocks as `GetBlockByNumber` does. -/
inductive Request where
  | importBlock (written : Bool) (block : Block)
  | blockByNumber (num : U64)
  | blockByHash (hash : Hash)
  | reopen (config : Vm.Config)

/-- The node after a request; there is none when an import panics or the tip cannot be read. -/
def serve (g : Geth) (n : Node) : Request → Option Node
  | .importBlock written block =>
    match n.importBlock g written block with
    | .error _ => none
    | .ok (_, n) => some n
  | .blockByNumber num => some (n.loadBlockByNumber num).2
  | .blockByHash hash => some (n.loadBlockByHash hash).2
  | .reopen config => Node.openWithDatabase n.chainID config n.db

/-- The node after a list of requests. -/
def run (g : Geth) (n : Node) (requests : List Request) : Option Node :=
  requests.foldlM (serve g) n

/-- The blocks that a list of requests imports have headers of fewer than `2 ^ 64` bytes. -/
def Sized (requests : List Request) : Prop :=
  ∀ written b, Request.importBlock written b ∈ requests → b.header.items.flatten.length < 256 ^ 8

theorem indexed_serve {r : Request} (h : Indexed n) (hroom : n.header.number.toNat + 1 < 2 ^ 64)
    (hsize : Sized [r]) (hserve : n.serve g r = some n') :
    Indexed n' ∧ n'.header.number.toNat ≤ n.header.number.toNat + 1 := by
  cases r with
  | importBlock written b =>
      simp only [serve] at hserve
      split at hserve
      · cases hserve
      · rename_i err m himport
        cases hserve
        refine ⟨h.importBlock hroom (hsize written b List.mem_cons_self) himport, ?_⟩
        rcases importBlock_cases himport with ⟨hheader, -⟩ | ⟨-, hnext, hheader, -⟩
        · rw [hheader]
          omega
        · have hnum : n'.header.number = n.header.number + 1 := by
            rw [hheader]
            exact hnext
          rw [hnum, BitVec.toNat_add]
          exact Nat.mod_le _ _
  | blockByNumber num =>
      cases hserve
      have hasked := asked_loadBlockByNumber n num
      refine ⟨h.asked hasked, ?_⟩
      rw [hasked.header]
      omega
  | blockByHash hash =>
      cases hserve
      have hasked := asked_loadBlockByHash n hash
      refine ⟨h.asked hasked, ?_⟩
      rw [hasked.header]
      omega
  | reopen config =>
      obtain ⟨hindexed, hnum⟩ := h.openWithDatabase hserve
      refine ⟨hindexed, ?_⟩
      rw [hnum]
      omega

theorem indexed_run {requests : List Request} (h : Indexed n)
    (hroom : n.header.number.toNat + requests.length < 2 ^ 64) (hsize : Sized requests)
    (hrun : n.run g requests = some n') :
    Indexed n' ∧ n'.header.number.toNat ≤ n.header.number.toNat + requests.length := by
  induction requests generalizing n with
  | nil =>
      cases hrun
      exact ⟨h, le_rfl⟩
  | cons r rs ih =>
      rw [run, List.foldlM_cons] at hrun
      obtain ⟨m, hserve, hrest⟩ := Option.bind_eq_some_iff.mp hrun
      have hone : Sized [r] := by
        intro written b hmem
        obtain rfl := List.mem_singleton.mp hmem
        exact hsize written b List.mem_cons_self
      rw [List.length_cons] at hroom
      obtain ⟨hm, hle⟩ := indexed_serve h (by omega) hone hserve
      obtain ⟨hn', hle'⟩ := ih hm (by omega)
        (fun written b hmem => hsize written b (List.mem_cons_of_mem r hmem)) hrest
      refine ⟨hn', ?_⟩
      rw [List.length_cons]
      omega

/-! ## Importing a second time -/

theorem importBlock_cached {written : Bool} {b : Block} {existing : Hash}
    (h : n.blockNum.get? b.number = some existing) :
    n.importBlock g written b =
      .ok (if existing = b.hash then none else some (.conflict b.number), n) := by
  have himport : n.importCommittedBlock g written b =
      .ok (if existing = b.hash then none else some (.conflict b.number), n) := by
    rw [Block.number] at h
    rw [importCommittedBlock, h]
    dsimp only
    split <;> rfl
  rw [importBlock, himport, Program.ok_bind]
  dsimp only
  rw [if_neg (by rw [h]; simp)]
  rfl

theorem importBlock_notNext {written : Bool} {b : Block} (h : n.blockNum.get? b.number = none)
    (hle : b.number ≤ n.header.number) (hroom : n.header.number.toNat + 1 < 2 ^ 64) :
    n.importBlock g written b = .ok (some (.notNext b.number n.header.number), n) := by
  have hnext : b.header.number ≠ n.header.number + 1 := by
    intro heq
    have hle : b.header.number.toNat ≤ n.header.number.toNat := hle
    rw [heq, BitVec.toNat_add] at hle
    simp only [BitVec.reduceToNat] at hle
    omega
  rw [Block.number] at h
  rw [importBlock, importCommittedBlock, h]
  dsimp only
  rw [if_pos hnext, Program.ok_bind, if_neg (by simp)]
  rfl

theorem importBlock_of_applied {b : Block} {m : Node} (hnew : n.blockNum.get? b.number = none)
    (hnext : b.number = n.header.number + 1) (hparent : b.header.parentHash = n.header.hash)
    (happly : n.applyBlock g true b = .ok (none, m)) :
    n.importBlock g true b = .ok (none, m.mapDB (·.writeBlock b)) := by
  have himport : n.importCommittedBlock g true b = .ok (none, m) := by
    rw [Block.number] at hnew hnext
    rw [importCommittedBlock, hnew]
    dsimp only
    rw [if_neg (not_not.mpr hnext), if_neg (not_not.mpr hparent), happly]
  rw [importBlock, himport, Program.ok_bind]
  dsimp only
  rw [if_pos ⟨rfl, hnew⟩]
  rfl

/-- On every node that imports, queries and reopenings lead to, a block of the canonical chain is
recognised exactly when its height is in the height map, and refused as not following the head
otherwise; another block at a height up to the head is always refused. Nothing changes. -/
theorem import_again_iff (g : Geth) (gen : Genesis) (config : Vm.Config) (requests : List Request)
    (hlen : requests.length + 1 < 2 ^ 64) (hsize : Sized requests) (n : Node)
    (hrun : (newFromGenesis gen config).run g requests = some n) :
    (∀ written b, n.db.canonical? b.number = some b.hash →
      (n.importBlock g written b = .ok (none, n) ↔ (n.blockNum.get? b.number).isSome) ∧
      ((n.blockNum.get? b.number).isNone →
        n.importBlock g written b = .ok (some (.notNext b.number n.header.number), n))) ∧
    ∀ written b, b.number ≤ n.header.number → n.db.canonical? b.number ≠ some b.hash →
      ∃ e, n.importBlock g written b = .ok (some e, n) := by
  have hzero : (newFromGenesis gen config).header.number.toNat = 0 :=
    congrArg BitVec.toNat gen.number
  obtain ⟨hindexed, hle⟩ := indexed_run (indexed_newFromGenesis gen config) (by omega) hsize hrun
  have hroom : n.header.number.toNat + 1 < 2 ^ 64 := by omega
  refine ⟨?_, ?_⟩
  · intro written b hrow
    -- canonical rows end at the head
    have hheight : b.number ≤ n.header.number := by
      by_contra hlt
      rw [hindexed.above b.number (BitVec.not_le.mp hlt)] at hrow
      cases hrow
    cases hmap : n.blockNum.get? b.number with
    | some existing =>
        have hsame := hindexed.cached b.number existing hmap
        rw [hrow] at hsame
        obtain rfl := Option.some.inj hsame
        rw [importBlock_cached hmap, if_pos rfl]
        simp
    | none =>
        rw [importBlock_notNext hmap hheight hroom]
        simp
  · intro written b hheight hrow
    cases hmap : n.blockNum.get? b.number with
    | some existing =>
        have hsame := hindexed.cached b.number existing hmap
        have hne : existing ≠ b.hash := by
          rintro rfl
          exact hrow hsame
        rw [importBlock_cached hmap, if_neg hne]
        exact ⟨_, rfl⟩
    | none => exact ⟨_, importBlock_notNext hmap hheight hroom⟩

/-! ## A chain of two blocks -/

theorem storable_empty {h : Header} (htx : h.txRoot = emptyTxRoot)
    (hreceipt : h.receiptRoot = emptyTxRoot) (hextra : h.extraData.length < 56)
    (hfee : h.baseFee.getD 0 < 256 ^ 8) : (⟨h, []⟩ : Block).Storable where
  built := by
    have hroot : Dew.txRoot [] = emptyTxRoot := if_pos rfl
    cases h
    dsimp only at htx hreceipt
    subst htx hreceipt
    simp only [Block.new, hroot, ite_self]
  header := Header.sized_of_short hextra hfee
  body := show ([] : Bytes).length < 256 ^ 8 by decide

/-- A genesis without accounts. -/
def emptyGenesis : Genesis where
  chainID := 1
  statedb := StateDB.new ∅
  block := ⟨emptyNode.header, []⟩
  stateRows k h := by simp [StateDB.new] at h
  number := rfl
  storable := storable_empty rfl rfl (by decide) (by decide)

/-- The node of that genesis. -/
def genesisNode : Node :=
  newFromGenesis emptyGenesis emptyNode.config

/-- Its next block, without transactions. -/
def firstBlock : Block :=
  ⟨⟨emptyGenesis.block.hash, genesisNode.statedb.snapshot.2.intermediateRoot.1, emptyTxRoot,
    emptyTxRoot, 1, 1, 0, 0, some 0, [], 0⟩, []⟩

theorem firstBlock_storable : firstBlock.Storable :=
  storable_empty rfl rfl (show ([] : Bytes).length < 56 by decide) (show 0 < 256 ^ 8 by decide)

/-- The node after the import of that block. -/
def secondNode : Node :=
  ({ genesisNode with
      statedb := genesisNode.statedb.snapshot.2.intermediateRoot.2.flush }.commitBlock
    firstBlock []).mapDB (·.writeBlock firstBlock)

theorem importBlock_firstBlock :
    genesisNode.importBlock noGeth true firstBlock = .ok (none, secondNode) := by
  have hnew : genesisNode.blockNum.get? firstBlock.number = none := rfl
  have hrun : genesisNode.executeBlockTxs noGeth firstBlock.header firstBlock.transactions 0 0
      genesisNode.statedb.snapshot.2 = .ok (.ok ([], firstBlock.header.gasUsed),
        genesisNode.statedb.snapshot.2) := rfl
  have hnext : firstBlock.number = genesisNode.header.number + 1 := by
    show (1 : U64) = 0 + 1
    decide
  have hparent : firstBlock.header.parentHash = genesisNode.header.hash := by
    show emptyGenesis.block.hash = emptyGenesis.block.header.hash
    rw [Block.hash]
  exact importBlock_of_applied hnew hnext hparent
    ((applyBlock_ok_iff noGeth genesisNode true firstBlock _).mpr
      ⟨rfl, [], genesisNode.statedb.snapshot.2, hrun, rfl, rfl⟩)

/-- The rows of the first two heights. -/
theorem canonical?_secondNode (num : U64) : secondNode.db.canonical? num =
    if num = 1 then some firstBlock.hash else if num = 0 then some emptyGenesis.block.hash
    else none := by
  have hflush : genesisNode.db.SameChain
      genesisNode.statedb.snapshot.2.intermediateRoot.2.flush.db := by
    intro k hk
    rw [StateDB.get?_flush_of_not_state _ hk,
      (StateDB.steps_intermediateRoot genesisNode.statedb.snapshot.2).db_eq]
    rfl
  have hnumber : firstBlock.number = 1 := rfl
  have hzero : emptyGenesis.block.number = 0 := rfl
  show (genesisNode.statedb.snapshot.2.intermediateRoot.2.flush.db.writeBlock firstBlock).canonical?
    num = _
  rw [Database.canonical?_writeBlock, hnumber, hflush.canonical?_eq]
  show (if num = 1 then _ else
    ((∅ : Database).writeBlock emptyGenesis.block).canonical? num) = _
  rw [Database.canonical?_writeBlock, hzero]
  rfl

/-- The node that is opened on the database after the import. -/
def reopenedNode : Node :=
  opened genesisNode.chainID emptyNode.config secondNode.db firstBlock.number firstBlock.hash
    firstBlock.stored

theorem run_reopened : genesisNode.run noGeth
    [.importBlock true firstBlock, .reopen emptyNode.config] = some reopenedNode := by
  have hserve : genesisNode.serve noGeth (.importBlock true firstBlock) = some secondNode := by
    rw [serve, importBlock_firstBlock]
  have hreopen : secondNode.serve noGeth (.reopen emptyNode.config) = some reopenedNode := by
    have hid : secondNode.chainID = genesisNode.chainID := rfl
    have hdb : secondNode.db =
        genesisNode.statedb.snapshot.2.intermediateRoot.2.flush.db.writeBlock firstBlock := rfl
    rw [serve, reopenedNode, hid, hdb]
    exact openWithDatabase_writeBlock _ _ _ firstBlock_storable
  rw [run, List.foldlM_cons, hserve, Option.bind_eq_bind, Option.bind_some, List.foldlM_cons,
    hreopen, Option.bind_eq_bind, Option.bind_some, List.foldlM_nil]
  rfl

/-- After reopening, the genesis block is refused although it is stored. -/
theorem genesis_refused : genesisNode.run noGeth
      [.importBlock true firstBlock, .reopen emptyNode.config] = some reopenedNode ∧
    reopenedNode.db.canonical? emptyGenesis.block.number = some emptyGenesis.block.hash ∧
    reopenedNode.importBlock noGeth true emptyGenesis.block =
      .ok (some (.notNext 0 1), reopenedNode) := by
  refine ⟨run_reopened, ?_, ?_⟩
  · show secondNode.db.canonical? 0 = _
    rw [canonical?_secondNode]
    rfl
  · exact importBlock_notNext rfl (by decide) (by decide)

/-- The tip is recognised after reopening, and another block at its height is refused. -/
theorem tip_recognised :
    (reopenedNode.importBlock noGeth true firstBlock = .ok (none, reopenedNode) ↔
      (reopenedNode.blockNum.get? firstBlock.number).isSome) ∧
    reopenedNode.db.canonical? firstBlock.number = some firstBlock.hash := by
  have hrow : reopenedNode.db.canonical? firstBlock.number = some firstBlock.hash := by
    show secondNode.db.canonical? 1 = _
    rw [canonical?_secondNode]
    rfl
  have hsize : Sized [.importBlock true firstBlock, .reopen emptyNode.config] := by
    intro written b hmem
    rcases List.mem_cons.mp hmem with h | h
    · cases h
      exact firstBlock_storable.header
    · cases List.mem_singleton.mp h
  obtain ⟨hagain, -⟩ := import_again_iff noGeth emptyGenesis emptyNode.config
    [.importBlock true firstBlock, .reopen emptyNode.config] (by decide) hsize reopenedNode
    run_reopened
  exact ⟨(hagain true firstBlock hrow).1, hrow⟩

end Node

end Dew
