/-
# The block hash and the body

The header of a block carries a root over its transactions, but neither validation nor import
compares it with the transactions. Blocks whose root is right are bound by their hash: two accepted
blocks with one hash have the same body.
-/
import Dew.Node

open Bytes Rlp

namespace Dew

/-! ## Encodings -/

/-- Lists with the same images are the same where the function is injective between them. -/
theorem eq_of_map_eq {α β : Type} {f : α → β} {xs ys : List α}
    (hinj : ∀ x ∈ xs, ∀ y ∈ ys, f x = f y → x = y) (h : xs.map f = ys.map f) : xs = ys := by
  induction xs generalizing ys with
  | nil => exact (List.map_eq_nil_iff.mp h.symm).symm
  | cons x xs ih =>
      cases ys with
      | nil => cases h
      | cons y ys =>
          rw [List.map_cons, List.map_cons] at h
          obtain ⟨hhead, htail⟩ := List.cons.inj h
          obtain rfl := hinj x List.mem_cons_self y List.mem_cons_self hhead
          rw [ih (fun a ha b hb => hinj a (List.mem_cons_of_mem _ ha) b (List.mem_cons_of_mem _ hb))
            htail]

namespace Header

/-- The strings of the canonical list of a header. -/
def parts (h : Header) : List Bytes :=
  [h.parentHash.bytes, h.stateRoot.bytes, h.txRoot.bytes, h.receiptRoot.bytes,
    minBytes h.number.toNat, minBytes h.timestamp.toNat, minBytes h.gasLimit.toNat,
    minBytes h.gasUsed.toNat, minBytes (h.baseFee.getD 0), h.extraData, h.proposer.bytes]

theorem items_eq (h : Header) : h.items = h.parts.map encodeString := rfl

/-- Headers with one encoding are the same, but for a missing base fee. -/
theorem eq_of_encodeRLP_eq {h₁ h₂ : Header} (hs₁ : h₁.items.flatten.length < 256 ^ 8)
    (hs₂ : h₂.items.flatten.length < 256 ^ 8) (h : h₁.encodeRLP = h₂.encodeRLP) :
    h₂ = { h₁ with baseFee := h₂.baseFee } ∧ h₁.baseFee.getD 0 = h₂.baseFee.getD 0 := by
  rw [items_eq] at hs₁ hs₂
  have hparts := encodeList_map_inj hs₁ hs₂ h
  have hnat : ∀ {m n : ℕ}, minBytes m = minBytes n → m = n := by
    intro m n heq
    rw [← ofBytes_minBytes m, heq, ofBytes_minBytes]
  simp only [parts, List.cons.injEq, and_true] at hparts
  obtain ⟨h1, h2, h3, h4, h5, h6, h7, h8, h9, h10, h11⟩ := hparts
  have hu : ∀ {m n : U64}, minBytes m.toNat = minBytes n.toNat → m = n :=
    fun heq => BitVec.eq_of_toNat_eq (hnat heq)
  refine ⟨?_, hnat h9⟩
  cases h₁
  cases h₂
  simp only [Header.mk.injEq, true_and]
  exact ⟨(Hash.bytes_injective h1).symm, (Hash.bytes_injective h2).symm,
    (Hash.bytes_injective h3).symm, (Hash.bytes_injective h4).symm, (hu h5).symm, (hu h6).symm,
    (hu h7).symm, (hu h8).symm, h10.symm, (Address.bytes_injective h11).symm⟩

/-- A header with little extra data and a base fee of eight bytes is short. -/
theorem sized_of_short {h : Header} (hextra : h.extraData.length < 56)
    (hfee : h.baseFee.getD 0 < 256 ^ 8) : h.items.flatten.length < 256 ^ 8 := by
  have hhash : ∀ x : Hash, (encodeString x.bytes).length ≤ 33 := by
    intro x
    have := length_encodeString_le (s := x.bytes) (by simp)
    simpa using this
  have huint : ∀ x : U64, (encodeUint x.toNat).length ≤ 9 :=
    fun x => length_encodeUint_le (w := 8) (by omega) x.isLt
  have hparent := hhash h.parentHash
  have hstate := hhash h.stateRoot
  have htx := hhash h.txRoot
  have hreceipt := hhash h.receiptRoot
  have hnumber := huint h.number
  have htime := huint h.timestamp
  have hlimit := huint h.gasLimit
  have hused := huint h.gasUsed
  have hbase := length_encodeUint_le (w := 8) (by omega) hfee
  have hdata := length_encodeString_le hextra
  have hproposer := length_encodeString_le (s := h.proposer.bytes) (by simp)
  rw [Address.length_bytes] at hproposer
  simp only [items, List.flatten_cons, List.flatten_nil, List.append_nil, List.length_append]
  omega

end Header

namespace Block

/-- The encodings of a block have fewer than `2 ^ 64` bytes, as all slices have. -/
structure Sized (b : Block) : Prop where
  header : b.header.items.flatten.length < 256 ^ 8
  body : (b.transactions.map fun tx => encodeString tx.hash.bytes).flatten.length < 256 ^ 8

/-- A block with another root over its transactions. -/
def withTxRoot (b : Block) (r : Hash) : Block :=
  { b with header := { b.header with txRoot := r } }

/-- The root in the header is the one over the transactions. -/
def BindsBody (b : Block) : Prop :=
  b.header.txRoot = txRoot b.transactions

/-- The digests that bind two blocks do not collide: those of their headers, of the lists of the
hashes of their transactions, and of their transactions. -/
structure NoCollision (b₁ b₂ : Block) : Prop where
  header : keccak256Hash b₁.header.encodeRLP = keccak256Hash b₂.header.encodeRLP →
    b₁.header.encodeRLP = b₂.header.encodeRLP
  body : keccak256Hash (encodeTxHashes b₁.transactions) =
      keccak256Hash (encodeTxHashes b₂.transactions) →
    encodeTxHashes b₁.transactions = encodeTxHashes b₂.transactions
  tx : ∀ tx₁ ∈ b₁.transactions, ∀ tx₂ ∈ b₂.transactions,
    keccak256Hash tx₁.marshalBinary = keccak256Hash tx₂.marshalBinary →
      tx₁.marshalBinary = tx₂.marshalBinary

/-- Where digests do not collide, blocks with one hash whose roots are right have the same body. -/
theorem transactions_eq_of_hash_eq {b₁ b₂ : Block} (hs₁ : b₁.Sized) (hs₂ : b₂.Sized)
    (hcol : NoCollision b₁ b₂) (h₁ : b₁.BindsBody) (h₂ : b₂.BindsBody)
    (hhash : b₁.hash = b₂.hash) : b₁.transactions = b₂.transactions := by
  have hheader := hcol.header hhash
  have hroot : b₁.header.txRoot = b₂.header.txRoot := by
    rw [(Header.eq_of_encodeRLP_eq hs₁.header hs₂.header hheader).1]
  rw [h₁, h₂, txRoot_eq, txRoot_eq] at hroot
  have hbody := hcol.body hroot
  have hhashes : (b₁.transactions.map fun tx => tx.hash.bytes) =
      b₂.transactions.map fun tx => tx.hash.bytes := by
    refine encodeList_map_inj ?_ ?_ ?_
    · rw [List.map_map]
      exact hs₁.body
    · rw [List.map_map]
      exact hs₂.body
    · rw [List.map_map, List.map_map]
      exact hbody
  -- equal digests of the transactions are digests of equal encodings
  have hinj' : ∀ tx₁ ∈ b₁.transactions, ∀ tx₂ ∈ b₂.transactions,
      tx₁.hash.bytes = tx₂.hash.bytes → tx₁ = tx₂ := by
    intro tx₁ htx₁ tx₂ htx₂ heq
    have hraw := hcol.tx tx₁ htx₁ tx₂ htx₂ (Hash.bytes_injective heq)
    cases tx₁
    cases tx₂
    exact congrArg Transaction.mk hraw
  exact eq_of_map_eq hinj' hhashes

/-- Where digests do not collide, blocks with one hash have one header. -/
theorem header_eq_of_hash_eq {b₁ b₂ : Block} (hs₁ : b₁.Sized) (hs₂ : b₂.Sized)
    (hcol : NoCollision b₁ b₂) (hfee : b₁.header.baseFee.isSome = b₂.header.baseFee.isSome)
    (hhash : b₁.hash = b₂.hash) : b₁.header = b₂.header := by
  obtain ⟨hrest, hbase⟩ := Header.eq_of_encodeRLP_eq hs₁.header hs₂.header (hcol.header hhash)
  have hsame : b₂.header.baseFee = b₁.header.baseFee := by
    revert hfee hbase
    cases b₁.header.baseFee <;> cases b₂.header.baseFee <;> simp
    exact fun h => h.symm
  rw [hrest, hsame]

end Block

namespace Node

variable (g : Geth) (n : Node)

/-- The block becomes the head. -/
def Imports (written : Bool) (b : Block) : Prop :=
  ∃ n', n.importCommittedBlock g written b = .ok (none, n')

/-- `ValidateAndExecuteBlock` on the head and the check of the root. -/
def Validates (b : Block) : Prop :=
  ∃ n', n.validateAndExecuteBlock g n.header b = .ok (.ok b.header.stateRoot, n')

/-- The root over the transactions plays no part in their execution. -/
theorem executeBlockTxs_withTxRoot (hdr : Header) (r : Hash) (txs : List Transaction) (i : ℕ)
    (start : U64) (s : StateDB) :
    n.executeBlockTxs g { hdr with txRoot := r } txs i start s =
      n.executeBlockTxs g hdr txs i start s := by
  induction txs generalizing i start s with
  | nil => rfl
  | cons tx txs ih =>
      have htx : n.executeEVMTx g { hdr with txRoot := r } tx i start s =
          n.executeEVMTx g hdr tx i start s := rfl
      simp only [executeBlockTxs, htx, ih]

theorem validateAndExecuteBlock_withTxRoot (b : Block) (r : Hash) (parent : Header) :
    n.validateAndExecuteBlock g parent (b.withTxRoot r) =
      n.validateAndExecuteBlock g parent b := by
  have hsim : n.simulateBlockExecution g (b.withTxRoot r).header (b.withTxRoot r).transactions =
      n.simulateBlockExecution g b.header b.transactions := by
    unfold simulateBlockExecution
    rw [show (b.withTxRoot r).header = { b.header with txRoot := r } from rfl,
      executeBlockTxs_withTxRoot]
    rfl
  unfold validateAndExecuteBlock
  rw [hsim]
  rfl

theorem validates_withTxRoot_iff (b : Block) (r : Hash) :
    n.Validates g (b.withTxRoot r) ↔ n.Validates g b := by
  unfold Validates
  rw [validateAndExecuteBlock_withTxRoot]
  rfl

theorem rollback_ne_ok (s : StateDB) (snap : ℕ) (e : NodeError) (n' : Node) :
    n.rollback s snap e ≠ .ok (none, n') := by
  intro h
  unfold rollback at h
  cases hrev : s.revertToSnapshot snap with
  | error p =>
      rw [hrev] at h
      cases h
  | ok s' =>
      rw [hrev] at h
      cases h

/-- When the block becomes the head: its transactions run, and gas and root are as announced. -/
theorem applyBlock_ok_iff (written : Bool) (b : Block) (n' : Node) :
    n.applyBlock g written b = .ok (none, n') ↔
      written = true ∧ ∃ results s, n.executeBlockTxs g b.header b.transactions 0 0
          n.statedb.snapshot.2 = .ok (.ok (results, b.header.gasUsed), s) ∧
        s.intermediateRoot.1 = b.header.stateRoot ∧
        n' = { n with statedb := s.intermediateRoot.2.flush }.commitBlock b results := by
  unfold applyBlock
  cases hrun : n.executeBlockTxs g b.header b.transactions 0 0 n.statedb.snapshot.2 with
  | error p =>
      constructor
      · intro h
        simp only [hrun] at h
        cases h
      · rintro ⟨-, results, s, h, -⟩
        cases h
  | ok out =>
      obtain ⟨res, s⟩ := out
      cases res with
      | error e =>
          constructor
          · intro h
            simp only [hrun] at h
            exact absurd h (rollback_ne_ok _ _ _ _ _)
          · rintro ⟨-, results, s, h, -⟩
            cases h
      | ok r =>
          obtain ⟨results, totalGas⟩ := r
          simp only [hrun]
          show (if totalGas ≠ b.header.gasUsed then _ else _) = _ ↔ _
          by_cases hgas : totalGas = b.header.gasUsed
          · rw [if_neg (not_not.mpr hgas)]
            by_cases hroot : s.intermediateRoot.1 = b.header.stateRoot
            · rw [if_neg (not_not.mpr hroot)]
              cases written with
              | true =>
                  constructor
                  · intro h
                    cases h
                    exact ⟨rfl, results, s, by rw [hgas], hroot, rfl⟩
                  · rintro ⟨-, results', s', h, -, rfl⟩
                    cases h
                    rfl
              | false =>
                  constructor
                  · intro h
                    exact absurd h (rollback_ne_ok _ _ _ _ _)
                  · rintro ⟨h, -⟩
                    cases h
            · rw [if_pos hroot]
              constructor
              · intro h
                exact absurd h (rollback_ne_ok _ _ _ _ _)
              · rintro ⟨-, results', s', h, hroot', -⟩
                cases h
                exact absurd hroot' hroot
          · rw [if_pos hgas]
            constructor
            · intro h
              exact absurd h (rollback_ne_ok _ _ _ _ _)
            · rintro ⟨-, results', s', h, -, -⟩
              cases h
              exact absurd rfl hgas

/-- At a new height, a block that is imported went through its execution. -/
theorem importCommittedBlock_new {n : Node} {written : Bool} {b : Block} {n' : Node}
    (hnew : n.blockNum.get? b.header.number = none)
    (h : n.importCommittedBlock g written b = .ok (none, n')) :
    n.applyBlock g written b = .ok (none, n') := by
  unfold importCommittedBlock at h
  rw [hnew] at h
  simp only at h
  split at h
  · cases h
  · split at h
    · cases h
    · exact h

/-- At a new height, import does not look at the root over the transactions. -/
theorem imports_withTxRoot_iff (written : Bool) (b : Block) (r : Hash)
    (hnew : n.blockNum.get? b.header.number = none) :
    n.Imports g written (b.withTxRoot r) ↔ n.Imports g written b := by
  have happly : (∃ n', n.applyBlock g written (b.withTxRoot r) = .ok (none, n')) ↔
      ∃ n', n.applyBlock g written b = .ok (none, n') := by
    have hrun := n.executeBlockTxs_withTxRoot g b.header r b.transactions 0 0 n.statedb.snapshot.2
    constructor
    · rintro ⟨n', h⟩
      obtain ⟨hw, results, s, hs, hroot, -⟩ := (applyBlock_ok_iff g n written _ n').mp h
      exact ⟨_, (applyBlock_ok_iff g n written b _).mpr ⟨hw, results, s, hrun ▸ hs, hroot, rfl⟩⟩
    · rintro ⟨n', h⟩
      obtain ⟨hw, results, s, hs, hroot, -⟩ := (applyBlock_ok_iff g n written _ n').mp h
      exact ⟨_, (applyBlock_ok_iff g n written _ _).mpr
        ⟨hw, results, s, hrun.trans hs, hroot, rfl⟩⟩
  have hnew' : n.blockNum.get? (b.withTxRoot r).header.number = none := hnew
  unfold Imports importCommittedBlock
  rw [hnew, hnew']
  show (∃ n', (if b.header.number ≠ n.header.number + 1 then _ else _) = _) ↔
    ∃ n', (if b.header.number ≠ n.header.number + 1 then _ else _) = _
  split
  · rfl
  · show (∃ n', (if b.header.parentHash ≠ n.header.hash then _ else _) = _) ↔
      ∃ n', (if b.header.parentHash ≠ n.header.hash then _ else _) = _
    split
    · rfl
    · exact happly

/-! ## What two nodes store -/

/-- The nodes show the same block under a hash, and the same transactions and receipts under the
hashes of a set. -/
structure Agrees (n₁ n₂ : Node) (blockHash : Hash) (txHashes : Set Hash) : Prop where
  block : n₁.blocks.get? blockHash = n₂.blocks.get? blockHash
  tx : ∀ h ∈ txHashes, n₁.txIndex.get? h = n₂.txIndex.get? h
  receipt : ∀ h ∈ txHashes, n₁.receipts.get? h = n₂.receipts.get? h

theorem Agrees.commitResult {n₁ n₂ : Node} {blockHash : Hash} {T : Set Hash}
    (h : Agrees n₁ n₂ blockHash T) (b : Block) (e : TxExecResult × ℕ) :
    Agrees (commitResult b n₁ e) (commitResult b n₂ e) blockHash (insert e.1.txHash T) := by
  refine ⟨h.block, ?_, ?_⟩
  · intro x hx
    show (n₁.txIndex.set _ _).get? x = (n₂.txIndex.set _ _).get? x
    rw [GoMap.get?_set, GoMap.get?_set]
    split
    · rfl
    · rename_i hne
      exact h.tx x (hx.resolve_left hne)
  · intro x hx
    show (n₁.receipts.set _ _).get? x = (n₂.receipts.set _ _).get? x
    rw [GoMap.get?_set, GoMap.get?_set]
    split
    · rfl
    · rename_i hne
      exact h.receipt x (hx.resolve_left hne)

theorem Agrees.foldl {n₁ n₂ : Node} {blockHash : Hash} {T : Set Hash}
    (h : Agrees n₁ n₂ blockHash T) (b : Block) (es : List (TxExecResult × ℕ)) :
    Agrees (es.foldl (Node.commitResult b) n₁) (es.foldl (Node.commitResult b) n₂) blockHash
      (T ∪ {x | ∃ e ∈ es, x = e.1.txHash}) := by
  induction es generalizing n₁ n₂ T with
  | nil => simpa using h
  | cons e es ih =>
      have hstep := ih (h.commitResult b e)
      refine ⟨hstep.block, fun x hx => hstep.tx x ?_, fun x hx => hstep.receipt x ?_⟩
      all_goals
        rcases hx with hx | ⟨e', he', rfl⟩
        · exact .inl (.inr hx)
        · rcases List.mem_cons.mp he' with rfl | he'
          · exact .inl (.inl rfl)
          · exact .inr ⟨e', he', rfl⟩

/-- Two nodes that commit a block with the same results show it alike. -/
theorem agrees_commitBlock (n₁ n₂ : Node) (b : Block) (results : List TxExecResult) :
    Agrees (n₁.commitBlock b results) (n₂.commitBlock b results) b.hash
      {x | ∃ r ∈ results, x = r.txHash} := by
  have hstart : Agrees
      { n₁ with
        blocks := n₁.blocks.set b.hash b
        blockNum := n₁.blockNum.set b.header.number b.hash
        header := b.header
        baseFee := b.header.baseFee.getD n₁.baseFee }
      { n₂ with
        blocks := n₂.blocks.set b.hash b
        blockNum := n₂.blockNum.set b.header.number b.hash
        header := b.header
        baseFee := b.header.baseFee.getD n₂.baseFee } b.hash ∅ := by
    refine ⟨?_, fun x hx => hx.elim, fun x hx => hx.elim⟩
    show (n₁.blocks.set b.hash b).get? b.hash = (n₂.blocks.set b.hash b).get? b.hash
    rw [GoMap.get?_set, GoMap.get?_set, if_pos rfl, if_pos rfl]
  have hall := hstart.foldl b results.zipIdx
  refine ⟨hall.block, fun x hx => hall.tx x (.inr ?_), fun x hx => hall.receipt x (.inr ?_)⟩
  all_goals
    obtain ⟨r, hr, rfl⟩ := hx
    obtain ⟨i, hi, rfl⟩ := List.getElem_of_mem hr
    exact ⟨(results[i], i), List.mk_mem_zipIdx_iff_getElem?.mpr (List.getElem?_eq_getElem hi), rfl⟩

/-- The nodes execute blocks alike: the same state, chain, base fee and features. -/
structure SameExecution (n₁ n₂ : Node) : Prop where
  statedb : n₁.statedb = n₂.statedb
  chainID : n₁.chainID = n₂.chainID
  baseFee : n₁.baseFee = n₂.baseFee
  config : n₁.config = n₂.config

theorem SameExecution.executeBlockTxs {n₁ n₂ : Node} (h : SameExecution n₁ n₂) (g : Geth)
    (hdr : Header) (txs : List Transaction) (i : ℕ) (start : U64) (s : StateDB) :
    n₁.executeBlockTxs g hdr txs i start s = n₂.executeBlockTxs g hdr txs i start s := by
  have htx : ∀ tx i start s, n₁.executeEVMTx g hdr tx i start s =
      n₂.executeEVMTx g hdr tx i start s := by
    intro tx i start s
    simp only [executeEVMTx, blockContext, h.chainID, h.baseFee, h.config]
  induction txs generalizing i start s with
  | nil => rfl
  | cons tx txs ih => simp only [Node.executeBlockTxs, htx, ih]

/-- A node at a block without transactions, over an empty state. -/
def emptyNode : Node where
  chainID := 1
  statedb := StateDB.new ∅
  header := ⟨0, 0, emptyTxRoot, emptyTxRoot, 0, 0, 0, 0, some 0, [], 0⟩
  blocks := ∅
  blockNum := ∅
  txIndex := ∅
  receipts := ∅
  allLogs := []
  baseFee := 0
  config := ⟨true, false, false, defaultStakingConfig⟩
  pool := []

/-- A library that decodes nothing. -/
def noGeth : Geth where
  unmarshal _ := .error "rlp: unexpected EOF"
  sender _ _ := .error "invalid sender"
  evm _ _ _ := pure ⟨[], none, 0, none⟩

/-- The next block without transactions, with any root over them. -/
def emptyBlock (r : Hash) : Block :=
  ⟨⟨emptyNode.header.hash, (StateDB.new ∅).intermediateRoot.1, r, emptyTxRoot, 1, 1, 0, 0, some 0, [],
    0⟩, []⟩

theorem emptyBlock_new (r : Hash) : emptyNode.blockNum.get? (emptyBlock r).header.number = none := rfl

theorem emptyBlock_sized (r : Hash) : (emptyBlock r).header.items.flatten.length < 256 ^ 8 :=
  Header.sized_of_short (show ([] : Bytes).length < 56 by decide) (show 0 < 256 ^ 8 by decide)

/-- A snapshot does not change the records of an empty state. -/
theorem intermediateRoot_snapshot_new :
    (StateDB.new ∅).snapshot.2.intermediateRoot.1 = (StateDB.new ∅).intermediateRoot.1 := by
  rw [StateDB.intermediateRoot_of_empty rfl rfl rfl, StateDB.intermediateRoot_of_empty rfl rfl rfl]

/-- A block without transactions is validated by the root of the live state. -/
theorem validateAndExecuteBlock_empty (b : Block) (htxs : b.transactions = [])
    (hgas : b.header.gasUsed = 0) :
    n.validateAndExecuteBlock g n.header b =
      .ok (.ok n.statedb.intermediateRoot.1, { n with statedb := n.statedb.intermediateRoot.2 }) := by
  unfold validateAndExecuteBlock
  rw [if_neg (by simp), if_pos htxs, if_neg (not_not.mpr hgas)]

theorem importCommittedBlock_emptyBlock (r : Hash) :
    ∃ n', emptyNode.importCommittedBlock noGeth true (emptyBlock r) = .ok (none, n') := by
  have happly : ∃ n', emptyNode.applyBlock noGeth true (emptyBlock r) = .ok (none, n') :=
    ⟨_, (applyBlock_ok_iff noGeth emptyNode true (emptyBlock r) _).mpr
      ⟨rfl, [], _, rfl, intermediateRoot_snapshot_new, rfl⟩⟩
  obtain ⟨n', hn'⟩ := happly
  refine ⟨n', ?_⟩
  unfold importCommittedBlock
  rw [emptyBlock_new]
  show (if (1 : U64) ≠ 0 + 1 then _ else if emptyNode.header.hash ≠ emptyNode.header.hash then _
    else emptyNode.applyBlock noGeth true (emptyBlock r)) = _
  rw [if_neg (by decide), if_neg (not_not.mpr rfl)]
  exact hn'

end Node

end Dew
