/-
# Blocks on the wire

A block travels as the RLP list of its header, as a string, and the strings of its transactions. The
reader builds the block anew from what it has read, so the roots that `NewBlock` fills in have to
come out as before. A missing base fee comes back as zero, and a transaction with the same encoded
fields in place of the one that was sent; neither shows in a hash.
-/
import Dew.Chaindata
import Dew.Loops
import Dew.TransactionWire

open Bytes

namespace Dew.Types

/-! ## Blocks of decoded transactions -/

/-- `Block`, with the transactions as values. -/
structure Block where
  header : Header
  transactions : List Transaction
deriving DecidableEq, Repr

/-- `TxRoot`; the hash of a transaction without an encoding is a panic. -/
def txRoot (txs : List Transaction) : Except TxError Hash :=
  if txs = [] then .ok emptyTxRoot
  else do
    let hashes ← txs.mapM Transaction.hash
    .ok (keccak256Hash (Rlp.encodeList (hashes.map fun h => Rlp.encodeString h.bytes)))

/-- The transaction root that `NewBlock` sets. -/
def bodyRoot (header : Header) (txs : List Transaction) : Except TxError Hash :=
  if header.txRoot = 0 then txRoot txs else .ok header.txRoot

/-- A header with its transaction root set and a missing receipt root filled in. -/
def withRoots (header : Header) (root : Hash) : Header :=
  { header with
    txRoot := root
    receiptRoot := if header.receiptRoot = 0 then emptyTxRoot else header.receiptRoot }

namespace Block

/-- `NewBlock`: missing roots are filled in. -/
def new (header : Header) (txs : List Transaction) : Except TxError Block := do
  let root ← bodyRoot header txs
  .ok ⟨withRoots header root, txs⟩

/-- `Block.Hash` -/
def hash (b : Block) : Hash :=
  b.header.hash

/-- The list of the header and the raw transactions. -/
def encode (header : Bytes) (raws : List Bytes) : Bytes :=
  Rlp.encodeList [Rlp.encodeString header, Rlp.encodeList (raws.map Rlp.encodeString)]

/-- `Block.MarshalBinary` -/
def marshalBinary (b : Block) : Except TxError Bytes := do
  let raws ← b.transactions.mapM Transaction.marshalBinary
  .ok (encode b.header.encodeRLP raws)

end Block

inductive BlockError where
  | rlp
  | header
  | tx (err : TxError)
deriving DecidableEq, Repr

/-- The header string and the transaction strings of a block. -/
def readBlock : Bytes → Option (Bytes × List Bytes) :=
  Rlp.decodeBytes (Rlp.decodeRecord (Rlp.decodePair Rlp.decodeString Rlp.decodeStrings))

/-- `UnmarshalBlockBinary` -/
def unmarshalBlockBinary (data : Bytes) : Except BlockError Block :=
  match readBlock data with
  | none => .error .rlp
  | some (header, raws) =>
    match decodeHeader header with
    | none => .error .header
    | some h => do
      let txs ← (raws.mapM unmarshalBinary).mapError .tx
      (Block.new h txs).mapError .tx

/-! ## Transactions one by one -/

/-- The integer fields. -/
def Transaction.integers (tx : Transaction) : List (Option ℤ) :=
  [tx.chainID, tx.gasTipCap, tx.gasFeeCap, tx.value, tx.v, tx.r, tx.s]

/-- A legacy or dynamic-fee transaction without negative integers. -/
def Transaction.Valid (tx : Transaction) : Prop :=
  (tx.type = legacyTxType ∨ tx.type = dynamicFeeTxType) ∧ ∀ v ∈ tx.integers, 0 ≤ copyBig v

instance (tx : Transaction) : Decidable tx.Valid :=
  inferInstanceAs (Decidable (_ ∧ _))

theorem Transaction.Valid.marshalBinary {tx : Transaction} (h : tx.Valid) :
    ∃ raw, tx.marshalBinary = .ok raw := by
  obtain ⟨htype, hint⟩ := h
  simp only [integers, List.forall_mem_cons, List.not_mem_nil, false_implies, implies_true,
    and_true] at hint
  obtain ⟨hchain, htip, hfee, hvalue, hv, hr, hs⟩ := hint
  rcases htype with htype | htype
  · have hpayload : tx.payload = .ok (.legacy tx.legacyRLP) := by simp [payload, htype]
    exact ⟨_, marshalBinary_eq_ok_iff.mpr ⟨_, hpayload, ⟨hfee, hvalue, hv, hr, hs⟩, rfl⟩⟩
  · have hpayload : tx.payload = .ok (.dynamicFee tx.dynamicFeeRLP) := by
      simp [payload, htype, legacyTxType, dynamicFeeTxType]
    exact ⟨_, marshalBinary_eq_ok_iff.mpr
      ⟨_, hpayload, ⟨hchain, htip, hfee, hvalue, hv, hr, hs⟩, rfl⟩⟩

/-- The hash sees the encoded fields only. -/
theorem Transaction.hash_congr {tx tx' : Transaction} (h : tx'.payload = tx.payload) :
    tx'.hash = tx.hash := by
  rw [hash, hash, Transaction.marshalBinary, Transaction.marshalBinary, h]

theorem exists_marshalBinary {txs : List Transaction} (h : ∀ tx ∈ txs, tx.Valid) :
    ∃ raws, txs.mapM Transaction.marshalBinary = .ok raws := by
  induction txs with
  | nil => exact ⟨[], rfl⟩
  | cons tx txs ih =>
      obtain ⟨raw, hraw⟩ := (h tx List.mem_cons_self).marshalBinary
      obtain ⟨raws, hraws⟩ := ih fun tx' hmem => h tx' (List.mem_cons_of_mem tx hmem)
      exact ⟨raw :: raws, Loops.mapM_eq_ok_iff.mpr (.cons hraw (Loops.mapM_eq_ok_iff.mp hraws))⟩

/-- The raw transactions are read as transactions with the same hashes. -/
theorem exists_unmarshalBinary {txs : List Transaction} {raws : List Bytes}
    (h : txs.mapM Transaction.marshalBinary = .ok raws)
    (hlen : ∀ raw ∈ raws, raw.length < 2 ^ 64) :
    ∃ txs', raws.mapM unmarshalBinary = .ok txs' ∧
      txs'.map Transaction.hash = txs.map Transaction.hash := by
  have hall := Loops.mapM_eq_ok_iff.mp h
  clear h
  induction hall with
  | nil => exact ⟨[], rfl, rfl⟩
  | @cons tx raw txs raws htx hrest ih =>
      obtain ⟨txs', hread, hhash⟩ := ih fun r hr => hlen r (List.mem_cons_of_mem raw hr)
      obtain ⟨p, -, hp, hsame⟩ :=
        Transaction.unmarshalBinary_marshalBinary htx (hlen raw List.mem_cons_self)
      refine ⟨p.transaction :: txs', Loops.mapM_eq_ok_iff.mpr (.cons hp (Loops.mapM_eq_ok_iff.mp hread)), ?_⟩
      rw [List.map_cons, List.map_cons, hhash, Transaction.hash_congr hsame]

/-! ## The roots of a block -/

theorem mapM_hash_congr {txs txs' : List Transaction}
    (h : txs'.map Transaction.hash = txs.map Transaction.hash) :
    txs'.mapM Transaction.hash = txs.mapM Transaction.hash := by
  have hmap : ∀ l : List Transaction,
      l.mapM Transaction.hash = (l.map Transaction.hash).mapM id := by
    intro l
    rw [List.mapM_map]
    rfl
  rw [hmap, hmap, h]

/-- The root is made from the hashes. -/
theorem txRoot_congr {txs txs' : List Transaction}
    (h : txs'.map Transaction.hash = txs.map Transaction.hash) : txRoot txs' = txRoot txs := by
  have hnil : txs' = [] ↔ txs = [] := by
    rw [← List.map_eq_nil_iff (f := Transaction.hash), h, List.map_eq_nil_iff]
  simp only [txRoot, hnil, mapM_hash_congr h]

theorem mapM_hash_of_marshalBinary {txs : List Transaction} {raws : List Bytes}
    (h : txs.mapM Transaction.marshalBinary = .ok raws) :
    txs.mapM Transaction.hash = .ok (raws.map keccak256Hash) := by
  refine Loops.mapM_eq_ok_iff.mpr (List.forall₂_map_right_iff.mpr ?_)
  refine (Loops.mapM_eq_ok_iff.mp h).imp ?_
  intro tx raw hraw
  rw [Transaction.hash, hraw]
  rfl

/-- The root over the transactions is the root over their encodings. -/
theorem txRoot_of_marshalBinary {txs : List Transaction} {raws : List Bytes}
    (h : txs.mapM Transaction.marshalBinary = .ok raws) :
    txRoot txs = .ok (Dew.txRoot (raws.map Dew.Transaction.mk)) := by
  have hnil : txs = [] ↔ raws = [] := by
    rw [← List.length_eq_zero_iff, (Loops.mapM_eq_ok_iff.mp h).length_eq, List.length_eq_zero_iff]
  rw [Dew.txRoot_eq, Dew.encodeTxHashes, List.map_map]
  by_cases htxs : txs = []
  · rw [txRoot, if_pos htxs, hnil.mp htxs]
    rfl
  · rw [txRoot, if_neg htxs, mapM_hash_of_marshalBinary h]
    simp only [bind, Except.bind, List.map_map]
    rfl

namespace Block

theorem new_eq_ok_iff {header : Header} {txs : List Transaction} {b : Block} :
    new header txs = .ok b ↔ ∃ root, bodyRoot header txs = .ok root ∧
      b = ⟨withRoots header root, txs⟩ := by
  unfold new
  cases bodyRoot header txs with
  | error e => simp [bind, Except.bind]
  | ok root => simp [bind, Except.bind, eq_comm]

theorem exists_new (header : Header) {txs : List Transaction} (h : ∀ tx ∈ txs, tx.Valid) :
    ∃ b, new header txs = .ok b := by
  obtain ⟨raws, hraws⟩ := exists_marshalBinary h
  have hroot := txRoot_of_marshalBinary hraws
  by_cases hzero : header.txRoot = 0
  · exact ⟨_, new_eq_ok_iff.mpr ⟨_, by rw [bodyRoot, if_pos hzero, hroot], rfl⟩⟩
  · exact ⟨_, new_eq_ok_iff.mpr ⟨header.txRoot, by rw [bodyRoot, if_neg hzero], rfl⟩⟩

/-- The root of a block is the root that `NewBlock` would set on its header. -/
theorem bodyRoot_withRoots {header : Header} {txs txs' : List Transaction} {root : Hash}
    (hroot : bodyRoot header txs = .ok root)
    (hhash : txs'.map Transaction.hash = txs.map Transaction.hash) :
    bodyRoot (withRoots header root).stored txs' = .ok root := by
  by_cases hzero : root = 0
  · -- only a derived root can be zero, and it is derived again
    have hheader : header.txRoot = 0 := by
      by_contra hne
      rw [bodyRoot, if_neg hne, hzero, Except.ok.injEq] at hroot
      exact hne hroot
    rw [bodyRoot, if_pos hheader] at hroot
    rw [bodyRoot, if_pos (show (withRoots header root).stored.txRoot = 0 from hzero),
      txRoot_congr hhash, hroot]
  · exact if_neg hzero

theorem withRoots_stored (header : Header) (root : Hash) :
    withRoots (withRoots header root).stored root = (withRoots header root).stored := by
  unfold withRoots Header.stored
  by_cases hzero : header.receiptRoot = 0
  · simp only [hzero, if_true, ite_self]
  · simp only [hzero, if_false]

/-- A block made by `NewBlock` is made again by it from its own header and any transactions with the
same hashes. -/
theorem new_stored {header : Header} {txs txs' : List Transaction} {b : Block}
    (h : new header txs = .ok b)
    (hhash : txs'.map Transaction.hash = txs.map Transaction.hash) :
    new b.header.stored txs' = .ok ⟨b.header.stored, txs'⟩ := by
  obtain ⟨root, hroot, rfl⟩ := new_eq_ok_iff.mp h
  refine new_eq_ok_iff.mpr ⟨root, bodyRoot_withRoots hroot hhash, ?_⟩
  rw [withRoots_stored]

/-! ## Round trip -/

theorem length_header_le (header : Bytes) (raws : List Bytes) :
    header.length ≤ (encode header raws).length :=
  (Rlp.length_le_encodeString header).trans (Rlp.length_le_encodeList List.mem_cons_self)

theorem length_raw_le (header : Bytes) {raws : List Bytes} {raw : Bytes} (h : raw ∈ raws) :
    raw.length ≤ (encode header raws).length := by
  calc raw.length ≤ (Rlp.encodeString raw).length := Rlp.length_le_encodeString raw
    _ ≤ (Rlp.encodeList (raws.map Rlp.encodeString)).length :=
      Rlp.length_le_encodeList (List.mem_map_of_mem h)
    _ ≤ (encode header raws).length :=
      Rlp.length_le_encodeList (List.mem_cons_of_mem _ List.mem_cons_self)

theorem readBlock_encode {header : Bytes} {raws : List Bytes}
    (h : (encode header raws).length < 2 ^ 64) :
    readBlock (encode header raws) = some (header, raws) := by
  have hpayload := lt_of_le_of_lt (Rlp.length_le_withHeader 0xc0 _) h
  simp only [List.flatten_cons, List.flatten_nil, List.append_nil] at hpayload
  have hencode : encode header raws = Rlp.withHeader 0xc0 (Rlp.encodeString header ++
      Rlp.encodeList (raws.map Rlp.encodeString)) := by
    simp only [encode, Rlp.encodeList, List.flatten_cons, List.flatten_nil, List.append_nil]
  exact (Rlp.reads_decodeString.pair Rlp.reads_decodeStrings).decodeBytes_record.mpr
    ⟨⟨⟨trivial, trivial⟩, hpayload⟩, hencode⟩

/-- What was marshalled is read as a block with the same header, up to a missing base fee, and
transactions with the same hashes. -/
theorem unmarshalBlockBinary_marshalBinary {header : Header} {txs : List Transaction} {b : Block}
    {raw : Bytes} (hnew : new header txs = .ok b) (hraw : b.marshalBinary = .ok raw)
    (hlen : raw.length < 2 ^ 64) :
    ∃ b', unmarshalBlockBinary raw = .ok b' ∧ b'.header = b.header.stored ∧
      b'.transactions.map Transaction.hash = b.transactions.map Transaction.hash := by
  obtain ⟨raws, hraws, hencode⟩ : ∃ raws, b.transactions.mapM Transaction.marshalBinary = .ok raws ∧
      encode b.header.encodeRLP raws = raw := by
    unfold marshalBinary at hraw
    cases hm : b.transactions.mapM Transaction.marshalBinary with
    | error e => simp [hm, bind, Except.bind] at hraw
    | ok raws => exact ⟨raws, rfl, by simpa [hm, bind, Except.bind] using hraw⟩
  obtain rfl := hencode
  have hheader : decodeHeader b.header.encodeRLP = some b.header.stored := by
    refine decodeHeader_encodeRLP (lt_of_le_of_lt ?_ hlen)
    exact (Rlp.length_le_withHeader 0xc0 _).trans (length_header_le _ raws)
  have htxs : b.transactions = txs := by
    obtain ⟨root, -, rfl⟩ := new_eq_ok_iff.mp hnew
    rfl
  obtain ⟨txs', hread, hhash⟩ := exists_unmarshalBinary hraws fun raw hraw =>
    lt_of_le_of_lt (length_raw_le _ hraw) hlen
  refine ⟨⟨b.header.stored, txs'⟩, ?_, rfl, hhash⟩
  simp only [unmarshalBlockBinary, readBlock_encode hlen, hheader, hread, Except.mapError, bind,
    Except.bind, new_stored hnew (htxs ▸ hhash)]

theorem exists_marshalBinary (b : Block) (h : ∀ tx ∈ b.transactions, tx.Valid) :
    ∃ raw, b.marshalBinary = .ok raw ∧ 0 < raw.length := by
  obtain ⟨raws, hraws⟩ := Types.exists_marshalBinary h
  refine ⟨encode b.header.encodeRLP raws, ?_, Nat.succ_pos _⟩
  rw [marshalBinary, hraws]
  rfl

theorem hash_of_stored {b b' : Block} (h : b'.header = b.header.stored) : b'.hash = b.hash := by
  rw [hash, hash, h]
  rfl

end Block

end Dew.Types
