/-
# Admission and conversion

`SendRawTransaction` decodes with go-ethereum, which knows more transaction types than the block
body does: there a transaction is read by `Transaction.UnmarshalBinary`, legacy or dynamic-fee. A
transaction of another type is admitted, and every selection drops it again.
-/
import Dew.BodyBinding
import Dew.Sealing

open Bytes

namespace Dew

open Mempool

namespace Library

variable {lib : Library} {raw : Bytes} {tx : EthTx}

/-- The two codecs agree on the types that both support. -/
theorem readPayload_of_supported (h : lib.unmarshal raw = .ok tx)
    (htype : tx.txType = 0 ∨ tx.txType = 2) :
    ∃ p, Types.readPayload raw = .ok p ∧ p.FullLength := by
  have hformat := lib.format raw tx h
  rcases htype with htype | htype
  · obtain ⟨p, hnonneg, hfull, hlen, rfl⟩ := hformat.legacy htype
    exact ⟨.legacy p, Types.readPayload_eq_ok_iff.mpr ⟨⟨hnonneg, hlen⟩, rfl⟩, hfull⟩
  · obtain ⟨p, hnonneg, hfull, hlen, rfl⟩ := hformat.dynamicFee htype
    exact ⟨.dynamicFee p, Types.readPayload_eq_ok_iff.mpr ⟨⟨hnonneg, hlen⟩, rfl⟩, hfull⟩

theorem ethTxToDew_of_supported (h : lib.unmarshal raw = .ok tx)
    (htype : tx.txType = 0 ∨ tx.txType = 2) : lib.ethTxToDew tx = some ⟨raw⟩ := by
  obtain ⟨p, hread, hfull⟩ := readPayload_of_supported h htype
  have hunmarshal := Types.unmarshalBinary_eq_ok_iff.mpr ⟨p, hread, rfl⟩
  have hmarshal : p.transaction.marshalBinary = .ok raw := by
    rw [Types.Payload.marshalBinary_transaction (Types.readPayload_eq_ok_iff.mp hread).1.1,
      (Types.Payload.bytes_rewritten_iff hread).mpr hfull]
  simp [ethTxToDew, lib.marshal_unmarshal raw tx h, hunmarshal, hmarshal, Except.toOption]

/-- Any other type byte is neither the tag of a dynamic-fee transaction nor the header of a list. -/
theorem ethTxToDew_of_unsupported (h : lib.unmarshal raw = .ok tx) (hlegacy : tx.txType ≠ 0)
    (hdynamic : tx.txType ≠ 2) : lib.ethTxToDew tx = none := by
  obtain ⟨hlt, rest, rfl⟩ := (lib.format raw tx h).typed hlegacy
  have hbyte : (UInt8.ofNat tx.txType).toNat = tx.txType := by
    rw [UInt8.toNat_ofNat']
    omega
  have hfail : ∀ d, Types.unmarshalBinary (UInt8.ofNat tx.txType :: rest) ≠ .ok d := by
    intro d hd
    obtain ⟨p, hread, -⟩ := Types.unmarshalBinary_eq_ok_iff.mp hd
    obtain ⟨⟨-, hlen⟩, hbytes⟩ := Types.readPayload_eq_ok_iff.mp hread
    cases p with
    | legacy raw =>
        have hhead := congrArg UInt8.toNat (List.cons_eq_cons.mp hbytes).1
        have hcode := Rlp.lengthCode_lt hlen
        simp only [Types.Payload.items] at hcode
        rw [hbyte, Rlp.toNat_headerByte (by omega)] at hhead
        omega
    | dynamicFee raw =>
        have hhead := congrArg UInt8.toNat (List.cons_eq_cons.mp hbytes).1
        rw [hbyte] at hhead
        exact hdynamic hhead
  cases hd : Types.unmarshalBinary (UInt8.ofNat tx.txType :: rest) with
  | ok d => exact absurd hd (hfail d)
  | error e => simp [ethTxToDew, lib.marshal_unmarshal _ tx h, hd, Except.toOption]

end Library

/-! ## What is admitted -/

theorem Mempool.Pool.mem_of_add {p q : Pool} {order : RangeOrder Hash Entry} {e : Entry} {h : Hash}
    (hadd : p.add order e = ((h, none), q)) : e ∈ q.entries := by
  have hinsert : ∀ (p' : Pool) r, e ∈ (p'.insert e r).entries := fun p' r =>
    Pool.mem_entries.mpr ⟨e.hash, by rw [Pool.get?_byHash_insert, if_pos rfl]⟩
  unfold Pool.add at hadd
  split at hadd
  · cases hadd
  split at hadd
  · cases hadd
  split at hadd
  · cases hadd
  split at hadd
  · split at hadd
    · cases hadd
    · cases hadd
      exact hinsert _ _
  · cases hadd
    exact hinsert _ _

theorem Mempool.EvmArgs.entry_ok {policy : Policy} {args : EvmArgs} {tx : EthTx} {e : Entry}
    (htx : args.tx = some tx) (hmarshalled : args.marshalled = none)
    (h : args.entry policy = .ok e) : e.hash = tx.hash ∧ e.raw = args.raw := by
  unfold EvmArgs.entry at h
  rw [htx, hmarshalled] at h
  simp only at h
  split at h
  · cases h
  rename_i raw hraw
  have hraw : args.raw = raw := by
    split at hraw
    · cases hraw
    · exact Option.some.inj hraw
  split at h
  · cases h
  split at h
  · cases h
  split at h
  · cases h
  · cases h
    exact ⟨rfl, hraw.symm⟩

/-- Without auto-mining a sent transaction is admitted: it decodes, its sender is recovered, and it
is an entry of the pool. -/
theorem PoolNode.admitted_of_sendRawTransaction {lib : Library} {n n' : PoolNode} {turn : Turn}
    {raw : Bytes} {hash : Hash} (hauto : n.autoMine = false)
    (h : n.sendRawTransaction lib turn raw = .ok (.ok hash, n')) :
    ∃ tx sender, lib.unmarshal raw = .ok tx ∧ lib.sender n.node.chainID tx = .ok sender ∧
      tx.hash = hash ∧ ∃ e ∈ n'.pool.entries, e.hash = hash ∧ e.raw = raw := by
  unfold sendRawTransaction at h
  split at h
  · cases h
  rename_i tx htx
  split at h
  · cases h
  rename_i sender hsender
  split at h
  · cases h
  simp only at h
  split at h
  · cases h
  unfold admitAndSeal at h
  simp only [withState, hauto, Bool.not_false, true_or, if_true] at h
  split at h
  · cases h
  rename_i hnone
  obtain ⟨rfl, rfl⟩ : tx.hash = hash ∧ _ = n' := by simpa using h
  refine ⟨tx, sender, htx, hsender, rfl, ?_⟩
  unfold Mempool.Pool.accept at hnone ⊢
  split at hnone
  · cases hnone
  rename_i e he
  obtain ⟨hhash, hraw⟩ := EvmArgs.entry_ok rfl rfl he
  refine ⟨e, ?_, hhash, hraw⟩
  exact Pool.mem_of_add (p := n.pool) (Prod.ext (Prod.ext rfl hnone) rfl)

/-- The transaction can be put into a block and comes out of it as it was. -/
def Library.Convertible (lib : Library) (tx : EthTx) : Prop :=
  ∃ d, lib.ethTxToDew tx = some d ∧ lib.dewTxToEth d = .ok tx

/-- No selection drops the entry for its encoding. -/
def Selectable (lib : Library) (e : Entry) : Prop :=
  ∀ gasLimit totalGas, chooseEVM lib gasLimit totalGas e ≠ .dropEntry

theorem Library.convertible_iff {lib : Library} {raw : Bytes} {tx : EthTx}
    (h : lib.unmarshal raw = .ok tx) : lib.Convertible tx ↔ tx.txType = 0 ∨ tx.txType = 2 := by
  constructor
  · rintro ⟨d, hd, -⟩
    by_contra htype
    rw [not_or] at htype
    rw [ethTxToDew_of_unsupported h htype.1 htype.2] at hd
    cases hd
  · intro htype
    exact ⟨⟨raw⟩, ethTxToDew_of_supported h htype, h⟩

theorem selectable_iff {lib : Library} {e : Entry} {tx : EthTx}
    (h : lib.unmarshal e.raw = .ok tx) : Selectable lib e ↔ lib.Convertible tx := by
  constructor
  · intro hselect
    -- without a gas limit only the encoding decides
    have hfree := hselect 0 0
    have hlimit : ¬(0 < (0 : U64) ∧ (0 : U64) < 0 + tx.gas) := fun hpos => absurd hpos.1 (by decide)
    simp only [chooseEVM, h, if_neg hlimit] at hfree
    rw [Library.convertible_iff h]
    by_contra htype
    rw [not_or] at htype
    rw [Library.ethTxToDew_of_unsupported h htype.1 htype.2] at hfree
    exact hfree rfl
  · rintro ⟨d, hd, -⟩ gasLimit totalGas
    simp only [chooseEVM, h, hd]
    split <;> simp

/-- Of the transactions that are admitted without auto-mining, just the legacy and dynamic-fee ones
can be put into a block unchanged and are not dropped by every selection. -/
theorem admitted_convertible_iff {lib : Library} {n n' : PoolNode} {turn : Turn} {raw : Bytes}
    {hash : Hash} (hauto : n.autoMine = false)
    (h : n.sendRawTransaction lib turn raw = .ok (.ok hash, n')) :
    ∃ tx sender, lib.unmarshal raw = .ok tx ∧ lib.sender n.node.chainID tx = .ok sender ∧
      tx.hash = hash ∧ ∃ e ∈ n'.pool.entries, e.hash = hash ∧ e.raw = raw ∧
        (lib.Convertible tx ∧ Selectable lib e ↔ tx.txType = 0 ∨ tx.txType = 2) := by
  obtain ⟨tx, sender, htx, hsender, hhash, e, he, hehash, hraw⟩ :=
    PoolNode.admitted_of_sendRawTransaction hauto h
  refine ⟨tx, sender, htx, hsender, hhash, e, he, hehash, hraw, ?_⟩
  rw [selectable_iff (hraw ▸ htx), and_self, Library.convertible_iff htx]

/-! ## Two transactions -/

/-- A library that knows one transaction. -/
def soleLibrary (raw : Bytes) (tx : EthTx) (sender : Address) (hformat : WireFormat raw tx.txType) :
    Library where
  unmarshal raw' := if raw' = raw then .ok tx else .error "rlp: unexpected EOF"
  sender _ tx' := if tx' = tx then .ok sender else .error "invalid sender"
  evm _ _ _ := pure ⟨[], none, 0, none⟩
  marshal tx' := if tx' = tx then .ok raw else .error "unsupported"
  dewSignature _ := some "types: dewtx signature does not match sender"
  marshal_unmarshal := by
    intro raw' tx' h
    split at h
    · rename_i hraw
      cases h
      rw [if_pos rfl, hraw]
    · cases h
  format := by
    intro raw' tx' h
    split at h
    · rename_i hraw
      cases h
      rw [hraw]
      exact hformat
    · cases h

theorem unmarshal_soleLibrary (raw : Bytes) (tx : EthTx) (sender : Address)
    (hformat : WireFormat raw tx.txType) :
    (soleLibrary raw tx sender hformat).unmarshal raw = .ok tx :=
  if_pos rfl

/-- A node with an empty pool that does not mine. -/
def idleNode : PoolNode where
  node := Node.emptyNode
  pool := Mempool.new defaultConfig
  autoMine := false
  enableNative := false

/-- A call at time zero, with the maps in their own order. -/
def plainTurn : Turn where
  now := 0
  addedAt := 0
  entryOrder := plainOrder
  senderOrder := ⟨GoMap.values, fun _ => List.Perm.refl _⟩
  written := true

/-- The bytes of an access-list transaction of chain 1 with signature `(0, 1, 1)`. -/
def accessListRaw : Bytes :=
  [0x01, 0xe5, 0x01, 0x80, 0x84, 0x3b, 0x9a, 0xca, 0x00, 0x82, 0x52, 0x08, 0x94, 0x00, 0x00, 0x00,
    0x00, 0x00, 0x00, 0x00, 0x00, 0x00, 0x00, 0x00, 0x00, 0x00, 0x00, 0x00, 0x00, 0x00, 0x00, 0x00,
    0x02, 0x80, 0x80, 0xc0, 0x80, 0x01, 0x01]

/-- What go-ethereum reads from it. -/
def accessListTx : EthTx :=
  ⟨1, 1, 0, 1000000000, 1000000000, 1000000000, 21000, some 2, 0, [],
    0xc10df1080323bdf3fe7c3705657444fc611f411e6280aa9e82b2ad6cbfa06ab8⟩

theorem accessListFormat : WireFormat accessListRaw accessListTx.txType :=
  ⟨fun h => absurd h (by decide), fun _ => ⟨by decide, _, rfl⟩, fun h => absurd h (by decide)⟩

/-- A library that knows this transaction, and its signer. -/
def accessListLibrary : Library :=
  soleLibrary accessListRaw accessListTx 0xcd4edbf0115684d08406006b67a6b2620bceaf6d accessListFormat

/-- The fields of a legacy transaction with signature `(27, 1, 1)`. -/
def legacyFields : Types.LegacyRLP :=
  ⟨0, 1000000000, 21000, Address.bytes 2, 0, [], 27, 1, 1⟩

/-- What go-ethereum reads from its encoding. -/
def legacyTx : EthTx :=
  ⟨0, 0, 0, 1000000000, 1000000000, 1000000000, 21000, some 2, 0, [],
    0x38e8306d3ace655a26911a607adad3bcdabd2a1806d926f556a6e8811a3f9282⟩

theorem legacyFormat : WireFormat (Rlp.encodeList legacyFields.items) legacyTx.txType :=
  ⟨fun _ => ⟨legacyFields, by decide, Or.inr rfl, by decide, rfl⟩, fun h => absurd rfl h,
    fun h => absurd h (by decide)⟩

def legacyLibrary : Library :=
  soleLibrary (Rlp.encodeList legacyFields.items) legacyTx
    0x612fb76ee7d53616253afa65a53d1d8a4225c45a legacyFormat

theorem nonce_idleNode (a : Address) : (idleNode.node.statedb.getNonce a).1 = 0 := by
  rw [StateDB.getNonce_fst]
  simp [idleNode, Node.emptyNode, StateDB.nonceOf, StateDB.account?, StateDB.new, Store.object?,
    Database.account?]

/-- An empty pool takes any entry. -/
theorem add_emptyPool (order : RangeOrder Hash Entry) (e : Entry) :
    (Mempool.new defaultConfig).add order e =
      ((e.hash, none), (Mempool.new defaultConfig).insert e false) := by
  have hreplace : (Mempool.new defaultConfig).replaceOld e = .ok (false, Mempool.new defaultConfig) := by
    simp [Pool.replaceOld, Mempool.new]
  have hsender : ¬ (Mempool.new defaultConfig).policy.maxPerSender ≤
      (Mempool.new defaultConfig).senderCount e.sender := by
    simp [Pool.senderCount, Mempool.new, Config.policy, defaultConfig]
  have hglobal : ¬ (Mempool.new defaultConfig).policy.maxGlobal ≤
      (Mempool.new defaultConfig).byHash.len := by
    decide
  rw [Pool.add, hreplace]
  simp only [if_neg hsender, if_neg hglobal]
  simp [Mempool.new]

/-- The idle node admits a first transaction that pays the minimal gas price. -/
theorem idleNode_admits {raw : Bytes} (tx : EthTx) (sender : Address)
    (hformat : WireFormat raw tx.txType) (hraw : raw ≠ []) (hlen : raw.length ≤ 131072)
    (htype : tx.txType ≠ 2) (hchain : tx.chainID = 0 ∨ tx.chainID = 1)
    (hprice : 1000000000 ≤ tx.gasPrice) :
    ∃ n', idleNode.sendRawTransaction (soleLibrary raw tx sender hformat) plainTurn raw =
      .ok (.ok tx.hash, n') := by
  have hread := unmarshal_soleLibrary raw tx sender hformat
  have hsigned : (soleLibrary raw tx sender hformat).sender idleNode.node.chainID tx = .ok sender :=
    if_pos rfl
  have hsame : ¬(tx.chainID ≠ 0 ∧ tx.chainID ≠ idleNode.node.chainID) := by
    show ¬(tx.chainID ≠ 0 ∧ tx.chainID ≠ 1)
    omega
  have hnonce : ¬ tx.nonce < (idleNode.node.statedb.getNonce sender).1 := by
    rw [nonce_idleNode]
    exact BitVec.not_lt_zero
  obtain ⟨e, he, hehash⟩ : ∃ e, EvmArgs.entry idleNode.pool.policy
      ⟨some tx, sender, raw, none, some idleNode.node.chainID, plainTurn.addedAt⟩ = .ok e ∧
        e.hash = tx.hash := by
    have hfee : evmPrice idleNode.pool.policy tx = .ok (tx.gasPrice, none) := by
      have hmin : ¬ (tx.gasPrice : ℤ) < idleNode.pool.policy.minGasPriceWei := by
        show ¬ (tx.gasPrice : ℤ) < 1000000000
        omega
      rw [evmPrice, if_neg htype, if_neg hmin]
    have hsize : ¬ idleNode.pool.policy.maxTxBytes < raw.length := by
      show ¬ (131072 : ℤ) < raw.length
      omega
    have hwrong : ¬(tx.chainID ≠ 0 ∧ ∃ c ∈ some idleNode.node.chainID, tx.chainID ≠ c) := by
      rintro ⟨hne, c, hc, hchainc⟩
      obtain rfl := Option.mem_some_iff.mp hc
      exact hsame ⟨hne, hchainc⟩
    simp only [EvmArgs.entry, if_neg hraw, if_neg hsize, if_neg hwrong, hfee]
    exact ⟨_, rfl, rfl⟩
  have hpool : idleNode.pool.accept plainTurn.entryOrder (.ok e) =
      ((e.hash, none), idleNode.pool.insert e false) :=
    add_emptyPool plainTurn.entryOrder e
  have hauto : idleNode.autoMine = false := rfl
  simp only [PoolNode.sendRawTransaction, hread, hsigned, if_neg hsame, if_neg hnonce,
    PoolNode.admitAndSeal, PoolNode.withState, he, hpool, hauto, Bool.not_false, true_or, if_true]
  exact ⟨_, rfl⟩

/-- A legacy transaction is admitted, and can be put into a block unchanged. -/
theorem legacy_convertible :
    ∃ n', idleNode.sendRawTransaction legacyLibrary plainTurn (Rlp.encodeList legacyFields.items) =
        .ok (.ok legacyTx.hash, n') ∧
      ∃ tx, legacyLibrary.unmarshal (Rlp.encodeList legacyFields.items) = .ok tx ∧
        legacyLibrary.Convertible tx ∧ ∃ e ∈ n'.pool.entries, Selectable legacyLibrary e := by
  obtain ⟨n', hsent⟩ := idleNode_admits legacyTx 0x612fb76ee7d53616253afa65a53d1d8a4225c45a
    legacyFormat (by decide) (by decide) (by decide) (Or.inl rfl) (by decide)
  obtain ⟨tx, sender, hread, -, -, e, he, -, -, hiff⟩ := admitted_convertible_iff rfl hsent
  have htx : legacyTx = tx := by
    have hsole : legacyLibrary.unmarshal (Rlp.encodeList legacyFields.items) = .ok legacyTx :=
      unmarshal_soleLibrary ..
    exact Except.ok.inj (hsole.symm.trans hread)
  obtain ⟨hconvertible, hselectable⟩ := hiff.mpr (Or.inl (by rw [← htx]; rfl))
  exact ⟨n', hsent, tx, hread, hconvertible, e, he, hselectable⟩

/-- An access-list transaction is admitted, cannot be put into a block, and is dropped by every
selection. -/
theorem accessList_stuck :
    ∃ n', idleNode.sendRawTransaction accessListLibrary plainTurn accessListRaw =
        .ok (.ok accessListTx.hash, n') ∧
      accessListLibrary.unmarshal accessListRaw = .ok accessListTx ∧
      accessListLibrary.ethTxToDew accessListTx = none ∧
      ∃ e ∈ n'.pool.entries, e.raw = accessListRaw ∧
        ∀ totalGas, chooseEVM accessListLibrary 0 totalGas e = .dropEntry := by
  obtain ⟨n', hsent⟩ := idleNode_admits accessListTx
    0xcd4edbf0115684d08406006b67a6b2620bceaf6d accessListFormat (by decide) (by decide) (by decide)
    (Or.inr rfl) (by decide)
  have hread : accessListLibrary.unmarshal accessListRaw = .ok accessListTx :=
    unmarshal_soleLibrary ..
  have hnone : accessListLibrary.ethTxToDew accessListTx = none :=
    Library.ethTxToDew_of_unsupported hread (by decide) (by decide)
  obtain ⟨-, -, -, -, -, e, he, -, hraw⟩ := PoolNode.admitted_of_sendRawTransaction rfl hsent
  refine ⟨n', hsent, hread, hnone, e, he, hraw, ?_⟩
  intro totalGas
  have hlimit : ¬(0 < (0 : U64) ∧ (0 : U64) < totalGas + accessListTx.gas) :=
    fun hpos => absurd hpos.1 (by decide)
  simp only [chooseEVM, hraw, hread, if_neg hlimit, hnone]

end Dew
