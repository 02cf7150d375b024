/-
# The state root

The flat records of the state, the database rows overlaid by the caches, and the root of the sparse
Merkle tree over them. The root of the empty tree is evaluated (`emptySMTRoot_eq`).
-/
import Dew.KeccakEval
import Dew.StateDB
import Dew.Staking

open Bytes

namespace Dew

/-! ## The sparse Merkle tree -/

/-- `smtDepth` -/
def smtDepth : ℕ := 256

def hashLeaf (value : Bytes) : Hash :=
  keccak256Hash (0x00 :: value)

def hashInternal (left right : Hash) : Hash :=
  keccak256Hash (0x01 :: (left.bytes ++ right.bytes))

/-- `emptyHashes`: the root of an empty subtree of a height. -/
def emptyHash : ℕ → Hash
  | 0 => keccak256Hash (0x00 :: ascii "empty")
  | h + 1 =>
    let below := emptyHash h
    hashInternal below below

/-- `EmptySMTRoot` -/
def emptySMTRoot : Hash :=
  emptyHash smtDepth

/-- The parent of two equal nodes, whose digest is given by its lanes. -/
theorem hashInternal_digest {x : Hash} {a b c d : ℕ}
    (hx : x = BitVec.ofNat 256 (ofBytes (Keccak.laneDigest a b c d))) :
    hashInternal x x = BitVec.ofNat 256 (Keccak.evalPairs 1 a b c d) := by
  have hbytes : x.bytes = Keccak.laneDigest a b c d := by
    have hlt : ofBytes (Keccak.laneDigest a b c d) < 2 ^ 256 :=
      (ofBytes_lt _).trans_le (by rw [Keccak.length_laneDigest]; decide)
    rw [hx, Hash.bytes, BitVec.toNat_ofNat, Nat.mod_eq_of_lt hlt,
      beBytes_ofBytes (Keccak.length_laneDigest a b c d)]
  rw [hashInternal, hbytes, ← Keccak.evalNat_pair]
  refine Keccak.keccak256_eq_evalNat ?_
  rw [List.length_cons, List.length_append, Keccak.length_laneDigest]
  decide

/-- From the root of an empty subtree to one that is higher. -/
theorem emptyHash_climb (k : ℕ) {h : ℕ} {a b c d : ℕ}
    (hx : emptyHash h = BitVec.ofNat 256 (ofBytes (Keccak.laneDigest a b c d))) :
    emptyHash (h + k) = BitVec.ofNat 256 (Keccak.evalPairs k a b c d) := by
  induction k generalizing h a b c d with
  | zero => exact hx
  | succ k ih =>
      have hstep : emptyHash (h + 1) = _ := hashInternal_digest hx
      simp only [Keccak.evalPairs, Keccak.force_eq] at hstep ⊢
      rw [← Nat.add_assoc, Nat.add_right_comm]
      exact ih hstep

theorem emptySMTRoot_eq :
    emptySMTRoot = 0xb742a8548565d406bfc541263654d0084c715a41affd6e6d30baccea7f3b66d8 := by
  have hleaf : emptyHash 0 = BitVec.ofNat 256 (ofBytes (Keccak.laneDigest 0xd8207dcb2f62f9bc
      0xbe2aec4c3e78c04e 0x57aa9d3ed4bac400 0xa35364b0fe15bfd8)) := by
    rw [emptyHash, keccak256Hash, Keccak.keccak256_eq_evalNat (by decide)]
    decide +kernel
  have hroot : Keccak.evalPairs 256 0xd8207dcb2f62f9bc 0xbe2aec4c3e78c04e 0x57aa9d3ed4bac400
      0xa35364b0fe15bfd8 = 0xb742a8548565d406bfc541263654d0084c715a41affd6e6d30baccea7f3b66d8 := by
    decide +kernel
  have hclimb := emptyHash_climb 256 hleaf
  rw [hroot] at hclimb
  exact hclimb

/-- A node of the tree during the climb: its path and its hash. -/
structure SmtNode where
  path : Hash
  hash : Hash
deriving DecidableEq, Repr

namespace SmtNode

/-- `smtPath.bit`, from the root down. -/
def bit (n : SmtNode) (i : ℕ) : Bool :=
  n.path.getMsbD i

/-- `samePrefix`: the paths agree above `bitIndex`. -/
def samePrefix (a b : SmtNode) (bitIndex : ℕ) : Bool :=
  (List.range bitIndex).all fun i => a.bit i == b.bit i

/-- The parent of two siblings. -/
def join (a b : SmtNode) (bitIndex : ℕ) : SmtNode :=
  let (left, right) := if a.bit bitIndex then (b, a) else (a, b)
  ⟨left.path, hashInternal left.hash right.hash⟩

/-- The parent of a node whose sibling subtree is empty. -/
def lift (a : SmtNode) (height bitIndex : ℕ) : SmtNode :=
  ⟨a.path,
    if a.bit bitIndex then hashInternal (emptyHash height) a.hash
    else hashInternal a.hash (emptyHash height)⟩

end SmtNode

/-- One round of the climb: the nodes of the next height. -/
def smtClimb (height : ℕ) : List SmtNode → List SmtNode
  | [] => []
  | [a] => [a.lift height (smtDepth - 1 - height)]
  | a :: b :: rest =>
    let bitIndex := smtDepth - 1 - height
    if a.samePrefix b bitIndex then a.join b bitIndex :: smtClimb height rest
    else a.lift height bitIndex :: smtClimb height (b :: rest)

/-- `smtRootFromMap` -/
def smtRootFromMap (leaves : GoMap Hash Hash) : Hash :=
  if leaves.entries = [] then emptySMTRoot
  else
    let level := (leaves.entries.map fun e => SmtNode.mk e.1 e.2).mergeSort fun a b =>
      decide (a.path ≤ b.path)
    match (List.range smtDepth).foldl (fun level height => smtClimb height level) level with
    | [root] => root.hash
    | level => level.foldl (fun h n => hashInternal h n.hash) emptySMTRoot

/-- `ComputeSMTRoot` -/
def computeSMTRoot (leaves : GoMap Bytes Bytes) : Hash :=
  smtRootFromMap (leaves.entries.foldl (fun m e => m.set (keccak256Hash e.1) (hashLeaf e.2)) ∅)

/-! ## The flat records -/

namespace StateDB

/-- Whether a row of the database belongs to the state. -/
def isStateKey : Bytes → Bool
  | [] => false
  | b :: _ => b = 0x61 || b = 0x73 || b = 0x63

/-- The code that an account's leaf brings along: from the cache, or else from the database, and then
it is cached. -/
def leafCode (s : StateDB) (codeHash : Hash) : Option Bytes × StateDB :=
  match s.code.get? codeHash with
  | some code => (some code, s)
  | none =>
    match s.db.code? codeHash with
    | some blob => (some blob, s.putCode codeHash blob)
    | none => (none, s)

/-- The overlay of one cached account. -/
def overlayAccount (acc : GoMap Bytes Bytes × StateDB) (e : Address × Account) :
    GoMap Bytes Bytes × StateDB :=
  let (merged, s) := acc
  if e.1 ∈ s.suicides then (merged.delete (accountKey e.1), s)
  else
    let merged := merged.set (accountKey e.1) (encodeAccount e.2)
    if e.2.codeHash = emptyCodeHash then (merged, s)
    else
      match s.leafCode e.2.codeHash with
      | (some code, s) => (merged.set (codeKey e.2.codeHash) code, s)
      | (none, s) => (merged, s)

/-- The overlay of one cached slot. -/
def overlaySlot (s : StateDB) (merged : GoMap Bytes Bytes) (e : StorageID × Hash) :
    GoMap Bytes Bytes :=
  if e.1.addr ∈ s.suicides ∨ e.2 = 0 then merged.delete (storageKey e.1)
  else merged.set (storageKey e.1) e.2.bytes

/-- `collectLeaves`: the leaves in the order of their keys. -/
def collectLeaves (s : StateDB) : GoMap Bytes Bytes × StateDB :=
  let rows := (s.db.entries.filter fun e => isStateKey e.1).foldl (fun m e => m.set e.1 e.2)
    (∅ : GoMap Bytes Bytes)
  let (merged, s') := (s.accounts.entries.map fun e => (e.1, e.2)).foldl overlayAccount (rows, s)
  (((s'.storage.entries.map fun e => (e.1, e.2)).foldl s'.overlaySlot merged).sortKeys, s')

/-- `IntermediateRoot` -/
def intermediateRoot (s : StateDB) : Hash × StateDB :=
  let (leaves, s) := s.collectLeaves
  (computeSMTRoot leaves, s)

theorem intermediateRoot_fst (s : StateDB) :
    s.intermediateRoot.1 = computeSMTRoot s.collectLeaves.1 := by
  unfold intermediateRoot
  dsimp only

/-- Without records there are no leaves. -/
theorem collectLeaves_of_empty {s : StateDB} (hdb : s.db = ∅) (haccounts : s.accounts = ∅)
    (hstorage : s.storage = ∅) : s.collectLeaves = (∅, s) := by
  simp [collectLeaves, hdb, haccounts, hstorage]

theorem intermediateRoot_of_empty {s : StateDB} (hdb : s.db = ∅) (haccounts : s.accounts = ∅)
    (hstorage : s.storage = ∅) : s.intermediateRoot = (emptySMTRoot, s) := by
  rw [intermediateRoot, collectLeaves_of_empty hdb haccounts hstorage]
  rfl

end StateDB

end Dew
