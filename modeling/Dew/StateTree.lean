/-
# The state root as a sparse Merkle tree

`ComputeSMTRoot` works from the leaves upwards over a sorted list of nodes. Here it is proved equal
to the definition from the top down, in which a subtree without leaves has the hash of its height.
From that follows how much of the flat state the root binds.
-/
import Dew.SparseTree
import Dew.StateRoot
import Mathlib.Data.List.Sort
import Mathlib.Data.Nat.Bitwise

open Bytes SparseTree

namespace Dew

/-! ## The tree from the top down -/

/-- A leaf of the flat state: a key and its value. -/
abbrev Leaf := Sigma fun _ : Bytes => Bytes

namespace Leaf

/-- The path of a leaf. -/
def path (l : Leaf) : Hash :=
  keccak256Hash l.1

/-- The node with which a leaf enters the climb. -/
def node (l : Leaf) : SmtNode :=
  ⟨l.path, hashLeaf l.2⟩

/-- The bit of the path that tells the children of a node of height `h + 1` apart. -/
def bit (h : ℕ) (l : Leaf) : Bool :=
  l.path.getMsbD (smtDepth - 1 - h)

end Leaf

/-- The root of the subtree of height `h`, which is at depth `smtDepth - h`, over the leaves `S`. -/
def sparseRoot : ℕ → List Leaf → Hash
  | h, [] => emptyHash h
  | 0, l :: _ => hashLeaf l.2
  | h + 1, S =>
    hashInternal (sparseRoot h (S.filter fun l => !l.bit h)) (sparseRoot h (S.filter (Leaf.bit h)))

/-- How the state tree is hashed. -/
def smtScheme : Scheme Leaf Bytes Hash where
  bit := Leaf.bit
  leaf l := 0x00 :: l.2
  empty := 0x00 :: ascii "empty"
  node left right := 0x01 :: (left.bytes ++ right.bytes)
  hash := keccak256Hash

theorem root_nil (h : ℕ) : smtScheme.root h [] = emptyHash h := by
  induction h with
  | zero => rfl
  | succ h ih => rw [Scheme.root_succ, List.filter_nil, List.filter_nil, ih]; rfl

theorem sparseRoot_eq_root (h : ℕ) (S : List Leaf) : sparseRoot h S = smtScheme.root h S := by
  induction h generalizing S with
  | zero => cases S <;> rfl
  | succ h ih =>
      cases S with
      | nil => exact (root_nil _).symm
      | cons l S =>
          show hashInternal (sparseRoot h _) (sparseRoot h _) = _
          rw [ih, ih]
          rfl

/-! ## The climb -/

/-- The nodes after the rounds below height `h`. -/
def smtClimbTo (h : ℕ) (level : List SmtNode) : List SmtNode :=
  (List.range h).foldl (fun level height => smtClimb height level) level

theorem smtClimbTo_succ (h : ℕ) (level : List SmtNode) :
    smtClimbTo (h + 1) level = smtClimb h (smtClimbTo h level) := by
  rw [smtClimbTo, List.range_succ, List.foldl_append]
  rfl

theorem smtClimb_cons_cons (h : ℕ) (a b : SmtNode) (rest : List SmtNode) :
    smtClimb h (a :: b :: rest) =
      if a.samePrefix b (smtDepth - 1 - h) then
        a.join b (smtDepth - 1 - h) :: smtClimb h rest
      else a.lift h (smtDepth - 1 - h) :: smtClimb h (b :: rest) := by
  rw [smtClimb]

theorem SmtNode.path_join (a b : SmtNode) (k : ℕ) :
    (a.join b k).path = if a.bit k then b.path else a.path := by
  unfold SmtNode.join
  cases a.bit k <;> rfl

theorem SmtNode.samePrefix_iff (a b : SmtNode) (k : ℕ) :
    a.samePrefix b k ↔ ∀ i < k, a.bit i = b.bit i := by
  simp [SmtNode.samePrefix]

/-- A round keeps the nodes on paths of leaves. -/
theorem path_mem_smtClimb {h : ℕ} {level : List SmtNode} {n : SmtNode} (hn : n ∈ smtClimb h level) :
    ∃ a ∈ level, n.path = a.path := by
  induction level using smtClimb.induct h with
  | case1 => cases hn
  | case2 a =>
      rw [smtClimb, List.mem_singleton] at hn
      exact ⟨a, List.mem_cons_self, by rw [hn]; rfl⟩
  | case3 a b rest bitIndex hsame ih =>
      rw [smtClimb_cons_cons, if_pos hsame] at hn
      rcases List.mem_cons.mp hn with rfl | hn
      · rw [SmtNode.path_join]
        split
        · exact ⟨b, by simp, rfl⟩
        · exact ⟨a, by simp, rfl⟩
      · obtain ⟨c, hc, hpath⟩ := ih hn
        exact ⟨c, by simp [hc], hpath⟩
  | case4 a b rest bitIndex hsame ih =>
      rw [smtClimb_cons_cons, if_neg hsame] at hn
      rcases List.mem_cons.mp hn with rfl | hn
      · exact ⟨a, by simp, rfl⟩
      · obtain ⟨c, hc, hpath⟩ := ih hn
        exact ⟨c, List.mem_cons_of_mem a hc, hpath⟩

theorem path_mem_smtClimbTo {h : ℕ} {level : List SmtNode} {n : SmtNode}
    (hn : n ∈ smtClimbTo h level) : ∃ a ∈ level, n.path = a.path := by
  induction h generalizing n with
  | zero => exact ⟨n, hn, rfl⟩
  | succ h ih =>
      rw [smtClimbTo_succ] at hn
      obtain ⟨b, hb, hpath⟩ := path_mem_smtClimb hn
      obtain ⟨a, ha, hpath'⟩ := ih hb
      exact ⟨a, ha, hpath.trans hpath'⟩

/-- A round pairs no nodes whose paths differ above the bit of the round. -/
theorem smtClimb_append {h : ℕ} {A B : List SmtNode}
    (hapart : ∀ a ∈ A, ∀ b ∈ B, ¬a.samePrefix b (smtDepth - 1 - h)) :
    smtClimb h (A ++ B) = smtClimb h A ++ smtClimb h B := by
  induction A using smtClimb.induct h with
  | case1 => rfl
  | case2 a =>
      cases B with
      | nil => rfl
      | cons b B =>
          have hab := hapart a List.mem_cons_self b List.mem_cons_self
          rw [List.singleton_append, smtClimb_cons_cons, if_neg hab]
          rfl
  | case3 a b rest bitIndex hsame ih =>
      rw [List.cons_append, List.cons_append, smtClimb_cons_cons, if_pos hsame,
        smtClimb_cons_cons, if_pos hsame, ih]
      · rfl
      · intro c hc
        exact hapart c (by simp [hc])
  | case4 a b rest bitIndex hsame ih =>
      rw [List.cons_append, List.cons_append, smtClimb_cons_cons, if_neg hsame,
        smtClimb_cons_cons, if_neg hsame, ← List.cons_append, ih]
      · rfl
      · intro c hc
        exact hapart c (List.mem_cons_of_mem a hc)

theorem smtClimbTo_append {h : ℕ} {A B : List SmtNode}
    (hapart : ∀ a ∈ A, ∀ b ∈ B, ∃ i < smtDepth - h, a.bit i ≠ b.bit i) :
    smtClimbTo h (A ++ B) = smtClimbTo h A ++ smtClimbTo h B := by
  induction h with
  | zero => rfl
  | succ h ih =>
      rw [smtClimbTo_succ, ih, smtClimb_append]
      · rw [smtClimbTo_succ, smtClimbTo_succ]
      · intro n hn m hm hsame
        obtain ⟨a, ha, hna⟩ := path_mem_smtClimbTo hn
        obtain ⟨b, hb, hmb⟩ := path_mem_smtClimbTo hm
        obtain ⟨i, hi, hne⟩ := hapart a ha b hb
        apply hne
        have hbit := (SmtNode.samePrefix_iff n m _).mp hsame i (by omega)
        simpa only [SmtNode.bit, hna, hmb] using hbit
      · intro a ha b hb
        obtain ⟨i, hi, hne⟩ := hapart a ha b hb
        exact ⟨i, by omega, hne⟩

/-! ## Sorted leaves -/

/-- Of two words in order that agree above a bit, the smaller one does not have this bit alone. -/
theorem getMsbD_mono {x y : Hash} {k : ℕ} (hle : x ≤ y)
    (hsame : ∀ i < k, x.getMsbD i = y.getMsbD i) (hx : x.getMsbD k = true) :
    y.getMsbD k = true := by
  by_contra hy
  rw [Bool.not_eq_true] at hy
  have hk : k < 256 := by
    by_contra hk
    rw [BitVec.getMsbD_of_ge x k (by omega)] at hx
    cases hx
  have htest (z : Hash) (i : ℕ) (hi : i < 256) : z.toNat.testBit (255 - i) = z.getMsbD i := by
    rw [BitVec.getMsbD_eq_getLsbD, BitVec.testBit_toNat]
    simp [hi]
  refine absurd (BitVec.le_def.mp hle) (not_le.mpr (Nat.lt_of_testBit (255 - k) ?_ ?_ ?_))
  · rw [htest y k hk, hy]
  · rw [htest x k hk, hx]
  · intro j hj
    by_cases hj' : j < 256
    · have hi := hsame (255 - j) (by omega)
      rw [← htest x (255 - j) (by omega), ← htest y (255 - j) (by omega),
        Nat.sub_sub_self (by omega)] at hi
      exact hi.symm
    · rw [BitVec.testBit_toNat, BitVec.testBit_toNat, BitVec.getLsbD_of_ge _ _ (by omega),
        BitVec.getLsbD_of_ge _ _ (by omega)]

theorem filter_append_filter_of_pairwise {α : Type} {p : α → Bool} {S : List α}
    (hS : S.Pairwise fun a b => p a → p b) : (S.filter fun a => !p a) ++ S.filter p = S := by
  induction S with
  | nil => rfl
  | cons a S ih =>
      obtain ⟨ha, hS⟩ := List.pairwise_cons.mp hS
      cases hpa : p a with
      | false => simp [hpa, ih hS]
      | true =>
          have hall : ∀ b ∈ S, p b := fun b hb => ha b hb hpa
          have hnone : (S.filter fun a => !p a) = [] := by
            simpa [List.filter_eq_nil_iff] using hall
          have hsome : S.filter p = S := List.filter_eq_self.mpr hall
          simp [hpa, hnone, hsome]

theorem bit_of_mem_left {h : ℕ} {S : List Leaf} {l : Leaf}
    (hl : l ∈ S.filter fun l => !l.bit h) : l ∈ S ∧ l.bit h = false := by
  simpa using hl

theorem bit_of_mem_right {h : ℕ} {S : List Leaf} {l : Leaf} (hl : l ∈ S.filter (Leaf.bit h)) :
    l ∈ S ∧ l.bit h = true := by
  simpa using hl

/-- Leaves on one side of a node agree on one more bit. -/
theorem common_of_side {h : ℕ} (hh : h < smtDepth) {S S' : List Leaf} {b : Bool}
    (hcommon : ∀ l ∈ S, ∀ l' ∈ S, ∀ i < smtDepth - (h + 1), l.path.getMsbD i = l'.path.getMsbD i)
    (hside : ∀ l ∈ S', l ∈ S ∧ l.bit h = b) :
    ∀ l ∈ S', ∀ l' ∈ S', ∀ i < smtDepth - h, l.path.getMsbD i = l'.path.getMsbD i := by
  intro l hl l' hl' i hi
  obtain ⟨hmem, hbit⟩ := hside l hl
  obtain ⟨hmem', hbit'⟩ := hside l' hl'
  by_cases hlast : i < smtDepth - (h + 1)
  · exact hcommon l hmem l' hmem' i hlast
  · obtain rfl : i = smtDepth - 1 - h := by omega
    exact hbit.trans hbit'.symm

theorem smtClimbTo_nil (h : ℕ) : smtClimbTo h [] = [] := by
  induction h with
  | zero => rfl
  | succ h ih => rw [smtClimbTo_succ, ih, smtClimb]

/-- A round over one node pairs it with the empty subtree on the other side. -/
theorem smtClimb_singleton {h : ℕ} {l : Leaf} {x : Hash} :
    smtClimb h [⟨l.path, x⟩] =
      [⟨l.path, if l.bit h then hashInternal (emptyHash h) x else hashInternal x (emptyHash h)⟩] :=
  rfl

/-- The last round over the roots of the two sides. -/
theorem smtClimb_sides {h : ℕ} {l l' : Leaf} {x y : Hash} (hl : l.bit h = false)
    (hcommon : ∀ i < smtDepth - (h + 1), l.path.getMsbD i = l'.path.getMsbD i) :
    smtClimb h [⟨l.path, x⟩, ⟨l'.path, y⟩] = [⟨l.path, hashInternal x y⟩] := by
  have hsame : SmtNode.samePrefix ⟨l.path, x⟩ ⟨l'.path, y⟩ (smtDepth - 1 - h) := by
    rw [SmtNode.samePrefix_iff]
    intro i hi
    exact hcommon i (by omega)
  have hbit : SmtNode.bit ⟨l.path, x⟩ (smtDepth - 1 - h) = false := hl
  rw [smtClimb_cons_cons, if_pos hsame, SmtNode.join, hbit]
  rfl

/-- The climb over sorted leaves with a common path above height `h` ends in the root of their
subtree. -/
theorem smtClimbTo_eq_root {h : ℕ} (hh : h ≤ smtDepth) {S : List Leaf} (hne : S ≠ [])
    (hsorted : S.Pairwise fun l l' => l.path < l'.path)
    (hcommon : ∀ l ∈ S, ∀ l' ∈ S, ∀ i < smtDepth - h, l.path.getMsbD i = l'.path.getMsbD i) :
    ∃ l ∈ S, smtClimbTo h (S.map Leaf.node) = [⟨l.path, smtScheme.root h S⟩] := by
  induction h generalizing S with
  | zero =>
      rcases S with _ | ⟨l, _ | ⟨l', S⟩⟩
      · exact absurd rfl hne
      · exact ⟨l, List.mem_cons_self, rfl⟩
      · have hpath : l.path = l'.path := by
          apply BitVec.eq_of_getMsbD_eq
          intro i hi
          exact hcommon l (by simp) l' (by simp) i hi
        have hlt := List.rel_of_pairwise_cons hsorted (List.mem_cons_self (a := l'))
        rw [hpath] at hlt
        exact absurd hlt (BitVec.lt_irrefl _)
  | succ h ih =>
      -- the leaves on the left come first, and no round below `h` pairs across the sides
      have hsplit : (S.filter fun l => !l.bit h) ++ S.filter (Leaf.bit h) = S := by
        apply filter_append_filter_of_pairwise
        refine hsorted.imp_of_mem ?_
        intro l l' hl hl' hlt hbit
        refine getMsbD_mono (BitVec.le_of_lt hlt) ?_ hbit
        intro i hi
        exact hcommon l hl l' hl' i (by omega)
      have hclimb : smtClimbTo h (S.map Leaf.node) =
          smtClimbTo h ((S.filter fun l => !l.bit h).map Leaf.node) ++
            smtClimbTo h ((S.filter (Leaf.bit h)).map Leaf.node) := by
        rw [← smtClimbTo_append, ← List.map_append, hsplit]
        intro a ha b hb
        obtain ⟨l, hl, rfl⟩ := List.mem_map.mp ha
        obtain ⟨l', hl', rfl⟩ := List.mem_map.mp hb
        refine ⟨smtDepth - 1 - h, by omega, ?_⟩
        show l.bit h ≠ l'.bit h
        rw [(bit_of_mem_left hl).2, (bit_of_mem_right hl').2]
        decide
      have hleft (hne : (S.filter fun l => !l.bit h) ≠ []) :=
        ih (by omega) hne (hsorted.filter _)
          (common_of_side (by omega) hcommon fun l hl => bit_of_mem_left hl)
      have hright (hne : S.filter (Leaf.bit h) ≠ []) :=
        ih (by omega) hne (hsorted.filter _)
          (common_of_side (by omega) hcommon fun l hl => bit_of_mem_right hl)
      have hleftEq : (S.filter fun l => !smtScheme.bit h l) = S.filter fun l => !l.bit h := rfl
      have hrightEq : S.filter (smtScheme.bit h) = S.filter (Leaf.bit h) := rfl
      rw [smtClimbTo_succ, hclimb, Scheme.root_succ]
      by_cases hzero : (S.filter fun l => !l.bit h) = []
      · have hone : S.filter (Leaf.bit h) ≠ [] := by
          intro hone
          rw [hzero, hone] at hsplit
          exact hne hsplit.symm
        obtain ⟨l, hl, hroot⟩ := hright hone
        obtain ⟨hmem, hbit⟩ := bit_of_mem_right hl
        refine ⟨l, hmem, ?_⟩
        rw [hroot, hleftEq, hzero, List.map_nil, smtClimbTo_nil, List.nil_append,
          smtClimb_singleton, if_pos hbit, root_nil]
        rfl
      by_cases hone : S.filter (Leaf.bit h) = []
      · obtain ⟨l, hl, hroot⟩ := hleft hzero
        obtain ⟨hmem, hbit⟩ := bit_of_mem_left hl
        refine ⟨l, hmem, ?_⟩
        rw [hroot, hrightEq, hone, List.map_nil, smtClimbTo_nil, List.append_nil,
          smtClimb_singleton, hbit, root_nil]
        rfl
      · obtain ⟨l, hl, hroot⟩ := hleft hzero
        obtain ⟨l', hl', hroot'⟩ := hright hone
        obtain ⟨hmem, hbit⟩ := bit_of_mem_left hl
        obtain ⟨hmem', -⟩ := bit_of_mem_right hl'
        refine ⟨l, hmem, ?_⟩
        rw [hroot, hroot', List.singleton_append,
          smtClimb_sides hbit (hcommon l hmem l' hmem')]
        rfl

/-! ## The root of a map -/

/-- The leaves by their paths. -/
def pathMap (leaves : GoMap Bytes Bytes) : GoMap Hash Hash :=
  leaves.entries.foldl (fun m e => m.set (keccak256Hash e.1) (hashLeaf e.2)) ∅

/-- The sorted list of nodes with which the climb starts. -/
def smtLevel (leaves : GoMap Hash Hash) : List SmtNode :=
  (leaves.entries.map fun e => SmtNode.mk e.1 e.2).mergeSort fun a b => decide (a.path ≤ b.path)

/-- The keys of the leaves have different paths. -/
def PathsApart (leaves : GoMap Bytes Bytes) : Prop :=
  Set.InjOn keccak256Hash {k | k ∈ leaves}

theorem smtRootFromMap_eq {m : GoMap Hash Hash} (hne : m.entries ≠ []) {n : SmtNode}
    (hn : smtClimbTo smtDepth (smtLevel m) = [n]) : smtRootFromMap m = n.hash := by
  unfold smtRootFromMap
  rw [if_neg hne]
  dsimp only
  split
  · rename_i root hroot
    rw [← List.singleton_inj.mp (hroot.symm.trans hn)]
  · rename_i hroot
    exact absurd hn (hroot n)

theorem entries_foldl_set {es : List Leaf} (hes : (es.map Leaf.path).Nodup) {m : GoMap Hash Hash}
    (hm : ∀ l ∈ es, l.path ∉ m) :
    (es.foldl (fun m e => m.set (keccak256Hash e.1) (hashLeaf e.2)) m).entries.Perm
      (es.map (fun l => ⟨l.path, hashLeaf l.2⟩) ++ m.entries) := by
  induction es generalizing m with
  | nil => exact List.Perm.refl _
  | cons l es ih =>
      obtain ⟨hl, hes⟩ := List.nodup_cons.mp hes
      have hnew : l.path ∉ m := hm l List.mem_cons_self
      refine (ih hes ?_).trans ?_
      · intro l' hl' hmem
        rcases AList.mem_insert _ |>.mp hmem with heq | hmem
        · exact hl (List.mem_map.mpr ⟨l', hl', heq⟩)
        · exact hm l' (List.mem_cons_of_mem l hl') hmem
      · show (_ ++ (AList.insert l.path (hashLeaf l.2) m).entries).Perm _
        rw [AList.entries_insert_of_notMem hnew, List.map_cons, List.cons_append]
        exact List.perm_middle

theorem PathsApart.nodup_paths {leaves : GoMap Bytes Bytes} (hpaths : PathsApart leaves) :
    (leaves.entries.map Leaf.path).Nodup := by
  have hkeys : leaves.keys.Nodup := leaves.keys_nodup
  have hmap : leaves.entries.map Leaf.path = leaves.keys.map keccak256Hash := by
    simp [AList.keys, List.keys, Leaf.path, Function.comp_def]
  rw [hmap]
  exact hkeys.map_on fun k hk k' hk' => hpaths hk hk'

/-- Sorting by paths that differ gives a strictly ascending list. -/
theorem pairwise_sortByPath {α : Type} {f : α → Hash} {l : List α} (hl : (l.map f).Nodup) :
    (l.mergeSort fun a b => decide (f a ≤ f b)).Pairwise fun a b => f a < f b := by
  have hle : (l.mergeSort fun a b => decide (f a ≤ f b)).Pairwise
      fun a b => decide (f a ≤ f b) = true := by
    apply List.pairwise_mergeSort
    · intro a b c hab hbc
      exact decide_eq_true (BitVec.le_trans (of_decide_eq_true hab) (of_decide_eq_true hbc))
    · intro a b
      simpa using BitVec.le_total (f a) (f b)
  have hne : (l.mergeSort fun a b => decide (f a ≤ f b)).Pairwise fun a b => f a ≠ f b :=
    List.pairwise_map.mp (((List.mergeSort_perm l _).map f).nodup_iff.mpr hl)
  refine (hle.and hne).imp ?_
  rintro a b ⟨hab, hne⟩
  have hle := of_decide_eq_true hab
  bv_omega

/-- The level at which the climb starts lists the nodes of the leaves in the order of their
paths. -/
theorem exists_sorted {leaves : GoMap Bytes Bytes} (hpaths : PathsApart leaves) :
    ∃ S : List Leaf, S.Perm leaves.entries ∧ (S.Pairwise fun l l' => l.path < l'.path) ∧
      smtLevel (pathMap leaves) = S.map Leaf.node := by
  have hnodup := hpaths.nodup_paths
  have hentries := entries_foldl_set hnodup (m := ∅) fun l _ => AList.notMem_empty l.path
  have hnodes : ((pathMap leaves).entries.map fun e => SmtNode.mk e.1 e.2).Perm
      (leaves.entries.map Leaf.node) := by
    have hmap := hentries.map fun e => SmtNode.mk e.1 e.2
    rw [AList.empty_entries, List.append_nil, List.map_map] at hmap
    exact hmap
  let S : List Leaf := leaves.entries.mergeSort fun l l' => decide (Leaf.path l ≤ Leaf.path l')
  have hS : S.Perm leaves.entries := List.mergeSort_perm _ _
  refine ⟨S, hS, pairwise_sortByPath hnodup, ?_⟩
  refine @List.Perm.eq_of_pairwise _ (fun a b => a.path < b.path) _ _ ?_ ?_ ?_ ?_
  · intro a b _ _ hab hba
    exact absurd (BitVec.lt_trans hab hba) (BitVec.lt_irrefl _)
  · refine pairwise_sortByPath (f := SmtNode.path) ?_
    rw [(hnodes.map SmtNode.path).nodup_iff, List.map_map]
    exact hnodup
  · exact List.pairwise_map.mpr (pairwise_sortByPath hnodup)
  · exact (List.mergeSort_perm _ _).trans (hnodes.trans (hS.map Leaf.node).symm)

theorem eq_of_bits {l l' : Leaf} (h : ∀ i < smtDepth, l.bit i = l'.bit i) : l.path = l'.path := by
  apply BitVec.eq_of_getMsbD_eq
  intro i hi
  have hbit := h (smtDepth - 1 - i) (by unfold smtDepth; omega)
  unfold Leaf.bit at hbit
  rwa [Nat.sub_sub_self (by unfold smtDepth; omega)] at hbit

theorem PathsApart.apart {leaves : GoMap Bytes Bytes} (hpaths : PathsApart leaves) :
    smtScheme.Apart smtDepth leaves.entries := by
  refine (List.pairwise_map.mp hpaths.nodup_paths).imp ?_
  intro l l' hne
  by_contra hall
  push Not at hall
  exact hne (eq_of_bits hall)

/-- The climb over a map that is not empty ends in one node, with the root of the tree. -/
theorem smtClimbTo_pathMap {leaves : GoMap Bytes Bytes} (hpaths : PathsApart leaves)
    (hne : leaves.entries ≠ []) :
    ∃ path, smtClimbTo smtDepth (smtLevel (pathMap leaves)) =
      [⟨path, sparseRoot smtDepth leaves.entries⟩] := by
  obtain ⟨S, hperm, hsorted, hlevel⟩ := exists_sorted hpaths
  have hS : S ≠ [] := by
    rintro rfl
    exact hne hperm.nil_eq.symm
  obtain ⟨l, -, hclimb⟩ := smtClimbTo_eq_root le_rfl hS hsorted (by simp)
  refine ⟨l.path, ?_⟩
  rw [hlevel, hclimb, sparseRoot_eq_root, Scheme.root_perm hpaths.apart hperm.symm]

theorem computeSMTRoot_eq {leaves : GoMap Bytes Bytes} (hpaths : PathsApart leaves) :
    computeSMTRoot leaves = sparseRoot smtDepth leaves.entries := by
  by_cases hne : leaves.entries = []
  · rw [computeSMTRoot, hne]
    rfl
  · obtain ⟨path, hclimb⟩ := smtClimbTo_pathMap hpaths hne
    refine smtRootFromMap_eq ?_ hclimb
    intro hmap
    rw [smtLevel, hmap, List.map_nil, List.mergeSort_nil, smtClimbTo_nil] at hclimb
    cases hclimb

/-- `ComputeSMTRoot` computes the sparse Merkle tree: it is the root from the top down over the
leaves with distinct paths, in any order, and the climb always ends in a single node. -/
theorem computeSMTRoot_sparse (leaves : GoMap Bytes Bytes) (hpaths : PathsApart leaves) :
    computeSMTRoot leaves = sparseRoot smtDepth leaves.entries ∧
      (∀ leaves' : GoMap Bytes Bytes, leaves'.entries.Perm leaves.entries →
        computeSMTRoot leaves' = computeSMTRoot leaves) ∧
      (leaves.entries ≠ [] → (smtClimbTo smtDepth (smtLevel (pathMap leaves))).length = 1) := by
  refine ⟨computeSMTRoot_eq hpaths, ?_, ?_⟩
  · intro leaves' hperm
    have hpaths' : PathsApart leaves' := by
      refine hpaths.mono ?_
      intro k hk
      exact (AList.mem_of_perm hperm).mp hk
    rw [computeSMTRoot_eq hpaths, computeSMTRoot_eq hpaths', sparseRoot_eq_root,
      sparseRoot_eq_root, Scheme.root_perm hpaths'.apart hperm]
  · intro hne
    obtain ⟨path, hclimb⟩ := smtClimbTo_pathMap hpaths hne
    rw [hclimb, List.length_singleton]

/-- Two leaves, under the keys `1` and `2`. -/
def twoLeaves : GoMap Bytes Bytes :=
  (AList.singleton [1] [3]).insert [2] [4]

theorem twoLeaves_pathsApart : PathsApart twoLeaves := by
  have hne : keccak256Hash [1] ≠ keccak256Hash [2] := by
    rw [keccak256Hash, keccak256Hash, Keccak.keccak256_eq_evalNat (by decide),
      Keccak.keccak256_eq_evalNat (by decide)]
    decide +kernel
  have hmem : ∀ k ∈ twoLeaves, k = [1] ∨ k = [2] := by
    intro k hk
    rcases (AList.mem_insert _).mp hk with rfl | hk
    · exact .inr rfl
    · exact .inl (List.mem_singleton.mp hk)
  intro k hk k' hk' heq
  rcases hmem k hk with rfl | rfl <;> rcases hmem k' hk' with rfl | rfl
  · rfl
  · exact absurd heq hne
  · exact absurd heq.symm hne
  · rfl

theorem twoLeaves_sparse :
    twoLeaves.entries.length = 2 ∧
      computeSMTRoot twoLeaves = sparseRoot smtDepth twoLeaves.entries :=
  ⟨by decide, (computeSMTRoot_sparse twoLeaves twoLeaves_pathsApart).1⟩

/-! ## What the root binds -/

/-- All inputs of the hash function: the keys, and the messages of leaves, empty places and inner
nodes. -/
def smtInputs (leaves : GoMap Bytes Bytes) : Set Bytes :=
  {k | k ∈ leaves} ∪ smtScheme.messages smtDepth leaves.entries

/-- The value of a key as far as the root shows it: a leaf with the value `empty` is hashed like an
empty place. -/
def shown (leaves : GoMap Bytes Bytes) (k : Bytes) : Option Bytes :=
  (leaves.get? k).filter (· ≠ ascii "empty")

theorem shown_eq_some_iff {leaves : GoMap Bytes Bytes} {k v : Bytes} :
    shown leaves k = some v ↔ ⟨k, v⟩ ∈ leaves.entries ∧ smtScheme.leaf ⟨k, v⟩ ≠ smtScheme.empty := by
  unfold shown GoMap.get?
  rw [Option.filter_eq_some_iff, ← Option.mem_def, AList.mem_lookup_iff]
  simp [smtScheme]

theorem smtNode_injective : Function.Injective2 smtScheme.node := by
  intro a a' b b' h
  have happend := (List.cons.inj h).2
  have hlen : a.bytes.length = a'.bytes.length := by
    rw [Hash.length_bytes, Hash.length_bytes]
  obtain ⟨ha, hb⟩ := List.append_inj happend hlen
  exact ⟨Hash.bytes_injective ha, Hash.bytes_injective hb⟩

/-- Without collisions, what one tree shows the other one shows under the same root. -/
theorem shown_of_root_eq {m m' : GoMap Bytes Bytes}
    (hinj : Set.InjOn keccak256Hash (smtInputs m ∪ smtInputs m')) (hpaths : PathsApart m)
    (heq : smtScheme.root smtDepth m.entries = smtScheme.root smtDepth m'.entries) {k v : Bytes}
    (hv : shown m k = some v) : shown m' k = some v := by
  obtain ⟨hmem, hvisible⟩ := shown_eq_some_iff.mp hv
  obtain ⟨⟨k', v'⟩, hmem', hbits, hleaf⟩ := Scheme.binding smtNode_injective hinj
    (Set.subset_union_right.trans Set.subset_union_left)
    (Set.subset_union_right.trans Set.subset_union_right) hpaths.apart heq hmem hvisible
  have hk : k ∈ smtInputs m ∪ smtInputs m' := .inl (.inl (List.mem_map.mpr ⟨_, hmem, rfl⟩))
  have hk' : k' ∈ smtInputs m ∪ smtInputs m' := .inr (.inl (List.mem_map.mpr ⟨_, hmem', rfl⟩))
  have hpath : keccak256Hash k' = keccak256Hash k := by
    have hpath := eq_of_bits hbits
    rwa [Leaf.path, Leaf.path] at hpath
  obtain rfl : k' = k := hinj hk' hk hpath
  obtain rfl : v' = v := (List.cons.inj hleaf).2
  exact shown_eq_some_iff.mpr ⟨hmem', hvisible⟩

/-- Maps that show the same have the same root. -/
theorem root_eq_of_shown_eq {m m' : GoMap Bytes Bytes} (hpaths : PathsApart m)
    (hpaths' : PathsApart m') (h : ∀ k, shown m k = shown m' k) :
    smtScheme.root smtDepth m.entries = smtScheme.root smtDepth m'.entries := by
  have hperm : (m.entries.filter fun l => smtScheme.leaf l ≠ smtScheme.empty).Perm
      (m'.entries.filter fun l => smtScheme.leaf l ≠ smtScheme.empty) := by
    rw [List.perm_ext_iff_of_nodup (m.nodupKeys.nodup.filter _) (m'.nodupKeys.nodup.filter _)]
    rintro ⟨k, v⟩
    have hk : shown m k = some v ↔ shown m' k = some v := by rw [h]
    rw [shown_eq_some_iff, shown_eq_some_iff] at hk
    simpa using hk
  have hapart : smtScheme.Apart smtDepth
      (m.entries.filter fun l => smtScheme.leaf l ≠ smtScheme.empty) :=
    List.Pairwise.filter _ hpaths.apart
  rw [Scheme.root, Scheme.root, ← Scheme.message_filter_visible hpaths.apart,
    ← Scheme.message_filter_visible hpaths'.apart, Scheme.message_perm hapart hperm]

/-- Two maps have the same root exactly when they show the same values, that is when they are equal
up to leaves with the value `empty`; otherwise the hash function has a collision among the inputs
used. -/
theorem computeSMTRoot_binds_iff (m m' : GoMap Bytes Bytes) :
    (computeSMTRoot m = computeSMTRoot m' ↔ ∀ k, shown m k = shown m' k) ∨
      ∃ x ∈ smtInputs m ∪ smtInputs m', ∃ y ∈ smtInputs m ∪ smtInputs m',
        x ≠ y ∧ keccak256Hash x = keccak256Hash y := by
  by_cases hinj : Set.InjOn keccak256Hash (smtInputs m ∪ smtInputs m')
  · have hpaths : PathsApart m := hinj.mono (Set.subset_union_left.trans Set.subset_union_left)
    have hpaths' : PathsApart m' := hinj.mono (Set.subset_union_left.trans Set.subset_union_right)
    left
    rw [computeSMTRoot_eq hpaths, computeSMTRoot_eq hpaths', sparseRoot_eq_root,
      sparseRoot_eq_root]
    constructor
    · intro heq k
      rw [Set.union_comm] at hinj
      ext v
      constructor
      · exact shown_of_root_eq (Set.union_comm _ _ ▸ hinj) hpaths heq
      · exact shown_of_root_eq hinj hpaths' heq.symm
    · exact root_eq_of_shown_eq hpaths hpaths'
  · right
    unfold Set.InjOn at hinj
    push Not at hinj
    obtain ⟨x, hx, y, hy, heq, hne⟩ := hinj
    exact ⟨x, hx, y, hy, hne, heq⟩

/-- A database with the code of a contract whose bytecode is the text `empty`, as it stays behind
when the contract is destroyed. -/
def emptyTextRows : Database :=
  AList.singleton (codeKey (keccak256Hash (ascii "empty"))) (ascii "empty")

theorem collectLeaves_emptyTextRows :
    (StateDB.new emptyTextRows).collectLeaves.1 = emptyTextRows := by
  have hkey : StateDB.isStateKey (codeKey (keccak256Hash (ascii "empty"))) = true := rfl
  show ((emptyTextRows.entries.filter fun e => StateDB.isStateKey e.1).foldl
    (fun m e => m.set e.1 e.2) (∅ : GoMap Bytes Bytes)).sortKeys = emptyTextRows
  rw [emptyTextRows, AList.singleton_entries, List.filter_cons, if_pos hkey, List.filter_nil,
    List.foldl_cons, List.foldl_nil, GoMap.set, AList.insert_empty]
  exact AList.ext (List.mergeSort_singleton _)

theorem shown_emptyTextRows (k : Bytes) : shown emptyTextRows k = none := by
  cases hk : shown emptyTextRows k with
  | none => rfl
  | some v =>
      obtain ⟨hmem, hvisible⟩ := shown_eq_some_iff.mp hk
      obtain rfl : v = ascii "empty" := eq_of_heq (Sigma.mk.inj (List.mem_singleton.mp hmem)).2
      exact absurd rfl hvisible

/-- The row of a contract with the bytecode `empty` is a leaf, but the root is that of no leaves. -/
theorem emptyText_root :
    (StateDB.new emptyTextRows).collectLeaves.1.get? (codeKey (keccak256Hash (ascii "empty"))) =
        some (ascii "empty") ∧
      (StateDB.new ∅).collectLeaves.1 = ∅ ∧
      (StateDB.new emptyTextRows).intermediateRoot.1 = (StateDB.new ∅).intermediateRoot.1 := by
  have hpaths : PathsApart emptyTextRows := by
    intro k hk k' hk' _
    exact (List.mem_singleton.mp hk).trans (List.mem_singleton.mp hk').symm
  have hpaths' : PathsApart ∅ := by
    intro k hk
    exact absurd hk (AList.notMem_empty k)
  have hnone : (StateDB.new ∅).collectLeaves.1 = ∅ := by
    rw [StateDB.collectLeaves_of_empty rfl rfl rfl]
  refine ⟨?_, hnone, ?_⟩
  · rw [collectLeaves_emptyTextRows]
    exact AList.mem_lookup_iff.mpr (List.mem_singleton.mpr rfl)
  · rw [StateDB.intermediateRoot_fst, StateDB.intermediateRoot_fst, collectLeaves_emptyTextRows,
      hnone, computeSMTRoot_eq hpaths, computeSMTRoot_eq hpaths', sparseRoot_eq_root,
      sparseRoot_eq_root]
    apply root_eq_of_shown_eq hpaths hpaths'
    intro k
    rw [shown_emptyTextRows, shown, GoMap.get?_empty, Option.filter_none]

end Dew
