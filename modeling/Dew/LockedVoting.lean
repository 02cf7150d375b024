/-
# Agreement by locked votes

An abstract voting protocol. Weighted members, some of them faulty, move through heights and rounds
and cast one ballot per round. A value is decided at a height once ballots for it, together with the
faulty members, outweigh two thirds of the total. A member that voted for a proper value leaves its
round only by deciding, or when the nil value has such support in that round.

`Reachable.decided_unique`: as long as the faulty members weigh less than a third, no two decisions for
one height differ. The argument is quorum intersection (`exists_correct_of_quorums`) together with
the invariant that a ballot for a value is the last one of its voter at that height (`Inv.stays`).
-/
import Mathlib.Algebra.Order.BigOperators.Group.Finset
import Mathlib.Logic.Relation

namespace LockedVoting

variable {V X : Type}

/-! ## Quorums -/

/-- Two sets that each outweigh two thirds of the total share a member outside any set lighter than
one third. -/
theorem exists_correct_of_quorums [DecidableEq V] {w : V → ℕ} {U A B Z : Finset V} (hA : A ⊆ U)
    (hB : B ⊆ U) (qA : 2 * ∑ a ∈ U, w a < 3 * ∑ a ∈ A, w a)
    (qB : 2 * ∑ a ∈ U, w a < 3 * ∑ a ∈ B, w a) (hZ : 3 * ∑ a ∈ Z, w a < ∑ a ∈ U, w a) :
    ∃ a, a ∈ A ∧ a ∈ B ∧ a ∉ Z := by
  by_contra hnone
  have hsub : A ∩ B ⊆ Z := by
    intro a ha
    rw [Finset.mem_inter] at ha
    by_contra hZ'
    exact hnone ⟨a, ha.1, ha.2, hZ'⟩
  have hinter : ∑ a ∈ A ∩ B, w a ≤ ∑ a ∈ Z, w a := Finset.sum_le_sum_of_subset hsub
  have hunion : ∑ a ∈ A ∪ B, w a ≤ ∑ a ∈ U, w a :=
    Finset.sum_le_sum_of_subset (Finset.union_subset hA hB)
  have hsum : ∑ a ∈ A ∪ B, w a + ∑ a ∈ A ∩ B, w a = ∑ a ∈ A, w a + ∑ a ∈ B, w a :=
    Finset.sum_union_inter
  omega

/-! ## The protocol -/

/-- A vote for a value in a round of a height. -/
@[ext] structure Ballot (V X : Type) where
  voter : V
  height : ℕ
  round : ℕ
  value : X

/-- The members with their weights, the faulty ones among them, and the nil value. -/
structure Setting (V X : Type) where
  members : Finset V
  weight : V → ℕ
  faulty : Finset V
  nil : X
  faulty_light : 3 * ∑ a ∈ faulty, weight a < ∑ a ∈ members, weight a

@[ext] structure State (V X : Type) where
  height : V → ℕ
  round : V → ℕ
  /-- The ballot of a member in its current round. -/
  voted : V → Option X
  /-- The ballots cast by correct members. -/
  sent : Set (Ballot V X)
  /-- What correct members decided. -/
  decided : Set (Ballot V X)

namespace Setting

variable (C : Setting V X)

open Classical in
/-- The members that are faulty or voted for `x`. -/
noncomputable def backers (sent : Set (Ballot V X)) (h r : ℕ) (x : X) : Finset V :=
  C.members.filter fun a => a ∈ C.faulty ∨ ⟨a, h, r, x⟩ ∈ sent

/-- The backers of a value outweigh two thirds of the total. -/
def Supported (sent : Set (Ballot V X)) (h r : ℕ) (x : X) : Prop :=
  2 * ∑ a ∈ C.members, C.weight a < 3 * ∑ a ∈ C.backers sent h r x, C.weight a

variable {C}

theorem mem_backers {sent : Set (Ballot V X)} {h r : ℕ} {x : X} {a : V} :
    a ∈ C.backers sent h r x ↔ a ∈ C.members ∧ (a ∈ C.faulty ∨ ⟨a, h, r, x⟩ ∈ sent) := by
  classical
  exact Finset.mem_filter

theorem Supported.mono {sent sent' : Set (Ballot V X)} (hsub : sent ⊆ sent') {h r : ℕ} {x : X}
    (hx : C.Supported sent h r x) : C.Supported sent' h r x := by
  have hbackers : C.backers sent h r x ⊆ C.backers sent' h r x := by
    intro a ha
    rw [mem_backers] at ha ⊢
    exact ⟨ha.1, ha.2.imp id fun hs => hsub hs⟩
  have hweight : ∑ a ∈ C.backers sent h r x, C.weight a ≤
      ∑ a ∈ C.backers sent' h r x, C.weight a := Finset.sum_le_sum_of_subset hbackers
  unfold Supported at hx ⊢
  omega

/-- Two supported values have a correct voter in common. -/
theorem Supported.common {sent : Set (Ballot V X)} {h r h' r' : ℕ} {x y : X}
    (hx : C.Supported sent h r x) (hy : C.Supported sent h' r' y) :
    ∃ a, ⟨a, h, r, x⟩ ∈ sent ∧ ⟨a, h', r', y⟩ ∈ sent := by
  classical
  have hsub : ∀ h r x, C.backers sent h r x ⊆ C.members := fun _ _ _ => Finset.filter_subset _ _
  obtain ⟨a, ha, ha', hcorrect⟩ := exists_correct_of_quorums (hsub h r x) (hsub h' r' y) hx hy
    C.faulty_light
  rw [mem_backers] at ha ha'
  exact ⟨a, ha.2.resolve_left hcorrect, ha'.2.resolve_left hcorrect⟩

variable (C) [DecidableEq V]

/-- One step of a correct member `a`. -/
inductive Step (s : State V X) : State V X → Prop
  /-- It votes, for the first time in its round. -/
  | vote (a : V) (x : X) (hnew : s.voted a = none) :
      Step s { s with
        voted := Function.update s.voted a (some x)
        sent := insert ⟨a, s.height a, s.round a, x⟩ s.sent }
  /-- It goes to the next round, unless it voted for a value and nil has no support. -/
  | skip (a : V) (hfree : ∀ x, s.voted a = some x → x ≠ C.nil →
        C.Supported s.sent (s.height a) (s.round a) C.nil) :
      Step s { s with
        round := Function.update s.round a (s.round a + 1)
        voted := Function.update s.voted a none }
  /-- It decides a supported value and goes to the next height. -/
  | decide (a : V) (x : X) (hx : x ≠ C.nil)
      (hsupport : C.Supported s.sent (s.height a) (s.round a) x) :
      Step s { s with
        height := Function.update s.height a (s.height a + 1)
        round := Function.update s.round a 0
        voted := Function.update s.voted a none
        decided := insert ⟨a, s.height a, s.round a, x⟩ s.decided }

/-- Nobody has voted or decided yet. -/
structure Initial (s : State V X) : Prop where
  sent : s.sent = ∅
  decided : s.decided = ∅

def Reachable (s₀ s : State V X) : Prop :=
  Relation.ReflTransGen C.Step s₀ s

/-! ## The invariant -/

/-- Where the voter of a ballot is now. -/
def Passed (s : State V X) (b : Ballot V X) : Prop :=
  b.height < s.height b.voter ∨
    b.height = s.height b.voter ∧ b.round < s.round b.voter

/-- The voter of a ballot is still in the round of the ballot. -/
def Stands (s : State V X) (b : Ballot V X) : Prop :=
  b.height = s.height b.voter ∧ b.round = s.round b.voter ∧ s.voted b.voter = some b.value

structure Inv (s : State V X) : Prop where
  position : ∀ b ∈ s.sent, Passed s b ∨ Stands s b
  unique : ∀ b ∈ s.sent, ∀ b' ∈ s.sent, b.voter = b'.voter → b.height = b'.height →
    b.round = b'.round → b.value = b'.value
  stays : ∀ b ∈ s.sent, b.value ≠ C.nil → C.Supported s.sent b.height b.round C.nil ∨
    (∀ b' ∈ s.sent, b'.voter = b.voter → b'.height = b.height → b'.round ≤ b.round) ∧
      (b.height < s.height b.voter ∨ Stands s b)
  decided : ∀ d ∈ s.decided, d.value ≠ C.nil ∧ C.Supported s.sent d.height d.round d.value

variable {C}

omit [DecidableEq V] in
theorem Inv.of_initial {s : State V X} (h : Initial s) : C.Inv s where
  position b hb := by simp [h.sent] at hb
  unique b hb := by simp [h.sent] at hb
  stays b hb := by simp [h.sent] at hb
  decided d hd := by simp [h.decided] at hd

omit [DecidableEq V] in
/-- Two ballots of one voter in one round are for the same value, also when the second is cast now:
a voter that has not voted in its round has no ballot there. -/
theorem Inv.not_current {s : State V X} (hs : C.Inv s) {b : Ballot V X} (hb : b ∈ s.sent)
    (hnew : s.voted b.voter = none) :
    b.height < s.height b.voter ∨ b.height = s.height b.voter ∧ b.round < s.round b.voter := by
  rcases hs.position b hb with hpassed | hstands
  · exact hpassed
  · rw [hstands.2.2] at hnew
    cases hnew

theorem Inv.vote {s : State V X} (hs : C.Inv s) {a : V} {x : X} (hnew : s.voted a = none) :
    C.Inv { s with
      voted := Function.update s.voted a (some x)
      sent := insert ⟨a, s.height a, s.round a, x⟩ s.sent } := by
  have hmono : s.sent ⊆ insert ⟨a, s.height a, s.round a, x⟩ s.sent := Set.subset_insert _ _
  -- a ballot that stands belongs to another voter, whose state is untouched
  have hother : ∀ b, Stands s b → b.voter ≠ a := by
    rintro b ⟨-, -, hv⟩ rfl
    rw [hnew] at hv
    cases hv
  have hkeep : ∀ b, Stands s b → Stands { s with
      voted := Function.update s.voted a (some x)
      sent := insert ⟨a, s.height a, s.round a, x⟩ s.sent } b := by
    intro b hb
    exact ⟨hb.1, hb.2.1, (Function.update_of_ne (hother b hb) _ _).trans hb.2.2⟩
  constructor
  · rintro b (rfl | hb)
    · exact .inr ⟨rfl, rfl, Function.update_self ..⟩
    · exact (hs.position b hb).imp id (hkeep b)
  · rintro b (rfl | hb) b' (rfl | hb') hvoter hheight hround
    · rfl
    · have := hs.not_current hb' (hvoter ▸ hnew)
      simp only at hvoter hheight hround
      rw [← hvoter] at this
      omega
    · have := hs.not_current hb (hvoter.symm ▸ hnew)
      simp only at hvoter hheight hround
      rw [hvoter] at this
      omega
    · exact hs.unique b hb b' hb' hvoter hheight hround
  · rintro b (rfl | hb) hne
    · right
      refine ⟨?_, .inr ⟨rfl, rfl, Function.update_self ..⟩⟩
      rintro b' (rfl | hb') hvoter hheight
      · exact le_rfl
      · have := hs.not_current hb' (hvoter.symm ▸ hnew)
        simp only at hvoter hheight ⊢
        rw [hvoter] at this
        omega
    · rcases hs.stays b hb hne with hnil | ⟨hlast, hwhere⟩
      · exact .inl (hnil.mono hmono)
      · refine .inr ⟨?_, hwhere.imp id (hkeep b)⟩
        rintro b' (rfl | hb') hvoter hheight
        · simp only at hvoter hheight
          rcases hwhere with hpast | hstands
          · rw [← hvoter] at hpast
            omega
          · exact absurd hvoter.symm (hother b hstands)
        · exact hlast b' hb' hvoter hheight
  · intro d hd
    exact ⟨(hs.decided d hd).1, (hs.decided d hd).2.mono hmono⟩

/-- What a change of the position of one member does to the invariant: its ballots in the old round
must be passed over. -/
theorem Inv.move {s : State V X} (hs : C.Inv s) {a : V} {h r : ℕ} {D : Set (Ballot V X)}
    (hlater : s.height a < h ∨ s.height a = h ∧ s.round a < r)
    (hfree : ∀ x, s.voted a = some x → x ≠ C.nil → s.height a < h ∨
      C.Supported s.sent (s.height a) (s.round a) C.nil)
    (hD : ∀ d ∈ D, d.value ≠ C.nil ∧ C.Supported s.sent d.height d.round d.value) :
    C.Inv { s with
      height := Function.update s.height a h
      round := Function.update s.round a r
      voted := Function.update s.voted a none
      decided := D } := by
  have hheight : ∀ b : V, s.height b ≤ Function.update s.height a h b := by
    intro b
    rw [Function.update_apply]
    split
    · rename_i hb
      subst hb
      omega
    · exact le_rfl
  constructor
  · intro b hb
    by_cases ha : b.voter = a
    · left
      have hle : b.height < s.height a ∨ b.height = s.height a ∧ b.round ≤ s.round a := by
        rcases hs.position b hb with hp | ⟨h1, h2, -⟩
        · unfold Passed at hp
          rw [ha] at hp
          omega
        · rw [ha] at h1 h2
          omega
      simp only [Passed, ha, Function.update_self]
      omega
    · simpa [Passed, Stands, ha] using hs.position b hb
  · exact hs.unique
  · intro b hb hne
    rcases hs.stays b hb hne with hnil | ⟨hlast, hwhere⟩
    · exact .inl hnil
    by_cases ha : b.voter = a
    · rcases hwhere with hpast | hstands
      · exact .inr ⟨hlast, .inl (lt_of_lt_of_le hpast (hheight _))⟩
      · obtain ⟨h1, h2, h3⟩ := hstands
        rw [ha] at h1 h2 h3
        rcases hfree b.value h3 hne with hup | hnil
        · refine .inr ⟨hlast, .inl ?_⟩
          show b.height < Function.update s.height a h b.voter
          rw [ha, Function.update_self]
          omega
        · left
          rw [h1, h2]
          exact hnil
    · exact .inr ⟨hlast, by simpa [Stands, ha] using hwhere⟩
  · exact hD

theorem Inv.step {s t : State V X} (hs : C.Inv s) (h : C.Step s t) : C.Inv t := by
  cases h with
  | vote a x hnew => exact hs.vote hnew
  | skip a hfree =>
      have hmoved := hs.move (a := a) (h := s.height a) (r := s.round a + 1)
        (.inr ⟨rfl, Nat.lt_succ_self _⟩) (fun x hx hne => .inr (hfree x hx hne)) hs.decided
      rwa [Function.update_eq_self] at hmoved
  | decide a x hx hsupport =>
      refine hs.move (.inl (Nat.lt_succ_self _)) (fun _ _ _ => .inl (Nat.lt_succ_self _)) ?_
      rintro d (rfl | hd)
      · exact ⟨hx, hsupport⟩
      · exact hs.decided d hd

theorem Inv.of_reachable {s₀ s : State V X} (h₀ : Initial s₀) (h : C.Reachable s₀ s) :
    C.Inv s := by
  induction h with
  | refl => exact .of_initial h₀
  | tail _ hstep ih => exact ih.step hstep

/-! ## Agreement -/

omit [DecidableEq V] in
/-- A supported value leaves no support for a value of a later round of the same height. -/
theorem Inv.not_later {s : State V X} (hs : C.Inv s) {h r r' : ℕ} {x y : X} (hx : x ≠ C.nil)
    (hsx : C.Supported s.sent h r x) (hsy : C.Supported s.sent h r' y) : r' ≤ r := by
  obtain ⟨a, hax, hay⟩ := hsx.common hsy
  rcases hs.stays _ hax hx with hnil | ⟨hlast, -⟩
  · -- the common voter of nil and `x` in round `r` would have voted twice
    obtain ⟨b, hbx, hbnil⟩ := hsx.common hnil
    exact absurd (hs.unique _ hbx _ hbnil rfl rfl rfl) hx
  · exact hlast _ hay rfl rfl

/-- No two decisions for one height differ. -/
theorem Reachable.decided_unique {s₀ s : State V X} (h₀ : Initial s₀) (h : C.Reachable s₀ s)
    {d d' : Ballot V X} (hd : d ∈ s.decided) (hd' : d' ∈ s.decided)
    (hheight : d.height = d'.height) : d.value = d'.value := by
  have hs := Inv.of_reachable h₀ h
  obtain ⟨hne, hsupport⟩ := hs.decided d hd
  obtain ⟨hne', hsupport'⟩ := hs.decided d' hd'
  rw [← hheight] at hsupport'
  have hround : d.round = d'.round :=
    le_antisymm (hs.not_later hne' hsupport' hsupport) (hs.not_later hne hsupport hsupport')
  rw [← hround] at hsupport'
  obtain ⟨a, ha, ha'⟩ := hsupport.common hsupport'
  exact hs.unique ⟨a, d.height, d.round, d.value⟩ ha ⟨a, d.height, d.round, d'.value⟩ ha' rfl rfl rfl

end Setting

end LockedVoting
