/-
# What becomes of a recorded vote

Between two changes of height or round the vote sets of an engine only grow, with one exception:
`StartRound` empties them when it leaves the step `newRound`. Votes of the other validators are
accepted in that step too, so those that arrive before the local `StartRound` are lost.
-/
import Dew.Agreement
import Dew.Equivocation

namespace Dew.Consensus

variable {B H : Type}

theorem ValidatorSet.mem_members_of_isSome {vs : ValidatorSet} {a : Address}
    (h : (vs.get? a).isSome) : a ∈ vs.members :=
  ValidatorSet.mem_members (by simpa [Option.isSome_iff_ne_none] using h)

/-! ## Growing vote sets -/

namespace VoteSet

/-- A vote set after further votes. -/
inductive Extends (vs : VoteSet) : VoteSet → Prop
  | refl : Extends vs vs
  | add {vs' : VoteSet} (h : Extends vs vs') (v : Vote) (power : U64) :
      Extends vs (vs'.add v power).2

theorem Extends.trans {vs vs' vs'' : VoteSet} (h : vs.Extends vs') (h' : vs'.Extends vs'') :
    vs.Extends vs'' := by
  induction h' with
  | refl => exact h
  | add _ v power ih => exact ih.add v power

theorem get?_add {vs : VoteSet} {a : Address} {v : Vote} (h : vs.byAddr.get? a = some v) (w : Vote)
    (power : U64) : (vs.add w power).2.byAddr.get? a = some v := by
  unfold VoteSet.add
  split
  · exact h
  split
  · exact h
  rename_i hnew
  show (vs.byAddr.set w.validator w).get? a = some v
  rw [GoMap.get?_set, if_neg]
  · exact h
  · rintro rfl
    rw [h] at hnew
    exact hnew rfl

/-- A vote that is not new changes nothing. -/
theorem add_old {vs : VoteSet} {v : Vote} {power : U64} (h : (vs.add v power).1 = false) :
    (vs.add v power).2 = vs := by
  unfold VoteSet.add at h ⊢
  split_ifs at h ⊢ <;> rfl

/-- No vote is lost or changed. -/
theorem Extends.get? {vs vs' : VoteSet} (h : vs.Extends vs') {a : Address} {v : Vote}
    (hv : vs.byAddr.get? a = some v) : vs'.byAddr.get? a = some v := by
  induction h with
  | refl => exact hv
  | add _ w power ih => exact get?_add ih w power

end VoteSet

namespace Engine

/-- The votes of one type in the current round. -/
def voteSet (e : Engine B H) : VoteType → VoteSet
  | .prevote => e.prevotes
  | .precommit => e.precommits

/-- A vote is in the vote set of its type. -/
def Counted (e : Engine B H) (v : Vote) : Prop :=
  (e.voteSet v.type).byAddr.get? v.validator = some v

/-- A vote that `HandleVote` accepts: of a member, for the current round, and the first one. -/
structure Accepts (e : Engine B H) (v : Vote) : Prop where
  height : v.height = e.height
  round : v.round = e.round
  member : (e.valSet.get? v.validator).isSome
  first : (e.voteSet v.type).byAddr.get? v.validator = none

/-- The vote sets are those of the current round. -/
def Aligned (e : Engine B H) : Prop :=
  ∀ t, (e.voteSet t).type = t ∧ (e.voteSet t).height = e.height ∧ (e.voteSet t).round = e.round

theorem aligned_of_new {e : Engine B H}
    (h : ∀ t, e.voteSet t = VoteSet.new t e.height e.round) : e.Aligned := by
  intro t
  rw [h t]
  exact ⟨rfl, rfl, rfl⟩

end Engine

namespace Process

variable {K : Blocks B H} {ev : Input B} {P P' Q : Process B H}

/-! ## Growth along the moves -/

theorem Quiet.extends (h : Quiet K ev P P') (t : VoteType) :
    (P.engine.voteSet t).Extends (P'.engine.voteSet t) := by
  cases h with
  | prevote | recordPrevote =>
      cases t with
      | prevote => exact .add .refl _ _
      | precommit => exact .refl
  | recordPrecommit =>
      cases t with
      | prevote => exact .refl
      | precommit => exact .add .refl _ _
  | precommit maj hstep hmaj =>
      rw [Engine.lock_eq, Engine.addPrecommit_snd]
      cases t with
      | prevote => exact .refl
      | precommit => exact .add .refl _ _
  | _ => cases t <;> exact .refl

theorem quiet_extends (hq : Relation.ReflTransGen (Quiet K ev) P Q) (t : VoteType) :
    (P.engine.voteSet t).Extends (Q.engine.voteSet t) :=
  keeps_quiet (I := fun R => (P.engine.voteSet t).Extends (R.engine.voteSet t))
    (fun _ _ hR hm => hR.trans (hm.extends t)) .refl hq

/-- Moves that end in the same round keep all votes. -/
theorem Ends.extends (h : Ends K ev P Q) (hheight : Q.engine.height = P.engine.height)
    (hround : Q.engine.round = P.engine.round) (t : VoteType) :
    (P.engine.voteSet t).Extends (Q.engine.voteSet t) := by
  obtain ⟨R, hR, hlast⟩ := h
  rcases hlast with rfl | hlast
  · exact quiet_extends hR t
  · -- a move to another round would show
    obtain ⟨hRheight, hRround⟩ := quiet_slot hR
    rcases hlast.moved with hne | hne
    · exact absurd (hheight.trans hRheight.symm) hne
    · exact absurd (hround.trans hRround.symm) hne

/-- A step is `StartRound` leaving the step `newRound`. -/
def Restarts (P : Process B H) (ev : Input B) : Prop :=
  ev = .startRound ∧ P.engine.step = .newRound

instance (P : Process B H) (ev : Input B) : Decidable (P.Restarts ev) :=
  match ev with
  | .startRound => decidable_of_iff (P.engine.step = .newRound) (by simp [Restarts])
  | .built _ _ | .handleProposal _ | .validated _ _ | .handleVote _ | .forceTimeoutRound
  | .applySyncedBlock _ | .replaceValSet _ => isFalse (by simp [Restarts])

theorem step_extends (hstep : P.step K ev = some P') (hheight : P'.engine.height = P.engine.height)
    (hround : P'.engine.round = P.engine.round) (hkeep : ¬P.Restarts ev) (t : VoteType) :
    (P.engine.voteSet t).Extends (P'.engine.voteSet t) := by
  cases step_effect hstep with
  | begin jobs hnew hjobs => exact absurd ⟨rfl, hnew⟩ hkeep
  | replace vs => cases t <;> exact .refl
  | moves _ _ hends => exact hends.extends hheight hround t

/-- `StartRound` empties the vote sets and stays in the round. -/
theorem step_restarts (hstep : P.step K ev = some P') (hrestart : P.Restarts ev) (t : VoteType)
    (a : Address) : (P'.engine.voteSet t).byAddr.get? a = none := by
  obtain ⟨rfl, hnew⟩ := hrestart
  simp only [step, Engine.startRoundBegin, hnew, ne_eq, not_true_eq_false, if_false,
    Option.some.injEq] at hstep
  subst hstep
  cases t <;> rfl

/-! ## Accepted votes -/

theorem Aligned.quiet (h : P.engine.Aligned) (hq : Quiet K ev P P') : P'.engine.Aligned := by
  intro t
  have hslot : ∀ vs : VoteSet, (P.engine.voteSet t).Extends vs →
      vs.type = t ∧ vs.height = P.engine.height ∧ vs.round = P.engine.round := by
    intro vs hvs
    induction hvs with
    | refl => exact h t
    | add _ v power ih =>
        obtain ⟨htype, hheight, hround⟩ := VoteSet.add_slot _ v power
        rw [htype, hheight, hround]
        exact ih
  rw [hq.height, hq.round]
  exact hslot _ (hq.extends t)

theorem Aligned.step (h : P.engine.Aligned) (hstep : P.step K ev = some P') :
    P'.engine.Aligned := by
  refine keeps_step (I := fun R => R.engine.Aligned) ?_ ?_ (fun _ _ hQ hm => Aligned.quiet hQ hm) ?_
    h hstep
  · intro jobs _ _ _
    exact Engine.aligned_of_new fun t => by cases t <;> rfl
  · intro vs _ t
    cases t
    · exact h .prevote
    · exact h .precommit
  · intro Q _ _ _ hm
    cases hm <;> exact Engine.aligned_of_new fun t => by cases t <;> rfl

theorem aligned_fresh {a : Address} {vs : ValidatorSet} {parent : H} {n : U64} :
    (Engine.fresh a vs parent n : Engine B H).Aligned :=
  Engine.aligned_of_new fun t => by cases t <;> rfl

theorem add_accepted {vs : VoteSet} {v : Vote} (htype : v.type = vs.type)
    (hheight : v.height = vs.height) (hround : v.round = vs.round)
    (hfirst : vs.byAddr.get? v.validator = none) (power : U64) :
    (vs.add v power).1 = true ∧ (vs.add v power).2.byAddr.get? v.validator = some v := by
  unfold VoteSet.add
  rw [if_neg (by simp [htype, hheight, hround]), if_neg (by simp [hfirst])]
  refine ⟨rfl, ?_⟩
  show (vs.byAddr.set v.validator v).get? v.validator = some v
  rw [GoMap.get?_set, if_pos rfl]

/-- An accepted vote is counted, unless its own check has ended the round. -/
theorem counted_of_accepts {v : Vote} (h : P.engine.Aligned) (haccept : P.engine.Accepts v)
    (hstep : P.step K (.handleVote v) = some P') (hheight : P'.engine.height = P.engine.height)
    (hround : P'.engine.round = P.engine.round) : P'.engine.Counted v := by
  obtain ⟨htype, hsetHeight, hsetRound⟩ := h v.type
  obtain ⟨hnew, hget⟩ := add_accepted htype.symm (haccept.height.trans hsetHeight.symm)
    (haccept.round.trans hsetRound.symm) haccept.first (P.engine.valSet.powerOf v.validator)
  simp only [Process.step, Option.some.injEq] at hstep
  have hmember : ¬(P.engine.valSet.get? v.validator).isNone := by
    simpa [Option.isSome_iff_ne_none] using haccept.member
  unfold Engine.handleVote at hstep
  rw [if_neg (not_not.mpr haccept.height), if_neg hmember,
    if_neg (not_not.mpr haccept.round)] at hstep
  unfold Engine.Counted
  cases hv : v.type with
  | prevote =>
      rw [hv] at hstep hnew hget
      let Q : Process B H := { P with engine := (P.engine.addPrevote v).2 }
      have hadd : P.engine.addPrevote v = (true, Q.engine) := Prod.ext hnew rfl
      simp only [hadd] at hstep
      have hends : Ends K (.handleVote v) (Q.send .empty) (Q.finish _) := ends_tryAfterPrevote Q rfl
      rw [show Q.finish _ = P' from hstep] at hends
      exact (hends.extends hheight hround .prevote).get? hget
  | precommit =>
      rw [hv] at hstep hnew hget
      let Q : Process B H := { P with engine := (P.engine.addPrecommit v).2 }
      have hadd : P.engine.addPrecommit v = (true, Q.engine) := Prod.ext hnew rfl
      simp only [hadd] at hstep
      have hends : Ends K (.handleVote v) (Q.send .empty) (Q.finish _) :=
        ends_tryAfterPrecommit Q rfl
      rw [show Q.finish _ = P' from hstep] at hends
      exact (hends.extends hheight hround .precommit).get? hget

/-- A step stays in the round and is not a `StartRound` that leaves `newRound`. -/
def KeepsRound (P : Process B H) (ev : Input B) (P' : Process B H) : Prop :=
  P'.engine.height = P.engine.height ∧ P'.engine.round = P.engine.round ∧ ¬P.Restarts ev

instance (P : Process B H) (ev : Input B) (P' : Process B H) : Decidable (KeepsRound P ev P') :=
  inferInstanceAs (Decidable (_ ∧ _ ∧ _))

/-- An accepted vote stays counted until the round ends just if `StartRound` is not called in the
step `newRound`: the vote sets of a run without such a call only grow, and the call drops the vote. -/
theorem accepted_vote_kept_iff {a : Address} {vs : ValidatorSet} {parent : H} {n : U64}
    {e : Engine B H} (hnew : Engine.new a vs parent n = .ok e)
    (hreached : Reached K (fun _ _ _ => True) (start e) P) {v : Vote}
    (haccept : P.engine.Accepts v) {P₁ : Process B H} (h₁ : P.step K (.handleVote v) = some P₁)
    (hheight₁ : P₁.engine.height = v.height) (hround₁ : P₁.engine.round = v.round) :
    (∀ Q, Reached K KeepsRound P₁ Q →
      Q.engine.Counted v ∧ (P₁.engine.voteSet v.type).Extends (Q.engine.voteSet v.type)) ∧
    ∀ Q Q' ev, Reached K KeepsRound P₁ Q → Q.step K ev = some Q' →
      Q'.engine.height = v.height → Q'.engine.round = v.round →
      (Q'.engine.Counted v ↔ ¬Q.Restarts ev) := by
  have haligned : P.engine.Aligned := by
    refine hreached.invariant ?_ fun _ _ _ hP _ hs => Aligned.step hP hs
    rw [(Engine.new_ok_iff.mp hnew).2]
    exact aligned_fresh
  have hcounted : P₁.engine.Counted v :=
    counted_of_accepts haligned haccept h₁ (hheight₁.trans haccept.height)
      (hround₁.trans haccept.round)
  have hrun : ∀ Q, Reached K KeepsRound P₁ Q →
      (Q.engine.height = v.height ∧ Q.engine.round = v.round) ∧
        (P₁.engine.voteSet v.type).Extends (Q.engine.voteSet v.type) := by
    intro Q hQ
    refine hQ.invariant (I := fun R => (R.engine.height = v.height ∧ R.engine.round = v.round) ∧
      (P₁.engine.voteSet v.type).Extends (R.engine.voteSet v.type)) ⟨⟨hheight₁, hround₁⟩, .refl⟩ ?_
    rintro R ev R' ⟨⟨hh, hr⟩, hext⟩ ⟨hheight, hround, hkeep⟩ hs
    exact ⟨⟨hheight.trans hh, hround.trans hr⟩, hext.trans (step_extends hs hheight hround hkeep _)⟩
  refine ⟨fun Q hQ => ⟨(hrun Q hQ).2.get? hcounted, (hrun Q hQ).2⟩, ?_⟩
  intro Q Q' ev hQ hs hheight hround
  obtain ⟨⟨hQheight, hQround⟩, hext⟩ := hrun Q hQ
  constructor
  · intro hc hrestart
    have hnone := step_restarts hs hrestart v.type v.validator
    exact absurd (hnone.symm.trans hc) (by simp)
  · intro hkeep
    have hgrow := step_extends hs (hheight.trans hQheight.symm) (hround.trans hQround.symm) hkeep
    exact (hgrow v.type).get? (hext.get? hcounted)

/-- Validator `1` of two, at genesis. -/
def firstOfTwo : Process (U64 × Hash) U64 :=
  start (.fresh 1 twoSet 0 0)

/-- The prevote of validator `2` in the first round. -/
def peerPrevote : Vote :=
  ⟨.prevote, 1, 0, 7, 2⟩

/-- After `StartRound`, the prevote of the peer is kept while the proposal arrives and is
validated. -/
theorem peerPrevote_kept :
    ∃ P P₁ Q, Reached numbered (fun _ _ _ => True) firstOfTwo P ∧ P.engine.Accepts peerPrevote ∧
      P.step numbered (.handleVote peerPrevote) = some P₁ ∧ Reached numbered KeepsRound P₁ Q ∧
      Q.votes.length = 2 ∧ Q.engine.Counted peerPrevote := by
  have hrun : ((runWhile numbered (fun _ _ _ => True) firstOfTwo [.startRound]).bind fun P =>
      (P.step numbered (.handleVote peerPrevote)).bind fun P₁ =>
      (runWhile numbered KeepsRound P₁
        [.handleProposal ⟨1, 0, 7, some (1, 7), 2⟩, .validated 0 true]).map fun Q =>
      (decide (P.engine.height = 1 ∧ P.engine.round = 0 ∧
        (P.engine.valSet.get? 2).isSome ∧ P.engine.prevotes.byAddr.get? 2 = none ∧
        P₁.engine.height = 1 ∧ P₁.engine.round = 0), Q.votes.length)) = some (true, 2) := by
    decide
  obtain ⟨P, hP, hrun⟩ := Option.bind_eq_some_iff.mp hrun
  obtain ⟨P₁, h₁, hrun⟩ := Option.bind_eq_some_iff.mp hrun
  obtain ⟨Q, hQ, hseen⟩ := Option.map_eq_some_iff.mp hrun
  obtain ⟨hfacts, hvotes⟩ := Prod.mk.inj hseen
  obtain ⟨hheight, hround, hmember, hfirst, hheight₁, hround₁⟩ := of_decide_eq_true hfacts
  have haccept : P.engine.Accepts peerPrevote := ⟨hheight.symm, hround.symm, hmember, hfirst⟩
  have hreached := reached_of_runWhile hP
  have hkept := reached_of_runWhile hQ
  exact ⟨P, P₁, Q, hreached, haccept, h₁, hkept, hvotes,
    ((accepted_vote_kept_iff (Engine.new_ok_iff.mpr ⟨by decide, rfl⟩) hreached haccept h₁ hheight₁
      hround₁).1 Q hkept).1⟩

/-- Before `StartRound`, the prevote of the peer is accepted and then dropped. -/
theorem peerPrevote_dropped :
    ∃ P₁ P₂, firstOfTwo.engine.Accepts peerPrevote ∧
      firstOfTwo.step numbered (.handleVote peerPrevote) = some P₁ ∧
      P₁.engine.Counted peerPrevote ∧ P₁.step numbered .startRound = some P₂ ∧
      P₂.engine.height = P₁.engine.height ∧ P₂.engine.round = P₁.engine.round ∧
      ¬P₂.engine.Counted peerPrevote := by
  have hrun : ((firstOfTwo.step numbered (.handleVote peerPrevote)).bind fun P₁ =>
      (P₁.step numbered .startRound).map fun P₂ =>
      decide (P₁.engine.prevotes.byAddr.get? 2 = some peerPrevote ∧
        P₂.engine.height = P₁.engine.height ∧ P₂.engine.round = P₁.engine.round ∧
        P₂.engine.prevotes.byAddr.get? 2 ≠ some peerPrevote)) = some true := by
    decide
  obtain ⟨P₁, h₁, hrun⟩ := Option.bind_eq_some_iff.mp hrun
  obtain ⟨P₂, h₂, hfacts⟩ := Option.map_eq_some_iff.mp hrun
  obtain ⟨hcounted, hheight, hround, hdropped⟩ := of_decide_eq_true hfacts
  exact ⟨P₁, P₂, ⟨rfl, rfl, by decide, rfl⟩, h₁, hcounted, h₂, hheight, hround, hdropped⟩

end Process

end Dew.Consensus
