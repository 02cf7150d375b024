/-
# Votes and proposals of one engine

An engine signs at most one vote of each type and at most one proposal in a round, whatever
interleaves with its open jobs. The invariant ties what has been signed to the position of the engine:
its height and round, and the step within the round (`Engine.Past`). A vote is signed on entering a
step that the engine does not enter twice in the same round, and the prevote belongs to the single
validation that was started on entering the prevote step.

The position is kept in memory only. A validator that stops and starts again begins at the height
after its persisted head with an empty record, and signs that height a second time.
-/
import Dew.Process

namespace Dew.Consensus

/-! ## Evidence -/

/-- Errors of `VerifyDoubleSign`; `voteA` and `voteB` are those of `VerifyVote`. -/
inductive EvidenceError where
  | voteA (err : String)
  | voteB (err : String)
  | typeMismatch (a b : VoteType)
  | slotMismatch (a b : Vote)
  | validatorMismatch (a b : Address)
  | identical
  | bothNil
deriving DecidableEq, Repr

def VoteType.text : VoteType → String
  | prevote => "prevote"
  | precommit => "precommit"

def EvidenceError.text : EvidenceError → String
  | voteA err => "consensus: evidence vote A: " ++ err
  | voteB err => "consensus: evidence vote B: " ++ err
  | typeMismatch a b => "consensus: evidence vote type mismatch " ++ a.text ++ " vs " ++ b.text
  | slotMismatch a b =>
    "consensus: evidence height/round mismatch (" ++ toString a.height.toNat ++ "," ++
      toString a.round.toNat ++ ") vs (" ++ toString b.height.toNat ++ "," ++
      toString b.round.toNat ++ ")"
  | validatorMismatch a b => "consensus: evidence validator mismatch " ++ a.hex ++ " vs " ++ b.hex
  | identical => "consensus: evidence block hashes identical (not double-sign)"
  | bothNil => "consensus: evidence both hashes nil"

/-- `VerifyDoubleSign`, over the check of a vote's signature. -/
def verifyDoubleSign (verifyVote : Vote → Except String Unit) (a b : Vote) :
    Except EvidenceError Unit := do
  (verifyVote a).mapError .voteA
  (verifyVote b).mapError .voteB
  if a.type ≠ b.type then .error (.typeMismatch a.type b.type)
  else if a.height ≠ b.height ∨ a.round ≠ b.round then .error (.slotMismatch a b)
  else if a.validator ≠ b.validator then .error (.validatorMismatch a.validator b.validator)
  else if a.blockHash = b.blockHash then .error .identical
  else if a.blockHash = 0 ∧ b.blockHash = 0 then .error .bothNil
  else .ok ()

/-- Evidence is accepted only for two votes in one slot. -/
theorem verifyDoubleSign_ok {verifyVote : Vote → Except String Unit} {a b : Vote}
    (h : verifyDoubleSign verifyVote a b = .ok ()) :
    a.type = b.type ∧ a.height = b.height ∧ a.round = b.round ∧ a.blockHash ≠ b.blockHash := by
  unfold verifyDoubleSign at h
  cases ha : verifyVote a with
  | error err => simp [ha, Except.mapError, bind, Except.bind] at h
  | ok =>
      cases hb : verifyVote b with
      | error err => simp [ha, hb, Except.mapError, bind, Except.bind] at h
      | ok =>
          simp only [ha, hb, Except.mapError, bind, Except.bind] at h
          split_ifs at h with htype hslot hval hhash hnil
          push Not at htype hslot
          exact ⟨htype, hslot.1, hslot.2, hhash⟩

/-! ## Positions -/

/-- The order of the steps in a round. -/
def Step.rank : Step → ℕ
  | newRound => 0
  | propose => 1
  | prevote => 2
  | precommit => 3
  | commit => 4

/-- The step in which a vote is signed. -/
def VoteType.rank : VoteType → ℕ
  | prevote => 2
  | precommit => 3

namespace Engine

variable {B H : Type}

/-- No counter of the engine has started again at zero. -/
def Forward (e e' : Engine B H) : Prop :=
  e.height.toNat < e'.height.toNat ∨ e.height = e'.height ∧ e.round.toNat ≤ e'.round.toNat

theorem Forward.of_slot {e e' f : Engine B H} (h : e.Forward e') (hheight : f.height = e.height)
    (hround : f.round = e.round) : f.Forward e' := by
  unfold Forward
  rw [hheight, hround]
  exact h

/-- The engine has been in the step of rank `k` of a round. -/
def Past (e : Engine B H) (height round : U64) (k : ℕ) : Prop :=
  height.toNat < e.height.toNat ∨ (height = e.height ∧ round.toNat < e.round.toNat) ∨
    (height = e.height ∧ round = e.round ∧ k ≤ e.step.rank)

theorem past_self {e : Engine B H} {k : ℕ} : e.Past e.height e.round k ↔ k ≤ e.step.rank := by
  simp [Past]

/-- Before the prevote step the round has come to no prevote. -/
theorem not_past_of_low {e : Engine B H} (hstep : e.step = .propose ∨ e.step = .newRound)
    {height round : U64} (hheight : height = e.height) (hround : round = e.round) :
    ¬e.Past height round 2 := by
  rw [hheight, hround, past_self]
  rcases hstep with hstep | hstep <;> simp [hstep, Step.rank]

theorem Past.mono {e e' : Engine B H} {height round : U64} {k : ℕ} (h : e.Past height round k)
    (hheight : e'.height = e.height) (hround : e'.round = e.round)
    (hstep : e.step.rank ≤ e'.step.rank) : e'.Past height round k := by
  unfold Past at h ⊢
  rw [hheight, hround]
  rcases h with h | h | ⟨hh, hr, hk⟩
  · exact .inl h
  · exact .inr (.inl h)
  · exact .inr (.inr ⟨hh, hr, hk.trans hstep⟩)

/-- Once the engine has moved on, the whole round is past. -/
theorem Past.forward {e e' : Engine B H} {height round : U64} {k : ℕ} (h : e.Past height round k)
    (hforward : e.Forward e') (hmoved : e'.height ≠ e.height ∨ e'.round ≠ e.round) (m : ℕ) :
    e'.Past height round m := by
  rcases hforward with hlt | ⟨heq, hle⟩
  · rcases h with h | ⟨rfl, -⟩ | ⟨rfl, -⟩
    · exact .inl (h.trans hlt)
    · exact .inl hlt
    · exact .inl hlt
  · have hne : e.round.toNat ≠ e'.round.toNat := by
      rcases hmoved with hm | hm
      · exact absurd heq.symm hm
      · exact fun hr => hm (BitVec.eq_of_toNat_eq hr).symm
    rcases h with h | ⟨rfl, h⟩ | ⟨rfl, rfl, -⟩
    · exact .inl (heq ▸ h)
    · exact .inr (.inl ⟨heq, by omega⟩)
    · exact .inr (.inl ⟨heq, by omega⟩)

end Engine

namespace Process

variable {B H : Type} {K : Blocks B H} {ev : Input B} {P P' : Process B H}

theorem Quiet.rank (h : Quiet K ev P P') : P.engine.step.rank ≤ P'.engine.step.rank := by
  cases h with
  | enterPrevote ps hps hstep => rcases hstep with hstep | hstep <;> simp [hstep, Step.rank]
  | precommit maj hstep hmaj =>
      simp [hstep, Step.rank, Engine.lock_eq, Engine.addPrecommit_snd]
  | _ => exact le_rfl

theorem Quiet.past (h : Quiet K ev P P') {height round : U64} {k : ℕ}
    (hpast : P.engine.Past height round k) : P'.engine.Past height round k :=
  hpast.mono h.height h.round h.rank

/-! ## One vote a slot -/

/-- The slot of an open validation. -/
def slotOf (x : H × ValidateJob B) : U64 × U64 :=
  (x.2.height, x.2.round)

/-- Every vote is the engine's own, for a step that it has been in, and alone in its slot; the open
validations are those of different rounds whose prevote has not been signed. -/
structure Slots (P : Process B H) : Prop where
  own : ∀ v ∈ P.votes, v.validator = P.engine.address
  past : ∀ v ∈ P.votes, P.engine.Past v.height v.round v.type.rank
  unique : ∀ v ∈ P.votes, ∀ w ∈ P.votes, v.type = w.type → v.height = w.height →
    v.round = w.round → v = w
  entered : ∀ x ∈ P.validating, P.engine.Past x.2.height x.2.round 2
  distinct : (P.validating.map slotOf).Nodup
  unsigned : ∀ x ∈ P.validating, ∀ v ∈ P.votes, v.type = .prevote →
    (v.height, v.round) ≠ slotOf x

theorem slots_start (e : Engine B H) : Slots (start e) where
  own := by rintro v ⟨⟩
  past := by rintro v ⟨⟩
  unique := by rintro v ⟨⟩
  entered := by rintro v ⟨⟩
  distinct := List.nodup_nil
  unsigned := by rintro x ⟨⟩

/-- Moves without a vote keep the slots if they open no validation. -/
theorem Slots.keep (h : Slots P) (hvotes : P'.votes = P.votes)
    (hvalidating : P'.validating.Sublist P.validating)
    (haddress : P'.engine.address = P.engine.address)
    (hpast : ∀ height round k, P.engine.Past height round k → P'.engine.Past height round k) :
    Slots P' where
  own := by
    rw [hvotes, haddress]
    exact h.own
  past := by
    rw [hvotes]
    exact fun v hv => hpast _ _ _ (h.past v hv)
  unique := by
    rw [hvotes]
    exact h.unique
  entered x hx := hpast _ _ _ (h.entered x (hvalidating.subset hx))
  distinct := h.distinct.sublist (hvalidating.map _)
  unsigned := by
    rw [hvotes]
    exact fun x hx => h.unsigned x (hvalidating.subset hx)

/-- Signing a vote in a slot without one. -/
theorem Slots.sign (h : Slots P) {v : Vote} (hvotes : P'.votes = P.votes ++ [v])
    (hvalidating : P'.validating.Sublist P.validating)
    (haddress : P'.engine.address = P.engine.address)
    (hpast : ∀ height round k, P.engine.Past height round k → P'.engine.Past height round k)
    (hown : v.validator = P.engine.address) (hnow : P'.engine.Past v.height v.round v.type.rank)
    (hfresh : ∀ w ∈ P.votes, w.type = v.type → w.height = v.height → w.round ≠ v.round)
    (hclosed : v.type = .prevote → ∀ x ∈ P'.validating, (v.height, v.round) ≠ slotOf x) :
    Slots P' where
  own := by
    rw [hvotes, haddress]
    intro w hw
    rcases List.mem_append.mp hw with hw | hw
    · exact h.own w hw
    · rw [List.mem_singleton.mp hw, hown]
  past := by
    rw [hvotes]
    intro w hw
    rcases List.mem_append.mp hw with hw | hw
    · exact hpast _ _ _ (h.past w hw)
    · rw [List.mem_singleton.mp hw]
      exact hnow
  unique := by
    rw [hvotes]
    intro u hu w hw htype hheight hround
    rcases List.mem_append.mp hu with hu | hu <;> rcases List.mem_append.mp hw with hw | hw
    · exact h.unique u hu w hw htype hheight hround
    · rw [List.mem_singleton.mp hw] at htype hheight hround
      exact absurd hround (hfresh u hu htype hheight)
    · rw [List.mem_singleton.mp hu] at htype hheight hround
      exact absurd hround.symm (hfresh w hw htype.symm hheight.symm)
    · rw [List.mem_singleton.mp hu, List.mem_singleton.mp hw]
  entered x hx := hpast _ _ _ (h.entered x (hvalidating.subset hx))
  distinct := h.distinct.sublist (hvalidating.map _)
  unsigned := by
    rw [hvotes]
    intro x hx w hw hprevote
    rcases List.mem_append.mp hw with hw | hw
    · exact h.unsigned x (hvalidating.subset hx) w hw hprevote
    · rw [List.mem_singleton.mp hw] at hprevote ⊢
      exact hclosed hprevote x hx

/-- The validations that stay open are those of other rounds. -/
theorem Slots.ne_of_mem_eraseIdx (h : Slots P) {i : ℕ} {x y : H × ValidateJob B}
    (hx : P.validating[i]? = some x) (hy : y ∈ P.validating.eraseIdx i) : slotOf x ≠ slotOf y := by
  obtain ⟨hi, rfl⟩ := List.getElem?_eq_some_iff.mp hx
  have hperm := (List.getElem_cons_eraseIdx_perm hi).map slotOf
  have hnodup := hperm.nodup_iff.mpr h.distinct
  rw [List.map_cons, List.nodup_cons] at hnodup
  intro heq
  exact hnodup.1 (heq ▸ List.mem_map_of_mem hy)

/-- The prevote step is entered: the round has no prevote and no validation yet, as both need that
step. -/
theorem Slots.enterPrevote (h : Slots P)
    (hstep : P.engine.step = .propose ∨ P.engine.step = .newRound) (ps : List (Proposal B))
    (hpast : ∀ height round k, P.engine.Past height round k →
      ({ P.engine with step := .prevote } : Engine B H).Past height round k) :
    Slots { P with
      engine := { P.engine with step := .prevote }
      validating := P.validating ++ [(P.engine.parent, ⟨P.engine.height, P.engine.round,
        P.engine.proposal, P.engine.lockedRound, P.engine.lockedHash, ps⟩)] } := by
  refine ⟨h.own, fun v hv => hpast _ _ _ (h.past v hv), h.unique, ?_, ?_, ?_⟩
  · intro x hx
    rcases List.mem_append.mp hx with hx | hx
    · exact hpast _ _ _ (h.entered x hx)
    · rw [List.mem_singleton.mp hx]
      exact .inr (.inr ⟨rfl, rfl, le_rfl⟩)
  · rw [List.map_append, List.nodup_append]
    refine ⟨h.distinct, List.nodup_singleton _, ?_⟩
    rintro _ ha _ hb rfl
    obtain ⟨x, hx, hslot⟩ := List.mem_map.mp ha
    have hxslot : slotOf x = (P.engine.height, P.engine.round) := by
      rw [hslot, List.mem_singleton.mp hb]
      rfl
    exact Engine.not_past_of_low hstep (congrArg Prod.fst hxslot) (congrArg Prod.snd hxslot)
      (h.entered x hx)
  · intro x hx v hv hprevote
    rcases List.mem_append.mp hx with hx | hx
    · exact h.unsigned x hx v hv hprevote
    · rw [List.mem_singleton.mp hx]
      intro hslot
      have hvpast := h.past v hv
      rw [hprevote] at hvpast
      exact Engine.not_past_of_low hstep (congrArg Prod.fst hslot) (congrArg Prod.snd hslot) hvpast

theorem Slots.quiet (h : Slots P) (hq : Quiet K ev P P') : Slots P' := by
  have hpast : ∀ height round k, P.engine.Past height round k → P'.engine.Past height round k :=
    fun _ _ _ hp => hq.past hp
  have haddress := hq.address
  cases hq with
  | dropBuild i => exact h.keep rfl (.refl _) rfl hpast
  | store p hhash hheight hround => exact h.keep rfl (.refl _) rfl hpast
  | enterPrevote ps hps hstep => exact h.enterPrevote hstep ps hpast
  | dropValidate i parent job valid hjob =>
      exact h.keep rfl (List.eraseIdx_sublist _ _) rfl hpast
  | prevote i parent job valid hjob hheight hround hstep =>
      have hslot : slotOf (parent, job) = (P.engine.height, P.engine.round) := by
        rw [hheight, hround]
        rfl
      refine h.sign rfl (List.eraseIdx_sublist _ _) rfl hpast rfl ?_ ?_ ?_
      · exact .inr (.inr ⟨rfl, rfl, by rw [Engine.addPrevote_snd, hstep]; exact le_rfl⟩)
      · intro w hw htype hwh hwr
        refine h.unsigned _ (List.mem_of_getElem? hjob) w hw htype ?_
        rw [hslot, hwh, hwr]
        rfl
      · intro _ x hx
        have hne := h.ne_of_mem_eraseIdx hjob hx
        rwa [hslot] at hne
  | recordPrevote v hev hmember => exact h.keep rfl (.refl _) rfl hpast
  | recordPrecommit v hev hmember => exact h.keep rfl (.refl _) rfl hpast
  | precommit maj hstep hmaj =>
      refine h.sign rfl (.refl _) haddress hpast rfl ?_ ?_ ?_
      · refine .inr (.inr ⟨?_, ?_, ?_⟩) <;>
          simp [Engine.lock_eq, Engine.addPrecommit_snd, Engine.ownVote, VoteType.rank, Step.rank]
      · intro w hw htype hwh hwr
        have hpastw := h.past w hw
        rw [htype, hwh, hwr] at hpastw
        have hle := Engine.past_self.mp hpastw
        rw [hstep] at hle
        exact absurd hle (show ¬3 ≤ 2 by decide)
      · intro hprevote
        cases hprevote

theorem Slots.final (h : Slots P) (hf : Final K P P') (hforward : P.engine.Forward P'.engine) :
    Slots P' := by
  have hpast : ∀ height round k, P.engine.Past height round k → P'.engine.Past height round k :=
    fun height round k hp => hp.forward hforward hf.moved k
  cases hf <;> exact h.keep rfl (.refl _) rfl hpast

theorem Slots.step (h : Slots P) (hforward : P.engine.Forward P'.engine)
    (hstep : P.step K ev = some P') : Slots P' := by
  refine keeps_step ?_ ?_ (fun _ _ hQ hm => hQ.quiet hm) ?_ h hstep
  · intro jobs _ hnew _
    refine h.keep rfl (.refl _) rfl fun height round k hp => hp.mono rfl rfl ?_
    simp [hnew, Step.rank]
  · intro vs _
    exact h.keep rfl (.refl _) rfl fun _ _ _ hp => hp
  · intro Q hheight hround hQ hm
    exact hQ.final hm (hforward.of_slot hheight hround)

/-! ## One proposal a round -/

/-- The proposals that the engine has signed: sent, or waiting for the validation of its own. -/
def Signed (P : Process B H) (p : Proposal B) : Prop :=
  p ∈ P.proposals ∨ ∃ x ∈ P.validating, p ∈ x.2.proposals

/-- Every signed proposal belongs to a round whose prevote step was entered, and is alone there. -/
structure Offers (P : Process B H) : Prop where
  stored : ∀ p, P.engine.proposal = some p →
    p.height = P.engine.height ∧ p.round = P.engine.round
  past : ∀ p, P.Signed p → P.engine.Past p.height p.round 2
  unique : ∀ p q, P.Signed p → P.Signed q → p.height = q.height → p.round = q.round → p = q

/-- Moves that sign no proposal. -/
theorem Offers.keep (h : Offers P) (hsigned : ∀ p, P'.Signed p → P.Signed p)
    (hstored : ∀ p, P'.engine.proposal = some p →
      p.height = P'.engine.height ∧ p.round = P'.engine.round)
    (hpast : ∀ height round k, P.engine.Past height round k → P'.engine.Past height round k) :
    Offers P' where
  stored := hstored
  past p hp := hpast _ _ _ (h.past p (hsigned p hp))
  unique p q hp hq := h.unique p q (hsigned p hp) (hsigned q hq)

theorem signed_of_closed {i : ℕ} {x : H × ValidateJob B} (hx : P.validating[i]? = some x)
    (hproposals : P'.proposals = P.proposals ++ x.2.proposals)
    (hvalidating : P'.validating = P.validating.eraseIdx i) (p : Proposal B) (h : P'.Signed p) :
    P.Signed p := by
  unfold Signed at h
  rw [hproposals, hvalidating] at h
  rcases h with h | ⟨y, hy, hp⟩
  · rcases List.mem_append.mp h with h | h
    · exact .inl h
    · exact .inr ⟨x, List.mem_of_getElem? hx, h⟩
  · exact .inr ⟨y, List.mem_of_mem_eraseIdx hy, hp⟩

theorem Offers.quiet (h : Offers P) (hq : Quiet K ev P P') : Offers P' := by
  have hpast : ∀ height round k, P.engine.Past height round k → P'.engine.Past height round k :=
    fun _ _ _ hp => hq.past hp
  have hstored : P'.engine.proposal = P.engine.proposal → ∀ p, P'.engine.proposal = some p →
      p.height = P'.engine.height ∧ p.round = P'.engine.round := by
    intro heq p hp
    rw [hq.height, hq.round]
    exact h.stored p (heq ▸ hp)
  cases hq with
  | dropBuild i => exact h.keep (fun _ hp => hp) (hstored rfl) hpast
  | store p hhash hheight hround =>
      refine h.keep (fun _ hp => hp) ?_ hpast
      rintro _ ⟨⟩
      exact ⟨hheight, hround⟩
  | enterPrevote ps hps hstep =>
      -- a new proposal is the stored one, and the round has none before the prevote step
      have hsplit : ∀ p, Signed { P with
          engine := { P.engine with step := .prevote }
          validating := P.validating ++ [(P.engine.parent, ⟨P.engine.height, P.engine.round,
            P.engine.proposal, P.engine.lockedRound, P.engine.lockedHash, ps⟩)] } p →
          P.Signed p ∨ P.engine.proposal = some p := by
        rintro p (hp | ⟨x, hx, hp⟩)
        · exact .inl (.inl hp)
        · rcases List.mem_append.mp hx with hx | hx
          · exact .inl (.inr ⟨x, hx, hp⟩)
          · rw [List.mem_singleton.mp hx] at hp
            exact .inr (hps p hp)
      have hother : ∀ p q, P.Signed p → P.engine.proposal = some q → p.height = q.height →
          p.round ≠ q.round := by
        intro p q hp hq hheight hround
        exact Engine.not_past_of_low hstep (hheight.trans (h.stored q hq).1)
          (hround.trans (h.stored q hq).2) (h.past p hp)
      refine ⟨hstored rfl, ?_, ?_⟩
      · intro p hp
        rcases hsplit p hp with hp | hp
        · exact hpast _ _ _ (h.past p hp)
        · exact .inr (.inr ⟨(h.stored p hp).1, (h.stored p hp).2, le_rfl⟩)
      · intro p q hp hq hheight hround
        rcases hsplit p hp with hp | hp <;> rcases hsplit q hq with hq | hq
        · exact h.unique p q hp hq hheight hround
        · exact absurd hround (hother p q hp hq hheight)
        · exact absurd hround.symm (hother q p hq hp hheight.symm)
        · exact Option.some.inj (hp.symm.trans hq)
  | dropValidate i parent job valid hjob =>
      exact h.keep (signed_of_closed hjob rfl rfl) (hstored rfl) hpast
  | prevote i parent job valid hjob hheight hround hstep =>
      exact h.keep (signed_of_closed hjob rfl rfl) (hstored rfl) hpast
  | recordPrevote v hev hmember => exact h.keep (fun _ hp => hp) (hstored rfl) hpast
  | recordPrecommit v hev hmember => exact h.keep (fun _ hp => hp) (hstored rfl) hpast
  | precommit maj hstep hmaj =>
      refine h.keep (fun _ hp => hp) (hstored ?_) hpast
      simp only [Engine.lock_eq, Engine.addPrecommit_snd]

theorem Offers.final (h : Offers P) (hf : Final K P P') (hforward : P.engine.Forward P'.engine) :
    Offers P' := by
  have hpast : ∀ height round k, P.engine.Past height round k → P'.engine.Past height round k :=
    fun height round k hp => hp.forward hforward hf.moved k
  have hnone : P'.engine.proposal = none := by cases hf <;> rfl
  have hstored : ∀ p, P'.engine.proposal = some p →
      p.height = P'.engine.height ∧ p.round = P'.engine.round := by
    intro p hp
    rw [hnone] at hp
    cases hp
  cases hf <;> exact h.keep (fun _ hp => hp) hstored hpast

theorem offers_start {e : Engine B H} (he : e.proposal = none) : Offers (start e) where
  stored p hp := by
    rw [show (start e).engine.proposal = none from he] at hp
    cases hp
  past := by
    rintro p (hp | ⟨x, hx, -⟩)
    · cases hp
    · cases hx
  unique := by
    rintro p q (hp | ⟨x, hx, -⟩)
    · cases hp
    · cases hx

theorem Offers.step (h : Offers P) (hforward : P.engine.Forward P'.engine)
    (hstep : P.step K ev = some P') : Offers P' := by
  refine keeps_step ?_ ?_ (fun _ _ hQ hm => hQ.quiet hm) ?_ h hstep
  · intro jobs _ hnew _
    refine h.keep (fun _ hp => hp) ?_ fun _ _ _ hp => hp.mono rfl rfl ?_
    · rintro p ⟨⟩
    · simp [hnew, Step.rank]
  · intro vs _
    exact h.keep (fun _ hp => hp) h.stored fun _ _ _ hp => hp
  · intro Q hheight hround hQ hm
    exact hQ.final hm (hforward.of_slot hheight hround)

/-! ## The life of an engine -/

/-- The condition that no counter of the engine starts again at zero. -/
def Counting (P : Process B H) (_ : Input B) (P' : Process B H) : Prop :=
  P.engine.Forward P'.engine

instance (P : Process B H) (ev : Input B) (P' : Process B H) : Decidable (Counting P ev P') :=
  inferInstanceAs (Decidable (_ ∨ _ ∧ _))

/-- An engine signs one vote of a type and one proposal in a round, so that no evidence against it
can be made of what it sends. -/
theorem no_equivocation {a : Address} {vs : ValidatorSet} {parent : H} {n : U64} {e : Engine B H}
    (hnew : Engine.new a vs parent n = .ok e) (h : Reached K Counting (start e) P) :
    (∀ v ∈ P.votes, ∀ w ∈ P.votes, v.type = w.type → v.height = w.height → v.round = w.round →
      v.blockHash = w.blockHash) ∧
    (∀ p ∈ P.proposals, ∀ q ∈ P.proposals, p.height = q.height → p.round = q.round →
      p.blockHash = q.blockHash) ∧
    ∀ verifyVote, ∀ v ∈ P.votes, ∀ w ∈ P.votes, verifyDoubleSign verifyVote v w ≠ .ok () := by
  have hslots : Slots P := h.invariant (slots_start e) fun _ _ _ hP hC hs => hP.step hC hs
  have hoffers : Offers P :=
    h.invariant (offers_start (by rw [(Engine.new_ok_iff.mp hnew).2]; rfl))
      fun _ _ _ hP hC hs => hP.step hC hs
  refine ⟨?_, ?_, ?_⟩
  · intro v hv w hw htype hheight hround
    rw [hslots.unique v hv w hw htype hheight hround]
  · intro p hp q hq hheight hround
    rw [hoffers.unique p q (.inl hp) (.inl hq) hheight hround]
  · intro verifyVote v hv w hw hok
    obtain ⟨htype, hheight, hround, hne⟩ := verifyDoubleSign_ok hok
    exact hne (congrArg Vote.blockHash (hslots.unique v hv w hw htype hheight hround))

/-- Validator `1` alone, at genesis. -/
def soleStart : Process (U64 × Hash) U64 :=
  start (.fresh 1 (Chain.soleSet 1) 0 0)

/-- A single validator proposes, prevotes and precommits its block, and nothing else. -/
theorem sole_signs_once :
    ∃ P, Reached numbered Counting soleStart P ∧
      P.votes = [⟨.prevote, 1, 0, 7, 1⟩, ⟨.precommit, 1, 0, 7, 1⟩] ∧
      ∀ verifyVote, ∀ v ∈ P.votes, ∀ w ∈ P.votes, verifyDoubleSign verifyVote v w ≠ .ok () := by
  have hrun : (runWhile numbered Counting soleStart
      [.startRound, .built 0 (some (1, 7)), .validated 0 true]).map Process.votes =
      some [⟨.prevote, 1, 0, 7, 1⟩, ⟨.precommit, 1, 0, 7, 1⟩] := by
    decide
  obtain ⟨P, hP, hvotes⟩ := Option.map_eq_some_iff.mp hrun
  have hreached := reached_of_runWhile hP
  exact ⟨P, hreached, hvotes,
    (no_equivocation (Engine.new_ok_iff.mpr ⟨by decide, rfl⟩) hreached).2.2⟩

/-! ## Stopping and starting again -/

/-- `StartStack` with the same key on a persisted head: the open jobs are gone, and what has been
sent stays sent. -/
def restart (K : Blocks B H) (P : Process B H) (vs : ValidatorSet) (head : H) :
    Except ConsensusError (Process B H) := do
  let e ← Engine.new P.engine.address vs head (K.number head)
  return { P with engine := e, building := [], validating := [] }

/-- The life of a validator that may stop at any point; each start meets a condition on what was sent
before and on the head it starts from. -/
inductive Lived (K : Blocks B H) (C : Process B H → H → Prop) (P₀ : Process B H) :
    Process B H → Prop
  | start : Lived K C P₀ P₀
  | step {P P' : Process B H} {ev : Input B} : Lived K C P₀ P → Counting P ev P' →
      P.step K ev = some P' → Lived K C P₀ P'
  | restart {P P' : Process B H} {vs : ValidatorSet} {head : H} : Lived K C P₀ P → C P head →
      P.restart K vs head = .ok P' → Lived K C P₀ P'

theorem restart_ok {vs : ValidatorSet} {head : H} (h : P.restart K vs head = .ok P') :
    P' = { P with
      engine := Engine.fresh P.engine.address vs head (K.number head)
      building := []
      validating := [] } := by
  unfold restart at h
  cases hnew : (Engine.new P.engine.address vs head (K.number head) :
      Except ConsensusError (Engine B H)) with
  | error err =>
      rw [hnew] at h
      cases h
  | ok e =>
      rw [hnew] at h
      rw [(Engine.new_ok_iff.mp hnew).2] at h
      cases h
      rfl

/-- Every vote sent is for a height below the one at which the new engine starts. -/
def Settled (K : Blocks B H) (P : Process B H) (head : H) : Prop :=
  ∀ v ∈ P.votes, v.height.toNat < (K.number head + 1).toNat

theorem Slots.restart (h : Slots P) {vs : ValidatorSet} {head : H} (hsettled : Settled K P head)
    (hrestart : P.restart K vs head = .ok P') : Slots P' := by
  rw [restart_ok hrestart]
  exact ⟨h.own, fun v hv => .inl (hsettled v hv), h.unique, by rintro x ⟨⟩, List.nodup_nil,
    by rintro x ⟨⟩⟩

/-- A validator that starts only above everything it has voted for is never slashable. -/
theorem restart_not_slashable {e : Engine B H} (h : Lived K (Settled K) (start e) P) :
    (∀ v ∈ P.votes, ∀ w ∈ P.votes, v.type = w.type → v.height = w.height → v.round = w.round →
      v.blockHash = w.blockHash) ∧
    ∀ verifyVote, ∀ v ∈ P.votes, ∀ w ∈ P.votes, verifyDoubleSign verifyVote v w ≠ .ok () := by
  have hslots : Slots P := by
    induction h with
    | start => exact slots_start e
    | step _ hC hs ih => exact ih.step hC hs
    | restart _ hC hr ih => exact ih.restart hC hr
  refine ⟨?_, ?_⟩
  · intro v hv w hw htype hheight hround
    rw [hslots.unique v hv w hw htype hheight hround]
  · intro verifyVote v hv w hw hok
    obtain ⟨htype, hheight, hround, hne⟩ := verifyDoubleSign_ok hok
    exact hne (congrArg Vote.blockHash (hslots.unique v hv w hw htype hheight hround))

theorem ok_of_toOption {ε α : Type} {x : Except ε α} {a : α} (h : x.toOption = some a) :
    x = .ok a := by
  cases x with
  | error err => cases h
  | ok b =>
      cases h
      rfl

theorem Lived.steps {C : Process B H → H → Prop} {P₀ : Process B H} (h : Lived K C P₀ P)
    (h' : Reached K Counting P P') : Lived K C P₀ P' := by
  induction h' with
  | start => exact h
  | step _ hC hs ih => exact ih.step hC hs

/-- A single validator that starts again after its commit votes on. -/
theorem sole_restarts :
    ∃ P, Lived numbered (Settled numbered) soleStart P ∧ P.votes.length = 4 ∧
      ∀ verifyVote, ∀ v ∈ P.votes, ∀ w ∈ P.votes, verifyDoubleSign verifyVote v w ≠ .ok () := by
  have hrun : ((runWhile numbered Counting soleStart
      [.startRound, .built 0 (some (1, 7)), .validated 0 true]).bind fun P =>
      (P.restart numbered (Chain.soleSet 1) 1).toOption.bind fun P' =>
      (runWhile numbered Counting P'
        [.startRound, .built 0 (some (2, 8)), .validated 0 true]).map fun Q =>
      (P.votes.map Vote.height, Q.votes.length)) = some ([1, 1], 4) := by
    decide
  obtain ⟨P, hP, hrun⟩ := Option.bind_eq_some_iff.mp hrun
  obtain ⟨P', hP', hrun⟩ := Option.bind_eq_some_iff.mp hrun
  obtain ⟨Q, hQ, hvotes⟩ := Option.map_eq_some_iff.mp hrun
  obtain ⟨hheights, hlength⟩ := Prod.mk.inj hvotes
  have hrestart : P.restart numbered (Chain.soleSet 1) 1 = .ok P' := ok_of_toOption hP'
  have hsettled : Settled numbered P 1 := by
    intro v hv
    have hmem := List.mem_map_of_mem (f := Vote.height) hv
    rw [hheights] at hmem
    have hone : v.height = 1 := by simpa using hmem
    rw [hone]
    decide
  have hlived := ((Lived.start.steps (reached_of_runWhile hP)).restart hsettled hrestart).steps
    (reached_of_runWhile hQ)
  exact ⟨Q, hlived, hlength, (restart_not_slashable hlived).2⟩

/-- Two validators of power one. -/
def twoSet : ValidatorSet where
  validators := [⟨1, 1⟩, ⟨2, 1⟩]
  totalPower := 2
  nonempty := by decide
  nodup := by decide
  positive := by decide
  total_eq := by decide

/-- The proposer of the first round stops after its prevote, starts again at genesis, builds another
block and prevotes it: the two prevotes are accepted as evidence against it. -/
theorem restarted_proposer_slashable :
    ∃ P P' Q : Process (U64 × Hash) U64,
      Reached numbered Counting (start (.fresh 2 twoSet 0 0)) P ∧ P.commits = [] ∧
      P.restart numbered twoSet 0 = .ok P' ∧ Reached numbered Counting P' Q ∧
      ∃ v ∈ P.votes, ∃ w ∈ Q.votes.drop P.votes.length,
        verifyDoubleSign (fun _ => .ok ()) v w = .ok () := by
  have hrun : ((runWhile numbered Counting (start (.fresh 2 twoSet 0 0))
      [.startRound, .built 0 (some (1, 7)), .validated 0 true]).bind fun P =>
      (P.restart numbered twoSet 0).toOption.bind fun P' =>
      (runWhile numbered Counting P'
        [.startRound, .built 0 (some (1, 8)), .validated 0 true]).map fun Q =>
      (P.commits.length, P.votes, Q.votes)) = some (0, [⟨.prevote, 1, 0, 7, 2⟩],
        [⟨.prevote, 1, 0, 7, 2⟩, ⟨.prevote, 1, 0, 8, 2⟩]) := by
    decide
  obtain ⟨P, hP, hrun⟩ := Option.bind_eq_some_iff.mp hrun
  obtain ⟨P', hP', hrun⟩ := Option.bind_eq_some_iff.mp hrun
  obtain ⟨Q, hQ, hvotes⟩ := Option.map_eq_some_iff.mp hrun
  obtain ⟨hcommits, hvotes⟩ := Prod.mk.inj hvotes
  obtain ⟨hbefore, hafter⟩ := Prod.mk.inj hvotes
  refine ⟨P, P', Q, reached_of_runWhile hP, List.length_eq_zero_iff.mp hcommits,
    ok_of_toOption hP', reached_of_runWhile hQ, ?_⟩
  rw [hbefore, hafter]
  exact ⟨_, List.mem_singleton_self _, _, List.mem_singleton_self _, by decide⟩

end Process

end Dew.Consensus
