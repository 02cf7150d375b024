/-
# Honest engines in a network

Several honest processes with one validator set that does not change, and faulty validators that may
sign anything. A vote in the name of an honest validator is delivered only if that validator has sent
it; proposals, synced blocks, timeouts and the results of the validators are arbitrary.

Behind every precommit for a block stands a quorum of prevotes, and behind every commit a quorum of
precommits (`Traced`). Two quorums share an honest validator, which prevotes once in a round while its
counters do not wrap; and an honest validator prevotes only what it has validated.
-/
import Dew.VoteRecords

namespace Dew.Consensus

variable {B H : Type}

/-! ## The network -/

/-- The validators, who of them is honest, and what they know about blocks. -/
structure Cluster (B H : Type) where
  blocks : Blocks B H
  valSet : ValidatorSet
  honest : Address → Bool

namespace Cluster

variable (S : Cluster B H)

/-- The setting of the agreement protocol. -/
def setting : Setting B H where
  valSet := S.valSet
  honest := S.honest
  hash := S.blocks.hash
  header := S.blocks.header
  number := S.blocks.number

/-- A vote that verifies: its validator has sent it, or is not honest. -/
def Proven (n : Address → Process B H) (v : Vote) : Prop :=
  S.honest v.validator → v ∈ (n v.validator).votes

instance (n : Address → Process B H) (v : Vote) : Decidable (S.Proven n v) :=
  inferInstanceAs (Decidable (_ → _))

/-- The inputs that can arrive: votes that verify, and no new validator set. -/
def Delivers (n : Address → Process B H) : Input B → Prop
  | .handleVote v => S.Proven n v
  | .replaceValSet _ => False
  | _ => True

instance (n : Address → Process B H) (ev : Input B) : Decidable (S.Delivers n ev) :=
  match ev with
  | .handleVote v => inferInstanceAs (Decidable (S.Proven n v))
  | .replaceValSet _ => inferInstanceAs (Decidable False)
  | .startRound | .built _ _ | .handleProposal _ | .validated _ _ | .forceTimeoutRound
  | .applySyncedBlock _ => inferInstanceAs (Decidable True)

/-- An input at one honest validator. -/
def step (n : Address → Process B H) (a : Address) (ev : Input B) :
    Option (Address → Process B H) :=
  if S.honest a ∧ S.Delivers n ev then ((n a).step S.blocks ev).map (Function.update n a) else none

/-- Freshly made engines of the honest validators, and nothing sent. -/
def Initial (n : Address → Process B H) : Prop :=
  ∀ a, S.honest a → ∃ parent e, Engine.new a S.valSet parent (S.blocks.number parent) = .ok e ∧
    n a = .start e

/-- The networks that a run reaches whose steps all meet a condition. -/
inductive Reached (C : Process B H → Input B → Process B H → Prop) (n₀ : Address → Process B H) :
    (Address → Process B H) → Prop
  | start : Reached C n₀ n₀
  | step {n n' : Address → Process B H} {a : Address} {ev : Input B} : Reached C n₀ n →
      C (n a) ev (n' a) → S.step n a ev = some n' → Reached C n₀ n'

variable {S} {C : Process B H → Input B → Process B H → Prop} {n n' n₀ : Address → Process B H}

theorem step_some {a : Address} {ev : Input B} (h : S.step n a ev = some n') :
    S.honest a ∧ S.Delivers n ev ∧ (n a).step S.blocks ev = some (n' a) ∧
      ∀ b, b ≠ a → n' b = n b := by
  unfold step at h
  split at h
  · rename_i hguard
    obtain ⟨P, hP, rfl⟩ := Option.map_eq_some_iff.mp h
    refine ⟨hguard.1, hguard.2, ?_, ?_⟩
    · rw [hP, Function.update_self]
    · intro b hb
      exact Function.update_of_ne hb _ _
  · cases h

/-! ## Where votes come from -/

/-- More than two thirds of the power has cast a vote for a hash in a round. -/
def Carried (S : Cluster B H) (proven : Vote → Prop) (type : VoteType) (height round : U64)
    (hash : Hash) : Prop :=
  ∃ A ⊆ S.valSet.members,
    2 * S.valSet.totalPower.toNat < 3 * ∑ a ∈ A, (S.valSet.powerOf a).toNat ∧
    ∀ a ∈ A, proven ⟨type, height, round, hash, a⟩

theorem Carried.mono {proven proven' : Vote → Prop} {type : VoteType} {height round : U64}
    {hash : Hash} (h : S.Carried proven type height round hash)
    (himp : ∀ v, proven v → proven' v) : S.Carried proven' type height round hash := by
  obtain ⟨A, hA, hpower, hvotes⟩ := h
  exact ⟨A, hA, hpower, fun a ha => himp _ (hvotes a ha)⟩

/-- Two quorums have an honest validator in common. -/
theorem Carried.common (hS : S.setting.Bounded) {type type' : VoteType}
    {height round height' round' : U64} {hash hash' : Hash}
    (h : S.Carried (S.Proven n) type height round hash)
    (h' : S.Carried (S.Proven n) type' height' round' hash') :
    ∃ a, S.honest a ∧ ⟨type, height, round, hash, a⟩ ∈ (n a).votes ∧
      ⟨type', height', round', hash', a⟩ ∈ (n a).votes := by
  obtain ⟨A, hA, hpower, hvotes⟩ := h
  obtain ⟨A', hA', hpower', hvotes'⟩ := h'
  have hlight := (S.setting.protocol hS).faulty_light
  have hsum := S.valSet.sum_powerOf
  rw [← hsum] at hpower hpower'
  obtain ⟨a, ha, ha', hfaulty⟩ :=
    LockedVoting.exists_correct_of_quorums hA hA' hpower hpower' hlight
  have hhonest : S.honest a := by
    by_contra hnot
    exact hfaulty (Finset.mem_filter.mpr ⟨hA ha, hnot⟩)
  exact ⟨a, hhonest, hvotes a ha hhonest, hvotes' a ha' hhonest⟩

/-- What stands behind the votes and commits of one process. -/
structure Traced (S : Cluster B H) (proven : Vote → Prop) (P : Process B H) : Prop where
  aligned : P.engine.Aligned
  valSet : P.engine.valSet = S.valSet
  member : P.engine.address ∈ S.valSet.members
  prevotes : P.engine.prevotes.Counts S.valSet proven
  precommits : P.engine.precommits.Counts S.valSet proven
  matching : P.engine.Matching S.blocks
  unlocked : P.engine.step ≠ .precommit → P.engine.lockedHash = 0
  jobs : ∀ x ∈ P.validating, x.2.lockedHash = 0 ∧
    ∀ p b, x.2.proposal = some p → p.block = some b → S.blocks.hash b = p.blockHash
  own : ∀ v ∈ P.votes, v.validator = P.engine.address
  polka : ∀ v ∈ P.votes, v.type = .precommit →
    S.Carried proven .prevote v.height v.round v.blockHash
  valid : ∀ v ∈ P.votes, v.type = .prevote → v.blockHash ≠ 0 →
    ∃ b, (v.height, v.round, b) ∈ P.approved ∧ S.blocks.hash b = v.blockHash
  decided : ∀ c ∈ P.commits, c.2.blockHash ≠ 0 ∧
    S.Carried proven .precommit c.2.height c.2.round c.2.blockHash

/-- A majority in a vote set of an engine is a quorum of votes. -/
theorem carried_of_majority (hS : S.setting.Bounded) {proven : Vote → Prop} {vs : VoteSet}
    (h : vs.Counts S.valSet proven) {hash : Hash}
    (hmaj : vs.majorityHash S.valSet.totalPower = some hash) :
    S.Carried proven vs.type vs.height vs.round hash := by
  have hquorum := h.quorum hS.total (VoteSet.hasQuorum_of_majorityHash hmaj)
  rw [h.power] at hquorum
  refine ⟨_, Finset.filter_subset _ _, hquorum, ?_⟩
  intro a ha
  obtain ⟨v, hv, rfl⟩ := Option.map_eq_some_iff.mp (Finset.mem_filter.mp ha).2
  obtain ⟨rfl, htype, hheight, hround, hproven⟩ := h.slot a v hv
  rw [← htype, ← hheight, ← hround]
  exact hproven

theorem Traced.mono {proven proven' : Vote → Prop} {P : Process B H} (h : S.Traced proven P)
    (himp : ∀ v, proven v → proven' v) : S.Traced proven' P :=
  { h with
    prevotes := h.prevotes.mono himp
    precommits := h.precommits.mono himp
    polka := fun v hv ht => (h.polka v hv ht).mono himp
    decided := fun c hc => ⟨(h.decided c hc).1, (h.decided c hc).2.mono himp⟩ }

/-! ## The moves of one process -/

section Moves

open Process

variable {proven : Vote → Prop} {ev : Input B} {P P' : Process B H}

theorem Traced.prevoted (h : S.Traced proven P) {i : ℕ} {parent : H} {job : ValidateJob B}
    (hjob : P.validating[i]? = some (parent, job)) {valid : Bool}
    (hne : Engine.prevoteHash job valid ≠ 0) :
    ∃ b, (job.height, job.round, b) ∈ job.approves valid ∧
      S.blocks.hash b = Engine.prevoteHash job valid := by
  obtain ⟨hlocked, hmatching⟩ := h.jobs _ (List.mem_of_getElem? hjob)
  have hlocked : job.lockedHash = 0 := hlocked
  unfold Engine.prevoteHash at hne ⊢
  rw [if_neg (fun hcon => hcon.2 hlocked)] at hne ⊢
  cases hp : job.proposal with
  | none =>
      rw [hp] at hne
      exact absurd rfl hne
  | some p =>
      rw [hp] at hne
      cases hb : p.block with
      | none => simp [hb] at hne
      | some b =>
          cases valid with
          | false => simp at hne
          | true =>
              refine ⟨b, ?_, ?_⟩
              · simp [ValidateJob.approves, hp, hb]
              · simpa [hb] using hmatching p b hp hb

/-- The engine casts its prevote. -/
theorem Traced.prevote (h : S.Traced proven P) {i : ℕ} {parent : H} {job : ValidateJob B}
    {valid : Bool} (hjob : P.validating[i]? = some (parent, job))
    (hheight : P.engine.height = job.height) (hround : P.engine.round = job.round)
    (hstep : P.engine.step = .prevote)
    (hproven : proven (P.engine.ownVote .prevote (Engine.prevoteHash job valid))) :
    S.Traced proven { P with
      engine := (P.engine.addPrevote
        (P.engine.ownVote .prevote (Engine.prevoteHash job valid))).2
      votes := P.votes ++ [P.engine.ownVote .prevote (Engine.prevoteHash job valid)]
      proposals := P.proposals ++ job.proposals
      validating := P.validating.eraseIdx i
      approved := P.approved ++ job.approves valid } := by
  have hq : Quiet S.blocks .startRound P _ := .prevote i parent job valid hjob hheight hround hstep
  have hold : ∀ v ∈ P.votes, v.type = .prevote → v.blockHash ≠ 0 →
      ∃ b, (v.height, v.round, b) ∈ P.approved ++ job.approves valid ∧
        S.blocks.hash b = v.blockHash := by
    intro v hv htype hne
    obtain ⟨b, hb, hhash⟩ := h.valid v hv htype hne
    exact ⟨b, List.mem_append_left _ hb, hhash⟩
  refine { h with
    aligned := Aligned.quiet h.aligned hq
    matching := Matching.quiet h.matching hq
    prevotes := ?_
    jobs := fun x hx => h.jobs x (List.mem_of_mem_eraseIdx hx)
    own := List.forall_mem_append.mpr ⟨h.own, List.forall_mem_singleton.mpr rfl⟩
    polka := List.forall_mem_append.mpr ⟨h.polka, List.forall_mem_singleton.mpr ?_⟩
    valid := List.forall_mem_append.mpr ⟨hold, List.forall_mem_singleton.mpr ?_⟩ }
  · rw [Engine.addPrevote_snd, h.valSet]
    exact h.prevotes.add hproven h.member
  · rintro ⟨⟩
  · intro _ hne
    obtain ⟨b, hb, hhash⟩ := h.prevoted hjob hne
    rw [← hheight, ← hround] at hb
    exact ⟨b, List.mem_append_right _ hb, hhash⟩

/-- The engine casts its precommit: a quorum of prevotes stands behind it. -/
theorem Traced.precommit (h : S.Traced proven P) (hS : S.setting.Bounded) {maj : Hash}
    (hstep : P.engine.step = .prevote)
    (hmaj : P.engine.prevotes.majorityHash P.engine.valSet.totalPower = some maj)
    (hproven : proven (P.engine.ownVote .precommit maj)) :
    S.Traced proven { P with
      engine := ((P.engine.lock maj).addPrecommit (P.engine.ownVote .precommit maj)).2
      votes := P.votes ++ [P.engine.ownVote .precommit maj] } := by
  have hq : Quiet S.blocks .startRound P _ := .precommit maj hstep hmaj
  have haligned := Aligned.quiet h.aligned hq
  have hmatching := Matching.quiet h.matching hq
  have hcarried : S.Carried proven .prevote P.engine.height P.engine.round maj := by
    obtain ⟨htype, hheight, hround⟩ := h.aligned .prevote
    have hmajority := carried_of_majority hS h.prevotes (by rwa [h.valSet] at hmaj)
    rwa [show P.engine.prevotes.type = .prevote from htype,
      show P.engine.prevotes.height = P.engine.height from hheight,
      show P.engine.prevotes.round = P.engine.round from hround] at hmajority
  have hengine : ((P.engine.lock maj).addPrecommit (P.engine.ownVote .precommit maj)).2 =
      { P.engine with
        step := .precommit
        lockedRound := if maj = 0 then P.engine.lockedRound else P.engine.round.toInt
        lockedHash := if maj = 0 then P.engine.lockedHash else maj
        precommits := (P.engine.precommits.add (P.engine.ownVote .precommit maj)
          (P.engine.valSet.powerOf P.engine.address)).2 } := by
    rw [Engine.lock_eq]
    rfl
  rw [hengine] at haligned hmatching ⊢
  refine { h with
    aligned := haligned
    matching := hmatching
    precommits := ?_
    unlocked := fun hne => absurd rfl hne
    own := List.forall_mem_append.mpr ⟨h.own, List.forall_mem_singleton.mpr rfl⟩
    polka := List.forall_mem_append.mpr ⟨h.polka, List.forall_mem_singleton.mpr fun _ => hcarried⟩
    valid := List.forall_mem_append.mpr ⟨h.valid, List.forall_mem_singleton.mpr ?_⟩ }
  · show (P.engine.precommits.add _ (P.engine.valSet.powerOf P.engine.address)).2.Counts _ _
    rw [h.valSet]
    exact h.precommits.add hproven h.member
  · rintro ⟨⟩

theorem Traced.quiet (h : S.Traced proven P) (hS : S.setting.Bounded)
    (hdelivered : ∀ v, ev = .handleVote v → proven v) (hown : ∀ v ∈ P'.votes, proven v)
    (hq : Quiet S.blocks ev P P') : S.Traced proven P' := by
  have haligned : P'.engine.Aligned := Aligned.quiet h.aligned hq
  have hmatching : P'.engine.Matching S.blocks := Matching.quiet h.matching hq
  have hvalSet := h.valSet
  cases hq with
  | dropBuild i => exact { h with }
  | store p hhash hheight hround => exact { h with aligned := haligned, matching := hmatching }
  | enterPrevote ps hps hstep =>
      have hunlocked : P.engine.lockedHash = 0 := by
        refine h.unlocked ?_
        rcases hstep with hstep | hstep <;> rw [hstep] <;> decide
      have hjob : ∀ p b, P.engine.proposal = some p → p.block = some b →
          S.blocks.hash b = p.blockHash := h.matching
      exact { h with
        aligned := haligned
        matching := hmatching
        unlocked := fun _ => hunlocked
        jobs := List.forall_mem_append.mpr
          ⟨h.jobs, List.forall_mem_singleton.mpr ⟨hunlocked, hjob⟩⟩ }
  | dropValidate i parent job valid hjob =>
      refine { h with
        jobs := fun x hx => h.jobs x (List.mem_of_mem_eraseIdx hx)
        valid := ?_ }
      intro v hv htype hne
      obtain ⟨b, hb, hhash⟩ := h.valid v hv htype hne
      exact ⟨b, List.mem_append_left _ hb, hhash⟩
  | prevote i parent job valid hjob hheight hround hstep =>
      exact h.prevote hjob hheight hround hstep
        (hown _ (List.mem_append_right _ (List.mem_singleton_self _)))
  | recordPrevote v hev hmember =>
      refine { h with aligned := haligned, matching := hmatching, prevotes := ?_ }
      rw [Engine.addPrevote_snd, hvalSet]
      rw [hvalSet] at hmember
      exact h.prevotes.add (hdelivered v hev) (ValidatorSet.mem_members_of_isSome hmember)
  | recordPrecommit v hev hmember =>
      refine { h with aligned := haligned, matching := hmatching, precommits := ?_ }
      rw [Engine.addPrecommit_snd, hvalSet]
      rw [hvalSet] at hmember
      exact h.precommits.add (hdelivered v hev) (ValidatorSet.mem_members_of_isSome hmember)
  | precommit maj hstep hmaj =>
      exact h.precommit hS hstep hmaj
        (hown _ (List.mem_append_right _ (List.mem_singleton_self _)))

/-- Vote sets and lock of a round that has just begun. -/
theorem Traced.newRound (h : S.Traced proven P) {e : Engine B H}
    (hvalSet : e.valSet = P.engine.valSet) (haddress : e.address = P.engine.address)
    (hvotes : ∀ t, e.voteSet t = VoteSet.new t e.height e.round) (hproposal : e.proposal = none)
    (hlocked : e.lockedHash = 0) : S.Traced proven { P with engine := e } where
  aligned := Engine.aligned_of_new hvotes
  valSet := hvalSet.trans h.valSet
  member := by
    show e.address ∈ _
    rw [haddress]
    exact h.member
  prevotes := by
    show (e.voteSet .prevote).Counts _ _
    rw [hvotes]
    exact VoteSet.counts_new ..
  precommits := by
    show (e.voteSet .precommit).Counts _ _
    rw [hvotes]
    exact VoteSet.counts_new ..
  matching := by
    intro p b hp
    rw [show e.proposal = some p from hp] at hproposal
    cases hproposal
  unlocked _ := hlocked
  jobs := h.jobs
  own := by
    show ∀ v ∈ P.votes, v.validator = e.address
    rw [haddress]
    exact h.own
  polka := h.polka
  valid := h.valid
  decided := h.decided

theorem Traced.final (h : S.Traced proven P) (hS : S.setting.Bounded)
    (hf : Final S.blocks P P') : S.Traced proven P' := by
  cases hf with
  | nextRound => exact h.newRound rfl rfl (fun t => by cases t <;> rfl) rfl rfl
  | sync b hnumber hparent => exact h.newRound rfl rfl (fun t => by cases t <;> rfl) rfl rfl
  | commit p hstep hmaj hne hp =>
      have hnew : S.Traced proven { P with
          engine := P.engine.advance S.blocks.header p (P.engine.commitEvent p p.blockHash) } :=
        h.newRound rfl rfl (fun t => by cases t <;> rfl) rfl rfl
      refine { hnew with decided := ?_ }
      rw [h.valSet] at hmaj
      have hcarried := carried_of_majority hS h.precommits hmaj
      obtain ⟨htype, hheight, hround⟩ := h.aligned .precommit
      rw [show P.engine.precommits.type = .precommit from htype,
        show P.engine.precommits.height = P.engine.height from hheight,
        show P.engine.precommits.round = P.engine.round from hround] at hcarried
      intro c hc
      rcases List.mem_append.mp hc with hc | hc
      · exact h.decided c hc
      · rw [List.mem_singleton.mp hc]
        exact ⟨hne, hcarried⟩

theorem votes_quiet (hq : Quiet S.blocks ev P P') : P.votes ⊆ P'.votes := by
  cases hq with
  | prevote | precommit => exact List.subset_append_left _ _
  | _ => exact List.Subset.refl _

theorem votes_step (hstep : P.step S.blocks ev = some P') : P.votes ⊆ P'.votes := by
  refine keeps_step (I := fun Q => P.votes ⊆ Q.votes) ?_ ?_ ?_ ?_ (List.Subset.refl _) hstep
  · exact fun _ _ _ _ => List.Subset.refl _
  · exact fun _ _ => List.Subset.refl _
  · exact fun Q Q' hQ hm => List.Subset.trans hQ (votes_quiet hm)
  · intro Q _ _ hQ hm
    cases hm <;> exact hQ

/-- The votes of a step are signed with the address of the engine. -/
theorem sent_step (hstep : P.step S.blocks ev = some P') :
    P'.engine.address = P.engine.address ∧
      ∀ v ∈ P'.votes, v.validator = P.engine.address ∨ v ∈ P.votes := by
  refine keeps_step (I := fun Q => Q.engine.address = P.engine.address ∧
    ∀ v ∈ Q.votes, v.validator = P.engine.address ∨ v ∈ P.votes) ?_ ?_ ?_ ?_
    ⟨rfl, fun v hv => .inr hv⟩ hstep
  · exact fun _ _ _ _ => ⟨rfl, fun v hv => .inr hv⟩
  · exact fun _ _ => ⟨rfl, fun v hv => .inr hv⟩
  · rintro Q Q' ⟨haddress, hQ⟩ hm
    refine ⟨hm.address.trans haddress, ?_⟩
    cases hm with
    | prevote | precommit =>
        intro v hv
        rcases List.mem_append.mp hv with hv | hv
        · exact hQ v hv
        · rw [List.mem_singleton.mp hv]
          exact .inl haddress
    | _ => exact hQ
  · rintro Q _ _ ⟨haddress, hQ⟩ hm
    refine ⟨hm.address.trans haddress, ?_⟩
    cases hm <;> exact hQ

/-- A step keeps the trace if its votes count as proven. -/
theorem Traced.step (h : S.Traced proven P) (hS : S.setting.Bounded)
    (hdelivered : ∀ v, ev = .handleVote v → proven v) (hfixed : ∀ vs, ev ≠ .replaceValSet vs)
    (hown : ∀ v ∈ P'.votes, proven v) (hstep : P.step S.blocks ev = some P') :
    S.Traced proven P' := by
  -- the votes of the states in between are among those at the end
  refine keeps_step (I := fun Q => (∀ v ∈ Q.votes, proven v) → S.Traced proven Q) ?_ ?_ ?_ ?_
    (fun _ => h) hstep hown
  · intro jobs _ hnew _ _
    have hbegin : S.Traced proven { P with
        engine := { P.engine.resetVotes with step := .propose } } :=
      h.newRound rfl rfl (fun t => by cases t <;> rfl) rfl (h.unlocked (by rw [hnew]; decide))
    exact { hbegin with }
  · intro vs hev
    exact absurd hev (hfixed vs)
  · intro Q Q' hQ hm hvotes
    exact (hQ fun v hv => hvotes v (votes_quiet hm hv)).quiet hS hdelivered hvotes hm
  · intro Q _ _ hQ hm hvotes
    have hsame : P'.votes = Q.votes := by cases hm <;> rfl
    exact (hQ (by rw [← hsame]; exact hvotes)).final hS hm

end Moves

/-! ## Runs of the network -/

/-- Votes that verify go on verifying. -/
theorem proven_step {a : Address} {ev : Input B} (h : S.step n a ev = some n') {v : Vote}
    (hv : S.Proven n v) : S.Proven n' v := by
  obtain ⟨-, -, hstep, hother⟩ := step_some h
  intro hhonest
  by_cases hval : v.validator = a
  · have hold := hv hhonest
    rw [hval] at hold ⊢
    exact votes_step hstep hold
  · rw [hother _ hval]
    exact hv hhonest

theorem traced_step (hS : S.setting.Bounded) {a : Address} {ev : Input B}
    (h : ∀ b, S.honest b → S.Traced (S.Proven n) (n b) ∧ (n b).engine.address = b)
    (hstep : S.step n a ev = some n') :
    ∀ b, S.honest b → S.Traced (S.Proven n') (n' b) ∧ (n' b).engine.address = b := by
  obtain ⟨hhonest, hdelivers, hprocess, hother⟩ := step_some hstep
  intro b hb
  have hmono := fun v => proven_step hstep (v := v)
  by_cases hba : b = a
  · subst hba
    obtain ⟨htraced, haddress⟩ := h b hb
    -- the votes of this step are the validator's own, so that they verify from now on
    have hown : ∀ v ∈ (n' b).votes, v.validator = b := by
      intro v hv
      rcases (sent_step hprocess).2 v hv with hval | hold
      · exact hval.trans haddress
      · exact (htraced.own v hold).trans haddress
    refine ⟨(htraced.mono hmono).step hS ?_ ?_ ?_ hprocess,
      (sent_step hprocess).1.trans haddress⟩
    · rintro v rfl
      exact hmono v hdelivers
    · rintro vs rfl
      exact hdelivers
    · intro v hv _
      rw [hown v hv]
      exact hv
  · rw [hother b hba]
    obtain ⟨htraced, haddress⟩ := h b hb
    exact ⟨htraced.mono hmono, haddress⟩

theorem traced_start (h : S.Initial n) (b : Address) (hb : S.honest b) :
    S.Traced (S.Proven n) (n b) ∧ (n b).engine.address = b := by
  obtain ⟨parent, e, hnew, hstart⟩ := h b hb
  obtain ⟨hmember, rfl⟩ := Engine.new_ok_iff.mp hnew
  rw [hstart]
  refine ⟨⟨Process.aligned_fresh, rfl, ?_, VoteSet.counts_new .., VoteSet.counts_new .., ?_,
    fun _ => rfl, ?_, ?_, ?_, ?_, ?_⟩, rfl⟩
  · show b ∈ S.valSet.members
    exact ValidatorSet.mem_members_of_isSome hmember
  · rintro p b ⟨⟩
  · rintro x ⟨⟩
  · rintro v ⟨⟩
  · rintro v ⟨⟩
  · rintro v ⟨⟩
  · rintro c ⟨⟩

theorem Reached.traced (hS : S.setting.Bounded) (h₀ : S.Initial n₀) (h : S.Reached C n₀ n) :
    ∀ b, S.honest b → S.Traced (S.Proven n) (n b) ∧ (n b).engine.address = b := by
  induction h with
  | start => exact traced_start h₀
  | step _ _ hstep ih => exact traced_step hS ih hstep

/-- Every honest process signs one vote of a type in a round. -/
theorem Reached.slots (h₀ : S.Initial n₀) (h : S.Reached Process.Counting n₀ n) (b : Address)
    (hb : S.honest b) : (n b).Slots := by
  induction h with
  | start =>
      obtain ⟨parent, e, -, hstart⟩ := h₀ b hb
      rw [hstart]
      exact Process.slots_start e
  | @step n n' a ev _ hC hstep ih =>
      obtain ⟨-, -, hprocess, hother⟩ := step_some hstep
      by_cases hba : b = a
      · subst hba
        exact ih.step hC hprocess
      · rw [hother b hba]
        exact ih

/-- In a round at most one block is precommitted by honest engines, and no vote set of an honest
engine holds two quorums. -/
theorem one_block_precommitted (hS : S.setting.Bounded) (h₀ : S.Initial n₀)
    (h : S.Reached Process.Counting n₀ n) :
    (∀ a b, S.honest a → S.honest b → ∀ v ∈ (n a).votes, ∀ w ∈ (n b).votes,
      v.type = .precommit → w.type = .precommit → v.blockHash ≠ 0 → w.blockHash ≠ 0 →
      v.height = w.height → v.round = w.round → v.blockHash = w.blockHash) ∧
    ∀ a, S.honest a → ∀ type x y,
      hasQuorum (((n a).engine.voteSet type).powerFor x) (n a).engine.valSet.totalPower →
      hasQuorum (((n a).engine.voteSet type).powerFor y) (n a).engine.valSet.totalPower →
      x = y := by
  have htraced := h.traced hS h₀
  refine ⟨?_, ?_⟩
  · intro a b ha hb v hv w hw hvtype hwtype _ _ hheight hround
    have hpolka := (htraced a ha).1.polka v hv hvtype
    have hpolka' := (htraced b hb).1.polka w hw hwtype
    rw [← hheight, ← hround] at hpolka'
    -- an honest validator is in both quorums, and it has one prevote in the round
    obtain ⟨c, hc, hfirst, hsecond⟩ := hpolka.common hS hpolka'
    have heq := (h.slots h₀ c hc).unique _ hfirst _ hsecond rfl rfl rfl
    exact (Vote.mk.inj heq).2.2.2.1
  · intro a ha type x y hx hy
    have hta := (htraced a ha).1
    rw [hta.valSet] at hx hy
    cases type with
    | prevote => exact hta.prevotes.majority_unique hS.total hx hy
    | precommit => exact hta.precommits.majority_unique hS.total hx hy

/-- A committed block has been validated by an honest engine in the round of the commit. -/
theorem commit_validated (hS : S.setting.Bounded) (h₀ : S.Initial n₀)
    (h : S.Reached (fun _ _ _ => True) n₀ n) {a : Address} (ha : S.honest a)
    {c : ValidatorSet × CommitEvent B} (hc : c ∈ (n a).commits) :
    ∃ b, S.honest b ∧ ∃ block, (c.2.height, c.2.round, block) ∈ (n b).approved ∧
      S.blocks.hash block = c.2.blockHash := by
  have htraced := h.traced hS h₀
  obtain ⟨hne, hprecommits⟩ := (htraced a ha).1.decided c hc
  -- back through an honest precommit and the prevotes behind it to an honest prevote
  obtain ⟨d, hd, hprecommit, -⟩ := hprecommits.common hS hprecommits
  have hprevotes := (htraced d hd).1.polka _ hprecommit rfl
  obtain ⟨b, hb, hprevote, -⟩ := hprevotes.common hS hprevotes
  exact ⟨b, hb, (htraced b hb).1.valid _ hprevote rfl hne⟩

/-! ## Two validators -/

/-- A run along a list of inputs, as long as the condition is met. -/
def runWhile (S : Cluster B H) (C : Process B H → Input B → Process B H → Prop)
    [∀ P ev P', Decidable (C P ev P')] (n : Address → Process B H) :
    List (Address × Input B) → Option (Address → Process B H)
  | [] => some n
  | (a, ev) :: evs => (S.step n a ev).bind fun n' =>
    if C (n a) ev (n' a) then S.runWhile C n' evs else none

theorem Reached.runWhile [∀ P ev P', Decidable (C P ev P')] (h : S.Reached C n₀ n)
    {evs : List (Address × Input B)} (hrun : S.runWhile C n evs = some n') :
    S.Reached C n₀ n' := by
  induction evs generalizing n with
  | nil =>
      cases hrun
      exact h
  | cons x evs ih =>
      obtain ⟨m, hm, hrest⟩ := Option.bind_eq_some_iff.mp hrun
      split at hrest
      · rename_i hC
        exact ih (h.step hC hm) hrest
      · cases hrest

/-- Two honest validators of power one. -/
def bothHonest : Cluster (U64 × Hash) U64 where
  blocks := numbered
  valSet := Process.twoSet
  honest a := a = 1 ∨ a = 2

def bothStart (a : Address) : Process (U64 × Hash) U64 :=
  .start (.fresh a Process.twoSet 0 0)

theorem bothHonest_bounded : bothHonest.setting.Bounded := by
  constructor <;> decide

theorem bothStart_initial : bothHonest.Initial bothStart := by
  intro a ha
  refine ⟨0, _, Engine.new_ok_iff.mpr ⟨?_, rfl⟩, rfl⟩
  have ha' : a = 1 ∨ a = 2 := by simpa [bothHonest] using ha
  rcases ha' with rfl | rfl <;> decide

/-- Both validate the proposal of validator `2`, prevote it and precommit it. -/
def precommits (x : Hash) : List (Address × Input (U64 × Hash)) :=
  [(2, .startRound), (2, .built 0 (some (1, x))), (2, .validated 0 true),
    (1, .handleProposal ⟨1, 0, x, some (1, x), 2⟩), (1, .validated 0 true),
    (1, .handleVote ⟨.prevote, 1, 0, x, 2⟩), (2, .handleVote ⟨.prevote, 1, 0, x, 1⟩)]

/-- Both precommit the proposed block, and nothing else in its round. -/
theorem both_precommit_once :
    ∃ n, bothHonest.Reached Process.Counting bothStart n ∧
      ⟨.precommit, 1, 0, 7, 2⟩ ∈ (n 2).votes ∧
      ∀ v ∈ (n 1).votes, v.type = .precommit → v.blockHash ≠ 0 → v.height = 1 → v.round = 0 →
        v.blockHash = 7 := by
  have hrun : (bothHonest.runWhile Process.Counting bothStart (precommits 7)).map
      (fun n => decide (⟨.precommit, 1, 0, 7, 2⟩ ∈ (n 2).votes)) = some true := by
    decide
  obtain ⟨n, hn, hvote⟩ := Option.map_eq_some_iff.mp hrun
  have hvote := of_decide_eq_true hvote
  have hreached := Reached.start.runWhile hn
  refine ⟨n, hreached, hvote, ?_⟩
  intro v hv htype hne hheight hround
  exact (one_block_precommitted bothHonest_bounded bothStart_initial hreached).1 1 2 rfl rfl v hv _
    hvote htype rfl hne (by decide) hheight hround

/-- The block that validator `1` commits has been validated. -/
theorem both_commit_validated :
    ∃ n, bothHonest.Reached (fun _ _ _ => True) bothStart n ∧
      ∃ c ∈ (n 1).commits, c.2.blockHash = 7 ∧ ∃ b, bothHonest.honest b ∧
        ∃ block, (c.2.height, c.2.round, block) ∈ (n b).approved ∧ numbered.hash block = 7 := by
  have hrun : (bothHonest.runWhile (fun _ _ _ => True) bothStart
      (precommits 7 ++ [(1, .handleVote ⟨.precommit, 1, 0, 7, 2⟩)])).map
      (fun n => (n 1).commits.map fun c => c.2.blockHash) = some [7] := by
    decide
  obtain ⟨n, hn, hcommits⟩ := Option.map_eq_some_iff.mp hrun
  have hmem : (7 : Hash) ∈ (n 1).commits.map fun c => c.2.blockHash := by rw [hcommits]; simp
  obtain ⟨c, hc, hhash⟩ := List.mem_map.mp hmem
  have hreached := Reached.start.runWhile hn
  have hvalid := commit_validated bothHonest_bounded bothStart_initial hreached rfl hc
  rw [hhash] at hvalid
  exact ⟨n, hreached, c, hc, hhash, hvalid⟩

/-! ## A counter that wraps -/

end Cluster

/-- The engine at the beginning of a round. -/
def Engine.atRound (e : Engine B H) (r : U64) : Engine B H :=
  { ({ e with round := r, lockedRound := -1, lockedHash := 0 } : Engine B H).resetVotes with
    step := .newRound }

theorem Engine.iterate_enterNextRound (e : Engine B H) (k : ℕ) :
    Engine.enterNextRound^[k + 1] e = e.atRound (e.round + BitVec.ofNat 64 (k + 1)) := by
  induction k with
  | zero => rfl
  | succ k ih =>
      have hnext : ∀ r, (e.atRound r).enterNextRound = e.atRound (r + 1) := fun _ => rfl
      rw [Function.iterate_succ_apply', ih, hnext, BitVec.ofNat_add (k + 1) 1, BitVec.add_assoc]
      rfl

/-- As many timeouts as there are rounds lead back to the same round. -/
theorem Engine.iterate_enterNextRound_wrap (e : Engine B H) :
    Engine.enterNextRound^[2 ^ 64] e = e.atRound e.round := by
  have h := e.iterate_enterNextRound (2 ^ 64 - 1)
  rw [show 2 ^ 64 - 1 + 1 = 2 ^ 64 by decide, show BitVec.ofNat 64 (2 ^ 64) = 0 by decide] at h
  rw [h]
  simp

namespace Cluster

variable {S : Cluster B H} {n n₀ : Address → Process B H}

theorem Reached.timeouts (h : S.Reached (fun _ _ _ => True) n₀ n) {a : Address} (ha : S.honest a)
    (k : ℕ) : S.Reached (fun _ _ _ => True) n₀
      (Function.update n a { n a with engine := Engine.enterNextRound^[k] (n a).engine }) := by
  induction k with
  | zero =>
      rw [show ({ n a with engine := Engine.enterNextRound^[0] (n a).engine } : Process B H) = n a
        from rfl, Function.update_eq_self]
      exact h
  | succ k ih =>
      have hstep : S.step (Function.update n a { n a with
          engine := Engine.enterNextRound^[k] (n a).engine }) a .forceTimeoutRound =
          some (Function.update n a { n a with
            engine := Engine.enterNextRound^[k + 1] (n a).engine }) := by
        unfold Cluster.step
        rw [if_pos ⟨ha, trivial⟩, Function.update_self]
        simp only [Process.step, Option.map_some, Function.update_idem, Engine.forceTimeoutRound]
        rw [Function.iterate_succ_apply']
      exact ih.step trivial hstep

/-- A process whose engine is back at the beginning of its round. -/
def wrapped (P : Process B H) : Process B H :=
  { P with engine := P.engine.atRound P.engine.round }

theorem Reached.wrap (h : S.Reached (fun _ _ _ => True) n₀ n) {a : Address} (ha : S.honest a) :
    S.Reached (fun _ _ _ => True) n₀ (Function.update n a (wrapped (n a))) := by
  have hwrap := h.timeouts ha (2 ^ 64)
  rw [Engine.iterate_enterNextRound_wrap] at hwrap
  exact hwrap

/-- Both validators precommit a block, time out until the round counter is back at zero, and precommit
another block in the same round. -/
theorem wrapped_round_precommits_two :
    bothHonest.setting.Bounded ∧ bothHonest.Initial bothStart ∧
      ∃ n, bothHonest.Reached (fun _ _ _ => True) bothStart n ∧
        ⟨.precommit, 1, 0, 7, 1⟩ ∈ (n 1).votes ∧ ⟨.precommit, 1, 0, 8, 1⟩ ∈ (n 1).votes := by
  have hrun : ((bothHonest.runWhile (fun _ _ _ => True) bothStart (precommits 7)).bind fun n =>
      (bothHonest.runWhile (fun _ _ _ => True)
        (Function.update (Function.update n 1 (wrapped (n 1))) 2 (wrapped (n 2)))
        (precommits 8)).map fun n' =>
      decide (⟨.precommit, 1, 0, 7, 1⟩ ∈ (n' 1).votes ∧ ⟨.precommit, 1, 0, 8, 1⟩ ∈ (n' 1).votes)) =
      some true := by
    decide
  obtain ⟨n, hn, hrun⟩ := Option.bind_eq_some_iff.mp hrun
  obtain ⟨n', hn', hvotes⟩ := Option.map_eq_some_iff.mp hrun
  have hfirst := (Reached.start.runWhile hn).wrap (a := 1) rfl
  have hboth := hfirst.wrap (a := 2) rfl
  rw [Function.update_of_ne (by decide)] at hboth
  exact ⟨bothHonest_bounded, bothStart_initial, n', hboth.runWhile hn', of_decide_eq_true hvotes⟩

end Cluster

end Dew.Consensus
