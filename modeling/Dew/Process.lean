/-
# One engine and its callers

The runs of a single engine. Its methods are called by several goroutines, in any order, and two of
them give up the lock half way: what they keep meanwhile is an open job of the process, and the
builder or the validator may return at any later moment, or never.

`Process.step` is the step of the source. Every such step is a row of *moves* of the engine, of which
only the last may change its height or round (`Process.step_effect`); the invariants of the engine
are proved move by move.
-/
import Dew.Rotation

namespace Dew.Consensus

/-! ## The process -/

/-- What an engine reads off blocks and headers. -/
structure Blocks (B H : Type) where
  hash : B → Hash
  header : B → H
  number : H → U64
  parentHash : H → Hash
  headerHash : H → Hash

/-- The blocks of the chain. -/
def production : Blocks Block Header where
  hash := Block.hash
  header := Block.header
  number := Header.number
  parentHash := Header.parentHash
  headerHash := Header.hash

/-- Blocks that are a number and a hash, with their number as header. -/
def numbered : Blocks (U64 × Hash) U64 where
  hash := Prod.snd
  header := Prod.fst
  number := id
  parentHash _ := 0
  headerHash _ := 0

section

variable {B H : Type} (K : Blocks B H)

/-- `ApplySyncedBlock`, over any blocks. -/
def Engine.applySynced (e : Engine B H) (block : B) :
    Except Engine.SyncError (Bool × Engine B H) :=
  let h := K.header block
  if K.number h < e.height then .ok (false, e)
  else if e.height ≠ K.number h then .error (.height (K.number h) e.height)
  else if K.parentHash h ≠ K.headerHash e.parent then .error .parentMismatch
  else
    .ok (true,
      { ({ e with
          parent := h
          height := K.number h + 1
          round := 0
          lockedRound := -1
          lockedHash := 0 } : Engine B H).resetVotes with
        step := .newRound
        lastCommit := some ⟨K.number h, 0, K.hash block, some block, []⟩ })

theorem Engine.applySynced_production (e : Engine Block Header) (block : Block) :
    e.applySynced production block = e.applySyncedBlock block :=
  rfl

theorem Engine.addPrevote_snd (e : Engine B H) (v : Vote) :
    (e.addPrevote v).2 =
      { e with prevotes := (e.prevotes.add v (e.valSet.powerOf v.validator)).2 } :=
  rfl

theorem Engine.addPrecommit_snd (e : Engine B H) (v : Vote) :
    (e.addPrecommit v).2 =
      { e with precommits := (e.precommits.add v (e.valSet.powerOf v.validator)).2 } :=
  rfl

theorem Engine.lock_eq (e : Engine B H) (h : Hash) :
    e.lock h = { e with
      step := .precommit
      lockedRound := if h = 0 then e.lockedRound else e.round.toInt
      lockedHash := if h = 0 then e.lockedHash else h } := by
  unfold Engine.lock
  split <;> rfl

/-- The engine of `NewEngine`. -/
def Engine.fresh (address : Address) (valSet : ValidatorSet) (parent : H) (parentNumber : U64) :
    Engine B H where
  address := address
  valSet := valSet
  height := parentNumber + 1
  round := 0
  step := .newRound
  parent := parent
  proposal := none
  prevotes := VoteSet.new .prevote (parentNumber + 1) 0
  precommits := VoteSet.new .precommit (parentNumber + 1) 0
  lockedRound := -1
  lockedHash := 0
  committed := false
  lastCommit := none

theorem Engine.new_ok_iff {address : Address} {valSet : ValidatorSet} {parent : H} {n : U64}
    {e : Engine B H} : Engine.new address valSet parent n = .ok e ↔
      (valSet.get? address).isSome ∧ e = Engine.fresh address valSet parent n := by
  unfold Engine.new
  cases hget : valSet.get? address with
  | none => simp
  | some v =>
      simp only [Option.isNone_some, Bool.false_eq_true, if_false, Except.ok.injEq,
        Option.isSome_some, true_and]
      exact eq_comm

/-- A stored proposal that carries a block has its hash. -/
def Engine.Matching (e : Engine B H) : Prop :=
  ∀ p b, e.proposal = some p → p.block = some b → K.hash b = p.blockHash

/-- An engine, its open jobs, each validation with the parent it was started on, and the record of
what it has sent, committed and validated. A commit is recorded with the set that the engine held, a
validation that returned nil with its height, round and block. -/
structure Process (B H : Type) where
  engine : Engine B H
  building : List BuildJob
  validating : List (H × ValidateJob B)
  votes : List Vote
  proposals : List (Proposal B)
  commits : List (ValidatorSet × CommitEvent B)
  approved : List (U64 × U64 × B)

/-- What can happen at an engine; an open job is named by its place. -/
inductive Input (B : Type) where
  | startRound
  /-- The builder of `StartRound` returns. -/
  | built (i : ℕ) (block : Option B)
  | handleProposal (p : Proposal B)
  /-- The validator of `enterPrevoteLocked` returns. -/
  | validated (i : ℕ) (valid : Bool)
  | handleVote (v : Vote)
  | forceTimeoutRound
  | applySyncedBlock (block : B)
  | replaceValSet (vs : ValidatorSet)

/-- The block that a validation has approved. -/
def ValidateJob.approves (job : ValidateJob B) (valid : Bool) : List (U64 × U64 × B) :=
  if valid then ((job.proposal.bind Proposal.block).map fun b => (job.height, job.round, b)).toList
  else []

namespace Process

/-- A process around an engine, with nothing sent. -/
def start (e : Engine B H) : Process B H where
  engine := e
  building := []
  validating := []
  votes := []
  proposals := []
  commits := []
  approved := []

/-- `flush` -/
def send (P : Process B H) (box : Outbox B) : Process B H :=
  { P with
    votes := P.votes ++ box.votes
    proposals := P.proposals ++ box.proposals
    commits := P.commits ++ box.commit.toList.map (Prod.mk P.engine.valSet) }

def finish (P : Process B H) (o : Outcome B H) : Process B H :=
  { P.send o.box with engine := o.engine }

/-- What an input does, if it can happen. -/
def step (P : Process B H) : Input B → Option (Process B H)
  | .startRound =>
    let (e, job) := P.engine.startRoundBegin
    some { P with engine := e, building := P.building ++ job.toList }
  | .built i block =>
    match P.building[i]? with
    | none => none
    | some job =>
      let (e, validate, _) := P.engine.startRoundEnd K.hash job block
      some { P with
        engine := e
        building := P.building.eraseIdx i
        validating := P.validating ++ validate.toList.map (Prod.mk P.engine.parent) }
  | .handleProposal p =>
    let (e, validate, _) := P.engine.handleProposal K.hash p
    some { P with
      engine := e
      validating := P.validating ++ validate.toList.map (Prod.mk P.engine.parent) }
  | .validated i valid =>
    match P.validating[i]? with
    | none => none
    | some (_, job) =>
      some { P.finish (P.engine.enterPrevoteEnd K.header job valid) with
        validating := P.validating.eraseIdx i
        approved := P.approved ++ job.approves valid }
  | .handleVote v => some (P.finish (P.engine.handleVote K.header v))
  | .forceTimeoutRound => some { P with engine := P.engine.forceTimeoutRound }
  | .applySyncedBlock block =>
    match P.engine.applySynced K block with
    | .ok (_, e) => some { P with engine := e }
    | .error _ => some P
  | .replaceValSet vs => some { P with engine := P.engine.replaceValSet vs }

/-- The processes that a run reaches whose steps all meet a condition. -/
inductive Reached (C : Process B H → Input B → Process B H → Prop) (P₀ : Process B H) :
    Process B H → Prop
  | start : Reached C P₀ P₀
  | step {P P' : Process B H} {ev : Input B} : Reached C P₀ P → C P ev P' →
      P.step K ev = some P' → Reached C P₀ P'

/-- A run along a list of inputs, as long as the condition is met. -/
def runWhile (C : Process B H → Input B → Process B H → Prop) [∀ P ev P', Decidable (C P ev P')]
    (P : Process B H) : List (Input B) → Option (Process B H)
  | [] => some P
  | ev :: evs => (P.step K ev).bind fun P' => if C P ev P' then runWhile C P' evs else none

variable {K} {C : Process B H → Input B → Process B H → Prop} {P₀ P P' : Process B H}

theorem Reached.trans (h : Reached K C P₀ P) (h' : Reached K C P P') : Reached K C P₀ P' := by
  induction h' with
  | start => exact h
  | step _ hC hstep ih => exact ih.step hC hstep

theorem Reached.mono {C' : Process B H → Input B → Process B H → Prop} (h : Reached K C P₀ P)
    (himp : ∀ P ev P', C P ev P' → C' P ev P') : Reached K C' P₀ P := by
  induction h with
  | start => exact .start
  | step _ hC hstep ih => exact ih.step (himp _ _ _ hC) hstep

/-- A property that every step of a run keeps. -/
theorem Reached.invariant (h : Reached K C P₀ P) {I : Process B H → Prop} (h₀ : I P₀)
    (hstep : ∀ P ev P', I P → C P ev P' → P.step K ev = some P' → I P') : I P := by
  induction h with
  | start => exact h₀
  | step _ hC hs ih => exact hstep _ _ _ ih hC hs

theorem reached_of_runWhile [∀ P ev P', Decidable (C P ev P')] {evs : List (Input B)}
    (h : runWhile K C P evs = some P') : Reached K C P P' := by
  induction evs generalizing P with
  | nil =>
      cases h
      exact .start
  | cons ev evs ih =>
      obtain ⟨Q, hQ, hrun⟩ := Option.bind_eq_some_iff.mp h
      split at hrun
      · rename_i hC
        exact (Reached.start.step hC hQ).trans (ih hrun)
      · cases hrun

/-! ## Moves -/

/-- A move that leaves the height and the round as they are; a vote is recorded only if the input
delivers it. -/
inductive Quiet (K : Blocks B H) (ev : Input B) (P : Process B H) : Process B H → Prop
  | dropBuild (i : ℕ) : Quiet K ev P { P with building := P.building.eraseIdx i }
  | store (p : Proposal B) (hhash : ∀ b, p.block = some b → K.hash b = p.blockHash)
      (hheight : p.height = P.engine.height) (hround : p.round = P.engine.round) :
      Quiet K ev P { P with engine := { P.engine with proposal := some p } }
  | enterPrevote (ps : List (Proposal B)) (hps : ∀ p ∈ ps, P.engine.proposal = some p)
      (hstep : P.engine.step = .propose ∨ P.engine.step = .newRound) :
      Quiet K ev P { P with
        engine := { P.engine with step := .prevote }
        validating := P.validating ++ [(P.engine.parent, ⟨P.engine.height, P.engine.round,
          P.engine.proposal, P.engine.lockedRound, P.engine.lockedHash, ps⟩)] }
  | dropValidate (i : ℕ) (parent : H) (job : ValidateJob B) (valid : Bool)
      (hjob : P.validating[i]? = some (parent, job)) :
      Quiet K ev P { P with
        proposals := P.proposals ++ job.proposals
        validating := P.validating.eraseIdx i
        approved := P.approved ++ job.approves valid }
  | prevote (i : ℕ) (parent : H) (job : ValidateJob B) (valid : Bool)
      (hjob : P.validating[i]? = some (parent, job)) (hheight : P.engine.height = job.height)
      (hround : P.engine.round = job.round) (hstep : P.engine.step = .prevote) :
      Quiet K ev P { P with
        engine := (P.engine.addPrevote
          (P.engine.ownVote .prevote (Engine.prevoteHash job valid))).2
        votes := P.votes ++ [P.engine.ownVote .prevote (Engine.prevoteHash job valid)]
        proposals := P.proposals ++ job.proposals
        validating := P.validating.eraseIdx i
        approved := P.approved ++ job.approves valid }
  | recordPrevote (v : Vote) (hev : ev = .handleVote v)
      (hmember : (P.engine.valSet.get? v.validator).isSome) :
      Quiet K ev P { P with engine := (P.engine.addPrevote v).2 }
  | recordPrecommit (v : Vote) (hev : ev = .handleVote v)
      (hmember : (P.engine.valSet.get? v.validator).isSome) :
      Quiet K ev P { P with engine := (P.engine.addPrecommit v).2 }
  | precommit (maj : Hash) (hstep : P.engine.step = .prevote)
      (hmaj : P.engine.prevotes.majorityHash P.engine.valSet.totalPower = some maj) :
      Quiet K ev P { P with
        engine := ((P.engine.lock maj).addPrecommit (P.engine.ownVote .precommit maj)).2
        votes := P.votes ++ [P.engine.ownVote .precommit maj] }

/-- A move to another height or round. -/
inductive Final (K : Blocks B H) (P : Process B H) : Process B H → Prop
  | nextRound : Final K P { P with engine := P.engine.enterNextRound }
  | commit (p : Proposal B) (hstep : P.engine.step = .precommit)
      (hmaj : P.engine.precommits.majorityHash P.engine.valSet.totalPower = some p.blockHash)
      (hne : p.blockHash ≠ 0) (hp : P.engine.proposal = some p) :
      Final K P { P with
        engine := P.engine.advance K.header p (P.engine.commitEvent p p.blockHash)
        commits := P.commits ++ [(P.engine.valSet, P.engine.commitEvent p p.blockHash)] }
  | sync (b : B) (hnumber : P.engine.height = K.number (K.header b))
      (hparent : K.parentHash (K.header b) = K.headerHash P.engine.parent) :
      Final K P { P with
        engine := { ({ P.engine with
            parent := K.header b
            height := P.engine.height + 1
            round := 0
            lockedRound := -1
            lockedHash := 0 } : Engine B H).resetVotes with
          step := .newRound
          lastCommit := some ⟨P.engine.height, 0, K.hash b, some b, []⟩ } }

/-- Quiet moves, and at most one that ends the round. -/
def Ends (K : Blocks B H) (ev : Input B) (P R : Process B H) : Prop :=
  ∃ Q, Relation.ReflTransGen (Quiet K ev) P Q ∧ (R = Q ∨ Final K Q R)

/-- What a step does: it begins the round, replaces the set, or consists of moves. -/
inductive Effect (K : Blocks B H) (P : Process B H) : Input B → Process B H → Prop
  | begin (jobs : List BuildJob) (hstep : P.engine.step = .newRound)
      (hjobs : ∀ job ∈ jobs, job = ⟨P.engine.height, P.engine.round⟩) :
      Effect K P .startRound { P with
        engine := { P.engine.resetVotes with step := .propose }
        building := P.building ++ jobs }
  | replace (vs : ValidatorSet) :
      Effect K P (.replaceValSet vs) { P with engine := P.engine.replaceValSet vs }
  | moves (ev : Input B) (R : Process B H) (h : Ends K ev P R) : Effect K P ev R

/-! ## Every step is a row of moves -/

variable {ev : Input B} {Q R : Process B H}

theorem Ends.refl (P : Process B H) : Ends K ev P P :=
  ⟨P, .refl, .inl rfl⟩

theorem Ends.of_final (h : Final K P R) : Ends K ev P R :=
  ⟨P, .refl, .inr h⟩

theorem Ends.head (h : Quiet K ev P Q) (hR : Ends K ev Q R) : Ends K ev P R := by
  obtain ⟨S, hS, hlast⟩ := hR
  exact ⟨S, .head h hS, hlast⟩

@[simp] theorem send_engine (P : Process B H) (box : Outbox B) : (P.send box).engine = P.engine :=
  rfl

theorem send_empty (P : Process B H) : P.send .empty = P := by
  simp [send, Outbox.empty]

/-- After an outcome without a commit the engine has sent its box. -/
theorem finish_same (P : Process B H) (box : Outbox B) (err : Option ConsensusError) :
    P.finish ⟨P.engine, box, err⟩ = P.send box :=
  rfl

theorem ends_tryAfterPrecommit (P : Process B H) {box : Outbox B} (hbox : box.commit = none) :
    Ends K ev (P.send box) (P.finish (P.engine.tryAfterPrecommit K.header box)) := by
  unfold Engine.tryAfterPrecommit
  split
  · exact .refl _
  rename_i hstep
  have hstep : P.engine.step = .precommit := not_not.mp hstep
  split
  · exact .refl _
  rename_i maj hmaj
  -- a quorum for nil ends the round
  split
  · exact .of_final .nextRound
  rename_i hne
  -- any other quorum is a commit only of the stored proposal
  unfold Engine.enterCommit
  split
  · exact .refl _
  split
  · exact .refl _
  rename_i p hp
  split
  · exact .refl _
  rename_i hhash
  have hhash : p.blockHash = maj := not_not.mp hhash
  subst hhash
  have hcommit := Final.commit (K := K) (P := P.send box) p hstep hmaj hne hp
  refine .of_final ?_
  simpa [finish, send, hbox] using hcommit

theorem ends_tryAfterPrevote (P : Process B H) {box : Outbox B} (hbox : box.commit = none) :
    Ends K ev (P.send box) (P.finish (P.engine.tryAfterPrevote K.header box)) := by
  unfold Engine.tryAfterPrevote
  split
  · exact .refl _
  rename_i hstep
  have hstep : P.engine.step = .prevote := not_not.mp hstep
  split
  · exact .refl _
  rename_i maj hmaj
  -- the precommit is sent before the check whether it completes a quorum
  let v := P.engine.ownVote .precommit maj
  let Q : Process B H := { P with engine := ((P.engine.lock maj).addPrecommit v).2 }
  let box' : Outbox B := { box with votes := box.votes ++ [v] }
  have hvote : (P.engine.lock maj).ownVote .precommit maj = v := by
    unfold Engine.lock
    split <;> rfl
  have hvalSet : Q.engine.valSet = P.engine.valSet := by
    show ((P.engine.lock maj).addPrecommit v).2.valSet = _
    unfold Engine.lock
    split <;> rfl
  have hquiet : Quiet K ev (P.send box) (Q.send box') := by
    have h : Quiet K ev (P.send box) _ := Quiet.precommit maj hstep hmaj
    simpa [send, Q, box', v, hbox] using h
  have hout : P.engine.enterPrecommit K.header maj box = Q.engine.tryAfterPrecommit K.header box' := by
    simp only [Engine.enterPrecommit, hvote, Q, box']
  have hfinish : ∀ o : Outcome B H, Q.finish o = P.finish o := by
    intro o
    simp only [finish, send, hvalSet]
    rfl
  rw [hout, ← hfinish]
  exact .head hquiet (ends_tryAfterPrecommit Q hbox)

/-- A vote that is only recorded. -/
theorem Ends.recorded {e : Engine B H} (h : Quiet K ev P { P with engine := e })
    (err : Option ConsensusError) : Ends K ev P (P.finish ⟨e, .empty, err⟩) := by
  refine .head h ?_
  have hsame : P.finish ⟨e, .empty, err⟩ = { P with engine := e } := by
    simp [finish, send, Outbox.empty]
  rw [hsame]
  exact .refl _

/-- A vote that is recorded and followed by a check, which sees the set the process had before. -/
theorem Ends.checked {e : Engine B H} {o : Outcome B H} (h : Quiet K ev P { P with engine := e })
    (hvalSet : e.valSet = P.engine.valSet)
    (hcheck : Ends K ev (Process.send { P with engine := e } .empty)
      (Process.finish { P with engine := e } o)) : Ends K ev P (P.finish o) := by
  rw [send_empty] at hcheck
  refine .head h ?_
  simpa only [finish, send, hvalSet] using hcheck

theorem ends_handleVote (P : Process B H) (v : Vote) :
    Ends K (.handleVote v) P (P.finish (P.engine.handleVote K.header v)) := by
  have hsame : ∀ err, Ends K (.handleVote v) P (P.finish ⟨P.engine, .empty, err⟩) := by
    intro err
    rw [finish_same, send_empty]
    exact .refl _
  unfold Engine.handleVote
  split
  · exact hsame _
  split
  · exact hsame _
  rename_i hmember
  have hmember : (P.engine.valSet.get? v.validator).isSome := by
    simpa [Option.isSome_iff_ne_none] using hmember
  split
  · exact hsame _
  split
  · -- a new prevote is followed by the check for a polka
    have hquiet : Quiet K (.handleVote v) P { P with engine := (P.engine.addPrevote v).2 } :=
      .recordPrevote v rfl hmember
    split
    · rename_i e heq
      rw [show (P.engine.addPrevote v).2 = e by rw [heq]] at hquiet
      exact .recorded hquiet none
    · rename_i e heq
      have he : (P.engine.addPrevote v).2 = e := by rw [heq]
      have hvalSet : e.valSet = P.engine.valSet := by rw [← he, Engine.addPrevote_snd]
      rw [he] at hquiet
      exact .checked hquiet hvalSet (ends_tryAfterPrevote { P with engine := e } rfl)
  · -- a new precommit is followed by the check for a decision
    have hquiet : Quiet K (.handleVote v) P { P with engine := (P.engine.addPrecommit v).2 } :=
      .recordPrecommit v rfl hmember
    split
    · rename_i e heq
      rw [show (P.engine.addPrecommit v).2 = e by rw [heq]] at hquiet
      exact .recorded hquiet none
    · rename_i e heq
      have he : (P.engine.addPrecommit v).2 = e := by rw [heq]
      have hvalSet : e.valSet = P.engine.valSet := by rw [← he, Engine.addPrecommit_snd]
      rw [he] at hquiet
      exact .checked hquiet hvalSet (ends_tryAfterPrecommit { P with engine := e } rfl)

theorem ends_validated (P : Process B H) {i : ℕ} {parent : H} {job : ValidateJob B}
    (hjob : P.validating[i]? = some (parent, job)) (valid : Bool) :
    Ends K ev P { P.finish (P.engine.enterPrevoteEnd K.header job valid) with
      validating := P.validating.eraseIdx i
      approved := P.approved ++ job.approves valid } := by
  unfold Engine.enterPrevoteEnd
  dsimp only
  split
  · have hquiet : Quiet K ev P _ := .dropValidate i parent job valid hjob
    refine .head hquiet ?_
    refine ⟨_, .refl, .inl ?_⟩
    simp [finish, send]
  rename_i hslot
  push Not at hslot
  obtain ⟨hheight, hround, hstep⟩ := hslot
  have hquiet : Quiet K ev P _ := .prevote i parent job valid hjob hheight hround hstep
  refine .head hquiet ?_
  let v := P.engine.ownVote .prevote (Engine.prevoteHash job valid)
  let Q : Process B H := { P with
    engine := (P.engine.addPrevote v).2
    validating := P.validating.eraseIdx i
    approved := P.approved ++ job.approves valid }
  let box : Outbox B := ⟨job.proposals, [v], none⟩
  have h : Ends K ev (Q.send box) _ := ends_tryAfterPrevote Q rfl
  simpa [finish, send, Q, box, v, Engine.addPrevote_snd] using h

/-- Entering the prevote step with a proposal that has just been stored. -/
theorem ends_enterPrevoteBegin (P : Process B H) {p : Proposal B} {ps : List (Proposal B)}
    (hhash : ∀ b, p.block = some b → K.hash b = p.blockHash) (hheight : p.height = P.engine.height)
    (hround : p.round = P.engine.round) (hps : ∀ q ∈ ps, q = p) :
    Ends K ev P { P with
      engine := (({ P.engine with proposal := some p } : Engine B H).enterPrevoteBegin ps).1
      validating := P.validating ++
        (({ P.engine with proposal := some p } : Engine B H).enterPrevoteBegin ps).2.toList.map
          (Prod.mk P.engine.parent) } := by
  have hstore : Quiet K ev P _ := .store p hhash hheight hround
  refine .head hstore ?_
  unfold Engine.enterPrevoteBegin
  split
  · refine ⟨_, .refl, .inl ?_⟩
    simp
  rename_i hstep
  have hlow : P.engine.step = .propose ∨ P.engine.step = .newRound := by
    by_contra h
    exact hstep (not_or.mp h)
  have henter : Quiet K ev { P with engine := { P.engine with proposal := some p } } _ :=
    .enterPrevote ps (fun q hq => by rw [hps q hq]) hlow
  exact .head henter (.refl _)

theorem ends_startRoundEnd (P : Process B H) (i : ℕ) (job : BuildJob) (block : Option B) :
    Ends K ev P { P with
      engine := (P.engine.startRoundEnd K.hash job block).1
      building := P.building.eraseIdx i
      validating := P.validating ++ (P.engine.startRoundEnd K.hash job block).2.1.toList.map
        (Prod.mk P.engine.parent) } := by
  have hdrop : Quiet K ev P _ := .dropBuild i
  refine .head hdrop ?_
  unfold Engine.startRoundEnd
  split
  · refine ⟨_, .refl, .inl ?_⟩
    simp
  rename_i hslot
  push Not at hslot
  split
  · refine ⟨_, .refl, .inl ?_⟩
    simp
  rename_i b
  exact ends_enterPrevoteBegin { P with building := P.building.eraseIdx i }
    (fun b' hb' => by cases hb'; rfl) hslot.1.symm hslot.2.1.symm (by simp)

theorem ends_handleProposal (P : Process B H) (p : Proposal B) :
    Ends K ev P { P with
      engine := (P.engine.handleProposal K.hash p).1
      validating := P.validating ++ (P.engine.handleProposal K.hash p).2.1.toList.map
        (Prod.mk P.engine.parent) } := by
  have hsame : Ends K ev P { P with validating := P.validating ++ [] } := by
    rw [List.append_nil]
    exact .refl P
  unfold Engine.handleProposal
  split
  · exact hsame
  rename_i hhash
  split
  · exact hsame
  rename_i hslot
  push Not at hslot
  split
  · exact hsame
  split
  · exact hsame
  refine ends_enterPrevoteBegin P ?_ hslot.1 hslot.2 (by simp)
  intro b hb
  by_contra hne
  exact hhash (by simp [hb, hne])

theorem ends_applySynced (P : Process B H) {block : B} {moved : Bool} {e : Engine B H}
    (h : P.engine.applySynced K block = .ok (moved, e)) : Ends K ev P { P with engine := e } := by
  unfold Engine.applySynced at h
  dsimp only at h
  split at h
  · cases h
    exact .refl P
  split at h
  · cases h
  rename_i hnumber
  have hnumber : P.engine.height = K.number (K.header block) := not_not.mp hnumber
  split at h
  · cases h
  rename_i hparent
  cases h
  have hfinal : Final K P _ := .sync block hnumber (not_not.mp hparent)
  rw [← hnumber]
  exact .of_final hfinal

theorem effect_startRound (P : Process B H) :
    Effect K P .startRound { P with
      engine := P.engine.startRoundBegin.1
      building := P.building ++ P.engine.startRoundBegin.2.toList } := by
  unfold Engine.startRoundBegin
  by_cases hstep : P.engine.step = .newRound
  · rw [if_neg (not_not.mpr hstep)]
    refine .begin _ hstep ?_
    intro job hjob
    split at hjob <;> simp_all
  · rw [if_pos hstep, Option.toList_none, List.append_nil]
    exact .moves _ _ (.refl P)

/-- What a step does. -/
theorem step_effect (h : P.step K ev = some P') : Effect K P ev P' := by
  cases ev with
  | startRound =>
      cases h
      exact effect_startRound P
  | built i block =>
      simp only [step] at h
      split at h
      · cases h
      · cases h
        exact .moves _ _ (ends_startRoundEnd P i _ block)
  | handleProposal p =>
      cases h
      exact .moves _ _ (ends_handleProposal P p)
  | validated i valid =>
      simp only [step] at h
      split at h
      · cases h
      rename_i parent job hjob
      cases h
      exact .moves _ _ (ends_validated P hjob valid)
  | handleVote v =>
      cases h
      exact .moves _ _ (ends_handleVote P v)
  | forceTimeoutRound =>
      cases h
      exact .moves _ _ (.of_final .nextRound)
  | applySyncedBlock block =>
      simp only [step] at h
      split at h
      · rename_i moved e hsync
        cases h
        exact .moves _ _ (ends_applySynced P hsync)
      · cases h
        exact .moves _ _ (.refl P)
  | replaceValSet vs =>
      cases h
      exact .replace vs

/-! ## Invariants from the moves -/

theorem Quiet.height (h : Quiet K ev P P') : P'.engine.height = P.engine.height := by
  cases h <;> first | rfl | simp only [Engine.lock_eq, Engine.addPrecommit_snd]

theorem Quiet.round (h : Quiet K ev P P') : P'.engine.round = P.engine.round := by
  cases h <;> first | rfl | simp only [Engine.lock_eq, Engine.addPrecommit_snd]

theorem Quiet.address (h : Quiet K ev P P') : P'.engine.address = P.engine.address := by
  cases h <;> first | rfl | simp only [Engine.lock_eq, Engine.addPrecommit_snd]

theorem Final.moved (h : Final K P P') :
    P'.engine.height ≠ P.engine.height ∨ P'.engine.round ≠ P.engine.round := by
  have hsucc : ∀ x : U64, x + 1 ≠ x := by
    intro x hx
    simp at hx
  cases h with
  | nextRound => exact .inr (hsucc P.engine.round)
  | commit => exact .inl (hsucc P.engine.height)
  | sync => exact .inl (hsucc P.engine.height)

theorem Final.address (h : Final K P P') : P'.engine.address = P.engine.address := by
  cases h <;> rfl

/-- A row of quiet moves keeps what each of them keeps. -/
theorem keeps_quiet {I : Process B H → Prop} (hI : ∀ P P', I P → Quiet K ev P P' → I P') (h : I P)
    (hq : Relation.ReflTransGen (Quiet K ev) P Q) : I Q := by
  induction hq with
  | refl => exact h
  | tail _ hlast ih => exact hI _ _ ih hlast

theorem quiet_slot (hq : Relation.ReflTransGen (Quiet K ev) P Q) :
    Q.engine.height = P.engine.height ∧ Q.engine.round = P.engine.round :=
  keeps_quiet (I := fun R => R.engine.height = P.engine.height ∧ R.engine.round = P.engine.round)
    (fun _ _ hR hm => ⟨hm.height.trans hR.1, hm.round.trans hR.2⟩) ⟨rfl, rfl⟩ hq

/-- A property that the moves of a step keep. The last one starts from the height and the round of
the step. -/
theorem keeps_step {I : Process B H → Prop}
    (hbegin : ∀ jobs, ev = .startRound → P.engine.step = .newRound →
      (∀ job ∈ jobs, job = ⟨P.engine.height, P.engine.round⟩) →
      I { P with engine := { P.engine.resetVotes with step := .propose },
                 building := P.building ++ jobs })
    (hreplace : ∀ vs, ev = .replaceValSet vs → I { P with engine := P.engine.replaceValSet vs })
    (hquiet : ∀ Q Q', I Q → Quiet K ev Q Q' → I Q')
    (hfinal : ∀ Q, Q.engine.height = P.engine.height → Q.engine.round = P.engine.round → I Q →
      Final K Q P' → I P')
    (h : I P) (hstep : P.step K ev = some P') : I P' := by
  cases step_effect hstep with
  | begin jobs hnew hjobs => exact hbegin jobs rfl hnew hjobs
  | replace vs => exact hreplace vs rfl
  | moves _ _ hends =>
      obtain ⟨Q, hQ, hlast⟩ := hends
      have hIQ : I Q := keeps_quiet hquiet h hQ
      rcases hlast with rfl | hlast
      · exact hIQ
      · exact hfinal Q (quiet_slot hQ).1 (quiet_slot hQ).2 hIQ hlast

theorem Matching.quiet (h : P.engine.Matching K) (hq : Quiet K ev P P') : P'.engine.Matching K := by
  cases hq with
  | store p hhash hheight hround =>
      rintro _ b ⟨⟩ hb
      exact hhash b hb
  | precommit maj hstep hmaj =>
      unfold Engine.Matching
      simp only [Engine.lock_eq, Engine.addPrecommit_snd]
      exact h
  | _ => exact h

theorem Matching.step (h : P.engine.Matching K) (hstep : P.step K ev = some P') :
    P'.engine.Matching K := by
  refine keeps_step (I := fun Q => Q.engine.Matching K) ?_ ?_ (fun _ _ hQ hm => Matching.quiet hQ hm)
    ?_ h hstep
  · rintro jobs _ _ _ p b ⟨⟩
  · intro vs _
    exact h
  · intro Q _ _ _ hm
    cases hm <;> rintro p b ⟨⟩

end Process

end

end Dew.Consensus
