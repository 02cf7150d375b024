/-
# The consensus engine

One validator's state machine: the validator set with its quorum rule and proposer rotation, the
vote sets of a round, and the engine with every transition of the source. Blocks and headers are
arbitrary types; building and validating a block are outside the engine, so their results are
arguments.

The engine gives up its lock while a block is built and while a proposal is validated. The methods
are therefore cut at these points: `startRoundBegin` and `startRoundEnd`, and `enterPrevoteBegin`
and `enterPrevoteEnd`; what the source keeps in local variables across the gap is a `BuildJob` or a
`ValidateJob`.
-/
import Dew.DewTx

namespace Dew.Consensus

/-! ## Validators -/

structure Validator where
  address : Address
  power : U64
deriving DecidableEq, Repr

inductive ValidatorSetError where
  | empty
  | zeroPower (addr : Address)
  | duplicate (addr : Address)
  | powerOverflow
deriving DecidableEq, Repr

def ValidatorSetError.text : ValidatorSetError → String
  | empty => "consensus: empty validator set"
  | zeroPower addr => "consensus: validator " ++ addr.hex ++ " has zero power"
  | duplicate addr => "consensus: duplicate validator " ++ addr.hex
  | powerOverflow => "consensus: voting power overflow"

/-- The active validators in the order of their addresses, with the sum of their powers. -/
structure ValidatorSet where
  validators : List Validator
  totalPower : U64
  nonempty : validators ≠ []
  nodup : (validators.map Validator.address).Nodup
  positive : ∀ v ∈ validators, v.power ≠ 0
  total_eq : (validators.map fun v => v.power.toNat).sum = totalPower.toNat

/-- The loop of `NewValidatorSet`: the total power, if every validator passes. -/
def scan : List Validator → List Address → U64 → Except ValidatorSetError U64
  | [], _, total => .ok total
  | v :: vs, seen, total =>
    if v.power = 0 then .error (.zeroPower v.address)
    else if v.address ∈ seen then .error (.duplicate v.address)
    else if total + v.power < total then .error .powerOverflow
    else scan vs (v.address :: seen) (total + v.power)

theorem scan_ok {vs : List Validator} {seen : List Address} {total t : U64}
    (h : scan vs seen total = .ok t) :
    (vs.map Validator.address).Nodup ∧ (∀ v ∈ vs, v.address ∉ seen) ∧
      (∀ v ∈ vs, v.power ≠ 0) ∧
      total.toNat + (vs.map fun v => v.power.toNat).sum = t.toNat := by
  induction vs generalizing seen total with
  | nil =>
      cases h
      simp
  | cons v vs ih =>
      simp only [scan] at h
      split at h
      · cases h
      rename_i hpower
      split at h
      · cases h
      rename_i hseen
      split at h
      · cases h
      rename_i hover
      obtain ⟨hnodup, hfresh, hpos, hsum⟩ := ih h
      refine ⟨?_, ?_, ?_, ?_⟩
      · rw [List.map_cons, List.nodup_cons]
        refine ⟨fun hmem => ?_, hnodup⟩
        obtain ⟨u, hu, hua⟩ := List.mem_map.mp hmem
        exact hfresh u hu (hua ▸ List.mem_cons_self)
      · intro u hu
        rcases List.mem_cons.mp hu with rfl | hu
        · exact hseen
        · exact fun hmem => hfresh u hu (List.mem_cons_of_mem _ hmem)
      · intro u hu
        rcases List.mem_cons.mp hu with rfl | hu
        · exact hpower
        · exact hpos u hu
      · have hfits : (total + v.power).toNat = total.toNat + v.power.toNat := by
          have hle : total.toNat ≤ (total + v.power).toNat := BitVec.not_lt.mp hover
          rw [BitVec.toNat_add] at hle ⊢
          have := total.isLt
          have := v.power.isLt
          omega
        rw [List.map_cons, List.sum_cons]
        omega

/-- `NewValidatorSet` -/
def newValidatorSet (vals : List Validator) : Except ValidatorSetError ValidatorSet :=
  let cp := vals.mergeSort fun a b => decide (a.address ≤ b.address)
  if hempty : cp = [] then .error .empty
  else
    match hscan : scan cp [] 0 with
    | .error e => .error e
    | .ok total =>
      .ok {
        validators := cp
        totalPower := total
        nonempty := hempty
        nodup := (scan_ok hscan).1
        positive := (scan_ok hscan).2.2.1
        total_eq := by simpa using (scan_ok hscan).2.2.2 }

namespace ValidatorSet

def get? (vs : ValidatorSet) (addr : Address) : Option Validator :=
  vs.validators.find? fun v => v.address == addr

/-- `PowerOf`: zero for strangers. -/
def powerOf (vs : ValidatorSet) (addr : Address) : U64 :=
  ((vs.get? addr).map Validator.power).getD 0

/-- The first validator whose cumulative power exceeds the slot, else the last one. -/
def proposerAt (slot : U64) : U64 → List Validator → Address → Address
  | _, [], last => last
  | acc, v :: vs, _ =>
    if slot < acc + v.power then v.address else proposerAt slot (acc + v.power) vs v.address

/-- `Proposer`: stake-weighted round-robin over height and round. -/
def proposer (vs : ValidatorSet) (height round : U64) : Address :=
  proposerAt ((height + round) % vs.totalPower) 0 vs.validators 0

end ValidatorSet

/-- `HasQuorum`: strictly more than two thirds, in 64-bit arithmetic. -/
def hasQuorum (votePower totalPower : U64) : Bool :=
  if totalPower = 0 then false else decide (totalPower * 2 < votePower * 3)

/-! ## Messages -/

inductive VoteType where
  | prevote
  | precommit
deriving DecidableEq, Repr

/-- A vote, without its signature; the zero hash is a vote for nil. -/
structure Vote where
  type : VoteType
  height : U64
  round : U64
  blockHash : Hash
  validator : Address
deriving DecidableEq, Repr

/-- A proposal, without its signature; the block may be missing. -/
structure Proposal (B : Type) where
  height : U64
  round : U64
  blockHash : Hash
  block : Option B
  proposer : Address
deriving DecidableEq, Repr

structure CommitEvent (B : Type) where
  height : U64
  round : U64
  blockHash : Hash
  block : Option B
  precommits : List Vote
deriving DecidableEq, Repr

/-! ## Vote sets -/

/-- `voteSet`: the votes of one height, round and type, and the power behind each hash. -/
structure VoteSet where
  type : VoteType
  height : U64
  round : U64
  byAddr : GoMap Address Vote
  power : GoMap Hash U64

namespace VoteSet

def new (type : VoteType) (height round : U64) : VoteSet where
  type := type
  height := height
  round := round
  byAddr := ∅
  power := ∅

def powerFor (vs : VoteSet) (hash : Hash) : U64 :=
  (vs.power.get? hash).getD 0

/-- `add`: whether the vote is new in its slot, and the set with it. -/
def add (vs : VoteSet) (v : Vote) (power : U64) : Bool × VoteSet :=
  if v.type ≠ vs.type ∨ v.height ≠ vs.height ∨ v.round ≠ vs.round then (false, vs)
  else if (vs.byAddr.get? v.validator).isSome then (false, vs)
  else
    (true, { vs with
      byAddr := vs.byAddr.set v.validator v
      power := vs.power.set v.blockHash (vs.powerFor v.blockHash + power) })

/-- `majorityHash`: a hash with a quorum. The order of iteration is that of the map here; at most
one hash has a quorum (`VoteSet.Counts.majority_unique`). -/
def majorityHash (vs : VoteSet) (totalPower : U64) : Option Hash :=
  vs.power.keys.find? fun h => hasQuorum (vs.powerFor h) totalPower

def votesFor (vs : VoteSet) (hash : Hash) : List Vote :=
  (vs.byAddr.entries.map Sigma.snd).filter fun v => v.blockHash == hash

end VoteSet

/-! ## The engine -/

inductive Step where
  | newRound
  | propose
  | prevote
  | precommit
  | commit
deriving DecidableEq, Repr

inductive ConsensusError where
  | notInValidatorSet (addr : Address)
  | nilProposalBlock
  | proposalHashMismatch
  | nonProposer (got want : Address)
  | nonValidator (addr : Address)
  | commitWithoutProposal (hash : Hash)
deriving DecidableEq, Repr

def ConsensusError.text : ConsensusError → String
  | notInValidatorSet addr => "consensus: local address " ++ addr.hex ++ " not in validator set"
  | nilProposalBlock => "consensus: nil proposal block"
  | proposalHashMismatch => "consensus: proposal block hash mismatch"
  | nonProposer got want => "consensus: proposal from non-proposer " ++ got.hex ++ " want " ++ want.hex
  | nonValidator addr => "consensus: vote from non-validator " ++ addr.hex
  | commitWithoutProposal hash =>
    "consensus: commit hash 0x" ++ String.ofList ((hexDigits hash.bytes).map hexDigit) ++
      " without matching proposal"

/-- `Engine`, without its key, builder, validator and broadcaster. -/
structure Engine (B H : Type) where
  address : Address
  valSet : ValidatorSet
  height : U64
  round : U64
  step : Step
  parent : H
  proposal : Option (Proposal B)
  prevotes : VoteSet
  precommits : VoteSet
  lockedRound : ℤ
  lockedHash : Hash
  committed : Bool
  lastCommit : Option (CommitEvent B)

/-- What is sent once the engine's lock is released. -/
structure Outbox (B : Type) where
  proposals : List (Proposal B)
  votes : List Vote
  commit : Option (CommitEvent B)

def Outbox.empty {B : Type} : Outbox B where
  proposals := []
  votes := []
  commit := none

/-- The engine after a critical section, what it sends, and the error it returns. -/
structure Outcome (B H : Type) where
  engine : Engine B H
  box : Outbox B
  err : Option ConsensusError

/-- What `StartRound` keeps while the block is built. -/
structure BuildJob where
  height : U64
  round : U64
deriving DecidableEq, Repr

/-- What `enterPrevoteLocked` keeps while the proposal is validated, with the proposals waiting in
the outbox. -/
structure ValidateJob (B : Type) where
  height : U64
  round : U64
  proposal : Option (Proposal B)
  lockedRound : ℤ
  lockedHash : Hash
  proposals : List (Proposal B)
deriving DecidableEq, Repr

namespace Engine

variable {B H : Type}

def resetVotes (e : Engine B H) : Engine B H :=
  { e with
    prevotes := VoteSet.new .prevote e.height e.round
    precommits := VoteSet.new .precommit e.height e.round
    proposal := none
    committed := false }

/-- `NewEngine`, at the height after its parent. -/
def new (address : Address) (valSet : ValidatorSet) (parent : H) (parentNumber : U64) :
    Except ConsensusError (Engine B H) :=
  if (valSet.get? address).isNone then .error (.notInValidatorSet address)
  else
    .ok {
      address := address
      valSet := valSet
      height := parentNumber + 1
      round := 0
      step := .newRound
      parent := parent
      proposal := none
      prevotes := VoteSet.new .prevote (parentNumber + 1) 0
      precommits := VoteSet.new .precommit (parentNumber + 1) 0
      lockedRound := -1
      lockedHash := 0
      committed := false
      lastCommit := none }

/-- `enterNextRoundLocked`: the lock does not outlive the round. -/
def enterNextRound (e : Engine B H) : Engine B H :=
  { ({ e with round := e.round + 1, lockedRound := -1, lockedHash := 0 } : Engine B H).resetVotes with
    step := .newRound }

/-- `ForceTimeoutRound` -/
def forceTimeoutRound (e : Engine B H) : Engine B H :=
  e.enterNextRound

/-- The commit event of the current height. -/
def commitEvent (e : Engine B H) (p : Proposal B) (blockHash : Hash) : CommitEvent B where
  height := e.height
  round := e.round
  blockHash := blockHash
  block := p.block
  precommits := e.precommits.votesFor blockHash

/-- The engine after a commit: the next height, with nothing carried over. -/
def advance (header : B → H) (e : Engine B H) (p : Proposal B) (ev : CommitEvent B) :
    Engine B H :=
  { ({ e with
      lastCommit := some ev
      parent := (p.block.map header).getD e.parent
      height := e.height + 1
      round := 0
      lockedRound := -1
      lockedHash := 0 } : Engine B H).resetVotes with
    step := .newRound }

def enterCommit (header : B → H) (e : Engine B H) (blockHash : Hash) (box : Outbox B) :
    Outcome B H :=
  if e.committed then ⟨e, box, none⟩
  else
    match e.proposal with
    | none => ⟨e, box, some (.commitWithoutProposal blockHash)⟩
    | some p =>
      if p.blockHash ≠ blockHash then ⟨e, box, some (.commitWithoutProposal blockHash)⟩
      else
        let ev := e.commitEvent p blockHash
        ⟨e.advance header p ev, { box with commit := some ev }, none⟩

def tryAfterPrecommit (header : B → H) (e : Engine B H) (box : Outbox B) : Outcome B H :=
  if e.step ≠ .precommit then ⟨e, box, none⟩
  else
    match e.precommits.majorityHash e.valSet.totalPower with
    | none => ⟨e, box, none⟩
    | some maj =>
      if maj = 0 then ⟨e.enterNextRound, box, none⟩ else e.enterCommit header maj box

/-- The vote of this engine in its current round. -/
def ownVote (e : Engine B H) (type : VoteType) (hash : Hash) : Vote where
  type := type
  height := e.height
  round := e.round
  blockHash := hash
  validator := e.address

def addPrevote (e : Engine B H) (v : Vote) : Bool × Engine B H :=
  let (new, vs) := e.prevotes.add v (e.valSet.powerOf v.validator)
  (new, { e with prevotes := vs })

def addPrecommit (e : Engine B H) (v : Vote) : Bool × Engine B H :=
  let (new, vs) := e.precommits.add v (e.valSet.powerOf v.validator)
  (new, { e with precommits := vs })

/-- The step to precommit, with the lock on the polka if it is for a block. -/
def lock (e : Engine B H) (polkaHash : Hash) : Engine B H :=
  if polkaHash = 0 then { e with step := .precommit }
  else { e with step := .precommit, lockedRound := e.round.toInt, lockedHash := polkaHash }

def enterPrecommit (header : B → H) (e : Engine B H) (polkaHash : Hash) (box : Outbox B) :
    Outcome B H :=
  let e := e.lock polkaHash
  let v := e.ownVote .precommit polkaHash
  (e.addPrecommit v).2.tryAfterPrecommit header { box with votes := box.votes ++ [v] }

def tryAfterPrevote (header : B → H) (e : Engine B H) (box : Outbox B) : Outcome B H :=
  if e.step ≠ .prevote then ⟨e, box, none⟩
  else
    match e.prevotes.majorityHash e.valSet.totalPower with
    | none => ⟨e, box, none⟩
    | some maj => e.enterPrecommit header maj box

/-- `handleVoteLocked`, for a vote whose signature verifies. -/
def handleVote (header : B → H) (e : Engine B H) (v : Vote) : Outcome B H :=
  if v.height ≠ e.height then ⟨e, .empty, none⟩
  else if (e.valSet.get? v.validator).isNone then ⟨e, .empty, some (.nonValidator v.validator)⟩
  else if v.round ≠ e.round then ⟨e, .empty, none⟩
  else
    match v.type with
    | .prevote =>
      match e.addPrevote v with
      | (false, e) => ⟨e, .empty, none⟩
      | (true, e) => e.tryAfterPrevote header .empty
    | .precommit =>
      match e.addPrecommit v with
      | (false, e) => ⟨e, .empty, none⟩
      | (true, e) => e.tryAfterPrecommit header .empty

/-- The part of `enterPrevoteLocked` before the validation. -/
def enterPrevoteBegin (e : Engine B H) (proposals : List (Proposal B)) :
    Engine B H × Option (ValidateJob B) :=
  if e.step ≠ .propose ∧ e.step ≠ .newRound then (e, none)
  else
    ({ e with step := .prevote },
      some ⟨e.height, e.round, e.proposal, e.lockedRound, e.lockedHash, proposals⟩)

/-- The hash prevoted: that of a valid proposal, unless another one is locked. -/
def prevoteHash (job : ValidateJob B) (valid : Bool) : Hash :=
  if 0 ≤ job.lockedRound ∧ job.lockedHash ≠ 0 then job.lockedHash
  else
    match job.proposal with
    | some p => if p.block.isSome && valid then p.blockHash else 0
    | none => 0

/-- The part of `enterPrevoteLocked` after the validation. -/
def enterPrevoteEnd (header : B → H) (e : Engine B H) (job : ValidateJob B) (valid : Bool) :
    Outcome B H :=
  let box : Outbox B := ⟨job.proposals, [], none⟩
  if e.height ≠ job.height ∨ e.round ≠ job.round ∨ e.step ≠ .prevote then ⟨e, box, none⟩
  else
    let v := e.ownVote .prevote (prevoteHash job valid)
    (e.addPrevote v).2.tryAfterPrevote header { box with votes := [v] }

/-- `StartRound` up to the building of a block; only the proposer of the round goes on. -/
def startRoundBegin (e : Engine B H) : Engine B H × Option BuildJob :=
  if e.step ≠ .newRound then (e, none)
  else
    ({ e.resetVotes with step := .propose },
      if e.valSet.proposer e.height e.round = e.address then some ⟨e.height, e.round⟩ else none)

/-- `StartRound` after the building of a block, up to its validation. -/
def startRoundEnd (hash : B → Hash) (e : Engine B H) (job : BuildJob) (block : Option B) :
    Engine B H × Option (ValidateJob B) × Option ConsensusError :=
  if e.height ≠ job.height ∨ e.round ≠ job.round ∨ e.step ≠ .propose then (e, none, none)
  else
    match block with
    | none => (e, none, some .nilProposalBlock)
    | some b =>
      let p : Proposal B := ⟨job.height, job.round, hash b, some b, e.address⟩
      let (e, validate) := ({ e with proposal := some p } : Engine B H).enterPrevoteBegin [p]
      (e, validate, none)

/-- `HandleProposal` up to the validation, for a proposal whose signature verifies. -/
def handleProposal (hash : B → Hash) (e : Engine B H) (p : Proposal B) :
    Engine B H × Option (ValidateJob B) × Option ConsensusError :=
  if (p.block.map fun b => decide (hash b ≠ p.blockHash)) = some true then
    (e, none, some .proposalHashMismatch)
  else if p.height ≠ e.height ∨ p.round ≠ e.round then (e, none, none)
  else if e.proposal.isSome then (e, none, none)
  else if p.proposer ≠ e.valSet.proposer e.height e.round then
    (e, none, some (.nonProposer p.proposer (e.valSet.proposer e.height e.round)))
  else
    let (e, validate) := ({ e with proposal := some p } : Engine B H).enterPrevoteBegin []
    (e, validate, none)

end Engine

end Dew.Consensus
