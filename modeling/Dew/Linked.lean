/-
# The engine and its chain

An engine holds the header of the block below its height. Synced blocks are checked against it, but a
block that the engine commits is not: neither `HandleProposal` nor the validation by execution looks at
the number of a proposed block, and a proposal without its block is committed as well. The engine stays
linked to its chain exactly as long as it commits only blocks that it holds and that are numbered with
its height.
-/
import Dew.BodyBinding
import Dew.Equivocation

namespace Dew.Consensus

variable {B H : Type} (K : Blocks B H)

/-- The parent is the block below the height, and the last committed one. -/
structure Engine.Linked (e : Engine B H) : Prop where
  height : e.height = K.number e.parent + 1
  lastCommit : ∀ c, e.lastCommit = some c →
    c.blockHash = K.headerHash e.parent ∧ e.height = c.height + 1

/-- A commit with a block that is numbered with its height. -/
def CommitEvent.Numbered (c : CommitEvent B) : Prop :=
  ∃ b, c.block = some b ∧ K.number (K.header b) = c.height

namespace Process

variable {K} {ev : Input B} {P P' : Process B H}

theorem Quiet.chain (h : Quiet K ev P P') :
    P'.engine.height = P.engine.height ∧ P'.engine.parent = P.engine.parent ∧
      P'.engine.lastCommit = P.engine.lastCommit ∧ P'.commits = P.commits := by
  cases h <;> first
    | exact ⟨rfl, rfl, rfl, rfl⟩
    | simp only [Engine.lock_eq, Engine.addPrecommit_snd, and_self]

theorem Linked.quiet (h : P.engine.Linked K) (hq : Quiet K ev P P') : P'.engine.Linked K := by
  obtain ⟨hheight, hparent, hlast, -⟩ := hq.chain
  constructor
  · rw [hheight, hparent]
    exact h.height
  · rw [hheight, hparent, hlast]
    exact h.lastCommit

/-- A commit keeps the link just if its block is numbered with the height. -/
theorem linked_advance_iff (hK : ∀ b, K.hash b = K.headerHash (K.header b)) {e : Engine B H}
    (h : e.Linked K) (hmatching : e.Matching K) {p : Proposal B} (hp : e.proposal = some p) :
    (e.advance K.header p (e.commitEvent p p.blockHash)).Linked K ↔
      (e.commitEvent p p.blockHash).Numbered K := by
  constructor
  · intro hlinked
    have hheight : e.height + 1 = K.number ((p.block.map K.header).getD e.parent) + 1 :=
      hlinked.height
    have hnumber : e.height = K.number ((p.block.map K.header).getD e.parent) :=
      (BitVec.add_left_inj 1).mp hheight
    cases hb : p.block with
    | none =>
        -- the parent would be below its own height
        rw [hb] at hnumber
        have hself : e.height = e.height + 1 := by
          nth_rewrite 1 [h.height]
          rw [show K.number e.parent = e.height from hnumber.symm]
        simp at hself
    | some b =>
        rw [hb] at hnumber
        exact ⟨b, hb, hnumber.symm⟩
  · rintro ⟨b, hb, hnumber⟩
    have hb : p.block = some b := hb
    have hparent : (e.advance K.header p (e.commitEvent p p.blockHash)).parent = K.header b := by
      show (p.block.map K.header).getD e.parent = _
      rw [hb]
      rfl
    have hnumber : K.number (K.header b) = e.height := hnumber
    constructor
    · rw [hparent, hnumber]
      rfl
    · rintro c ⟨⟩
      rw [hparent, ← hK b, hmatching p b hp hb]
      exact ⟨rfl, rfl⟩

theorem linked_sync (hK : ∀ b, K.hash b = K.headerHash (K.header b)) {e : Engine B H} {b : B}
    (hnumber : e.height = K.number (K.header b)) :
    Engine.Linked K { ({ e with
        parent := K.header b
        height := e.height + 1
        round := 0
        lockedRound := -1
        lockedHash := 0 } : Engine B H).resetVotes with
      step := .newRound
      lastCommit := some ⟨e.height, 0, K.hash b, some b, []⟩ } := by
  constructor
  · show e.height + 1 = K.number (K.header b) + 1
    rw [hnumber]
  · rintro c ⟨⟩
    exact ⟨hK b, rfl⟩

/-- Commits are only added. -/
theorem commits_step (hstep : P.step K ev = some P') : ∃ new, P'.commits = P.commits ++ new := by
  refine keeps_step (I := fun Q => ∃ new, Q.commits = P.commits ++ new) ?_ ?_ ?_ ?_ ⟨[], by simp⟩
    hstep
  · intro jobs _ _ _
    exact ⟨[], by simp⟩
  · intro vs _
    exact ⟨[], by simp⟩
  · rintro Q Q' ⟨new, hnew⟩ hm
    exact ⟨new, hm.chain.2.2.2.trans hnew⟩
  · rintro Q _ _ ⟨new, hnew⟩ hm
    cases hm with
    | nextRound => exact ⟨new, hnew⟩
    | commit p hprecommit hmaj hne hp => exact ⟨_, by rw [hnew, List.append_assoc]⟩
    | sync b hnumber hparent => exact ⟨new, hnew⟩

/-- What one step does to the link. -/
theorem linked_step_iff (hK : ∀ b, K.hash b = K.headerHash (K.header b)) (h : P.engine.Linked K)
    (hmatching : P.engine.Matching K) (hstep : P.step K ev = some P') :
    ∃ new, P'.commits = P.commits ++ new ∧
      (P'.engine.Linked K ↔ ∀ c ∈ new, c.2.Numbered K) := by
  have hquiet : P'.commits = P.commits → P'.engine.Linked K → ∃ new, P'.commits = P.commits ++ new ∧
      (P'.engine.Linked K ↔ ∀ c ∈ new, c.2.Numbered K) := by
    intro hcommits hlinked
    refine ⟨[], by rw [hcommits, List.append_nil], iff_of_true hlinked ?_⟩
    rintro c ⟨⟩
  cases step_effect hstep with
  | begin jobs hnew hjobs => exact hquiet rfl ⟨h.height, h.lastCommit⟩
  | replace vs => exact hquiet rfl ⟨h.height, h.lastCommit⟩
  | moves _ _ hends =>
      obtain ⟨Q, hQ, hlast⟩ := hends
      obtain ⟨hlinked, hmatch, hcommits⟩ : Q.engine.Linked K ∧ Q.engine.Matching K ∧
          Q.commits = P.commits :=
        keeps_quiet (I := fun R => R.engine.Linked K ∧ R.engine.Matching K ∧ R.commits = P.commits)
          (fun _ _ hR hm => ⟨Linked.quiet hR.1 hm, Matching.quiet hR.2.1 hm,
            hm.chain.2.2.2.trans hR.2.2⟩) ⟨h, hmatching, rfl⟩ hQ
      rcases hlast with rfl | hlast
      · exact hquiet hcommits hlinked
      · cases hlast with
        | nextRound => exact hquiet hcommits ⟨hlinked.height, hlinked.lastCommit⟩
        | sync b hnumber hparent => exact hquiet hcommits (linked_sync hK hnumber)
        | commit p hprecommit hmaj hne hp =>
            refine ⟨[(Q.engine.valSet, Q.engine.commitEvent p p.blockHash)], by rw [hcommits], ?_⟩
            rw [linked_advance_iff hK hlinked hmatch hp]
            simp

end Process

/-! ## The production validator -/

/-- The errors of `ExecutionValidator.ValidateProposal`. -/
inductive ValidatorError
  | nilBlock
  | execution (e : NodeError)
  | invalidStateRoot (got want : Hash)
deriving DecidableEq, Repr

/-- `ExecutionValidator.ValidateProposal` over a node, which it leaves with the code it has cached. The
height is not used. -/
def validateProposal (g : Geth) (n : Node) (_height : U64) (parent : Header) (block : Option Block) :
    Except Panic (Except ValidatorError Unit × Node) :=
  match block with
  | none => .ok (.error .nilBlock, n)
  | some b => do
    match ← n.validateAndExecuteBlock g parent b with
    | (.error e, n) => return (.error (.execution e), n)
    | (.ok root, n) =>
      -- the root is all that is compared: not the number, nor the parent hash
      if root ≠ b.header.stateRoot then
        return (.error (.invalidStateRoot root b.header.stateRoot), n)
      else return (.ok (), n)

namespace Process

/-- Proposals are validated by the production validator over a node. -/
def Executes (g : Geth) (n : Node) (P : Process Block Header) (ev : Input Block)
    (_ : Process Block Header) : Prop :=
  ∀ i valid parent job, ev = .validated i valid → P.validating[i]? = some (parent, job) →
    (valid = true ↔ ∃ n', validateProposal g n job.height parent (job.proposal.bind Proposal.block) =
      .ok (.ok (), n'))

/-! ## Runs of a node over an empty state -/

/-- A node over an empty state. -/
def bareNode : Node :=
  { Node.emptyNode with header := ⟨0, 0, 0, 0, 0, 0, 0, 0, some 0, [], 0⟩ }

/-- A block without transactions on `bareNode`, with any number. -/
def bareBlock (number : U64) : Block :=
  ⟨⟨0x6e6d123fb9c61e9387dd1cd46f162ee3c3464370dc4e1c00de5fa29616b63b29,
    0xb742a8548565d406bfc541263654d0084c715a41affd6e6d30baccea7f3b66d8,
    0x1dcc4de8dec75d7aab85b567b6ccd41ad312451b948a7413f0a142fd40d49347,
    0x1dcc4de8dec75d7aab85b567b6ccd41ad312451b948a7413f0a142fd40d49347,
    number, 1, 0, 0, some 0, [], 0⟩, []⟩

theorem bareNode_hash : bareNode.header.hash =
    0x6e6d123fb9c61e9387dd1cd46f162ee3c3464370dc4e1c00de5fa29616b63b29 := by
  rw [Header.hash, keccak256Hash, Keccak.keccak256_eq_evalBlocks]
  decide +kernel

/-- The production validator accepts the block with any number at any height. -/
theorem validateProposal_bareBlock (height number : U64) :
    validateProposal Node.noGeth bareNode height bareNode.header (some (bareBlock number)) =
      .ok (.ok (), { bareNode with statedb := bareNode.statedb.intermediateRoot.2 }) := by
  have hroot : bareNode.statedb.intermediateRoot.1 = (bareBlock number).header.stateRoot := by
    rw [StateDB.intermediateRoot_of_empty rfl rfl rfl]
    exact emptySMTRoot_eq
  rw [validateProposal, Node.validateAndExecuteBlock_empty _ _ _ rfl rfl, hroot]
  rfl

/-- Validators of power three and one. -/
def unevenSet : ValidatorSet where
  validators := [⟨1, 3⟩, ⟨2, 1⟩]
  totalPower := 4
  nonempty := by decide
  nodup := by decide
  positive := by decide
  total_eq := by decide

/-- The blocks of the chain, with the hash of one block at hand. -/
def productionAt (b : Block) (h : Hash) : Blocks Block Header :=
  { production with hash := fun c => if c = b then h else c.hash }

theorem productionAt_eq {b : Block} {h : Hash} (hb : b.hash = h) : productionAt b h = production := by
  have hhash : (fun c => if c = b then h else c.hash) = Block.hash := by
    funext c
    split
    · rename_i hc
      rw [hc, hb]
    · rfl
  rw [productionAt, hhash]
  rfl

/-- The only block to be validated is a given one, on `bareNode`, and it is accepted. -/
def Accepting (b : Block) (P : Process Block Header) : Input Block → Process Block Header → Prop
  | .validated i valid, _ => valid = true ∧
      (P.validating.map fun v => (v.1, v.2.proposal.bind Proposal.block))[i]? =
        some (bareNode.header, some b)
  | _, _ => True

instance (b : Block) : ∀ P ev P', Decidable (Accepting b P ev P')
  | _, .validated _ _, _ => inferInstanceAs (Decidable (_ ∧ _))
  | _, .startRound, _ | _, .built _ _, _ | _, .handleProposal _, _ | _, .handleVote _, _
  | _, .forceTimeoutRound, _ | _, .applySyncedBlock _, _ | _, .replaceValSet _, _ =>
    inferInstanceAs (Decidable True)

theorem Accepting.executes {number : U64} {P P' : Process Block Header} {ev : Input Block}
    (h : Accepting (bareBlock number) P ev P') : Executes Node.noGeth bareNode P ev P' := by
  rintro i valid parent job rfl hjob
  obtain ⟨rfl, hmap⟩ := h
  rw [List.getElem?_map, hjob, Option.map_some, Option.some.injEq, Prod.mk.injEq] at hmap
  obtain ⟨rfl, hblock⟩ := hmap
  rw [hblock]
  exact ⟨fun _ => ⟨_, validateProposal_bareBlock _ _⟩, fun _ => rfl⟩

/-- The proposer of the third round, with a quarter of the power, proposes a block, and the other
validator accepts it. -/
def thirdRound (b : Block) (h : Hash) : List (Input Block) :=
  [.forceTimeoutRound, .forceTimeoutRound, .handleProposal ⟨1, 2, h, some b, 2⟩, .validated 0 true]

def hashOne : Hash :=
  0x7e058b51a46c3015af0e83830aa63c82159cbcc2a24a69838291e4dff544088d

def hashSeven : Hash :=
  0x9bc425428c767ce8e28fe37400edb9f229a534e68a7f99707f2182d92cee98d8

end Process

end Dew.Consensus
