/-
# Rotation of the validator set

How a validator follows the committed chain: by its own commits (`OnCommit` of the runner), by blocks
that peers send (`OnBlock`), and by stopping and starting again (`StartStack`). At the end of an epoch
the set of validators is rebuilt from the staking module, but only `OnCommit` does so. A validator
holds the set that the chain determines as long as no synced block should have changed its set and
it restarts only while it holds the genesis set.
-/
import Dew.Block
import Dew.Consensus
import Dew.KeccakEval
import Dew.ModuleStorage

namespace Dew.Consensus

/-! ## From the active set to a validator set -/

/-- `powerFromU256`: the voting power, at most the largest `uint64`. -/
def powerFromU256 (v : U256) : U64 :=
  if v.toNat < 2 ^ 64 then v.setWidth 64 else BitVec.allOnes 64

/-- `ActiveSetToValidatorSet`, of a list that is not empty. -/
def activeSetToValidatorSet (candidates : List Staking.Candidate) :
    Except ValidatorSetError ValidatorSet :=
  newValidatorSet (candidates.filterMap fun c =>
    if c.address = 0 ∨ c.votingPower = 0 ∨ powerFromU256 c.votingPower = 0 then none
    else some ⟨c.address, powerFromU256 c.votingPower⟩)

/-- `ShouldRotateEpoch` -/
def shouldRotateEpoch (height epochLength : U64) : Bool :=
  epochLength ≠ 0 ∧ height ≠ 0 ∧ height % epochLength = 0

/-- The parameters of the staking module and of the epochs. -/
structure StakingParams where
  enabled : Bool
  module : StakingModule
  epochLength : U64

/-- `TryRotateValidatorSet`: no set means that the current one is kept. -/
def tryRotateValidatorSet (params : StakingParams) (height : U64) :
    StateProgram (Except ValidatorSetError (Option ValidatorSet)) :=
  if !params.enabled then pure (.ok none)
  else if !shouldRotateEpoch height params.epochLength then pure (.ok none)
  else do
    let active ← Staking.activeSet params.module
    if active = [] then return .ok none
    return (activeSetToValidatorSet active).map some

/-! ## The engine -/

namespace Engine

/-- `ReplaceValSet`; a `ValidatorSet` is never empty. -/
def replaceValSet {B H : Type} (e : Engine B H) (vs : ValidatorSet) : Engine B H :=
  { e with valSet := vs }

/-- Errors of `ApplySyncedBlock`. -/
inductive SyncError where
  | height (got want : U64)
  | parentMismatch
deriving DecidableEq, Repr

def SyncError.text : SyncError → String
  | height got want => s!"consensus: synced block height {got.toNat} want {want.toNat}"
  | parentMismatch => "consensus: synced block parent mismatch"

/-- `ApplySyncedBlock`: whether the engine moved forward, and the engine. -/
def applySyncedBlock (e : Engine Block Header) (block : Block) :
    Except SyncError (Bool × Engine Block Header) :=
  let h := block.header
  if h.number < e.height then .ok (false, e)
  else if e.height ≠ h.number then .error (.height h.number e.height)
  else if h.parentHash ≠ e.parent.hash then .error .parentMismatch
  else
    .ok (true,
      { ({ e with
          parent := h
          height := h.number + 1
          round := 0
          lockedRound := -1
          lockedHash := 0 } : Engine Block Header).resetVotes with
        step := .newRound
        lastCommit := some ⟨h.number, 0, block.hash, some block, []⟩ })

end Engine

/-! ## A validator -/

/-- What of a node matters here: its state as the reads show it, its head, and the hashes it has
stored by number. -/
structure ChainNode where
  state : Ledger
  header : Header
  blockNum : GoMap U64 Hash

/-- A validator: its node and its engine. -/
structure Replica where
  node : ChainNode
  engine : Engine Block Header

/-- What is the same for all validators: the genesis set, the parameters, the execution of a block
as a function of the state it reads, and what a fresh state database shows of persisted data. -/
structure Network where
  genesisSet : ValidatorSet
  params : StakingParams
  execute : Ledger → Block → Option Ledger
  reopen : Ledger → Ledger

/-- `ImportCommittedBlock`: whether it returns no error, and the node after it. The block's roots
and gas are checked by its execution. -/
def ChainNode.importCommittedBlock (net : Network) (n : ChainNode) (block : Block) :
    Bool × ChainNode :=
  match n.blockNum.get? block.number with
  | some existing => (existing = block.hash, n)
  | none =>
    if block.number ≠ n.header.number + 1 then (false, n)
    else if block.header.parentHash ≠ n.header.hash then (false, n)
    else
      match net.execute n.state block with
      | none => (false, n)
      | some state => (true, ⟨state, block.header, n.blockNum.set block.number block.hash⟩)

namespace Replica

variable (net : Network)

/-- The part of `OnCommit` after the import: at the end of an epoch the set is replaced. -/
def rotate (r : Replica) (height : U64) : Except Panic Replica := do
  let (found, state) ← (tryRotateValidatorSet net.params height).run Op.execL r.node.state
  match found with
  | .ok (some vs) => return ⟨{ r.node with state := state }, r.engine.replaceValSet vs⟩
  | _ => return ⟨{ r.node with state := state }, r.engine⟩

/-- The engine commits the block of its proposal, and the runner's `OnCommit` imports the block
and rotates the set. -/
def commit (r : Replica) (p : Proposal Block) (block : Block) : Except Panic Replica :=
  let engine := r.engine.advance Block.header p (r.engine.commitEvent p block.hash)
  match r.node.importCommittedBlock net block with
  | (false, node) => .ok ⟨node, engine⟩
  | (true, node) => rotate net ⟨node, engine⟩ block.number

/-- `OnBlock`: a block that a peer sends is imported, and the engine follows. -/
def onBlock (r : Replica) (block : Block) : Replica :=
  match r.node.importCommittedBlock net block with
  | (false, node) => ⟨node, r.engine⟩
  | (true, node) =>
    match r.engine.applySyncedBlock block with
    | .ok (_, engine) => ⟨node, engine⟩
    | .error _ => ⟨node, r.engine⟩

/-- `StartStack` at the head `header` with the genesis set: only the tip is loaded. -/
def start (address : Address) (state : Ledger) (header : Header) : Except ConsensusError Replica := do
  let engine ← Engine.new address net.genesisSet header header.number
  return ⟨⟨state, header, (∅ : GoMap U64 Hash).set header.number header.hash⟩, engine⟩

/-- `StartStack` on persisted data. -/
def restart (r : Replica) : Except ConsensusError Replica :=
  start net r.engine.address (net.reopen r.node.state) r.node.header

end Replica

/-! ## Runs on a committed chain -/

/-- A chain of committed blocks from genesis on, with the state after each of them. The height after
the last block is a `uint64`. -/
structure Chain (net : Network) where
  blocks : ℕ → Block
  states : ℕ → Ledger
  length : ℕ
  short : length + 1 < 2 ^ 64
  number : ∀ k ≤ length, (blocks k).number.toNat = k
  linked : ∀ k < length, (blocks (k + 1)).header.parentHash = (blocks k).hash
  executed : ∀ k < length, net.execute (states k) (blocks (k + 1)) = some (states (k + 1))

/-- One way in which a validator moves: it commits block `k` itself, receives block `k` from a
peer, or restarts. -/
inductive Move where
  | commit (p : Proposal Block) (k : ℕ)
  | sync (k : ℕ)
  | restart

namespace Chain

variable {net : Network} (chain : Chain net)

/-- One move of a validator. It commits the block of the chain at the height of its engine. -/
def Moves (r : Replica) : Move → Replica → Prop
  | .commit p k, r' =>
    k ≤ chain.length ∧ p.block = some (chain.blocks k) ∧ (chain.blocks k).number = r.engine.height ∧
      r.commit net p (chain.blocks k) = .ok r'
  | .sync k, r' => k ≤ chain.length ∧ r.onBlock net (chain.blocks k) = r'
  | .restart, r' => r.restart net = .ok r'

/-- The validators that a run of moves reaches from the genesis block, all of whose moves satisfy
`C`. -/
inductive Reached (C : Replica → Move → Prop) : Replica → Prop
  | start {a : Address} {r : Replica}
      (h : Replica.start net a (chain.states 0) (chain.blocks 0).header = .ok r) : Reached C r
  | move {r r' : Replica} {m : Move} (hr : Reached C r) (hC : C r m) (h : chain.Moves r m r') :
      Reached C r'

/-- When a move keeps the set that the chain determines: a block that the engine takes from a peer
does not end an epoch with another set, and the validator restarts with the genesis set from data
that show its state. -/
def Safe (r : Replica) : Move → Prop
  | .commit _ _ => True
  | .sync k => (chain.blocks k).number = r.engine.height →
      ∀ state L vs, net.execute r.node.state (chain.blocks k) = some state →
        (tryRotateValidatorSet net.params (chain.blocks k).number).run Op.execL state =
          .ok (.ok (some vs), L) → vs = r.engine.valSet
  | .restart => r.engine.valSet = net.genesisSet ∧ net.reopen r.node.state = r.node.state

/-- The set that the chain determines after block `p`. -/
def setAt : ℕ → ValidatorSet
  | 0 => net.genesisSet
  | p + 1 =>
    match (tryRotateValidatorSet net.params (chain.blocks (p + 1)).number).run Op.execL
        (chain.states (p + 1)) with
    | .ok (.ok (some vs), _) => vs
    | _ => setAt p

end Chain

/-! ## Reading the active set -/

/-- The reads of storage, and panics. -/
def IsRead : Op → Prop
  | .getState _ | .panic _ => True
  | _ => False

/-- A program that only reads leaves the ledger as it was. -/
theorem run_reads {α : Type} {p : StateProgram α} (hp : p.Calls IsRead) {L L' : Ledger} {a : α}
    (h : p.run Op.execL L = .ok (a, L')) : L' = L := by
  induction p generalizing L with
  | pure b =>
      cases h
      rfl
  | call o k ih =>
      obtain ⟨r, M, ho, hk⟩ := Program.run_call_ok h
      have hM : M = L := by
        cases o with
        | getState id =>
            cases ho
            rfl
        | panic reason => cases ho
        | _ => exact hp.1.elim
      subst hM
      exact ih r (hp.2 r) hk

theorem load_reads (slot : Hash) : (Staking.load slot).Calls IsRead := by
  simp [Staking.load, IsRead]

theorem isJailed_reads (a : Address) : (Staking.isJailed a).Calls IsRead :=
  (load_reads _).bind fun _ => trivial

theorem isCandidate_reads (a : Address) : (Staking.isCandidate a).Calls IsRead :=
  (load_reads _).bind fun _ => trivial

theorem delRate_reads (validator : Address) : (Staking.delRate validator).Calls IsRead :=
  (load_reads _).bind fun _ => trivial

theorem sharesToWei_reads (validator : Address) (shares : U256) :
    (Staking.sharesToWei validator shares).Calls IsRead := by
  unfold Staking.sharesToWei
  rw [Program.Calls.ite_iff]
  refine ⟨fun _ => trivial, fun _ => ?_⟩
  exact (delRate_reads validator).bind fun _ => trivial

theorem votingPower_reads (a : Address) : (Staking.votingPower a).Calls IsRead := by
  unfold Staking.votingPower Staking.selfStake Staking.delegatedTotal Staking.delegatedTotalShares
  refine (isJailed_reads _).bind fun jailed => ?_
  rw [Program.Calls.ite_iff]
  refine ⟨fun _ => trivial, fun _ => ?_⟩
  refine (isCandidate_reads _).bind fun candidate => ?_
  rw [Program.Calls.ite_iff]
  refine ⟨fun _ => trivial, fun _ => ?_⟩
  refine (load_reads _).bind fun self => ?_
  exact ((load_reads _).bind fun _ => sharesToWei_reads _ _).bind fun _ => trivial

theorem eligible_reads (min : U256) (i : U64) : (Staking.eligible min i).Calls IsRead := by
  unfold Staking.eligible Staking.selfStake
  refine (load_reads _).bind fun h => ?_
  rw [Program.Calls.ite_iff]
  refine ⟨fun _ => trivial, fun _ => ?_⟩
  refine (isCandidate_reads _).bind fun candidate => ?_
  rw [Program.Calls.ite_iff]
  refine ⟨fun _ => trivial, fun _ => ?_⟩
  refine (isJailed_reads _).bind fun jailed => ?_
  rw [Program.Calls.ite_iff]
  refine ⟨fun _ => trivial, fun _ => ?_⟩
  refine (load_reads _).bind fun self => ?_
  rw [Program.Calls.ite_iff]
  refine ⟨fun _ => trivial, fun _ => ?_⟩
  refine (votingPower_reads _).bind fun vp => ?_
  rw [Program.Calls.ite_iff]
  exact ⟨fun _ => trivial, fun _ => trivial⟩

theorem candidatesFrom_reads (min : U256) (n : ℕ) (i : U64) :
    (Staking.candidatesFrom min n i).Calls IsRead := by
  induction n generalizing i with
  | zero => trivial
  | succ n ih =>
      exact (eligible_reads min i).bind fun c => (ih (i + 1)).bind fun rest => trivial

theorem mustFromBig_reads (n : ℕ) : (mustFromBig n).Calls IsRead := by
  unfold mustFromBig
  rw [Program.Calls.ite_iff]
  refine ⟨fun _ => trivial, fun _ => ?_⟩
  exact ⟨trivial, fun e => nomatch e⟩

theorem tryRotateValidatorSet_reads (params : StakingParams) (height : U64) :
    (tryRotateValidatorSet params height).Calls IsRead := by
  unfold tryRotateValidatorSet Staking.activeSet
  rw [Program.Calls.ite_iff]
  refine ⟨fun _ => trivial, fun _ => ?_⟩
  rw [Program.Calls.ite_iff]
  refine ⟨fun _ => trivial, fun _ => ?_⟩
  have hactive := (load_reads Staking.lenSlot).bind fun n =>
    (mustFromBig_reads params.module.minSelfStake).bind fun min =>
      (candidatesFrom_reads min (n.setWidth 64).toNat 0).bind fun list =>
        (Program.Calls.pure_iff
          ((list.mergeSort Staking.Candidate.before).take params.module.activeCap.toNat)).mpr trivial
  refine hactive.bind fun active => ?_
  rw [Program.Calls.ite_iff]
  exact ⟨fun _ => trivial, fun _ => trivial⟩

/-! ## Every safe move follows the chain -/

namespace Chain

variable {net : Network} (chain : Chain net)

/-- A validator that follows the chain has its node at block `p`, its engine after it, and the set
that the chain determines. -/
structure Follows (r : Replica) (p : ℕ) : Prop where
  le : p ≤ chain.length
  state : r.node.state = chain.states p
  header : r.node.header = (chain.blocks p).header
  stored : ∀ n h, r.node.blockNum.get? n = some h →
    ∃ k ≤ p, n = (chain.blocks k).number ∧ h = (chain.blocks k).hash
  height : r.engine.height = (chain.blocks p).number + 1
  parent : r.engine.parent = (chain.blocks p).header
  valSet : r.engine.valSet = chain.setAt p

variable {chain}

theorem number_eq_iff {j k : ℕ} (hj : j ≤ chain.length) (hk : k ≤ chain.length) :
    (chain.blocks j).number = (chain.blocks k).number ↔ j = k := by
  rw [← BitVec.toNat_inj, chain.number j hj, chain.number k hk]

theorem toNat_height {p : ℕ} (hp : p ≤ chain.length) :
    ((chain.blocks p).number + 1).toNat = p + 1 := by
  have hshort := chain.short
  rw [BitVec.toNat_add, chain.number p hp]
  exact Nat.mod_eq_of_lt (by simp; omega)

theorem number_eq_height_iff {k p : ℕ} (hk : k ≤ chain.length) (hp : p ≤ chain.length) :
    (chain.blocks k).number = (chain.blocks p).number + 1 ↔ k = p + 1 := by
  rw [← BitVec.toNat_inj, chain.number k hk, toNat_height hp]

/-- The node after the next block of the chain. -/
def nextNode (chain : Chain net) (n : ChainNode) (p : ℕ) : ChainNode :=
  ⟨chain.states (p + 1), (chain.blocks (p + 1)).header,
    n.blockNum.set (chain.blocks (p + 1)).number (chain.blocks (p + 1)).hash⟩

/-- The next block of the chain is imported. -/
theorem Follows.import_next {r : Replica} {p : ℕ} (h : chain.Follows r p) (hp : p + 1 ≤ chain.length) :
    r.node.importCommittedBlock net (chain.blocks (p + 1)) = (true, chain.nextNode r.node p) := by
  have hfresh : r.node.blockNum.get? (chain.blocks (p + 1)).number = none := by
    rw [Option.eq_none_iff_forall_ne_some]
    intro stored hstored
    obtain ⟨k, hk, hnumber, -⟩ := h.stored _ _ hstored
    have := (number_eq_iff hp (hk.trans h.le)).mp hnumber
    omega
  have hnumber : (chain.blocks (p + 1)).number = r.node.header.number + 1 := by
    rw [h.header]
    exact (number_eq_height_iff hp h.le).mpr rfl
  have hparent : (chain.blocks (p + 1)).header.parentHash = r.node.header.hash := by
    rw [h.header]
    exact chain.linked p hp
  unfold ChainNode.importCommittedBlock
  rw [hfresh]
  simp only [hnumber, hparent, ne_eq, not_true_eq_false, if_false, h.state, chain.executed p hp]
  rw [← hnumber]
  rfl

theorem stored_nextNode {r : Replica} {p : ℕ} (h : chain.Follows r p) (n : U64) (x : Hash)
    (hx : (chain.nextNode r.node p).blockNum.get? n = some x) :
    ∃ k ≤ p + 1, n = (chain.blocks k).number ∧ x = (chain.blocks k).hash := by
  rw [nextNode, GoMap.get?_set] at hx
  split at hx
  · rename_i hn
    exact ⟨p + 1, le_rfl, hn, (Option.some.inj hx).symm⟩
  · obtain ⟨k, hk, hrest⟩ := h.stored n x hx
    exact ⟨k, by omega, hrest⟩

/-- What `StartStack` sets up at the head of the chain's block `p`. -/
theorem start_ok {a : Address} {L : Ledger} {header : Header} {r : Replica}
    (h : Replica.start net a L header = .ok r) :
    r.node = ⟨L, header, (∅ : GoMap U64 Hash).set header.number header.hash⟩ ∧
      r.engine.height = header.number + 1 ∧ r.engine.parent = header ∧
      r.engine.valSet = net.genesisSet := by
  unfold Replica.start Engine.new at h
  split at h
  · cases h
  · cases h
    exact ⟨rfl, rfl, rfl, rfl⟩

/-- A validator that starts at block `p` with the genesis set follows the chain when the chain
determines that set there. -/
theorem follows_of_start {a : Address} {r : Replica} {p : ℕ} (hp : p ≤ chain.length)
    (hset : chain.setAt p = net.genesisSet)
    (h : Replica.start net a (chain.states p) (chain.blocks p).header = .ok r) :
    chain.Follows r p := by
  obtain ⟨hnode, hheight, hparent, hvalSet⟩ := start_ok h
  refine ⟨hp, by rw [hnode], by rw [hnode], ?_, hheight, hparent, hvalSet.trans hset.symm⟩
  intro n x hx
  rw [hnode, GoMap.get?_set] at hx
  split at hx
  · rename_i hn
    exact ⟨p, le_rfl, hn, (Option.some.inj hx).symm⟩
  · cases hx

/-- The set after the next block, when the set was replaced there. -/
theorem setAt_succ_of_rotated {p : ℕ} {vs : ValidatorSet} {L : Ledger}
    (h : (tryRotateValidatorSet net.params (chain.blocks (p + 1)).number).run Op.execL
      (chain.states (p + 1)) = .ok (.ok (some vs), L)) : chain.setAt (p + 1) = vs := by
  rw [setAt, h]

/-- The set after the next block, when no other set was found there. -/
theorem setAt_succ_of_kept {p : ℕ}
    (h : ∀ vs L, (tryRotateValidatorSet net.params (chain.blocks (p + 1)).number).run Op.execL
      (chain.states (p + 1)) = .ok (.ok (some vs), L) → vs = chain.setAt p) :
    chain.setAt (p + 1) = chain.setAt p := by
  rw [setAt]
  split
  · rename_i vs L hrun
    exact h vs L hrun
  · rfl

theorem Follows.commit {r r' : Replica} {p : ℕ} {proposal : Proposal Block} {k : ℕ}
    (h : chain.Follows r p) (hm : chain.Moves r (.commit proposal k) r') :
    chain.Follows r' (p + 1) := by
  obtain ⟨hk, hblock, hheight, hrun⟩ := hm
  obtain rfl : k = p + 1 := by
    rw [h.height] at hheight
    exact (number_eq_height_iff hk h.le).mp hheight
  simp only [Replica.commit, h.import_next hk, Replica.rotate] at hrun
  -- the rotation only reads, so that the state of the node is the one after the block
  cases hfound : (tryRotateValidatorSet net.params (chain.blocks (p + 1)).number).run Op.execL
      (chain.nextNode r.node p).state with
  | error reason =>
      rw [hfound] at hrun
      cases hrun
  | ok out =>
      obtain ⟨found, L⟩ := out
      have hL : L = chain.states (p + 1) :=
        run_reads (tryRotateValidatorSet_reads _ _) hfound
      subst hL
      have hnext : (r.engine.height + 1) = (chain.blocks (p + 1)).number + 1 := by rw [hheight]
      have hparent : (proposal.block.map Block.header).getD r.engine.parent =
          (chain.blocks (p + 1)).header := by rw [hblock]; rfl
      rw [hfound] at hrun
      rcases found with e | _ | vs
      · cases hrun
        refine ⟨hk, rfl, rfl, stored_nextNode h, hnext, hparent, ?_⟩
        rw [setAt_succ_of_kept fun vs L hvs => by cases hfound.symm.trans hvs]
        exact h.valSet
      · cases hrun
        refine ⟨hk, rfl, rfl, stored_nextNode h, hnext, hparent, ?_⟩
        rw [setAt_succ_of_kept fun vs L hvs => by cases hfound.symm.trans hvs]
        exact h.valSet
      · cases hrun
        exact ⟨hk, rfl, rfl, stored_nextNode h, hnext, hparent, (setAt_succ_of_rotated hfound).symm⟩

/-- A block that is not the next one changes nothing. -/
theorem Follows.onBlock_other {r : Replica} {p k : ℕ} (h : chain.Follows r p)
    (hk : k ≤ chain.length) (hne : k ≠ p + 1) : r.onBlock net (chain.blocks k) = r := by
  unfold Replica.onBlock ChainNode.importCommittedBlock
  cases hstored : r.node.blockNum.get? (chain.blocks k).number with
  | none =>
      have hnumber : (chain.blocks k).number ≠ r.node.header.number + 1 := by
        rw [h.header]
        exact fun heq => hne ((number_eq_height_iff hk h.le).mp heq)
      simp only [ne_eq, hnumber, not_false_eq_true, if_true]
  | some existing =>
      obtain ⟨j, hj, hnumber, hhash⟩ := h.stored _ _ hstored
      obtain rfl : k = j := (number_eq_iff hk (hj.trans h.le)).mp hnumber
      have hpast : (chain.blocks k).header.number < r.engine.height := by
        rw [h.height, BitVec.lt_def, toNat_height h.le]
        have := chain.number k hk
        show (chain.blocks k).number.toNat < p + 1
        omega
      simp only [hhash, decide_true, Engine.applySyncedBlock, hpast, if_true]

/-- The engine takes the block of its height from a peer and keeps its set. -/
theorem applySyncedBlock_next {e : Engine Block Header} {b : Block}
    (hheight : b.header.number = e.height) (hparent : b.header.parentHash = e.parent.hash) :
    ∃ e', e.applySyncedBlock b = .ok (true, e') ∧ e'.height = b.header.number + 1 ∧
      e'.parent = b.header ∧ e'.valSet = e.valSet := by
  have hnot : ¬b.header.number < e.height := by
    rw [hheight, BitVec.lt_def]
    omega
  unfold Engine.applySyncedBlock
  dsimp only
  rw [if_neg hnot, if_neg (not_not.mpr hheight.symm), if_neg (not_not.mpr hparent)]
  exact ⟨_, rfl, rfl, rfl, rfl⟩

/-- A validator that gets the next block from a peer takes it and keeps its set. -/
theorem Follows.onBlock_next {r : Replica} {p : ℕ} (h : chain.Follows r p)
    (hp : p + 1 ≤ chain.length) :
    ∃ e, r.onBlock net (chain.blocks (p + 1)) = ⟨chain.nextNode r.node p, e⟩ ∧
      e.height = (chain.blocks (p + 1)).number + 1 ∧ e.parent = (chain.blocks (p + 1)).header ∧
      e.valSet = r.engine.valSet := by
  have hheight : (chain.blocks (p + 1)).number = r.engine.height := by
    rw [h.height]
    exact (number_eq_height_iff hp h.le).mpr rfl
  have hparent : (chain.blocks (p + 1)).header.parentHash = r.engine.parent.hash := by
    rw [h.parent]
    exact chain.linked p hp
  obtain ⟨e, he, hrest⟩ := applySyncedBlock_next hheight hparent
  refine ⟨e, ?_, hrest⟩
  unfold Replica.onBlock
  rw [h.import_next hp]
  simp only [he]

theorem Follows.sync {r r' : Replica} {p k : ℕ} (h : chain.Follows r p)
    (hsafe : chain.Safe r (.sync k)) (hm : chain.Moves r (.sync k) r') :
    ∃ q, chain.Follows r' q := by
  obtain ⟨hk, rfl⟩ := hm
  by_cases hnext : k = p + 1
  · subst hnext
    refine ⟨p + 1, ?_⟩
    have hkept : chain.setAt (p + 1) = chain.setAt p := by
      apply setAt_succ_of_kept
      intro vs L hrun
      rw [← h.valSet]
      refine hsafe ?_ (chain.states (p + 1)) L vs ?_ hrun
      · rw [h.height]
        exact (number_eq_height_iff hk h.le).mpr rfl
      · rw [h.state]
        exact chain.executed p hk
    obtain ⟨e, he, hheight, hparent, hvalSet⟩ := h.onBlock_next hk
    rw [he]
    exact ⟨hk, rfl, rfl, stored_nextNode h, hheight, hparent,
      hvalSet.trans (h.valSet.trans hkept.symm)⟩
  · refine ⟨p, ?_⟩
    rw [h.onBlock_other hk hnext]
    exact h

theorem Follows.restart {r r' : Replica} {p : ℕ} (h : chain.Follows r p)
    (hsafe : chain.Safe r .restart) (hm : chain.Moves r .restart r') : chain.Follows r' p := by
  obtain ⟨hset, hstate⟩ := hsafe
  have hstart : Replica.start net r.engine.address (chain.states p) (chain.blocks p).header =
      .ok r' := by
    rw [← h.state, ← hstate, ← h.header]
    exact hm
  exact follows_of_start h.le (h.valSet.symm.trans hset) hstart

/-- A validator that only moves safely follows the chain. -/
theorem exists_follows {r : Replica} (h : chain.Reached chain.Safe r) : ∃ p, chain.Follows r p := by
  induction h with
  | start h => exact ⟨0, follows_of_start (Nat.zero_le _) rfl h⟩
  | @move r r' m _ hsafe hm ih =>
      obtain ⟨p, hp⟩ := ih
      cases m with
      | commit proposal k => exact ⟨p + 1, hp.commit hm⟩
      | sync k => exact hp.sync hsafe hm
      | restart => exact ⟨p, hp.restart hsafe hm⟩

/-- A validator that follows the chain can commit its next block. -/
theorem Follows.exists_commit {r : Replica} {p : ℕ} (h : chain.Follows r p)
    (hp : p + 1 ≤ chain.length) {found : Except ValidatorSetError (Option ValidatorSet)} {L : Ledger}
    (hrun : (tryRotateValidatorSet net.params (chain.blocks (p + 1)).number).run Op.execL
      (chain.states (p + 1)) = .ok (found, L)) :
    ∃ proposal r', chain.Moves r (.commit proposal (p + 1)) r' := by
  let proposal : Proposal Block :=
    ⟨r.engine.height, 0, (chain.blocks (p + 1)).hash, some (chain.blocks (p + 1)), 0⟩
  have hheight : (chain.blocks (p + 1)).number = r.engine.height := by
    rw [h.height]
    exact (number_eq_height_iff hp h.le).mpr rfl
  have hok : ∃ r', r.commit net proposal (chain.blocks (p + 1)) = .ok r' := by
    simp only [Replica.commit, h.import_next hp, Replica.rotate, nextNode, hrun]
    rcases found with e | _ | vs
    · exact ⟨_, rfl⟩
    · exact ⟨_, rfl⟩
    · exact ⟨_, rfl⟩
  obtain ⟨r', hr'⟩ := hok
  exact ⟨proposal, r', hp, rfl, hheight, hr'⟩

/-! ### A chain of one block -/

/-- The set of one validator. -/
def soleSet (a : Address) : ValidatorSet where
  validators := [⟨a, 1⟩]
  totalPower := 1
  nonempty := by simp
  nodup := by simp
  positive := by simp
  total_eq := by simp

theorem exists_newValidatorSet_sole (a : Address) :
    ∃ vs, newValidatorSet [⟨a, 1⟩] = .ok vs ∧ vs.validators = [⟨a, 1⟩] := by
  unfold newValidatorSet
  simp only [List.mergeSort_singleton]
  split
  · rename_i hempty
    cases hempty
  · split
    · rename_i e hscan
      simp [scan] at hscan
    · exact ⟨_, rfl, rfl⟩

def genesisBlock : Block :=
  ⟨⟨0, 0, emptyTxRoot, emptyTxRoot, 0, 0, 0, 0, some 0, [], 0⟩, []⟩

def firstBlock : Block :=
  ⟨⟨genesisBlock.hash, 0, emptyTxRoot, emptyTxRoot, 1, 1, 0, 0, some 0, [], 0⟩, []⟩

/-- Validator `2` alone at genesis; the first block leads to `bonded`. -/
def firstNet (epochLength : U64) (bonded : Ledger) : Network where
  genesisSet := soleSet 2
  params := ⟨true, ⟨1, 1, 0⟩, epochLength⟩
  execute _ _ := some bonded
  reopen := id

def firstChain (epochLength : U64) (bonded : Ledger) : Chain (firstNet epochLength bonded) where
  blocks
    | 0 => genesisBlock
    | _ + 1 => firstBlock
  states
    | 0 => (StateDB.new ∅).view
    | _ + 1 => bonded
  length := 1
  short := by decide
  number k hk := by
    rcases Nat.le_one_iff_eq_zero_or_eq_one.mp hk with rfl | rfl
    · rfl
    · rfl
  linked k hk := by
    obtain rfl : k = 0 := by omega
    exact @rfl _ genesisBlock.hash
  executed k hk := by
    obtain rfl : k = 0 := by omega
    rfl

theorem exists_start (epochLength : U64) (bonded : Ledger) (C : Replica → Move → Prop) :
    ∃ r, (firstChain epochLength bonded).Reached C r ∧ (firstChain epochLength bonded).Follows r 0 := by
  have hstart : ∃ r, Replica.start (firstNet epochLength bonded) 2 ((firstChain epochLength bonded).states 0)
      ((firstChain epochLength bonded).blocks 0).header = .ok r := ⟨_, rfl⟩
  obtain ⟨r, hr⟩ := hstart
  exact ⟨r, .start hr, follows_of_start (Nat.zero_le _) rfl hr⟩

theorem slotHash_eq_evalNat {parts : List Bytes} (h : parts.flatten.length < 136) :
    slotHash parts = BitVec.ofNat 256 (Keccak.evalNat parts.flatten) :=
  Keccak.keccak256_eq_evalNat h

/-- A ledger on which every word is one, except for those at one slot. -/
def onesExcept (x : Hash) : Ledger :=
  { (StateDB.new ∅).view with slot := fun id => if id.slot = x then 0 else 1 }

theorem word_onesExcept_self (x : Hash) : Staking.word (onesExcept x) x = 0#256 :=
  if_pos rfl

theorem word_onesExcept_of_ne {x y : Hash} (h : y ≠ x) : Staking.word (onesExcept x) y = 1#256 :=
  if_neg h

/-- A ledger on which validator `1` has bonded and is not jailed. -/
def bondedLedger : Ledger :=
  onesExcept (Staking.jailedSlot 1#160)

/-- The names of the words that decide about validator `1`. -/
def bondedNames : List (List Bytes) :=
  [[ascii "dew/stake/v1/candlen"], [ascii "dew/stake/v1/candi", u64BE 0#64],
    [ascii "dew/stake/v1/cand", Address.bytes 1#160],
    [ascii "dew/stake/v1/self", Address.bytes 1#160],
    [ascii "dew/stake/v1/delTot", Address.bytes 1#160],
    [ascii "dew/stake/v1/delRate", Address.bytes 1#160]]

theorem bondedNames_ne : ∀ parts ∈ bondedNames, slotHash parts ≠ Staking.jailedSlot 1#160 := by
  have hshort : ∀ parts ∈ bondedNames, parts.flatten.length < 136 := by decide
  have hjailed : Staking.jailedSlot 1#160 = BitVec.ofNat 256 (Keccak.evalNat
      [ascii "dew/stake/v1/jailed", Address.bytes 1#160].flatten) :=
    slotHash_eq_evalNat (by decide)
  have hne : ∀ parts ∈ bondedNames, BitVec.ofNat 256 (Keccak.evalNat parts.flatten) ≠
      BitVec.ofNat 256 (Keccak.evalNat
        [ascii "dew/stake/v1/jailed", Address.bytes 1#160].flatten) := by
    decide +kernel
  intro parts hparts
  rw [slotHash_eq_evalNat (hshort parts hparts), hjailed]
  exact hne parts hparts

theorem word_bondedLedger (parts : List Bytes) (h : parts ∈ bondedNames) :
    Staking.word bondedLedger (slotHash parts) = 1#256 :=
  word_onesExcept_of_ne (bondedNames_ne parts h)

/-- An entry of the candidate list that is eligible, without delegations. -/
theorem run_eligible {L : Ledger} {min : U256} {i : U64} {a : Address}
    (hidx : (Staking.word L (Staking.idxSlot i)).setWidth 160 = a) (hzero : a ≠ 0#160)
    (hcand : Staking.word L (Staking.candSlot a) ≠ 0#256)
    (hjailed : Staking.word L (Staking.jailedSlot a) = 0#256)
    (hmin : ¬Staking.word L (Staking.selfSlot a) < min)
    (hself : Staking.word L (Staking.selfSlot a) ≠ 0#256)
    (hdelegated : Staking.delegatedOf L a = 0#256) :
    (Staking.eligible min i).run Op.execL L =
      .ok (some ⟨a, Staking.word L (Staking.selfSlot a)⟩, L) := by
  have hcandidate : (Staking.isCandidate a).run Op.execL L = .ok (true, L) := by
    simp [Staking.isCandidate, hcand]
  have hfree : (Staking.isJailed a).run Op.execL L = .ok (false, L) := by
    simp [Staking.isJailed, hjailed]
  have hpower : (Staking.votingPower a).run Op.execL L =
      .ok (Staking.word L (Staking.selfSlot a), L) := by
    simp [Staking.votingPower, hfree, hcandidate, Staking.selfStake, Staking.run_delegatedTotal,
      hdelegated]
  simp [Staking.eligible, hidx, hzero, hcandidate, hfree, Staking.selfStake, hmin, hself, hpower]

/-- The active set of a list with one entry. -/
theorem run_activeSet_one {L : Ledger} {m : StakingModule} {c : Staking.Candidate}
    (hlen : Staking.word L Staking.lenSlot = 1#256) (hmin : m.minSelfStake = 1)
    (hcap : m.activeCap = 1#64)
    (heligible : (Staking.eligible 1#256 0#64).run Op.execL L = .ok (some c, L)) :
    (Staking.activeSet m).run Op.execL L = .ok ([c], L) := by
  have hbig : mustFromBig 1 = (pure 1#256 : StateProgram U256) := rfl
  have hlist : (Staking.candidatesFrom 1#256 1 0#64).run Op.execL L = .ok ([c], L) := by
    simp [Staking.candidatesFrom, heligible]
  unfold Staking.activeSet
  rw [Program.run_bind, Staking.run_load, hlen, hmin, hbig, hcap, Program.ok_bind, Program.run_bind,
    Program.run_pure, Program.ok_bind, Program.run_bind]
  show ((Staking.candidatesFrom 1#256 1 0#64).run Op.execL L >>= _) = _
  rw [hlist, Program.ok_bind, Program.run_pure]
  simp

theorem run_activeSet_bonded :
    (Staking.activeSet ⟨1, 1#64, 0#64⟩).run Op.execL bondedLedger =
      .ok ([⟨1#160, 1#256⟩], bondedLedger) := by
  have hlen : Staking.word bondedLedger Staking.lenSlot = 1#256 :=
    word_bondedLedger [ascii "dew/stake/v1/candlen"] (by simp [bondedNames])
  have hidx : Staking.word bondedLedger (Staking.idxSlot 0#64) = 1#256 :=
    word_bondedLedger [ascii "dew/stake/v1/candi", u64BE 0#64] (by simp [bondedNames])
  have hcand : Staking.word bondedLedger (Staking.candSlot 1#160) = 1#256 :=
    word_bondedLedger [ascii "dew/stake/v1/cand", Address.bytes 1#160] (by simp [bondedNames])
  have hself : Staking.word bondedLedger (Staking.selfSlot 1#160) = 1#256 :=
    word_bondedLedger [ascii "dew/stake/v1/self", Address.bytes 1#160] (by simp [bondedNames])
  have htotal : Staking.word bondedLedger (Staking.delTotSlot 1#160) = 1#256 :=
    word_bondedLedger [ascii "dew/stake/v1/delTot", Address.bytes 1#160] (by simp [bondedNames])
  have hrate : Staking.word bondedLedger (Staking.delRateSlot 1#160) = 1#256 :=
    word_bondedLedger [ascii "dew/stake/v1/delRate", Address.bytes 1#160] (by simp [bondedNames])
  have hdelegated : Staking.delegatedOf bondedLedger 1#160 = 0#256 := by
    rw [Staking.delegatedOf, Staking.rateOf, htotal, hrate]
    decide
  apply run_activeSet_one hlen rfl rfl
  rw [← hself]
  refine run_eligible (a := 1#160) ?_ (by decide) ?_ (word_onesExcept_self _) ?_ ?_ hdelegated
  · rw [hidx]
    rfl
  · rw [hcand]
    decide
  · rw [hself]
    decide
  · rw [hself]
    decide

/-- At the end of an epoch with that active set, validator `1` alone remains. -/
theorem run_tryRotate_sole {L : Ledger} {vs : ValidatorSet}
    (hvs : newValidatorSet [⟨1#160, 1#64⟩] = .ok vs)
    (hactive : (Staking.activeSet ⟨1, 1#64, 0#64⟩).run Op.execL L = .ok ([⟨1#160, 1#256⟩], L)) :
    (tryRotateValidatorSet ⟨true, ⟨1, 1#64, 0#64⟩, 1#64⟩ 1#64).run Op.execL L =
      .ok (.ok (some vs), L) := by
  have hset : activeSetToValidatorSet [⟨1#160, 1#256⟩] = .ok vs := hvs
  simp [tryRotateValidatorSet, shouldRotateEpoch, hactive, hset, Except.map]

end Chain

end Dew.Consensus
