/-
# Agreement of the consensus engines

Honest engines on a network that delivers messages late, twice, out of order or not at all, with
faulty validators that may sign anything. A vote or proposal in the name of an honest validator is
delivered only if that validator has sent it; nothing else is assumed.

The system refines the protocol of `Dew.LockedVoting` (`Setting.simulates`), in which agreement
holds, as long as no engine is timed out while it is locked. A timeout of a locked engine has no
counterpart there: the lock is dropped, and `locked_timeout_forks` is a run of four honest
validators that commit two blocks at one height.
-/
import Dew.Consensus
import Dew.LockedVoting

namespace Dew.Consensus

/-! ## The network -/

/-- The common validator set, who is honest, and what the engines know about blocks. -/
structure Setting (B H : Type) where
  valSet : ValidatorSet
  honest : Address → Bool
  hash : B → Hash
  header : B → H
  number : H → U64

/-- The engines of the honest validators, what they have sent, their open jobs and commits. -/
structure Net (B H : Type) where
  engine : Address → Engine B H
  votes : List Vote
  proposals : List (Proposal B)
  building : List (Address × BuildJob)
  validating : List (Address × ValidateJob B)
  commits : List (Address × CommitEvent B)

inductive Event (B : Type) where
  | startRound (a : Address)
  /-- The builder of `StartRound` returns. -/
  | built (a : Address) (job : BuildJob) (block : Option B)
  | handleProposal (a : Address) (p : Proposal B)
  /-- The validator of `enterPrevoteLocked` returns. -/
  | validated (a : Address) (job : ValidateJob B) (valid : Bool)
  | handleVote (a : Address) (v : Vote)
  | forceTimeoutRound (a : Address)

/-- Whether an event is a timeout. -/
def Event.isTimeout {B : Type} : Event B → Bool
  | forceTimeoutRound _ => true
  | _ => false

/-- The engine an event happens at. -/
def Event.actor {B : Type} : Event B → Address
  | startRound a | built a _ _ | handleProposal a _ | validated a _ _ | handleVote a _
  | forceTimeoutRound a => a

namespace Net

variable {B H : Type}

/-- An engine in a new state, with what it sends. -/
def put (n : Net B H) (a : Address) (e : Engine B H) (box : Outbox B) : Net B H :=
  { n with
    engine := Function.update n.engine a e
    votes := n.votes ++ box.votes
    proposals := n.proposals ++ box.proposals
    commits := n.commits ++ box.commit.toList.map (Prod.mk a) }

def finish (n : Net B H) (a : Address) (o : Outcome B H) : Net B H :=
  n.put a o.engine o.box

end Net

/-- The counters of an engine can still be raised. -/
def Engine.HasRoom {B H : Type} (e : Engine B H) : Prop :=
  e.height.toNat + 1 < 2 ^ 64 ∧ e.round.toNat + 1 < 2 ^ 64

namespace Setting

variable {B H : Type} [DecidableEq B] (S : Setting B H)

/-- A proposal that verifies: its signed part was sent, or its proposer is not honest. -/
def provenProposal (n : Net B H) (p : Proposal B) : Bool :=
  !S.honest p.proposer || n.proposals.any fun q =>
    q.height == p.height && q.round == p.round && q.blockHash == p.blockHash &&
      q.proposer == p.proposer

/-- A vote that verifies: it was sent, or its validator is not honest. -/
def provenVote (n : Net B H) (v : Vote) : Bool :=
  !S.honest v.validator || decide (v ∈ n.votes)

/-- What an event does, if it can happen. -/
def step (n : Net B H) : Event B → Option (Net B H)
  | .startRound a =>
    if S.honest a then
      let (e, job) := (n.engine a).startRoundBegin
      some { n.put a e .empty with building := n.building ++ job.toList.map (Prod.mk a) }
    else none
  | .built a job block =>
    if S.honest a ∧ (a, job) ∈ n.building then
      let (e, validate, _) := (n.engine a).startRoundEnd S.hash job block
      some { n.put a e .empty with
        building := n.building.erase (a, job)
        validating := n.validating ++ validate.toList.map (Prod.mk a) }
    else none
  | .handleProposal a p =>
    if S.honest a ∧ S.provenProposal n p then
      let (e, validate, _) := (n.engine a).handleProposal S.hash p
      some { n.put a e .empty with
        validating := n.validating ++ validate.toList.map (Prod.mk a) }
    else none
  | .validated a job valid =>
    if S.honest a ∧ (a, job) ∈ n.validating then
      some { n.finish a ((n.engine a).enterPrevoteEnd S.header job valid) with
        validating := n.validating.erase (a, job) }
    else none
  | .handleVote a v =>
    if S.honest a ∧ S.provenVote n v then
      some (n.finish a ((n.engine a).handleVote S.header v))
    else none
  | .forceTimeoutRound a =>
    if S.honest a then some (n.put a (n.engine a).forceTimeoutRound .empty) else none

/-- Freshly made engines of the honest validators, and nothing sent. -/
structure Initial (n : Net B H) : Prop where
  fresh : ∀ a, S.honest a → ∃ parent,
    Engine.new a S.valSet parent (S.number parent) = .ok (n.engine a)
  votes : n.votes = []
  proposals : n.proposals = []
  building : n.building = []
  validating : n.validating = []
  commits : n.commits = []

/-- No engine is timed out while it is locked, and no counter is at its end. -/
def Orderly (n : Net B H) (ev : Event B) : Prop :=
  (n.engine ev.actor).HasRoom ∧ (ev.isTimeout → (n.engine ev.actor).lockedHash = 0)

instance (n : Net B H) (ev : Event B) : Decidable (Orderly n ev) :=
  inferInstanceAs (Decidable ((_ ∧ _) ∧ (_ → _)))

/-- The states reached by orderly steps. -/
inductive OrderlyRun (n₀ : Net B H) : Net B H → Prop
  | init : OrderlyRun n₀ n₀
  | step {n n' : Net B H} {ev : Event B} (hrun : OrderlyRun n₀ n) (horderly : Orderly n ev)
      (hstep : S.step n ev = some n') : OrderlyRun n₀ n'

/-- A run of events that all pass a test. -/
def runWhile (p : Net B H → Event B → Bool) (n : Net B H) : List (Event B) → Option (Net B H)
  | [] => some n
  | ev :: evs => if p n ev then (S.step n ev).bind fun n => runWhile p n evs else none

theorem orderlyRun_of_runWhile {n₀ n n' : Net B H} {evs : List (Event B)}
    (hrun : S.OrderlyRun n₀ n) (h : S.runWhile (fun n ev => decide (Orderly n ev)) n evs = some n') :
    S.OrderlyRun n₀ n' := by
  induction evs generalizing n with
  | nil =>
      cases h
      exact hrun
  | cons ev evs ih =>
      simp only [runWhile, decide_eq_true_eq, Option.ite_none_right_eq_some] at h
      obtain ⟨horderly, hbind⟩ := h
      obtain ⟨m, hstep, hrest⟩ := Option.bind_eq_some_iff.mp hbind
      exact ih (.step hrun horderly hstep) hrest

/-- The power of the validators that are not honest. -/
def faultyPower : ℕ :=
  ((S.valSet.validators.filter fun v => !S.honest v.address).map fun v => v.power.toNat).sum

end Setting

/-! ## Counting votes -/

namespace ValidatorSet

theorem get?_of_mem (vs : ValidatorSet) {v : Validator} (hv : v ∈ vs.validators) :
    vs.get? v.address = some v := by
  have hunique : ∀ l : List Validator, (l.map Validator.address).Nodup → v ∈ l →
      l.find? (fun u => u.address == v.address) = some v := by
    intro l hl hmem
    induction l with
    | nil => cases hmem
    | cons u l ih =>
        rw [List.map_cons, List.nodup_cons] at hl
        rw [List.find?_cons]
        rcases List.mem_cons.mp hmem with rfl | hmem
        · simp
        · have hne : u.address ≠ v.address :=
            fun heq => hl.1 (heq ▸ List.mem_map_of_mem hmem)
          have hfalse : (u.address == v.address) = false := by simpa using hne
          rw [hfalse]
          exact ih hl.2 hmem
  exact hunique _ vs.nodup hv

theorem powerOf_of_mem (vs : ValidatorSet) {v : Validator} (hv : v ∈ vs.validators) :
    vs.powerOf v.address = v.power := by
  simp [powerOf, vs.get?_of_mem hv]

/-- The validators by address. -/
def members (vs : ValidatorSet) : Finset Address :=
  (vs.validators.map Validator.address).toFinset

/-- The power of the validators that pass a test. -/
theorem sum_powerOf_filter (vs : ValidatorSet) (p : Address → Prop) [DecidablePred p] :
    ∑ a ∈ vs.members.filter p, (vs.powerOf a).toNat =
      ((vs.validators.filter fun v => p v.address).map fun v => v.power.toNat).sum := by
  have hmembers : vs.members.filter p =
      ((vs.validators.filter fun v => p v.address).map Validator.address).toFinset := by
    ext a
    simp only [members, Finset.mem_filter, List.mem_toFinset, List.mem_map, List.mem_filter,
      decide_eq_true_eq]
    constructor
    · rintro ⟨⟨v, hv, rfl⟩, hp⟩
      exact ⟨v, ⟨hv, hp⟩, rfl⟩
    · rintro ⟨v, ⟨hv, hp⟩, rfl⟩
      exact ⟨⟨v, hv, rfl⟩, hp⟩
  rw [hmembers, List.sum_toFinset, List.map_map]
  · refine congrArg List.sum (List.map_congr_left fun v hv => ?_)
    rw [Function.comp_apply, vs.powerOf_of_mem (List.mem_of_mem_filter hv)]
  · exact vs.nodup.sublist ((List.filter_sublist).map _)

theorem sum_powerOf (vs : ValidatorSet) :
    ∑ a ∈ vs.members, (vs.powerOf a).toNat = vs.totalPower.toNat := by
  have h := vs.sum_powerOf_filter fun _ => True
  simpa [vs.total_eq] using h

end ValidatorSet

/-- A vote set counts the power of its voters and keeps their votes, which are proven. -/
structure VoteSet.Counts (vs : VoteSet) (set : ValidatorSet) (proven : Vote → Prop) : Prop where
  power : ∀ h, (vs.powerFor h).toNat =
    ∑ a ∈ set.members.filter fun a => (vs.byAddr.get? a).map Vote.blockHash = some h,
      (set.powerOf a).toNat
  slot : ∀ a v, vs.byAddr.get? a = some v →
    v.validator = a ∧ v.type = vs.type ∧ v.height = vs.height ∧ v.round = vs.round ∧ proven v

namespace VoteSet

theorem counts_new (type : VoteType) (height round : U64) (set : ValidatorSet)
    (proven : Vote → Prop) : (VoteSet.new type height round).Counts set proven where
  power h := by simp [VoteSet.new, powerFor]
  slot a v hv := by simp [VoteSet.new] at hv

namespace Counts

variable {vs : VoteSet} {set : ValidatorSet} {proven : Vote → Prop}

theorem powerFor_le (h : vs.Counts set proven) (hash : Hash) :
    (vs.powerFor hash).toNat ≤ set.totalPower.toNat := by
  rw [h.power, ← set.sum_powerOf]
  exact Finset.sum_le_sum_of_subset (Finset.filter_subset _ _)

theorem mono {proven' : Vote → Prop} (h : vs.Counts set proven)
    (himp : ∀ v, proven v → proven' v) : vs.Counts set proven' where
  power := h.power
  slot a v hv := by
    obtain ⟨h1, h2, h3, h4, h5⟩ := h.slot a v hv
    exact ⟨h1, h2, h3, h4, himp v h5⟩

/-- Adding a proven vote of a validator keeps the count. -/
theorem add (h : vs.Counts set proven) {v : Vote} (hproven : proven v)
    (hmember : v.validator ∈ set.members) :
    (vs.add v (set.powerOf v.validator)).2.Counts set proven := by
  unfold VoteSet.add
  split
  · exact h
  rename_i hslot
  split
  · exact h
  rename_i hnew
  push Not at hslot
  have hnone : vs.byAddr.get? v.validator = none := by
    simpa using hnew
  -- the voters of a hash after the vote: the old ones, and the new one for its own hash
  have hvoters : ∀ hash, (set.members.filter fun a =>
      ((vs.byAddr.set v.validator v).get? a).map Vote.blockHash = some hash) =
      if hash = v.blockHash then insert v.validator (set.members.filter fun a =>
        (vs.byAddr.get? a).map Vote.blockHash = some hash)
      else set.members.filter fun a => (vs.byAddr.get? a).map Vote.blockHash = some hash := by
    intro hash
    ext a
    by_cases ha : a = v.validator
    · subst ha
      split
      · rename_i heq
        simp [GoMap.get?_set, hmember, heq]
      · rename_i hne
        simp [GoMap.get?_set, hnone, Ne.symm hne]
    · split <;> simp [GoMap.get?_set, ha]
  have hfresh : v.validator ∉ set.members.filter fun a =>
      (vs.byAddr.get? a).map Vote.blockHash = some v.blockHash := by
    simp [hnone]
  have hfits := h.powerFor_le v.blockHash
  constructor
  · intro hash
    show (((vs.power.set v.blockHash _).get? hash).getD 0).toNat = _
    rw [hvoters, GoMap.get?_set]
    split
    · rename_i heq
      subst heq
      have hsum := Finset.sum_insert (f := fun a => (set.powerOf a).toNat) hfresh
      have hle : ∑ a ∈ insert v.validator (set.members.filter fun a =>
          (vs.byAddr.get? a).map Vote.blockHash = some v.blockHash), (set.powerOf a).toNat ≤
          set.totalPower.toNat := by
        rw [← set.sum_powerOf]
        exact Finset.sum_le_sum_of_subset
          (Finset.insert_subset hmember (Finset.filter_subset _ _))
      have hlt := set.totalPower.isLt
      rw [hsum, ← h.power] at hle
      rw [hsum, ← h.power, Option.getD_some, BitVec.toNat_add, Nat.mod_eq_of_lt (by omega)]
      omega
    · exact h.power hash
  · intro a u hu
    rw [GoMap.get?_set] at hu
    split at hu
    · rename_i ha
      cases hu
      exact ⟨ha.symm, hslot.1, hslot.2.1, hslot.2.2, hproven⟩
    · exact h.slot a u hu

theorem quorum (h : vs.Counts set proven) (hbound : 3 * set.totalPower.toNat < 2 ^ 64)
    {hash : Hash} (hq : hasQuorum (vs.powerFor hash) set.totalPower) :
    2 * set.totalPower.toNat < 3 * (vs.powerFor hash).toNat := by
  have hle := h.powerFor_le hash
  unfold hasQuorum at hq
  split at hq
  · cases hq
  · have hlt : (set.totalPower * 2).toNat < (vs.powerFor hash * 3).toNat := of_decide_eq_true hq
    rw [BitVec.toNat_mul, BitVec.toNat_mul] at hlt
    have h2 : (2 : U64).toNat = 2 := rfl
    have h3 : (3 : U64).toNat = 3 := rfl
    rw [h2, h3, Nat.mod_eq_of_lt (by omega), Nat.mod_eq_of_lt (by omega)] at hlt
    omega

/-- At most one hash has a quorum, so the order in which they are tried does not matter. -/
theorem majority_unique (h : vs.Counts set proven) (hbound : 3 * set.totalPower.toNat < 2 ^ 64)
    {x y : Hash} (hx : hasQuorum (vs.powerFor x) set.totalPower)
    (hy : hasQuorum (vs.powerFor y) set.totalPower) : x = y := by
  by_contra hne
  have hqx := h.quorum hbound hx
  have hqy := h.quorum hbound hy
  rw [h.power] at hqx hqy
  have hdisjoint : Disjoint
      (set.members.filter fun a => (vs.byAddr.get? a).map Vote.blockHash = some x)
      (set.members.filter fun a => (vs.byAddr.get? a).map Vote.blockHash = some y) := by
    rw [Finset.disjoint_filter]
    intro a _ hax hay
    exact hne (Option.some.inj (hax.symm.trans hay))
  have hunion := Finset.sum_union (f := fun a => (set.powerOf a).toNat) hdisjoint
  have hle : ∑ a ∈ (set.members.filter fun a => (vs.byAddr.get? a).map Vote.blockHash = some x) ∪
      (set.members.filter fun a => (vs.byAddr.get? a).map Vote.blockHash = some y),
      (set.powerOf a).toNat ≤ set.totalPower.toNat := by
    rw [← set.sum_powerOf]
    exact Finset.sum_le_sum_of_subset
      (Finset.union_subset (Finset.filter_subset _ _) (Finset.filter_subset _ _))
  omega

end Counts

theorem hasQuorum_of_majorityHash {vs : VoteSet} {total : U64} {h : Hash}
    (hmaj : vs.majorityHash total = some h) : hasQuorum (vs.powerFor h) total :=
  List.find?_some (p := fun h => hasQuorum (vs.powerFor h) total) hmaj

end VoteSet

/-! ## The simulation -/

section Simulation

variable {B H : Type} (S : Setting B H)

/-- Bounds on the powers: no overflow in the quorum rule, and less than a third is faulty. -/
structure Setting.Bounded : Prop where
  total : 3 * S.valSet.totalPower.toNat < 2 ^ 64
  faulty : 3 * S.faultyPower < S.valSet.totalPower.toNat

/-- The abstract protocol behind the engines: precommits are ballots, the zero hash is nil. -/
def Setting.protocol (hS : S.Bounded) : LockedVoting.Setting Address Hash where
  members := S.valSet.members
  weight a := (S.valSet.powerOf a).toNat
  faulty := S.valSet.members.filter fun a => ¬ S.honest a
  nil := 0
  faulty_light := by
    rw [S.valSet.sum_powerOf, S.valSet.sum_powerOf_filter]
    simpa [Setting.faultyPower] using hS.faulty

/-- The ballot of a precommit. -/
def Vote.ballot (v : Vote) : LockedVoting.Ballot Address Hash :=
  ⟨v.validator, v.height.toNat, v.round.toNat, v.blockHash⟩

/-- The precommit of an engine in its current round. -/
def Engine.cast (e : Engine B H) : Option Hash :=
  if e.step = .precommit then some e.lockedHash else none

/-- The decision of a commit. -/
def CommitEvent.ballot (c : CommitEvent B) (a : Address) : LockedVoting.Ballot Address Hash :=
  ⟨a, c.height.toNat, c.round.toNat, c.blockHash⟩

/-- The state of the abstract protocol. -/
def Net.abs (n : Net B H) : LockedVoting.State Address Hash where
  height a := (n.engine a).height.toNat
  round a := (n.engine a).round.toNat
  voted a := (n.engine a).cast
  sent := { b | ∃ v ∈ n.votes, v.type = .precommit ∧ v.ballot = b }
  decided := { b | ∃ c ∈ n.commits, c.2.ballot c.1 = b }

/-- The abstract state after a change of one engine. -/
def Net.absPut (n : Net B H) (a : Address) (e : Engine B H) (box : Outbox B) :
    LockedVoting.State Address Hash where
  height := Function.update n.abs.height a e.height.toNat
  round := Function.update n.abs.round a e.round.toNat
  voted := Function.update n.abs.voted a e.cast
  sent := n.abs.sent ∪ { b | ∃ v ∈ box.votes, v.type = .precommit ∧ v.ballot = b }
  decided := n.abs.decided ∪ { b | ∃ c ∈ box.commit, c.ballot a = b }

theorem Net.abs_put (n : Net B H) (a : Address) (e : Engine B H) (box : Outbox B) :
    (n.put a e box).abs = n.absPut a e box := by
  ext1
  · funext b
    by_cases hb : b = a <;> simp [Net.absPut, Net.abs, Net.put, hb]
  · funext b
    by_cases hb : b = a <;> simp [Net.absPut, Net.abs, Net.put, hb]
  · funext b
    by_cases hb : b = a <;> simp [Net.absPut, Net.abs, Net.put, hb]
  · ext b
    simp only [Net.absPut, Net.abs, Net.put, List.mem_append, Set.mem_ofPred_eq, Set.mem_union]
    constructor
    · rintro ⟨v, hv | hv, h⟩
      · exact .inl ⟨v, hv, h⟩
      · exact .inr ⟨v, hv, h⟩
    · rintro (⟨v, hv, h⟩ | ⟨v, hv, h⟩)
      · exact ⟨v, .inl hv, h⟩
      · exact ⟨v, .inr hv, h⟩
  · ext b
    simp only [Net.absPut, Net.abs, Net.put, List.mem_append, Set.mem_ofPred_eq, Set.mem_union,
      List.mem_map, Option.mem_toList]
    constructor
    · rintro ⟨c, hc | ⟨ev, hev, rfl⟩, h⟩
      · exact .inl ⟨c, hc, h⟩
      · exact .inr ⟨ev, hev, h⟩
    · rintro (⟨c, hc, h⟩ | ⟨ev, hev, h⟩)
      · exact ⟨c, .inl hc, h⟩
      · exact ⟨(a, ev), .inr ⟨ev, hev, rfl⟩, h⟩

/-- What holds of the engine of an honest validator, given the votes sent so far. -/
structure Engine.Sound (e : Engine B H) (a : Address) (votes : List Vote) : Prop where
  address : e.address = a
  valSet : e.valSet = S.valSet
  member : a ∈ S.valSet.members
  unlocked : e.step ≠ .precommit → e.lockedHash = 0
  type : e.precommits.type = .precommit
  height : e.precommits.height = e.height
  round : e.precommits.round = e.round
  counts : e.precommits.Counts S.valSet fun v => S.honest v.validator → v ∈ votes

variable {S}

theorem Engine.Sound.mono {e : Engine B H} {a : Address} {votes votes' : List Vote}
    (h : e.Sound S a votes) (hsub : votes ⊆ votes') : e.Sound S a votes' :=
  { h with counts := h.counts.mono fun _ hv hhonest => hsub (hv hhonest) }

/-- A hash with a quorum in the precommits of an engine has the support of the protocol. -/
theorem Engine.Sound.supported {e : Engine B H} {a : Address} {votes : List Vote}
    (h : e.Sound S a votes) (hS : S.Bounded) {n : Net B H} (hn : n.votes = votes) {hash : Hash}
    (hmaj : e.precommits.majorityHash e.valSet.totalPower = some hash) :
    (S.protocol hS).Supported n.abs.sent e.height.toNat e.round.toNat hash := by
  have hq := VoteSet.hasQuorum_of_majorityHash hmaj
  rw [h.valSet] at hq
  have hweight := h.counts.quorum hS.total hq
  rw [h.counts.power] at hweight
  have hbackers : (S.valSet.members.filter fun a =>
      (e.precommits.byAddr.get? a).map Vote.blockHash = some hash) ⊆
      (S.protocol hS).backers n.abs.sent e.height.toNat e.round.toNat hash := by
    intro b hb
    rw [Finset.mem_filter] at hb
    obtain ⟨hmem, hvote⟩ := hb
    obtain ⟨v, hv, hhash⟩ := Option.map_eq_some_iff.mp hvote
    obtain ⟨hval, htype, hheight, hround, hproven⟩ := h.counts.slot b v hv
    refine LockedVoting.Setting.mem_backers.mpr ⟨hmem, ?_⟩
    by_cases hb' : S.honest b
    · refine .inr ⟨v, ?_, htype.trans h.type, ?_⟩
      · rw [hn]
        exact hproven (hval ▸ hb')
      · rw [Vote.ballot, hval, hheight, h.height, hround, h.round, hhash]
    · exact .inl (Finset.mem_filter.mpr ⟨hmem, hb'⟩)
  have hsum := Finset.sum_le_sum_of_subset (f := fun a => (S.valSet.powerOf a).toNat) hbackers
  show 2 * ∑ a ∈ S.valSet.members, (S.valSet.powerOf a).toNat < 3 * _
  rw [S.valSet.sum_powerOf]
  exact lt_of_lt_of_le hweight (Nat.mul_le_mul_left 3 hsum)

/-- What a critical section does, seen from the protocol: it makes steps of it, and the engine
stays sound. -/
structure Net.Advances (hS : S.Bounded) (n : Net B H) (a : Address) (e : Engine B H)
    (box : Outbox B) (o : Outcome B H) : Prop where
  reach : (S.protocol hS).Reachable (n.put a e box).abs (n.finish a o).abs
  sound : o.engine.Sound S a (n.votes ++ o.box.votes)
  votes : box.votes ⊆ o.box.votes

theorem Net.Advances.refl {hS : S.Bounded} {n : Net B H} {a : Address} {e : Engine B H}
    {box : Outbox B} (h : e.Sound S a (n.votes ++ box.votes)) (err : Option ConsensusError) :
    n.Advances hS a e box ⟨e, box, err⟩ :=
  ⟨.refl, h, fun _ hv => hv⟩

theorem Net.Advances.trans {hS : S.Bounded} {n : Net B H} {a : Address} {e e' : Engine B H}
    {box box' : Outbox B} {err : Option ConsensusError} {o : Outcome B H}
    (h : n.Advances hS a e box ⟨e', box', err⟩) (h' : n.Advances hS a e' box' o) :
    n.Advances hS a e box o :=
  ⟨h.reach.trans h'.reach, h'.sound, fun _ hv => h'.votes (h.votes hv)⟩

theorem Engine.Sound.enterNextRound {e : Engine B H} {a : Address} {votes : List Vote}
    (h : e.Sound S a votes) : e.enterNextRound.Sound S a votes where
  address := h.address
  valSet := h.valSet
  member := h.member
  unlocked _ := rfl
  type := rfl
  height := rfl
  round := rfl
  counts := VoteSet.counts_new _ _ _ _ _

theorem Engine.Sound.advance {e : Engine B H} {a : Address} {votes : List Vote}
    (h : e.Sound S a votes) (header : B → H) (p : Proposal B) (ev : CommitEvent B) :
    (e.advance header p ev).Sound S a votes where
  address := h.address
  valSet := h.valSet
  member := h.member
  unlocked _ := rfl
  type := rfl
  height := rfl
  round := rfl
  counts := VoteSet.counts_new _ _ _ _ _

/-- Going to the next round is a step of the protocol, if the engine is not locked or nil has a
quorum. -/
theorem Net.advances_nextRound {hS : S.Bounded} {n : Net B H} {a : Address} {e : Engine B H}
    {box : Outbox B} (h : e.Sound S a (n.votes ++ box.votes)) (hround : e.round.toNat + 1 < 2 ^ 64)
    (hfree : e.lockedHash ≠ 0 →
      (S.protocol hS).Supported (n.put a e box).abs.sent e.height.toNat e.round.toNat 0) :
    n.Advances hS a e box ⟨e.enterNextRound, box, none⟩ := by
  refine ⟨.single ?_, h.enterNextRound, fun _ hv => hv⟩
  have hnext : (e.round + 1).toNat = e.round.toNat + 1 := by
    rw [BitVec.toNat_add]
    exact Nat.mod_eq_of_lt hround
  rw [Net.abs_put] at hfree
  rw [Net.finish, Net.abs_put, Net.abs_put]
  have htarget : n.absPut a e.enterNextRound box = { n.absPut a e box with
      round := Function.update (n.absPut a e box).round a ((n.absPut a e box).round a + 1)
      voted := Function.update (n.absPut a e box).voted a none } := by
    simp only [Net.absPut, Function.update_self, Function.update_idem, ← hnext]
    rfl
  rw [htarget]
  refine .skip a fun x hx hne => ?_
  simp only [Net.absPut, Function.update_self, Engine.cast] at hx
  split at hx
  · cases hx
    simp only [Net.absPut, Function.update_self]
    exact hfree hne
  · cases hx

/-- A commit is a decision of the protocol. -/
theorem Net.advances_commit {hS : S.Bounded} {n : Net B H} {a : Address} {e : Engine B H}
    {box : Outbox B} (h : e.Sound S a (n.votes ++ box.votes)) (hbox : box.commit = none)
    (hheight : e.height.toNat + 1 < 2 ^ 64) {hash : Hash} (hne : hash ≠ 0)
    (hsupport : (S.protocol hS).Supported (n.put a e box).abs.sent e.height.toNat e.round.toNat hash)
    (header : B → H) (p : Proposal B) :
    n.Advances hS a e box ⟨e.advance header p (e.commitEvent p hash),
      { box with commit := some (e.commitEvent p hash) }, none⟩ := by
  refine ⟨.single ?_, h.advance header p _, fun _ hv => hv⟩
  have hnext : (e.height + 1).toNat = e.height.toNat + 1 := by
    rw [BitVec.toNat_add]
    exact Nat.mod_eq_of_lt hheight
  rw [Net.abs_put] at hsupport
  rw [Net.finish, Net.abs_put, Net.abs_put]
  have htarget : n.absPut a (e.advance header p (e.commitEvent p hash))
      { box with commit := some (e.commitEvent p hash) } = { n.absPut a e box with
      height := Function.update (n.absPut a e box).height a ((n.absPut a e box).height a + 1)
      round := Function.update (n.absPut a e box).round a 0
      voted := Function.update (n.absPut a e box).voted a none
      decided := insert ⟨a, (n.absPut a e box).height a, (n.absPut a e box).round a, hash⟩
        (n.absPut a e box).decided } := by
    have hdecided : n.abs.decided ∪ { b | ∃ c ∈ some (e.commitEvent p hash), c.ballot a = b } =
        insert ⟨a, e.height.toNat, e.round.toNat, hash⟩
          (n.abs.decided ∪ { b | ∃ c ∈ box.commit, c.ballot a = b }) := by
      ext b
      simp [hbox, CommitEvent.ballot, Engine.commitEvent, eq_comm]
    simp only [Net.absPut, Function.update_self, Function.update_idem, ← hnext, hdecided]
    rfl
  rw [htarget]
  exact .decide a hash hne (by simpa [Net.absPut] using hsupport)

/-- Soundness only depends on who the engine is, where it is, its lock and its precommits. -/
theorem Engine.Sound.of_eq {e e' : Engine B H} {a : Address} {votes : List Vote}
    (h : e.Sound S a votes) (haddress : e'.address = e.address) (hvalSet : e'.valSet = e.valSet)
    (hheight : e'.height = e.height) (hround : e'.round = e.round)
    (hprecommits : e'.precommits = e.precommits)
    (hunlocked : e'.step ≠ .precommit → e'.lockedHash = 0) : e'.Sound S a votes where
  address := haddress.trans h.address
  valSet := hvalSet.trans h.valSet
  member := h.member
  unlocked := hunlocked
  type := by rw [hprecommits, h.type]
  height := by rw [hprecommits, h.height, hheight]
  round := by rw [hprecommits, h.round, hround]
  counts := by
    rw [hprecommits]
    exact h.counts

theorem VoteSet.add_slot (vs : VoteSet) (v : Vote) (power : U64) :
    (vs.add v power).2.type = vs.type ∧ (vs.add v power).2.height = vs.height ∧
      (vs.add v power).2.round = vs.round := by
  unfold VoteSet.add
  split
  · exact ⟨rfl, rfl, rfl⟩
  · split <;> exact ⟨rfl, rfl, rfl⟩

theorem Engine.Sound.addPrecommit {e : Engine B H} {a : Address} {votes : List Vote}
    (h : e.Sound S a votes) {v : Vote} (hproven : S.honest v.validator → v ∈ votes)
    (hmember : v.validator ∈ S.valSet.members) : (e.addPrecommit v).2.Sound S a votes where
  address := h.address
  valSet := h.valSet
  member := h.member
  unlocked := h.unlocked
  type := (VoteSet.add_slot ..).1.trans h.type
  height := (VoteSet.add_slot ..).2.1.trans h.height
  round := (VoteSet.add_slot ..).2.2.trans h.round
  counts := by
    show (e.precommits.add v (e.valSet.powerOf v.validator)).2.Counts _ _
    rw [h.valSet]
    exact h.counts.add hproven hmember

/-- Precommitting is a vote of the protocol. -/
theorem Net.advances_precommit {hS : S.Bounded} {n : Net B H} {a : Address} {e : Engine B H}
    {box : Outbox B} (h : e.Sound S a (n.votes ++ box.votes)) (hstep : e.step = .prevote)
    (hash : Hash) :
    n.Advances hS a e box ⟨((e.lock hash).addPrecommit ((e.lock hash).ownVote .precommit hash)).2,
      { box with votes := box.votes ++ [(e.lock hash).ownVote .precommit hash] }, none⟩ := by
  have hunlocked : e.lockedHash = 0 := h.unlocked (by rw [hstep]; decide)
  have hlock : (e.lock hash).step = .precommit ∧ (e.lock hash).lockedHash = hash ∧
      (e.lock hash).height = e.height ∧ (e.lock hash).round = e.round ∧
      (e.lock hash).address = e.address ∧ (e.lock hash).valSet = e.valSet ∧
      (e.lock hash).precommits = e.precommits := by
    unfold Engine.lock
    split
    · rename_i hzero
      exact ⟨rfl, hunlocked.trans hzero.symm, rfl, rfl, rfl, rfl, rfl⟩
    · exact ⟨rfl, rfl, rfl, rfl, rfl, rfl, rfl⟩
  obtain ⟨hprecommit, hlocked, hheight, hround, haddress, hvalSet, hprecommits⟩ := hlock
  have hvote : ((e.lock hash).ownVote .precommit hash).validator = a := by
    rw [Engine.ownVote, haddress, h.address]
  have hballot : ((e.lock hash).ownVote .precommit hash).ballot =
      ⟨a, e.height.toNat, e.round.toNat, hash⟩ := by
    simp only [Vote.ballot, Engine.ownVote, haddress, h.address, hheight, hround]
  generalize hv : (e.lock hash).ownVote .precommit hash = v at hvote hballot ⊢
  have hlockSound : (e.lock hash).Sound S a (n.votes ++ (box.votes ++ [v])) := by
    refine (h.mono ?_).of_eq haddress hvalSet hheight hround hprecommits
      (fun hne => absurd hprecommit hne)
    rw [← List.append_assoc]
    exact List.subset_append_left _ _
  refine ⟨.single ?_, hlockSound.addPrecommit (fun _ => by simp) (hvote ▸ h.member),
    fun u hu => List.mem_append_left _ hu⟩
  · rw [Net.finish, Net.abs_put, Net.abs_put]
    have htarget : n.absPut a ((e.lock hash).addPrecommit v).2
        { box with votes := box.votes ++ [v] } = { n.absPut a e box with
        voted := Function.update (n.absPut a e box).voted a (some hash)
        sent := insert ⟨a, (n.absPut a e box).height a, (n.absPut a e box).round a, hash⟩
          (n.absPut a e box).sent } := by
      have hsent : n.abs.sent ∪ { b | ∃ u ∈ box.votes ++ [v], u.type = .precommit ∧ u.ballot = b } =
          insert ⟨a, e.height.toNat, e.round.toNat, hash⟩
            (n.abs.sent ∪ { b | ∃ u ∈ box.votes, u.type = .precommit ∧ u.ballot = b }) := by
        ext b
        simp only [Set.mem_union, Set.mem_ofPred_eq, List.mem_append, List.mem_singleton,
          Set.mem_insert_iff]
        constructor
        · rintro (hb | ⟨u, hu | rfl, htype, hb⟩)
          · exact .inr (.inl hb)
          · exact .inr (.inr ⟨u, hu, htype, hb⟩)
          · exact .inl (hb.symm.trans hballot)
        · rintro (hb | hb | ⟨u, hu, htype, hb⟩)
          · exact .inr ⟨v, .inr rfl, by rw [← hv]; rfl, hballot.trans hb.symm⟩
          · exact .inl hb
          · exact .inr ⟨u, .inl hu, htype, hb⟩
      have hcast : ((e.lock hash).addPrecommit v).2.cast = some hash := by
        show (if (e.lock hash).step = .precommit then some (e.lock hash).lockedHash else none) = _
        rw [if_pos hprecommit, hlocked]
      have hheight' : ((e.lock hash).addPrecommit v).2.height = e.height := hheight
      have hround' : ((e.lock hash).addPrecommit v).2.round = e.round := hround
      simp only [Net.absPut, Function.update_self, Function.update_idem, hsent, hcast, hheight',
        hround']
    rw [htarget]
    refine .vote a hash ?_
    simp [Net.absPut, Engine.cast, hstep]

theorem Net.advances_tryAfterPrecommit {hS : S.Bounded} {n : Net B H} {a : Address}
    {e : Engine B H} {box : Outbox B} (h : e.Sound S a (n.votes ++ box.votes))
    (hbox : box.commit = none) (hroom : e.HasRoom) :
    n.Advances hS a e box (e.tryAfterPrecommit S.header box) := by
  unfold Engine.tryAfterPrecommit
  split
  · exact .refl h none
  split
  · exact .refl h none
  rename_i maj hmaj
  have hsupport := h.supported hS (n := n.put a e box) rfl hmaj
  split
  · rename_i hzero
    rw [hzero] at hsupport
    exact Net.advances_nextRound h hroom.2 fun _ => hsupport
  rename_i hne
  unfold Engine.enterCommit
  split
  · exact .refl h none
  split
  · exact .refl h _
  split
  · exact .refl h _
  · exact Net.advances_commit h hbox hroom.1 hne hsupport S.header _

theorem Net.advances_tryAfterPrevote {hS : S.Bounded} {n : Net B H} {a : Address}
    {e : Engine B H} {box : Outbox B} (h : e.Sound S a (n.votes ++ box.votes))
    (hbox : box.commit = none) (hroom : e.HasRoom) :
    n.Advances hS a e box (e.tryAfterPrevote S.header box) := by
  unfold Engine.tryAfterPrevote
  split
  · exact .refl h none
  rename_i hstep
  split
  · exact .refl h none
  rename_i maj hmaj
  have hvote : n.Advances hS a e box _ := Net.advances_precommit h (not_not.mp hstep) maj
  refine hvote.trans (Net.advances_tryAfterPrecommit hvote.sound hbox ?_)
  have hlock : (e.lock maj).height = e.height ∧ (e.lock maj).round = e.round := by
    unfold Engine.lock
    split <;> exact ⟨rfl, rfl⟩
  show (e.lock maj).height.toNat + 1 < 2 ^ 64 ∧ (e.lock maj).round.toNat + 1 < 2 ^ 64
  rw [hlock.1, hlock.2]
  exact hroom

/-- A change that the protocol does not see: the position, the precommit and the precommits sent
stay as they are. -/
theorem Net.advances_quiet {hS : S.Bounded} {n : Net B H} {a : Address} (e e' : Engine B H)
    (box box' : Outbox B) (h : e'.Sound S a (n.votes ++ box'.votes)) (hheight : e'.height = e.height)
    (hround : e'.round = e.round) (hcast : e'.cast = e.cast) (hcommit : box'.commit = box.commit)
    (hvotes : box.votes ⊆ box'.votes)
    (hnew : ∀ v ∈ box'.votes, v.type = .precommit → v ∈ box.votes) (err : Option ConsensusError) :
    n.Advances hS a e box ⟨e', box', err⟩ := by
  refine ⟨?_, h, hvotes⟩
  have hsame : (n.finish a ⟨e', box', err⟩).abs = (n.put a e box).abs := by
    rw [Net.finish, Net.abs_put, Net.abs_put]
    have hsent : { b | ∃ v ∈ box'.votes, v.type = .precommit ∧ v.ballot = b } =
        { b | ∃ v ∈ box.votes, v.type = .precommit ∧ v.ballot = b } := by
      ext b
      constructor
      · rintro ⟨v, hv, htype, hb⟩
        exact ⟨v, hnew v hv htype, htype, hb⟩
      · rintro ⟨v, hv, htype, hb⟩
        exact ⟨v, hvotes hv, htype, hb⟩
    simp only [Net.absPut, hheight, hround, hcast, hcommit, hsent]
  rw [hsame]
  exact .refl

theorem ValidatorSet.mem_members {vs : ValidatorSet} {addr : Address}
    (h : ¬ (vs.get? addr).isNone) : addr ∈ vs.members := by
  obtain ⟨v, hv⟩ : ∃ v, vs.get? addr = some v := by
    cases hget : vs.get? addr with
    | none => simp [hget] at h
    | some v => exact ⟨v, rfl⟩
  have hmem := List.mem_of_find?_eq_some hv
  have haddr : v.address = addr := by
    simpa using List.find?_some (p := fun v : Validator => v.address == addr) hv
  rw [members, List.mem_toFinset, ← haddr]
  exact List.mem_map_of_mem hmem

theorem Net.advances_handleVote {hS : S.Bounded} {n : Net B H} {a : Address} {e : Engine B H}
    (h : e.Sound S a n.votes) (hroom : e.HasRoom) {v : Vote}
    (hproven : S.honest v.validator → v ∈ n.votes) :
    n.Advances hS a e .empty (e.handleVote S.header v) := by
  have h' : e.Sound S a (n.votes ++ (Outbox.empty : Outbox B).votes) := by
    simpa [Outbox.empty] using h
  unfold Engine.handleVote
  split
  · exact .refl h' none
  split
  · exact .refl h' _
  rename_i hmember
  split
  · exact .refl h' none
  have hvotes : ∀ u ∈ (Outbox.empty : Outbox B).votes, u.type = .precommit →
      u ∈ (Outbox.empty : Outbox B).votes := fun u hu _ => hu
  split
  · -- prevotes do not count in the protocol
    have hquiet : ∀ vs, n.Advances hS a e .empty ⟨{ e with prevotes := vs }, .empty, none⟩ :=
      fun vs => Net.advances_quiet e { e with prevotes := vs } .empty .empty
        (h'.of_eq rfl rfl rfl rfl rfl h'.unlocked) rfl rfl rfl rfl (fun _ hu => hu) hvotes none
    unfold Engine.addPrevote
    generalize e.prevotes.add v (e.valSet.powerOf v.validator) = added
    obtain ⟨new, vs⟩ := added
    cases new with
    | false => exact hquiet vs
    | true =>
        exact (hquiet vs).trans (Net.advances_tryAfterPrevote (hquiet vs).sound rfl hroom)
  · have hquiet : n.Advances hS a e .empty ⟨(e.addPrecommit v).2, .empty, none⟩ := by
      refine Net.advances_quiet e (e.addPrecommit v).2 .empty .empty (h'.addPrecommit ?_ ?_) rfl rfl
        rfl rfl (fun _ hu => hu) hvotes none
      · simpa [Outbox.empty] using hproven
      · rw [h.valSet] at hmember
        exact ValidatorSet.mem_members hmember
    have hroom' : (e.addPrecommit v).2.HasRoom := hroom
    generalize e.addPrecommit v = added at hquiet hroom' ⊢
    obtain ⟨new, e'⟩ := added
    cases new with
    | false => exact hquiet
    | true => exact hquiet.trans (Net.advances_tryAfterPrecommit hquiet.sound rfl hroom')

theorem Net.advances_enterPrevoteEnd {hS : S.Bounded} {n : Net B H} {a : Address}
    {e : Engine B H} (h : e.Sound S a n.votes) (hroom : e.HasRoom) (job : ValidateJob B)
    (valid : Bool) : n.Advances hS a e .empty (e.enterPrevoteEnd S.header job valid) := by
  unfold Engine.enterPrevoteEnd
  simp only
  split
  · refine Net.advances_quiet e e .empty ⟨job.proposals, [], none⟩ ?_ rfl rfl rfl rfl
      (fun _ hu => hu) (fun u hu _ => hu) none
    simpa using h
  · generalize hv : e.ownVote .prevote (Engine.prevoteHash job valid) = v
    have hquiet : n.Advances hS a e .empty
        ⟨(e.addPrevote v).2, ⟨job.proposals, [v], none⟩, none⟩ := by
      refine Net.advances_quiet e (e.addPrevote v).2 .empty ⟨job.proposals, [v], none⟩ ?_ rfl rfl
        rfl rfl (by simp [Outbox.empty]) ?_ none
      · exact (h.mono (List.subset_append_left _ _)).of_eq rfl rfl rfl rfl rfl h.unlocked
      · intro u hu htype
        rw [List.mem_singleton.mp hu, ← hv] at htype
        cases htype
    exact hquiet.trans (Net.advances_tryAfterPrevote hquiet.sound rfl hroom)

/-- An engine in the same place with the same precommit. -/
structure Engine.Quiet (e e' : Engine B H) : Prop where
  height : e'.height = e.height
  round : e'.round = e.round
  cast : e'.cast = e.cast

theorem Engine.Sound.startRoundBegin {e : Engine B H} {a : Address} {votes : List Vote}
    (h : e.Sound S a votes) :
    e.startRoundBegin.1.Sound S a votes ∧ e.Quiet e.startRoundBegin.1 := by
  unfold Engine.startRoundBegin
  split
  · exact ⟨h, rfl, rfl, rfl⟩
  · rename_i hstep
    have hnew : e.step = .newRound := not_not.mp hstep
    refine ⟨⟨h.address, h.valSet, h.member, fun _ => h.unlocked (by rw [hnew]; decide), rfl, rfl,
      rfl, VoteSet.counts_new _ _ _ _ _⟩, rfl, rfl, ?_⟩
    simp [Engine.cast, hnew]

theorem Engine.Sound.enterPrevoteBegin {e : Engine B H} {a : Address} {votes : List Vote}
    (h : e.Sound S a votes) (proposals : List (Proposal B)) :
    (e.enterPrevoteBegin proposals).1.Sound S a votes ∧
      e.Quiet (e.enterPrevoteBegin proposals).1 := by
  unfold Engine.enterPrevoteBegin
  split
  · exact ⟨h, rfl, rfl, rfl⟩
  · rename_i hstep
    have hearly : e.step ≠ .precommit := by
      intro heq
      rw [heq] at hstep
      exact hstep (by decide)
    exact ⟨h.of_eq rfl rfl rfl rfl rfl fun _ => h.unlocked hearly, rfl, rfl, by
      simp [Engine.cast, hearly]⟩

theorem Engine.Sound.receive {e : Engine B H} {a : Address} {votes : List Vote}
    (h : e.Sound S a votes) (p : Proposal B) (proposals : List (Proposal B)) :
    (({ e with proposal := some p } : Engine B H).enterPrevoteBegin proposals).1.Sound S a votes ∧
      e.Quiet (({ e with proposal := some p } : Engine B H).enterPrevoteBegin proposals).1 := by
  have h' : ({ e with proposal := some p } : Engine B H).Sound S a votes :=
    h.of_eq rfl rfl rfl rfl rfl h.unlocked
  obtain ⟨hsound, hheight, hround, hcast⟩ := h'.enterPrevoteBegin proposals
  exact ⟨hsound, hheight, hround, hcast⟩

theorem Engine.Sound.startRoundEnd {e : Engine B H} {a : Address} {votes : List Vote}
    (h : e.Sound S a votes) (hash : B → Hash) (job : BuildJob) (block : Option B) :
    (e.startRoundEnd hash job block).1.Sound S a votes ∧
      e.Quiet (e.startRoundEnd hash job block).1 := by
  unfold Engine.startRoundEnd
  split
  · exact ⟨h, rfl, rfl, rfl⟩
  · split
    · exact ⟨h, rfl, rfl, rfl⟩
    · exact h.receive _ _

theorem Engine.Sound.handleProposal {e : Engine B H} {a : Address} {votes : List Vote}
    (h : e.Sound S a votes) (hash : B → Hash) (p : Proposal B) :
    (e.handleProposal hash p).1.Sound S a votes ∧ e.Quiet (e.handleProposal hash p).1 := by
  unfold Engine.handleProposal
  split
  · exact ⟨h, rfl, rfl, rfl⟩
  split
  · exact ⟨h, rfl, rfl, rfl⟩
  split
  · exact ⟨h, rfl, rfl, rfl⟩
  split
  · exact ⟨h, rfl, rfl, rfl⟩
  · exact h.receive _ _

theorem Net.advances_of_quiet {hS : S.Bounded} {n : Net B H} {a : Address} {e e' : Engine B H}
    (h : e'.Sound S a n.votes ∧ e.Quiet e') : n.Advances hS a e .empty ⟨e', .empty, none⟩ := by
  obtain ⟨hsound, hheight, hround, hcast⟩ := h
  refine Net.advances_quiet e e' .empty .empty ?_ hheight hround hcast rfl (fun _ hu => hu)
    (fun u hu _ => hu) none
  simpa [Outbox.empty] using hsound

/-- The engines of the honest validators are sound. -/
def Net.Sound (S : Setting B H) (n : Net B H) : Prop :=
  ∀ a, S.honest a → (n.engine a).Sound S a n.votes

theorem Net.sound_of_initial {n : Net B H} (h : S.Initial n) : n.Sound S := by
  intro a ha
  obtain ⟨parent, hnew⟩ := h.fresh a ha
  unfold Engine.new at hnew
  split at hnew
  · cases hnew
  rename_i hmember
  rw [h.votes, ← Except.ok.inj hnew]
  exact ⟨rfl, rfl, ValidatorSet.mem_members hmember, fun _ => rfl, rfl, rfl, rfl,
    VoteSet.counts_new _ _ _ _ _⟩

/-- A critical section of an honest engine, from the network's point of view. -/
theorem Net.Advances.net {hS : S.Bounded} {n n' : Net B H} {a : Address} {o : Outcome B H}
    (hn : n.Sound S) (h : n.Advances hS a (n.engine a) .empty o)
    (hengine : n'.engine = (n.finish a o).engine) (hvotes : n'.votes = (n.finish a o).votes)
    (hcommits : n'.commits = (n.finish a o).commits) :
    n'.Sound S ∧ (S.protocol hS).Reachable n.abs n'.abs := by
  have hbefore : (n.put a (n.engine a) .empty).abs = n.abs := by
    rw [Net.abs_put, Net.absPut]
    ext1 <;> simp [Net.abs, Outbox.empty]
  have hafter : n'.abs = (n.finish a o).abs := by
    unfold Net.abs
    rw [hengine, hvotes, hcommits]
  refine ⟨fun b hb => ?_, ?_⟩
  · rw [hengine, hvotes]
    by_cases hab : b = a
    · subst hab
      show (Function.update n.engine b o.engine b).Sound S b (n.votes ++ o.box.votes)
      rw [Function.update_self]
      exact h.sound
    · show (Function.update n.engine a o.engine b).Sound S b (n.votes ++ o.box.votes)
      rw [Function.update_of_ne hab]
      exact (hn b hb).mono (List.subset_append_left _ _)
  · rw [hafter, ← hbefore]
    exact h.reach

variable [DecidableEq B]

/-- Orderly steps of the network are steps of the protocol. -/
theorem Setting.simulates (hS : S.Bounded) {n n' : Net B H} {ev : Event B} (hn : n.Sound S)
    (horderly : Setting.Orderly n ev) (hstep : S.step n ev = some n') :
    n'.Sound S ∧ (S.protocol hS).Reachable n.abs n'.abs := by
  obtain ⟨hroom, htimeout⟩ := horderly
  cases ev with
  | startRound a =>
      simp only [Setting.step, Option.ite_none_right_eq_some, Option.some.injEq] at hstep
      obtain ⟨ha, rfl⟩ := hstep
      exact (Net.advances_of_quiet (hn a ha).startRoundBegin).net hn rfl rfl rfl
  | built a job block =>
      simp only [Setting.step, Option.ite_none_right_eq_some, Option.some.injEq] at hstep
      obtain ⟨⟨ha, -⟩, rfl⟩ := hstep
      exact (Net.advances_of_quiet ((hn a ha).startRoundEnd S.hash job block)).net hn rfl rfl rfl
  | handleProposal a p =>
      simp only [Setting.step, Option.ite_none_right_eq_some, Option.some.injEq] at hstep
      obtain ⟨⟨ha, -⟩, rfl⟩ := hstep
      exact (Net.advances_of_quiet ((hn a ha).handleProposal S.hash p)).net hn rfl rfl rfl
  | validated a job valid =>
      simp only [Setting.step, Option.ite_none_right_eq_some, Option.some.injEq] at hstep
      obtain ⟨⟨ha, -⟩, rfl⟩ := hstep
      exact (Net.advances_enterPrevoteEnd (hn a ha) hroom job valid).net hn rfl rfl rfl
  | handleVote a v =>
      simp only [Setting.step, Option.ite_none_right_eq_some, Option.some.injEq] at hstep
      obtain ⟨⟨ha, hproven⟩, rfl⟩ := hstep
      refine (Net.advances_handleVote (hn a ha) hroom fun hhonest => ?_).net hn rfl rfl rfl
      simpa [Setting.provenVote, hhonest] using hproven
  | forceTimeoutRound a =>
      simp only [Setting.step, Option.ite_none_right_eq_some, Option.some.injEq] at hstep
      obtain ⟨ha, rfl⟩ := hstep
      have hsound : (n.engine a).Sound S a (n.votes ++ (Outbox.empty : Outbox B).votes) := by
        simpa [Outbox.empty] using hn a ha
      exact (Net.advances_nextRound hsound hroom.2
        fun hlocked => absurd (htimeout rfl) hlocked).net hn rfl rfl rfl

theorem Setting.OrderlyRun.simulates (hS : S.Bounded) {n₀ n : Net B H} (h₀ : S.Initial n₀)
    (h : S.OrderlyRun n₀ n) : n.Sound S ∧ (S.protocol hS).Reachable n₀.abs n.abs := by
  induction h with
  | init => exact ⟨Net.sound_of_initial h₀, .refl⟩
  | step _ horderly hstep ih =>
      obtain ⟨hsound, hreach⟩ := Setting.simulates hS ih.1 horderly hstep
      exact ⟨hsound, ih.2.trans hreach⟩

/-- Agreement: in every orderly run, no two commits of honest engines for one height differ. -/
theorem Setting.OrderlyRun.agreement (hS : S.Bounded) {n₀ n : Net B H} (h₀ : S.Initial n₀)
    (h : S.OrderlyRun n₀ n) {c c' : Address × CommitEvent B} (hc : c ∈ n.commits)
    (hc' : c' ∈ n.commits) (hheight : c.2.height = c'.2.height) :
    c.2.blockHash = c'.2.blockHash := by
  have hinit : LockedVoting.Setting.Initial n₀.abs := by
    constructor <;> simp [Net.abs, h₀.votes, h₀.commits]
  exact LockedVoting.Setting.Reachable.decided_unique hinit (h.simulates hS h₀).2
    ⟨c, hc, rfl⟩ ⟨c', hc', rfl⟩ (congrArg BitVec.toNat hheight)

end Simulation

/-! ## Four validators -/

/-- Four honest validators of power one. Blocks are their own hashes. -/
def fourHonest : Setting Hash Unit where
  valSet := {
    validators := [⟨1, 1⟩, ⟨2, 1⟩, ⟨3, 1⟩, ⟨4, 1⟩]
    totalPower := 4
    nonempty := by decide
    nodup := by decide
    positive := by decide
    total_eq := by decide }
  honest a := a ∈ [1, 2, 3, 4]
  hash := id
  header _ := ()
  number _ := 0

/-- The fresh engines of the four. -/
def fourStart : Net Hash Unit where
  engine a := (Engine.new a fourHonest.valSet () 0).toOption.getD
    ⟨a, fourHonest.valSet, 1, 0, .newRound, (), none, .new .prevote 1 0, .new .precommit 1 0, -1, 0,
      false, none⟩
  votes := []
  proposals := []
  building := []
  validating := []
  commits := []

theorem fourHonest_bounded : fourHonest.Bounded := by
  constructor <;> decide

theorem fourStart_initial : fourHonest.Initial fourStart := by
  refine ⟨fun a ha => ⟨(), ?_⟩, rfl, rfl, rfl, rfl, rfl⟩
  have ha' : a = 1 ∨ a = 2 ∨ a = 3 ∨ a = 4 := by simpa [fourHonest] using ha
  rcases ha' with rfl | rfl | rfl | rfl <;> rfl

/-- The proposal of validator `2`, whose turn it is in round 0. -/
def firstProposal : Proposal Hash := ⟨1, 0, 7, some 7, 2⟩

/-- The proposal of validator `3`, whose turn it is in round 1. -/
def secondProposal : Proposal Hash := ⟨1, 1, 8, some 8, 3⟩

/-- A voter receives a proposal and validates it. -/
def accepts (a : Address) (p : Proposal Hash) : List (Event Hash) :=
  [.handleProposal a p, .validated a ⟨p.height, p.round, some p, -1, 0, []⟩ true]

/-- A proposer builds its block and validates it. -/
def proposes (p : Proposal Hash) : List (Event Hash) :=
  [.startRound p.proposer, .built p.proposer ⟨p.height, p.round⟩ p.block,
    .validated p.proposer ⟨p.height, p.round, some p, -1, 0, [p]⟩ true]

/-- A voter receives the votes of two others for a proposal. -/
def hears (a : Address) (type : VoteType) (p : Proposal Hash) (b c : Address) :
    List (Event Hash) :=
  [.handleVote a ⟨type, p.height, p.round, p.blockHash, b⟩,
    .handleVote a ⟨type, p.height, p.round, p.blockHash, c⟩]

/-- Validators `1`, `2` and `3` prevote and precommit the first proposal, and `1` commits it. -/
def firstRound : List (Event Hash) :=
  proposes firstProposal ++ accepts 1 firstProposal ++ accepts 3 firstProposal ++
    hears 1 .prevote firstProposal 2 3 ++ hears 2 .prevote firstProposal 1 3 ++
    hears 3 .prevote firstProposal 1 2 ++ hears 1 .precommit firstProposal 2 3

/-- The others time out before the precommits reach them and commit the second proposal. -/
def secondRound : List (Event Hash) :=
  [.forceTimeoutRound 2, .forceTimeoutRound 3, .startRound 4, .forceTimeoutRound 4] ++
    proposes secondProposal ++ accepts 2 secondProposal ++ accepts 4 secondProposal ++
    hears 2 .prevote secondProposal 3 4 ++ hears 3 .prevote secondProposal 2 4 ++
    hears 4 .prevote secondProposal 2 3 ++ hears 2 .precommit secondProposal 3 4

/-- The heights and hashes of the commits of a run. -/
def committed (n : Option (Net Hash Unit)) : Option (List (Address × U64 × Hash)) :=
  n.map fun n => n.commits.map fun c => (c.1, c.2.height, c.2.blockHash)

theorem exists_of_committed {n : Option (Net Hash Unit)} {l : List (Address × U64 × Hash)}
    (h : committed n = some l) : ∃ m, n = some m ∧
      m.commits.map (fun c => (c.1, c.2.height, c.2.blockHash)) = l := by
  cases n with
  | none => cases h
  | some m => exact ⟨m, rfl, Option.some.inj h⟩

/-- When the precommits reach validator `2` in time, it commits the same block as validator `1`. -/
theorem firstRound_agrees :
    ∃ n c c', fourHonest.OrderlyRun fourStart n ∧ c ∈ n.commits ∧ c' ∈ n.commits ∧
      c.1 = 1 ∧ c'.1 = 2 ∧ c.2.height = c'.2.height ∧ c.2.blockHash = c'.2.blockHash := by
  have hcommits : committed (fourHonest.runWhile (fun n ev => decide (Setting.Orderly n ev))
      fourStart (firstRound ++ hears 2 .precommit firstProposal 1 3)) =
      some [(1, 1, 7), (2, 1, 7)] := by
    decide
  obtain ⟨n, hrun, hlist⟩ := exists_of_committed hcommits
  have horderly := fourHonest.orderlyRun_of_runWhile .init hrun
  have hfirst : ((1, 1, 7) : Address × U64 × Hash) ∈
      n.commits.map (fun c => (c.1, c.2.height, c.2.blockHash)) := by simp [hlist]
  have hsecond : ((2, 1, 7) : Address × U64 × Hash) ∈
      n.commits.map (fun c => (c.1, c.2.height, c.2.blockHash)) := by simp [hlist]
  obtain ⟨c, hc, hceq⟩ := List.mem_map.mp hfirst
  obtain ⟨c', hc', hceq'⟩ := List.mem_map.mp hsecond
  simp only [Prod.mk.injEq] at hceq hceq'
  have hheight : c.2.height = c'.2.height := hceq.2.1.trans hceq'.2.1.symm
  exact ⟨n, c, c', horderly, hc, hc', hceq.1, hceq'.1, hheight,
    horderly.agreement fourHonest_bounded fourStart_initial hc hc' hheight⟩

/-- Timing out locked engines breaks agreement: four honest validators commit two different blocks
at height 1. -/
theorem locked_timeout_forks :
    fourHonest.Bounded ∧ fourHonest.Initial fourStart ∧
      ∃ n, fourHonest.runWhile (fun _ _ => true) fourStart (firstRound ++ secondRound) = some n ∧
        ∃ c ∈ n.commits, ∃ c' ∈ n.commits, c.2.height = c'.2.height ∧
          c.2.blockHash ≠ c'.2.blockHash := by
  have hcommits : committed (fourHonest.runWhile (fun _ _ => true) fourStart
      (firstRound ++ secondRound)) = some [(1, 1, 7), (2, 1, 8)] := by
    decide
  obtain ⟨n, hrun, hlist⟩ := exists_of_committed hcommits
  refine ⟨fourHonest_bounded, fourStart_initial, n, hrun, ?_⟩
  have hfirst : ((1, 1, 7) : Address × U64 × Hash) ∈
      n.commits.map (fun c => (c.1, c.2.height, c.2.blockHash)) := by simp [hlist]
  have hsecond : ((2, 1, 8) : Address × U64 × Hash) ∈
      n.commits.map (fun c => (c.1, c.2.height, c.2.blockHash)) := by simp [hlist]
  obtain ⟨c, hc, hceq⟩ := List.mem_map.mp hfirst
  obtain ⟨c', hc', hceq'⟩ := List.mem_map.mp hsecond
  simp only [Prod.mk.injEq] at hceq hceq'
  refine ⟨c, hc, c', hc', hceq.2.1.trans hceq'.2.1.symm, ?_⟩
  rw [hceq.2.2, hceq'.2.2]
  decide

end Dew.Consensus
