/-
# Certificates and decisions

A commit is decided by the precommits that the engine has recorded. The power behind a hash is summed
up as the votes arrive, with the powers of the set held at that time, and compared with the total of
the set held when the check is run; and the check is run only when a precommit arrives in the step
`precommit`.

The precommits of a commit are a certificate under the set of the engine as long as `ReplaceValSet`
leaves the powers behind the recorded precommits as they are (`CarriesOver`), and no decided block is
left uncommitted as long as a decision is not completed where no check follows (`Late`).
-/
import Dew.VoteRecords

namespace Dew.Consensus

variable {B H : Type}

/-! ## Vote sets under a changed validator set -/

theorem ValidatorSet.powerOf_of_not_mem {vs : ValidatorSet} {a : Address} (h : a ∉ vs.members) :
    vs.powerOf a = 0 := by
  have hnone : vs.get? a = none := by
    by_contra hne
    exact h (ValidatorSet.mem_members (by simpa using hne))
  simp [powerOf, hnone]

namespace VoteSet

theorem mem_votesFor {vs : VoteSet} {hash : Hash} {v : Vote} :
    v ∈ vs.votesFor hash ↔ (∃ a, vs.byAddr.get? a = some v) ∧ v.blockHash = hash := by
  unfold votesFor
  rw [List.mem_filter, List.mem_map, beq_iff_eq]
  refine and_congr_left fun _ => ?_
  constructor
  · rintro ⟨⟨a, w⟩, hw, rfl⟩
    exact ⟨a, AList.mem_lookup_iff.mpr hw⟩
  · rintro ⟨a, ha⟩
    exact ⟨⟨a, v⟩, AList.mem_lookup_iff.mp ha, rfl⟩

/-- If there is no majority, no hash has a quorum. -/
theorem no_quorum_of_majorityHash {vs : VoteSet} {total : U64} (h : vs.majorityHash total = none)
    (hash : Hash) : hasQuorum (vs.powerFor hash) total = false := by
  by_cases hmem : hash ∈ vs.power.keys
  · simpa using List.find?_eq_none.mp h hash hmem
  · have hzero : vs.powerFor hash = 0 := by
      have hnone : vs.power.get? hash = none := by
        by_contra hne
        exact hmem ((GoMap.isSome_get? _ _).mp (Option.isSome_iff_ne_none.mpr hne))
      simp [powerFor, hnone]
    rw [hzero]
    unfold hasQuorum
    split
    · rfl
    · simp [BitVec.lt_def]

namespace Counts

variable {vs : VoteSet} {set set' : ValidatorSet} {proven : Vote → Prop}

/-- The voters are different validators. -/
theorem nodup_votesFor (h : vs.Counts set proven) (hash : Hash) :
    ((vs.votesFor hash).map Vote.validator).Nodup := by
  have hkeys : (vs.byAddr.entries.map Sigma.snd).map Vote.validator = vs.byAddr.keys := by
    rw [List.map_map]
    refine List.map_congr_left ?_
    rintro ⟨a, v⟩ hv
    exact (h.slot a v (AList.mem_lookup_iff.mpr hv)).1
  have hsub : ((vs.votesFor hash).map Vote.validator).Sublist
      ((vs.byAddr.entries.map Sigma.snd).map Vote.validator) := List.filter_sublist.map _
  rw [hkeys] at hsub
  exact vs.byAddr.keys_nodup.sublist hsub

/-- The recorded power behind a hash is that of its voters. -/
theorem sum_votesFor (h : vs.Counts set proven)
    (hmember : ∀ a v, vs.byAddr.get? a = some v → (set.get? a).isSome) (hash : Hash) :
    ((vs.votesFor hash).map fun v => (set.powerOf v.validator).toNat).sum =
      (vs.powerFor hash).toNat := by
  have hvoters : (set.members.filter fun a =>
      (vs.byAddr.get? a).map Vote.blockHash = some hash) =
      ((vs.votesFor hash).map Vote.validator).toFinset := by
    ext a
    simp only [Finset.mem_filter, List.mem_toFinset, List.mem_map, mem_votesFor,
      Option.map_eq_some_iff]
    constructor
    · rintro ⟨-, v, hv, hhash⟩
      exact ⟨v, ⟨⟨a, hv⟩, hhash⟩, (h.slot a v hv).1⟩
    · rintro ⟨v, ⟨⟨b, hb⟩, hhash⟩, rfl⟩
      have hbv := (h.slot b v hb).1
      rw [← hbv] at hb
      exact ⟨ValidatorSet.mem_members_of_isSome (hmember _ v hb), v, hb, hhash⟩
  rw [h.power, hvoters, List.sum_toFinset _ (h.nodup_votesFor hash), List.map_map]
  rfl

/-- A stranger's vote is recorded without power. -/
theorem add_any (h : vs.Counts set proven) {v : Vote} (hproven : proven v) :
    (vs.add v (set.powerOf v.validator)).2.Counts set proven := by
  by_cases hmember : v.validator ∈ set.members
  · exact h.add hproven hmember
  rw [ValidatorSet.powerOf_of_not_mem hmember]
  unfold VoteSet.add
  split
  · exact h
  rename_i hslot
  split
  · exact h
  push Not at hslot
  constructor
  · intro hash
    have hsame : (set.members.filter fun a =>
        ((vs.byAddr.set v.validator v).get? a).map Vote.blockHash = some hash) =
        set.members.filter fun a => (vs.byAddr.get? a).map Vote.blockHash = some hash := by
      refine Finset.filter_congr fun a ha => ?_
      rw [GoMap.get?_set, if_neg]
      rintro rfl
      exact hmember ha
    show (((vs.power.set v.blockHash (vs.powerFor v.blockHash + 0)).get? hash).getD 0).toNat = _
    rw [hsame, ← h.power hash, GoMap.get?_set]
    split
    · rename_i heq
      subst heq
      simp
    · rfl
  · intro a u hu
    rw [GoMap.get?_set] at hu
    split at hu
    · rename_i ha
      cases hu
      exact ⟨ha.symm, hslot.1, hslot.2.1, hslot.2.2, hproven⟩
    · exact h.slot a u hu

/-- A set in which the voters have the same powers. -/
theorem replace (h : vs.Counts set proven)
    (hpower : ∀ a v, vs.byAddr.get? a = some v → set'.powerOf a = set.powerOf a) :
    vs.Counts set' proven where
  slot := h.slot
  power hash := by
    -- outside its members a set gives no power, so both sums run over the members of either set
    have hwiden : ∀ s : ValidatorSet, s.members ⊆ set.members ∪ set'.members →
        ∑ a ∈ s.members.filter (fun a => (vs.byAddr.get? a).map Vote.blockHash = some hash),
          (s.powerOf a).toNat =
        ∑ a ∈ (set.members ∪ set'.members).filter
          (fun a => (vs.byAddr.get? a).map Vote.blockHash = some hash), (s.powerOf a).toNat := by
      intro s hs
      refine Finset.sum_subset (Finset.filter_subset_filter _ hs) ?_
      intro a ha hnot
      have hstranger : a ∉ s.members := fun hmem =>
        hnot (Finset.mem_filter.mpr ⟨hmem, (Finset.mem_filter.mp ha).2⟩)
      rw [ValidatorSet.powerOf_of_not_mem hstranger]
      rfl
    rw [h.power hash, hwiden set Finset.subset_union_left, hwiden set' Finset.subset_union_right]
    refine Finset.sum_congr rfl fun a ha => ?_
    obtain ⟨v, hv, -⟩ := Option.map_eq_some_iff.mp (Finset.mem_filter.mp ha).2
    rw [hpower a v hv]

end Counts

end VoteSet

/-! ## The certificate of a commit -/

/-- The precommits of a commit prove it under a validator set: they come from different members, are
signed for the event, and have more than two thirds of the power. -/
structure Certified (signed : Vote → Prop) (set : ValidatorSet) (c : CommitEvent B) : Prop where
  distinct : (c.precommits.map Vote.validator).Nodup
  member : ∀ v ∈ c.precommits, (set.get? v.validator).isSome
  signed : ∀ v ∈ c.precommits, v.type = .precommit ∧ v.height = c.height ∧ v.round = c.round ∧
    v.blockHash = c.blockHash ∧ signed v
  quorum : 2 * set.totalPower.toNat <
    3 * (c.precommits.map fun v => (set.powerOf v.validator).toNat).sum

namespace Process

variable {K : Blocks B H} {signed : Vote → Prop} {ev : Input B} {P P' : Process B H}

/-- A delivered vote is signed. A new set has a total that can be tripled, contains the engine, and
gives every validator with a recorded precommit the power it had. -/
def CarriesOver (signed : Vote → Prop) (P : Process B H) : Input B → Prop
  | .handleVote v => signed v
  | .replaceValSet vs =>
    3 * vs.totalPower.toNat < 2 ^ 64 ∧ (vs.get? P.engine.address).isSome ∧
      ∀ a v, P.engine.precommits.byAddr.get? a = some v →
        (vs.get? a).isSome ∧ vs.powerOf a = P.engine.valSet.powerOf a
  | _ => True

/-- The precommits are counted under the current set, and all commits so far are certified. -/
structure Backed (signed : Vote → Prop) (P : Process B H) : Prop where
  aligned : P.engine.Aligned
  counts : P.engine.precommits.Counts P.engine.valSet signed
  members : ∀ a v, P.engine.precommits.byAddr.get? a = some v → (P.engine.valSet.get? a).isSome
  own : (P.engine.valSet.get? P.engine.address).isSome
  small : 3 * P.engine.valSet.totalPower.toNat < 2 ^ 64
  certified : ∀ c ∈ P.commits, Certified signed c.1 c.2

theorem members_add {vs : VoteSet} {set : ValidatorSet} {v : Vote}
    (h : ∀ a v, vs.byAddr.get? a = some v → (set.get? a).isSome)
    (hv : (set.get? v.validator).isSome) (power : U64) (a : Address) (w : Vote)
    (hw : (vs.add v power).2.byAddr.get? a = some w) : (set.get? a).isSome := by
  unfold VoteSet.add at hw
  split at hw
  · exact h a w hw
  split at hw
  · exact h a w hw
  rw [show (_ : GoMap Address Vote).get? a = _ from GoMap.get?_set vs.byAddr v.validator a v] at hw
  split at hw
  · rename_i ha
    rw [ha]
    exact hv
  · exact h a w hw

/-- Moves that record no precommit. -/
theorem Backed.keep (h : Backed signed P) (haligned : P'.engine.Aligned)
    (hvalSet : P'.engine.valSet = P.engine.valSet)
    (haddress : P'.engine.address = P.engine.address)
    (hprecommits : P'.engine.precommits = P.engine.precommits ∨
      P'.engine.precommits = VoteSet.new .precommit P'.engine.height P'.engine.round)
    (hcommits : ∀ c ∈ P'.commits, c ∈ P.commits ∨ Certified signed c.1 c.2) :
    Backed signed P' where
  aligned := haligned
  counts := by
    rw [hvalSet]
    rcases hprecommits with heq | heq
    · rw [heq]
      exact h.counts
    · rw [heq]
      exact VoteSet.counts_new ..
  members := by
    rw [hvalSet]
    rcases hprecommits with heq | heq
    · rw [heq]
      exact h.members
    · rw [heq]
      intro a v hv
      cases hv
  own := by
    rw [hvalSet, haddress]
    exact h.own
  small := by
    rw [hvalSet]
    exact h.small
  certified c hc := by
    rcases hcommits c hc with hc | hc
    · exact h.certified c hc
    · exact hc

/-- Recording a precommit of a member. -/
theorem Backed.record (h : Backed signed P) {v : Vote} (hsigned : signed v)
    (hmember : (P.engine.valSet.get? v.validator).isSome) (haligned : P'.engine.Aligned)
    (hvalSet : P'.engine.valSet = P.engine.valSet)
    (haddress : P'.engine.address = P.engine.address)
    (hprecommits : P'.engine.precommits =
      (P.engine.precommits.add v (P.engine.valSet.powerOf v.validator)).2)
    (hcommits : P'.commits = P.commits) : Backed signed P' where
  aligned := haligned
  counts := by
    rw [hvalSet, hprecommits]
    exact h.counts.add_any hsigned
  members := by
    rw [hvalSet, hprecommits]
    exact members_add h.members hmember _
  own := by
    rw [hvalSet, haddress]
    exact h.own
  small := by
    rw [hvalSet]
    exact h.small
  certified := by
    rw [hcommits]
    exact h.certified

theorem Backed.quiet {P₀ : Process B H} (h : Backed signed P)
    (hsign : ∀ type height round hash, signed ⟨type, height, round, hash, P.engine.address⟩)
    (hC : CarriesOver signed P₀ ev) (hq : Quiet K ev P P') : Backed signed P' := by
  have haligned : P'.engine.Aligned := Aligned.quiet h.aligned hq
  have haddress := hq.address
  cases hq with
  | recordPrecommit v hev hmember =>
      subst hev
      exact h.record hC hmember haligned rfl rfl rfl rfl
  | precommit maj hstep hmaj =>
      refine h.record (hsign .precommit P.engine.height P.engine.round maj) h.own haligned ?_
        haddress ?_ rfl
      · simp only [Engine.lock_eq, Engine.addPrecommit_snd]
      · simp only [Engine.lock_eq, Engine.addPrecommit_snd, Engine.ownVote]
  | _ => exact h.keep haligned rfl rfl (.inl rfl) fun c hc => .inl hc

/-- A commit with a quorum of the counted precommits is certified. -/
theorem Backed.commit (h : Backed signed P) {p : Proposal B}
    (hmaj : P.engine.precommits.majorityHash P.engine.valSet.totalPower = some p.blockHash) :
    Certified signed P.engine.valSet (P.engine.commitEvent p p.blockHash) where
  distinct := h.counts.nodup_votesFor _
  member v hv := by
    obtain ⟨⟨a, ha⟩, -⟩ := VoteSet.mem_votesFor.mp hv
    rw [(h.counts.slot a v ha).1]
    exact h.members a v ha
  signed v hv := by
    obtain ⟨⟨a, ha⟩, hhash⟩ := VoteSet.mem_votesFor.mp hv
    obtain ⟨-, htype, hheight, hround, hsigned⟩ := h.counts.slot a v ha
    obtain ⟨hsetType, hsetHeight, hsetRound⟩ := h.aligned .precommit
    exact ⟨htype.trans hsetType, hheight.trans hsetHeight, hround.trans hsetRound, hhash, hsigned⟩
  quorum := by
    have hquorum := h.counts.quorum h.small (VoteSet.hasQuorum_of_majorityHash hmaj)
    rw [← h.counts.sum_votesFor h.members] at hquorum
    exact hquorum

theorem Backed.final (h : Backed signed P) (hf : Final K P P') : Backed signed P' := by
  have hnew : P'.engine.Aligned := by
    cases hf <;> exact Engine.aligned_of_new fun t => by cases t <;> rfl
  cases hf with
  | nextRound => exact h.keep hnew rfl rfl (.inr rfl) fun c hc => .inl hc
  | commit p hstep hmaj hne hp =>
      refine h.keep hnew rfl rfl (.inr rfl) ?_
      intro c hc
      rcases List.mem_append.mp hc with hc | hc
      · exact .inl hc
      · rw [List.mem_singleton.mp hc]
        exact .inr (h.commit hmaj)
  | sync b hnumber hparent => exact h.keep hnew rfl rfl (.inr rfl) fun c hc => .inl hc

theorem Backed.step (h : Backed signed P)
    (hsign : ∀ type height round hash, signed ⟨type, height, round, hash, P.engine.address⟩)
    (hC : CarriesOver signed P ev) (hstep : P.step K ev = some P') :
    Backed signed P' ∧ P'.engine.address = P.engine.address := by
  refine keeps_step (I := fun Q => Backed signed Q ∧ Q.engine.address = P.engine.address)
    ?_ ?_ ?_ ?_ ⟨h, rfl⟩ hstep
  · intro jobs _ _ _
    refine ⟨h.keep ?_ rfl rfl (.inr rfl) fun c hc => .inl hc, rfl⟩
    exact Engine.aligned_of_new fun t => by cases t <;> rfl
  · rintro vs rfl
    obtain ⟨hsmall, hown, hcarry⟩ := hC
    refine ⟨⟨?_, h.counts.replace fun a v hv => (hcarry a v hv).2,
      fun a v hv => (hcarry a v hv).1, hown, hsmall, h.certified⟩, rfl⟩
    intro t
    cases t
    · exact h.aligned .prevote
    · exact h.aligned .precommit
  · rintro Q Q' ⟨hQ, haddress⟩ hm
    refine ⟨hQ.quiet ?_ hC hm, hm.address.trans haddress⟩
    rw [haddress]
    exact hsign
  · rintro Q _ _ ⟨hQ, haddress⟩ hm
    exact ⟨hQ.final hm, hm.address.trans haddress⟩

/-- Every commit carries a valid certificate under the set that the engine holds, in every run in
which the delivered votes are signed and every new set carries the recorded precommits over. -/
theorem commits_certified {a : Address} {vs : ValidatorSet} {parent : H} {n : U64} {e : Engine B H}
    (hnew : Engine.new a vs parent n = .ok e) (hsmall : 3 * vs.totalPower.toNat < 2 ^ 64)
    (hsign : ∀ type height round hash, signed ⟨type, height, round, hash, a⟩)
    (h : Reached K (fun P ev _ => CarriesOver signed P ev) (start e) P) :
    ∀ c ∈ P.commits, Certified signed c.1 c.2 := by
  obtain ⟨hmember, rfl⟩ := Engine.new_ok_iff.mp hnew
  -- the address stays, so the votes of the engine are signed with its key throughout
  have hbacked : Backed signed P ∧ P.engine.address = a := by
    refine h.invariant (I := fun Q => Backed signed Q ∧ Q.engine.address = a) ?_ ?_
    · exact ⟨⟨aligned_fresh, VoteSet.counts_new .., by rintro b v ⟨⟩, hmember, hsmall,
        by rintro c ⟨⟩⟩, rfl⟩
    · rintro Q ev Q' ⟨hQ, rfl⟩ hC hs
      exact hQ.step hsign hC hs
  exact hbacked.1.certified

/-- The commit of a single validator is certified by its own precommit. -/
theorem sole_commit_certified :
    ∃ P, Reached numbered (fun P ev _ => CarriesOver (fun _ => True) P ev) soleStart P ∧
      P.commits.length = 1 ∧ ∀ c ∈ P.commits, Certified (fun _ => True) c.1 c.2 := by
  have hrun : ((soleStart.step numbered .startRound).bind fun P₁ =>
      (P₁.step numbered (.built 0 (some (1, 7)))).bind fun P₂ =>
      (P₂.step numbered (.validated 0 true)).map fun P₃ => P₃.commits.length) = some 1 := by
    decide
  obtain ⟨P₁, h₁, hrun⟩ := Option.bind_eq_some_iff.mp hrun
  obtain ⟨P₂, h₂, hrun⟩ := Option.bind_eq_some_iff.mp hrun
  obtain ⟨P₃, h₃, hcommits⟩ := Option.map_eq_some_iff.mp hrun
  have hstart : CarriesOver (fun _ => True) soleStart .startRound := trivial
  have hbuilt : CarriesOver (fun _ => True) P₁ (.built 0 (some (1, 7))) := trivial
  have hvalidated : CarriesOver (fun _ => True) P₂ (.validated 0 true) := trivial
  have hreached : Reached numbered (fun P ev _ => CarriesOver (fun _ => True) P ev) soleStart P₃ :=
    ((Reached.start.step hstart h₁).step hbuilt h₂).step hvalidated h₃
  exact ⟨P₃, hreached, hcommits, commits_certified (Engine.new_ok_iff.mpr ⟨by decide, rfl⟩)
    (by decide) (fun _ _ _ _ => trivial) hreached⟩

/-- Three validators of power four. -/
def oldPowers : ValidatorSet where
  validators := [⟨1, 4⟩, ⟨2, 4⟩, ⟨3, 4⟩]
  totalPower := 12
  nonempty := by decide
  nodup := by decide
  positive := by decide
  total_eq := by decide

/-- The same total, with most of it at validator `3`. -/
def newPowers : ValidatorSet where
  validators := [⟨1, 1⟩, ⟨2, 1⟩, ⟨3, 9⟩, ⟨4, 1⟩]
  totalPower := 12
  nonempty := by decide
  nodup := by decide
  positive := by decide
  total_eq := by decide

/-- Two precommits are recorded with their old powers; under the new set the vote of validator `4`
completes what the engine takes for a quorum, though the three voters have a quarter of the power. -/
theorem replaced_set_uncertified :
    ∃ P, Reached numbered (fun _ _ _ => True) (start (.fresh 1 oldPowers 0 0)) P ∧
      ∃ c ∈ P.commits, c.1.totalPower = 12 ∧
        c.2.precommits.map (fun v => (c.1.powerOf v.validator).toNat) = [1, 1, 1] ∧
        ¬Certified (fun _ => True) c.1 c.2 := by
  have hrun : ((runWhile numbered (fun _ _ _ => True) (start (.fresh 1 oldPowers 0 0))
      [.startRound, .built 0 (some (1, 7)), .validated 0 true,
        .handleVote ⟨.prevote, 1, 0, 7, 2⟩, .handleVote ⟨.prevote, 1, 0, 7, 3⟩,
        .handleVote ⟨.precommit, 1, 0, 7, 2⟩, .replaceValSet newPowers,
        .handleVote ⟨.precommit, 1, 0, 7, 4⟩]).map fun P => P.commits.map fun c =>
      (c.1.totalPower, c.2.precommits.map fun v => (c.1.powerOf v.validator).toNat)) =
      some [(12, [1, 1, 1])] := by
    decide
  obtain ⟨P, hP, hcommits⟩ := Option.map_eq_some_iff.mp hrun
  obtain ⟨c, hc⟩ : ∃ c, P.commits = [c] := List.length_eq_one_iff.mp (by
    rw [← List.length_map, hcommits]
    rfl)
  rw [hc, List.map_singleton, List.cons.injEq, Prod.mk.injEq] at hcommits
  obtain ⟨⟨htotal, hpowers⟩, -⟩ := hcommits
  refine ⟨P, reached_of_runWhile hP, c, by simp [hc], htotal, hpowers, fun hcert => ?_⟩
  have hquorum := hcert.quorum
  rw [htotal, hpowers] at hquorum
  exact absurd hquorum (by decide)

end Process

/-! ## Decided blocks -/

namespace Engine

/-- The recorded precommits have a quorum for a hash. -/
def Precommitted (e : Engine B H) (hash : Hash) : Prop :=
  hasQuorum (e.precommits.powerFor hash) e.valSet.totalPower = true

/-- There is no decided block: a quorum of precommits for the stored proposal, with its block. -/
def Undecided (e : Engine B H) : Prop :=
  ∀ p, e.proposal = some p → p.block.isSome → p.blockHash ≠ 0 → ¬e.Precommitted p.blockHash

theorem undecided_of_none {e : Engine B H} (h : e.proposal = none) : e.Undecided := by
  intro p hp
  rw [h] at hp
  cases hp

theorem undecided_congr {e e' : Engine B H} (hproposal : e'.proposal = e.proposal)
    (hprecommits : e'.precommits = e.precommits) (hvalSet : e'.valSet = e.valSet) :
    e'.Undecided ↔ e.Undecided := by
  unfold Undecided Precommitted
  rw [hproposal, hprecommits, hvalSet]

/-- The precommits are counted under the current set, whose total can be tripled. -/
structure Tallied (e : Engine B H) : Prop where
  counts : e.precommits.Counts e.valSet fun _ => True
  small : 3 * e.valSet.totalPower.toNat < 2 ^ 64
  open_ : e.committed = false

/-- The check in the step `precommit` leaves no decided block behind. -/
theorem Tallied.tryAfterPrecommit {e : Engine B H} (h : e.Tallied) (header : B → H) (box : Outbox B)
    (hstep : e.step = .precommit) : (e.tryAfterPrecommit header box).engine.Undecided := by
  unfold Engine.tryAfterPrecommit
  rw [if_neg (not_not.mpr hstep)]
  split
  · rename_i hnone
    intro p _ _ _ hq
    rw [Precommitted, VoteSet.no_quorum_of_majorityHash hnone] at hq
    cases hq
  rename_i maj hmaj
  split
  · exact undecided_of_none rfl
  unfold Engine.enterCommit
  rw [if_neg (by simp [h.open_])]
  split
  · rename_i hp
    exact undecided_of_none hp
  rename_i p hp
  split
  · -- another hash has the quorum, and there is only one
    rename_i hne
    intro q hq _ _ hquorum
    rw [show q = p from Option.some.inj (hq.symm.trans hp)] at hquorum
    exact hne (h.counts.majority_unique h.small hquorum (VoteSet.hasQuorum_of_majorityHash hmaj))
  · exact undecided_of_none rfl

theorem Tallied.addPrecommit {e : Engine B H} (h : e.Tallied) (v : Vote) :
    (e.addPrecommit v).2.Tallied where
  counts := h.counts.add_any trivial
  small := h.small
  open_ := h.open_

theorem Tallied.lock {e : Engine B H} (h : e.Tallied) (hash : Hash) : (e.lock hash).Tallied := by
  rw [lock_eq]
  exact ⟨h.counts, h.small, h.open_⟩

theorem Tallied.tryAfterPrevote {e : Engine B H} (h : e.Tallied) (header : B → H) (box : Outbox B)
    (hundecided : e.Undecided) : (e.tryAfterPrevote header box).engine.Undecided := by
  unfold Engine.tryAfterPrevote
  split
  · exact hundecided
  split
  · exact hundecided
  rename_i maj hmaj
  refine ((h.lock maj).addPrecommit _).tryAfterPrecommit header _ ?_
  rw [lock_eq]
  rfl

/-- `HandleProposal` stores a proposal. -/
structure Stores (hash : B → Hash) (e : Engine B H) (p : Proposal B) : Prop where
  first : e.proposal = none
  height : p.height = e.height
  round : p.round = e.round
  proposer : p.proposer = e.valSet.proposer e.height e.round
  hash : ∀ b, p.block = some b → hash b = p.blockHash

theorem enterPrevoteBegin_same (e : Engine B H) (ps : List (Proposal B)) :
    (e.enterPrevoteBegin ps).1.proposal = e.proposal ∧
      (e.enterPrevoteBegin ps).1.precommits = e.precommits ∧
      (e.enterPrevoteBegin ps).1.valSet = e.valSet := by
  unfold enterPrevoteBegin
  split <;> exact ⟨rfl, rfl, rfl⟩

/-- Storing a proposal for which there is already a quorum decides it. -/
theorem undecided_store {e e' : Engine B H} {p : Proposal B} (hproposal : e'.proposal = some p)
    (hprecommits : e'.precommits = e.precommits) (hvalSet : e'.valSet = e.valSet) :
    e'.Undecided ↔ ¬(p.block.isSome ∧ p.blockHash ≠ 0 ∧ e.Precommitted p.blockHash) := by
  unfold Undecided Precommitted
  rw [hprecommits, hvalSet]
  constructor
  · rintro h ⟨hblock, hne, hq⟩
    exact h p hproposal hblock hne hq
  · rintro h q hq hblock hne hquorum
    rw [show q = p from Option.some.inj (hq.symm.trans hproposal)] at hblock hne hquorum
    exact h ⟨hblock, hne, hquorum⟩

theorem handleProposal_stores {hash : B → Hash} {e : Engine B H} {p : Proposal B}
    (h : e.Stores hash p) : (e.handleProposal hash p).1.proposal = some p ∧
      (e.handleProposal hash p).1.precommits = e.precommits ∧
      (e.handleProposal hash p).1.valSet = e.valSet := by
  unfold handleProposal
  rw [if_neg, if_neg (by simp [h.height, h.round]), if_neg (by simp [h.first]),
    if_neg (not_not.mpr h.proposer)]
  · exact enterPrevoteBegin_same _ _
  · cases hb : p.block with
    | none => simp
    | some b => simp [h.hash b hb]

theorem handleProposal_ignores {hash : B → Hash} {e : Engine B H} {p : Proposal B}
    (h : ¬e.Stores hash p) : (e.handleProposal hash p).1 = e := by
  unfold handleProposal
  split
  · rfl
  rename_i hhash
  split
  · rfl
  rename_i hslot
  push Not at hslot
  split
  · rfl
  rename_i hfirst
  split
  · rfl
  rename_i hproposer
  refine absurd ⟨by simpa using hfirst, hslot.1, hslot.2, not_not.mp hproposer, ?_⟩ h
  intro b hb
  by_contra hne
  exact hhash (by simp [hb, hne])

end Engine

namespace Process

variable {K : Blocks B H} {ev : Input B} {P P' : Process B H}

/-- A new set has a total that can be tripled and leaves the powers behind the recorded precommits as
they are. -/
def SamePowers (P : Process B H) : Input B → Prop
  | .replaceValSet vs =>
    3 * vs.totalPower.toNat < 2 ^ 64 ∧
      ∀ a v, P.engine.precommits.byAddr.get? a = some v → vs.powerOf a = P.engine.valSet.powerOf a
  | _ => True

/-- An input completes a decision where no check follows: it stores a proposal with its block for
which there is already a quorum, records the last precommit outside the step `precommit`, or lowers
the total of the set. -/
def Late (K : Blocks B H) (P : Process B H) : Input B → Prop
  | .built i block => ∃ job b, P.building[i]? = some job ∧ block = some b ∧
      P.engine.height = job.height ∧ P.engine.round = job.round ∧ P.engine.step = .propose ∧
      K.hash b ≠ 0 ∧ P.engine.Precommitted (K.hash b)
  | .handleProposal p => P.engine.Stores K.hash p ∧ p.block.isSome ∧ p.blockHash ≠ 0 ∧
      P.engine.Precommitted p.blockHash
  | .handleVote v => v.type = .precommit ∧ P.engine.step ≠ .precommit ∧
      v.height = P.engine.height ∧ v.round = P.engine.round ∧
      (P.engine.valSet.get? v.validator).isSome ∧ ¬(P.engine.addPrecommit v).2.Undecided
  | .replaceValSet vs => ¬(P.engine.replaceValSet vs).Undecided
  | _ => False

theorem Tallied.step (h : P.engine.Tallied) (hC : P.SamePowers ev) (hstep : P.step K ev = some P') :
    P'.engine.Tallied := by
  refine keeps_step (I := fun Q => Q.engine.Tallied) ?_ ?_ ?_ ?_ h hstep
  · intro jobs _ _ _
    exact ⟨VoteSet.counts_new .., h.small, rfl⟩
  · rintro vs rfl
    exact ⟨h.counts.replace hC.2, hC.1, h.open_⟩
  · intro Q Q' hQ hm
    cases hm with
    | recordPrecommit v hev hmember => exact hQ.addPrecommit v
    | precommit maj hprevote hmaj => exact (hQ.lock maj).addPrecommit _
    | _ => exact ⟨hQ.counts, hQ.small, hQ.open_⟩
  · intro Q _ _ hQ hm
    cases hm <;> exact ⟨VoteSet.counts_new .., hQ.small, rfl⟩

/-- A recorded precommit is checked just in the step `precommit`. -/
theorem undecided_record (header : B → H) {e : Engine B H} (ht : e.Tallied) (hu : e.Undecided)
    (v : Vote) :
    (match e.addPrecommit v with
      | (false, e) => (⟨e, .empty, none⟩ : Outcome B H)
      | (true, e) => e.tryAfterPrecommit header .empty).engine.Undecided ↔
      e.step = .precommit ∨ (e.addPrecommit v).2.Undecided := by
  have htally := ht.addPrecommit v
  have hsame : (e.addPrecommit v).2.step = e.step := rfl
  by_cases hstep : e.step = .precommit
  · refine iff_of_true ?_ (.inl hstep)
    split
    · rename_i e' heq
      have hold := VoteSet.add_old (congrArg Prod.fst heq)
      have he' : e' = e := by
        rw [← show (e.addPrecommit v).2 = e' by rw [heq], Engine.addPrecommit_snd, hold]
      rw [he']
      exact hu
    · rename_i e' heq
      rw [heq] at htally hsame
      exact htally.tryAfterPrecommit header _ (hsame.trans hstep)
  · rw [or_iff_right hstep]
    split
    · rename_i e' heq
      rw [heq]
    · rename_i e' heq
      rw [heq] at hsame ⊢
      unfold Engine.tryAfterPrecommit
      rw [if_pos fun h => hstep (hsame.symm.trans h)]

theorem undecided_handleVote {header : B → H} {e : Engine B H} (ht : e.Tallied)
    (hu : e.Undecided) (v : Vote) :
    (e.handleVote header v).engine.Undecided ↔
      ¬(v.type = .precommit ∧ e.step ≠ .precommit ∧ v.height = e.height ∧ v.round = e.round ∧
        (e.valSet.get? v.validator).isSome ∧ ¬(e.addPrecommit v).2.Undecided) := by
  unfold Engine.handleVote
  split
  · rename_i hheight
    exact iff_of_true hu fun h => hheight h.2.2.1
  rename_i hheight
  split
  · rename_i hmember
    exact iff_of_true hu fun h => by simp [Option.isNone_iff_eq_none.mp hmember] at h
  rename_i hmember
  split
  · rename_i hround
    exact iff_of_true hu fun h => hround h.2.2.2.1
  rename_i hround
  split
  · -- a prevote may lead to a precommit, which is followed by the check
    rename_i htype
    refine iff_of_true ?_ fun h => by simp [htype] at h
    have hadd : (e.addPrevote v).2.Undecided := (Engine.undecided_congr rfl rfl rfl).mpr hu
    have htally : (e.addPrevote v).2.Tallied := ⟨ht.counts, ht.small, ht.open_⟩
    split
    · rename_i e' heq
      rw [heq] at hadd
      exact hadd
    · rename_i e' heq
      rw [heq] at hadd htally
      exact htally.tryAfterPrevote header _ hadd
  · rename_i htype
    have hmember : (e.valSet.get? v.validator).isSome := by
      simpa [Option.isSome_iff_ne_none] using hmember
    refine (undecided_record header ht hu v).trans ?_
    constructor
    · rintro (hstep | hundecided) ⟨-, hne, -, -, -, hdecided⟩
      · exact hne hstep
      · exact hdecided hundecided
    · intro hnot
      by_contra hcon
      rw [not_or] at hcon
      exact hnot ⟨htype, hcon.1, not_not.mp hheight, not_not.mp hround, hmember, hcon.2⟩

theorem undecided_startRoundEnd (hash : B → Hash) {e : Engine B H} (hu : e.Undecided)
    (job : BuildJob) (block : Option B) :
    (e.startRoundEnd hash job block).1.Undecided ↔
      ¬∃ b, block = some b ∧ e.height = job.height ∧ e.round = job.round ∧ e.step = .propose ∧
        hash b ≠ 0 ∧ e.Precommitted (hash b) := by
  unfold Engine.startRoundEnd
  split
  · rename_i hstale
    refine iff_of_true hu ?_
    rintro ⟨b, -, hheight, hround, hpropose, -⟩
    rcases hstale with hs | hs | hs
    · exact hs hheight
    · exact hs hround
    · exact hs hpropose
  rename_i hslot
  push Not at hslot
  split
  · refine iff_of_true hu ?_
    rintro ⟨b, hb, -⟩
    cases hb
  rename_i b
  obtain ⟨hproposal, hprecommits, hvalSet⟩ := Engine.enterPrevoteBegin_same
    ({ e with proposal := some ⟨job.height, job.round, hash b, some b, e.address⟩ } : Engine B H)
    [⟨job.height, job.round, hash b, some b, e.address⟩]
  refine (Engine.undecided_store (e := e) hproposal hprecommits hvalSet).trans (not_congr ?_)
  constructor
  · rintro ⟨-, hne, hq⟩
    exact ⟨b, rfl, hslot.1, hslot.2.1, hslot.2.2, hne, hq⟩
  · rintro ⟨b', hb', -, -, -, hne, hq⟩
    cases hb'
    exact ⟨rfl, hne, hq⟩

theorem undecided_applySynced {e e' : Engine B H} {block : B} {moved : Bool} (hu : e.Undecided)
    (h : e.applySynced K block = .ok (moved, e')) : e'.Undecided := by
  unfold Engine.applySynced at h
  dsimp only at h
  split_ifs at h
  · cases h
    exact hu
  · cases h
    exact Engine.undecided_of_none rfl

/-- One step leaves no decided block behind just if it is not late. -/
theorem undecided_step_iff (ht : P.engine.Tallied) (hu : P.engine.Undecided)
    (hstep : P.step K ev = some P') : P'.engine.Undecided ↔ ¬P.Late K ev := by
  cases ev with
  | startRound =>
      simp only [step, Option.some.injEq] at hstep
      subst hstep
      refine iff_of_true ?_ (by simp [Late])
      unfold Engine.startRoundBegin
      split
      · exact hu
      · exact Engine.undecided_of_none rfl
  | built i block =>
      simp only [step] at hstep
      split at hstep
      · cases hstep
      rename_i job hjob
      cases hstep
      refine (undecided_startRoundEnd K.hash hu job block).trans (not_congr ?_)
      constructor
      · rintro ⟨b, hb⟩
        exact ⟨job, b, hjob, hb⟩
      · rintro ⟨job', b, hjob', hb⟩
        rw [show job' = job from Option.some.inj (hjob'.symm.trans hjob)] at hb
        exact ⟨b, hb⟩
  | handleProposal p =>
      simp only [step, Option.some.injEq] at hstep
      subst hstep
      by_cases hstores : P.engine.Stores K.hash p
      · obtain ⟨hproposal, hprecommits, hvalSet⟩ := Engine.handleProposal_stores hstores
        refine (Engine.undecided_store (e := P.engine) hproposal hprecommits hvalSet).trans
          (not_congr ?_)
        exact (and_iff_right hstores).symm
      · refine iff_of_true ?_ fun h => hstores h.1
        show (P.engine.handleProposal K.hash p).1.Undecided
        rw [Engine.handleProposal_ignores hstores]
        exact hu
  | validated i valid =>
      simp only [step] at hstep
      split at hstep
      · cases hstep
      cases hstep
      refine iff_of_true ?_ (by simp [Late])
      unfold Engine.enterPrevoteEnd
      dsimp only
      split
      · exact hu
      · have htally : ∀ v, (P.engine.addPrevote v).2.Tallied :=
          fun v => ⟨ht.counts, ht.small, ht.open_⟩
        exact (htally _).tryAfterPrevote K.header _ ((Engine.undecided_congr rfl rfl rfl).mpr hu)
  | handleVote v =>
      cases hstep
      exact undecided_handleVote ht hu v
  | forceTimeoutRound =>
      cases hstep
      exact iff_of_true (Engine.undecided_of_none rfl) (by simp [Late])
  | applySyncedBlock block =>
      simp only [step] at hstep
      refine iff_of_true ?_ (by simp [Late])
      split at hstep
      · rename_i moved e hsync
        cases hstep
        exact undecided_applySynced hu hsync
      · cases hstep
        exact hu
  | replaceValSet vs =>
      cases hstep
      exact not_not.symm

/-- No decided block is left uncommitted in a run without late steps, and a late step leaves one. -/
theorem decided_committed_iff {a : Address} {vs : ValidatorSet} {parent : H} {n : U64}
    {e : Engine B H} (hnew : Engine.new a vs parent n = .ok e)
    (hsmall : 3 * vs.totalPower.toNat < 2 ^ 64)
    (h : Reached K (fun P ev _ => P.SamePowers ev ∧ ¬P.Late K ev) (start e) P) :
    P.engine.Undecided ∧
      ∀ ev P', P.step K ev = some P' → (P'.engine.Undecided ↔ ¬P.Late K ev) := by
  obtain ⟨-, rfl⟩ := Engine.new_ok_iff.mp hnew
  have hinv : P.engine.Tallied ∧ P.engine.Undecided := by
    refine h.invariant (I := fun Q => Q.engine.Tallied ∧ Q.engine.Undecided) ?_ ?_
    · exact ⟨⟨VoteSet.counts_new .., hsmall, rfl⟩, Engine.undecided_of_none rfl⟩
    · rintro Q ev Q' ⟨ht, hu⟩ ⟨hsame, hlate⟩ hs
      exact ⟨Tallied.step ht hsame hs, (undecided_step_iff ht hu hs).mpr hlate⟩
  exact ⟨hinv.2, fun ev P' hs => undecided_step_iff hinv.1 hinv.2 hs⟩

/-- The single validator commits its block in its own step. -/
theorem sole_commit_undecided :
    ∃ P, Reached numbered (fun P ev _ => P.SamePowers ev ∧ ¬P.Late numbered ev) soleStart P ∧
      P.engine.step = .prevote ∧ P.engine.Undecided ∧
      ∀ P', P.step numbered (.validated 0 true) = some P' → P'.engine.Undecided := by
  have hrun : ((soleStart.step numbered .startRound).bind fun P₁ =>
      (P₁.step numbered (.built 0 (some (1, 7)))).map fun P₂ =>
      (P₁.engine.precommits.powerFor 7, P₁.engine.valSet.totalPower, P₂.engine.step)) =
      some (0, 1, .prevote) := by
    decide
  obtain ⟨P₁, h₁, hrun⟩ := Option.bind_eq_some_iff.mp hrun
  obtain ⟨P₂, h₂, hseen⟩ := Option.map_eq_some_iff.mp hrun
  obtain ⟨hpower, hseen⟩ := Prod.mk.inj hseen
  obtain ⟨htotal, hstep⟩ := Prod.mk.inj hseen
  have hlate : ¬P₁.Late numbered (.built 0 (some (1, 7))) := by
    rintro ⟨job, b, -, hb, -, -, -, -, hq⟩
    cases hb
    have hq : hasQuorum (P₁.engine.precommits.powerFor 7) P₁.engine.valSet.totalPower = true := hq
    rw [hpower, htotal] at hq
    exact absurd hq (by decide)
  have hstart : soleStart.SamePowers .startRound ∧ ¬soleStart.Late numbered .startRound :=
    ⟨trivial, id⟩
  have hbuilt : P₁.SamePowers (.built 0 (some (1, 7))) ∧
      ¬P₁.Late numbered (.built 0 (some (1, 7))) := ⟨trivial, hlate⟩
  have hreached : Reached numbered (fun P ev _ => P.SamePowers ev ∧ ¬P.Late numbered ev)
      soleStart P₂ := (Reached.start.step hstart h₁).step hbuilt h₂
  obtain ⟨hundecided, hnext⟩ := decided_committed_iff (Engine.new_ok_iff.mpr ⟨by decide, rfl⟩)
    (by decide) hreached
  exact ⟨P₂, hreached, hstep, hundecided, fun P' hP' => (hnext _ P' hP').mpr id⟩

/-- The precommits of three validators arrive before the proposal: the block is decided and not
committed. -/
theorem early_precommits_uncommitted :
    ∃ P, Reached numbered (fun _ _ _ => True) (start (.fresh 1 fourHonest.valSet 0 0)) P ∧
      P.commits = [] ∧ ¬P.engine.Undecided := by
  have hrun : ((runWhile numbered (fun _ _ _ => True) (start (.fresh 1 fourHonest.valSet 0 0))
      [.handleVote ⟨.precommit, 1, 0, 7, 2⟩, .handleVote ⟨.precommit, 1, 0, 7, 3⟩,
        .handleVote ⟨.precommit, 1, 0, 7, 4⟩,
        .handleProposal ⟨1, 0, 7, some (1, 7), 2⟩]).map fun P =>
      (P.commits.length, P.engine.proposal,
        hasQuorum (P.engine.precommits.powerFor 7) P.engine.valSet.totalPower)) =
      some (0, some ⟨1, 0, 7, some (1, 7), 2⟩, true) := by
    decide
  obtain ⟨P, hP, hseen⟩ := Option.map_eq_some_iff.mp hrun
  obtain ⟨hcommits, hseen⟩ := Prod.mk.inj hseen
  obtain ⟨hproposal, hquorum⟩ := Prod.mk.inj hseen
  refine ⟨P, reached_of_runWhile hP, List.length_eq_zero_iff.mp hcommits, fun h => ?_⟩
  exact h _ hproposal rfl (by decide) hquorum

end Process

end Dew.Consensus
