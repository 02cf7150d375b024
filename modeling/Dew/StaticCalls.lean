/-
# Static calls of the system contracts

A static call runs the contract's `Run` on the input, without a transfer of value. `Run` is not told
how it was called, so it does in a static call what it does in any other. This module gives the
programs of the precompiles their meaning on a state, and finds the methods that only read.

A method only reads if every access that its program can make is a read (`PreProgram.Reads`); then
the static call leaves all balances and the storage of both modules as they are.
-/
import Dew.Precompiles

open Program

namespace Dew

/-! ## Runs of the precompiles -/

/-- What the calls of a message share: the state database, the last transfer recorded for `0x102`,
and the last amount recorded for `0x101`. -/
structure CallState where
  db : StateDB
  stake : Address × U256
  deposit : U256

/-- Calls of tokens through the EVM, which may do anything. -/
abbrev Erc20 := Address → Bytes → CallState → Except Panic (Except String Bytes × CallState)

/-- The effect of an access. -/
def PreOp.exec (erc20 : Erc20) : (o : PreOp) → CallState → Except Panic (o.Result × CallState)
  | .state op, s => do
    let (r, db) ← op.exec s.db
    .ok (r, { s with db := db })
  | .stakeRecord, s => .ok (s.stake, s)
  | .consumeStake, s => .ok ((), { s with stake := (s.stake.1, 0) })
  | .depositValue, s => .ok (s.deposit, s)
  | .consumeDeposit, s => .ok ((), { s with deposit := 0 })
  | .token addr data, s => erc20 addr data s
  | .credit _, s => .ok ((), s)

namespace PreProgram

section Run

variable {α β : Type} (erc20 : Erc20) (s : CallState)

/-- A program over the state database leaves the rest of the call state alone. -/
theorem run_ofState (p : StateProgram α) :
    (ofState p).run (PreOp.exec erc20) s =
      (p.run Op.exec s.db).map (Prod.map id fun db => { s with db := db }) := by
  induction p generalizing s with
  | pure a => rfl
  | call op k ih =>
      show (PreOp.exec erc20 (.state op) s >>= fun rt => (ofState (k rt.1)).run _ rt.2) =
        (op.exec s.db >>= fun rt => (k rt.1).run Op.exec rt.2).map _
      cases hop : op.exec s.db with
      | error e => simp [PreOp.exec, hop, Except.map]
      | ok rt => simp [PreOp.exec, hop, ih]

/-- The run of a program, with its error as a result. -/
def outcome (p : PreProgram α) : Except Panic (Except PrecompileError α × CallState) :=
  (ExceptT.run p).run (PreOp.exec erc20) s

@[simp] theorem outcome_pure (a : α) : outcome erc20 s (pure a) = .ok (.ok a, s) :=
  rfl

@[simp] theorem outcome_throw (e : PrecompileError) :
    outcome erc20 s (throw e : PreProgram α) = .ok (.error e, s) :=
  rfl

@[simp] theorem outcome_bind (p : PreProgram α) (f : α → PreProgram β) :
    outcome erc20 s (p >>= f) =
      outcome erc20 s p >>= fun rt =>
        match rt.1 with
        | .error e => .ok (.error e, rt.2)
        | .ok a => outcome erc20 rt.2 (f a) := by
  show (ExceptT.run p >>= ExceptT.bindCont f).run _ s = _
  rw [run_bind]
  congr 1
  funext rt
  obtain ⟨r, t⟩ := rt
  cases r <;> rfl

@[simp] theorem outcome_demand (c : Prop) [Decidable c] (e : PrecompileError) :
    outcome erc20 s (demand c e) = .ok (if c then .ok () else .error e, s) := by
  unfold demand
  split <;> rfl

@[simp] theorem outcome_access (o : PreOp) :
    outcome erc20 s (access o) = (o.exec erc20 s).map (Prod.map Except.ok id) := by
  show (Program.op o >>= fun r => Pure.pure (Except.ok r)).run _ s = _
  rw [run_bind, run_op]
  cases o.exec erc20 s <;> rfl

@[simp] theorem outcome_attempt {ε : Type} (wrap : ε → PrecompileError)
    (p : StateProgram (Except ε α)) :
    outcome erc20 s (attempt wrap p) =
      (p.run Op.exec s.db).map (Prod.map (Except.mapError wrap) fun db => { s with db := db }) := by
  have hstate : outcome erc20 s (state p) =
      (p.run Op.exec s.db).map (Prod.map Except.ok fun db => { s with db := db }) := by
    show (ofState p >>= fun r => Pure.pure (Except.ok r)).run _ s = _
    rw [run_bind, run_ofState]
    cases p.run Op.exec s.db <;> rfl
  rw [attempt, outcome_bind, hstate]
  cases p.run Op.exec s.db with
  | error e => rfl
  | ok rt =>
      obtain ⟨r, t⟩ := rt
      cases r <;> rfl

end Run

end PreProgram

/-- The contracts at `0x100`, `0x101` and `0x102`. -/
inductive SystemContract where
  | nativeTransfer
  | orderbook
  | staking
deriving DecidableEq, Repr

/-- `Run` of a contract. -/
def SystemContract.run (env : PreEnv) (input : Bytes) : SystemContract → PreProgram Bytes
  | nativeTransfer => nativeTransferRun input
  | orderbook => OrderbookPrecompile.run env input
  | staking => StakingPrecompile.run env input

/-- A static call: `Run` on the input, and nothing else. -/
def staticCall (erc20 : Erc20) (env : PreEnv) (c : SystemContract) (input : Bytes) (s : CallState) :
    Except Panic (Except PrecompileError Bytes × CallState) :=
  (ExceptT.run (c.run env input)).run (PreOp.exec erc20) s

/-- All balances and the storage of both modules are the same. -/
structure CallState.Unchanged (s t : CallState) : Prop where
  balance : ∀ a, t.db.view.balance a = s.db.view.balance a
  staking : ∀ slot, t.db.view.slot ⟨stakingModuleAddr, slot⟩ =
    s.db.view.slot ⟨stakingModuleAddr, slot⟩
  orderbook : ∀ slot, t.db.view.slot ⟨orderbookModuleAddr, slot⟩ =
    s.db.view.slot ⟨orderbookModuleAddr, slot⟩

theorem CallState.unchanged_of_view {s t : CallState} (h : t.db.view = s.db.view) :
    s.Unchanged t := by
  constructor <;> intro _ <;> rw [h]

theorem CallState.Unchanged.trans {s t u : CallState} (h : s.Unchanged t) (h' : t.Unchanged u) :
    s.Unchanged u where
  balance a := (h'.balance a).trans (h.balance a)
  staking slot := (h'.staking slot).trans (h.staking slot)
  orderbook slot := (h'.orderbook slot).trans (h.orderbook slot)

/-! ## Reads -/

/-- The methods of the state database that change nothing, and panics. -/
def Op.Reads : Op → Prop
  | .getBalance _ | .getState _ | .panic _ => True
  | _ => False

def PreOp.Reads : PreOp → Prop
  | .state op => op.Reads
  | .stakeRecord | .depositValue => True
  | _ => False

theorem PreOp.unchanged_of_reads {erc20 : Erc20} (o : PreOp) (ho : o.Reads) {s t : CallState}
    {r : o.Result} (h : o.exec erc20 s = .ok (r, t)) : s.Unchanged t := by
  cases o with
  | state op =>
      have hview := Op.exec_view op s.db
      cases hop : op.exec s.db with
      | error e => simp [PreOp.exec, hop] at h
      | ok rt =>
          rw [hop] at hview
          obtain ⟨-, rfl⟩ : rt.1 = r ∧ { s with db := rt.2 } = t := by
            simpa [PreOp.exec, hop] using h
          refine CallState.unchanged_of_view ?_
          cases op with
          | getBalance a => exact congrArg Prod.snd (Except.ok.inj hview)
          | getState id => exact congrArg Prod.snd (Except.ok.inj hview)
          | panic reason => cases hview
          | _ => cases ho
  | stakeRecord => cases h; exact CallState.unchanged_of_view rfl
  | depositValue => cases h; exact CallState.unchanged_of_view rfl
  | _ => cases ho

namespace PreProgram

/-- Every access that the program can make is a read. -/
def Reads {α : Type} (p : PreProgram α) : Prop :=
  (ExceptT.run p).Calls PreOp.Reads

section Reads

variable {α β : Type}

theorem reads_pure (a : α) : Reads (pure a : PreProgram α) :=
  trivial

theorem reads_throw (e : PrecompileError) : Reads (throw e : PreProgram α) :=
  trivial

theorem Reads.bind {p : PreProgram α} {f : α → PreProgram β} (hp : p.Reads)
    (hf : ∀ a, (f a).Reads) : (p >>= f).Reads := by
  refine Calls.bind hp ?_
  rintro (e | a)
  · trivial
  · exact hf a

theorem calls_lift {p : Program PreOp PreOp.Result α} (hp : p.Calls PreOp.Reads) :
    Reads (ExceptT.lift p) :=
  Calls.bind hp fun _ => trivial

theorem calls_ofState {p : StateProgram α} (hp : p.Calls Op.Reads) :
    (ofState p).Calls PreOp.Reads := by
  induction p with
  | pure a => trivial
  | call op k ih => exact ⟨hp.1, fun r => ih r (hp.2 r)⟩

theorem reads_state {p : StateProgram α} (hp : p.Calls Op.Reads) : Reads (state p) :=
  calls_lift (calls_ofState hp)

theorem reads_demand (c : Prop) [Decidable c] (e : PrecompileError) : Reads (demand c e) := by
  unfold demand
  split
  · exact reads_pure ()
  · exact reads_throw e

end Reads

/-- A program that only reads leaves everything unchanged. -/
theorem Reads.unchanged {α : Type} {p : PreProgram α} (hp : p.Reads) {erc20 : Erc20}
    {s t : CallState} {r : Except PrecompileError α}
    (h : (ExceptT.run p).run (PreOp.exec erc20) s = .ok (r, t)) : s.Unchanged t :=
  Calls.run_trans (fun _ => CallState.unchanged_of_view rfl) CallState.Unchanged.trans
    (fun o ho {_ _ _} => PreOp.unchanged_of_reads o ho) hp h

end PreProgram

/-! ## The queries of the modules -/

namespace Staking

theorem reads_load (slot : Hash) : (load slot).Calls Op.Reads :=
  (Calls.op_iff _).mpr trivial

theorem reads_isJailed (a : Address) : (isJailed a).Calls Op.Reads :=
  Calls.bind (reads_load _) fun _ => trivial

theorem reads_isCandidate (a : Address) : (isCandidate a).Calls Op.Reads :=
  Calls.bind (reads_load _) fun _ => trivial

theorem reads_sharesToWei (v : Address) (shares : U256) : (sharesToWei v shares).Calls Op.Reads := by
  unfold sharesToWei
  split
  · trivial
  · exact Calls.bind (Calls.bind (reads_load _) fun _ => trivial) fun _ => trivial

theorem reads_delegation (v d : Address) : (delegation v d).Calls Op.Reads :=
  Calls.bind (reads_load _) fun _ => reads_sharesToWei v _

theorem reads_delegatedTotal (v : Address) : (delegatedTotal v).Calls Op.Reads :=
  Calls.bind (reads_load _) fun _ => reads_sharesToWei v _

theorem reads_commissionBps (v : Address) : (commissionBps v).Calls Op.Reads :=
  Calls.bind (reads_load _) fun _ => trivial

theorem reads_pendingUndelegation (v d : Address) : (pendingUndelegation v d).Calls Op.Reads :=
  Calls.bind (reads_load _) fun _ => Calls.bind (reads_load _) fun _ => trivial

theorem reads_pendingUnbond (a : Address) : (pendingUnbond a).Calls Op.Reads :=
  Calls.bind (reads_load _) fun _ => Calls.bind (reads_load _) fun _ => trivial

theorem reads_votingPower (a : Address) : (votingPower a).Calls Op.Reads := by
  refine Calls.bind (reads_isJailed a) fun jailed => ?_
  split
  · trivial
  refine Calls.bind (reads_isCandidate a) fun candidate => ?_
  split
  · trivial
  exact Calls.bind (reads_load _) fun _ => Calls.bind (reads_delegatedTotal a) fun _ => trivial

theorem reads_mustFromBig (n : ℕ) : (mustFromBig n).Calls Op.Reads := by
  unfold mustFromBig
  split
  · trivial
  · exact Calls.bind ((Calls.op_iff _).mpr trivial) fun e => nomatch e

theorem reads_eligible (min : U256) (i : U64) : (eligible min i).Calls Op.Reads := by
  refine Calls.bind (reads_load _) fun h => ?_
  dsimp only
  split
  · trivial
  refine Calls.bind (reads_isCandidate _) fun candidate => ?_
  split
  · trivial
  refine Calls.bind (reads_isJailed _) fun jailed => ?_
  split
  · trivial
  refine Calls.bind (reads_load _) fun self => ?_
  split
  · trivial
  refine Calls.bind (reads_votingPower _) fun power => ?_
  split
  · trivial
  · trivial

theorem reads_candidatesFrom (min : U256) (n : ℕ) (i : U64) :
    (candidatesFrom min n i).Calls Op.Reads := by
  induction n generalizing i with
  | zero => trivial
  | succ n ih =>
      exact Calls.bind (reads_eligible min i) fun _ => Calls.bind (ih (i + 1)) fun _ => trivial

theorem reads_activeSet (m : StakingModule) : (activeSet m).Calls Op.Reads :=
  Calls.bind (reads_load _) fun _ => Calls.bind (reads_mustFromBig _) fun _ =>
    Calls.bind (reads_candidatesFrom _ _ _) fun _ => trivial

end Staking

namespace Orderbook

theorem reads_getU256 (slot : Hash) : (getU256 slot).Calls Op.Reads :=
  (Calls.op_iff _).mpr trivial

theorem reads_getU64 (slot : Hash) : (getU64 slot).Calls Op.Reads :=
  Calls.bind (reads_getU256 slot) fun _ => trivial

theorem reads_getOrder (id : U64) : (getOrder id).Calls Op.Reads := by
  unfold getOrder
  split
  · trivial
  refine Calls.bind (reads_getU64 _) fun next => ?_
  split
  · trivial
  refine Calls.bind (reads_getU256 _) fun _ => Calls.bind (reads_getU256 _) fun _ =>
    Calls.bind (reads_getU256 _) fun _ => Calls.bind (reads_getU256 _) fun _ =>
    Calls.bind (reads_getU256 _) fun _ => ?_
  split
  · trivial
  · trivial

theorem reads_bestFrom (token : Address) (side : U8) (preferHigh : Bool) (n : ℕ) (i : U64)
    (best : Option (U256 × U64)) :
    (bestFrom token side preferHigh n i best).Calls Op.Reads := by
  induction n generalizing i best with
  | zero => trivial
  | succ n ih =>
      exact Calls.bind (reads_getU64 _) fun _ => Calls.bind (reads_getOrder _) fun _ => ih _ _

theorem reads_best (token : Address) (side : U8) (preferHigh : Bool) :
    (best token side preferHigh).Calls Op.Reads :=
  Calls.bind (reads_getU64 _) fun _ => reads_bestFrom _ _ _ _ _ _

end Orderbook

/-! ## The methods that only read -/

open PreProgram

theorem reads_readAddr (input : Bytes) : (readAddr input).Reads :=
  (reads_demand _ _).bind fun _ => reads_pure _

theorem reads_readTwoAddr (input : Bytes) : (readTwoAddr input).Reads :=
  (reads_demand _ _).bind fun _ => reads_pure _

namespace StakingPrecompile

theorem reads_lookup (input : Bytes) {query : Address → StateProgram U256}
    (h : ∀ a, (query a).Calls Op.Reads) : (lookup input query).Reads :=
  (reads_readAddr input).bind fun a => (reads_state (h a)).bind fun _ => reads_pure _

theorem reads_lookupPair (input : Bytes) {query : Address → Address → StateProgram U256}
    (h : ∀ v d, (query v d).Calls Op.Reads) : (lookupPair input query).Reads :=
  (reads_readTwoAddr input).bind fun x => (reads_state (h x.1 x.2)).bind fun _ => reads_pure _

theorem reads_activeAt (env : PreEnv) (input : Bytes) : (activeAt env input).Reads := by
  refine (reads_demand _ _).bind fun _ =>
    (reads_state (Staking.reads_activeSet _)).bind fun set => ?_
  split
  · exact reads_throw _
  · exact reads_pure _

/-- The methods that write: `bond`, `unbond`, `jail`, `withdraw`, `delegate`, `undelegate`,
`withdrawDelegation`, `setCommission` and `claimRewards`, and also `pendingRewards`, which settles
the rewards that it reports. -/
def writers : List UInt8 :=
  [0x00, 0x01, 0x06, 0x08, 0x0a, 0x0b, 0x0c, 0x0d, 0x12, 0x13]

theorem reads_method (env : PreEnv) (input : Bytes) {m : UInt8} (hm : m ∉ writers) :
    (method env input m).Reads := by
  have hne : ∀ k : UInt8, k ∈ writers → m.toNat ≠ k.toNat := by
    intro k hk heq
    exact hm (UInt8.toNat_inj.mp heq ▸ hk)
  unfold method
  split <;> rename_i hcode
  case h_1 => exact absurd hcode (hne 0x00 (by decide))
  case h_2 => exact absurd hcode (hne 0x01 (by decide))
  case h_3 => exact reads_lookup input fun _ => Staking.reads_load _
  case h_4 => exact reads_lookup input Staking.reads_votingPower
  case h_5 =>
    exact (reads_demand _ _).bind fun _ =>
      (reads_state (Staking.reads_activeSet _)).bind fun _ => reads_pure _
  case h_6 => exact reads_activeAt env input
  case h_7 => exact absurd hcode (hne 0x06 (by decide))
  case h_8 =>
    exact reads_lookup input fun a => Calls.bind (Staking.reads_isJailed a) fun _ => by
      split <;> trivial
  case h_9 => exact absurd hcode (hne 0x08 (by decide))
  case h_10 =>
    exact (reads_readAddr input).bind fun a =>
      (reads_state (Staking.reads_pendingUnbond a)).bind fun _ => reads_pure _
  case h_11 => exact absurd hcode (hne 0x0a (by decide))
  case h_12 => exact absurd hcode (hne 0x0b (by decide))
  case h_13 => exact absurd hcode (hne 0x0c (by decide))
  case h_14 => exact absurd hcode (hne 0x0d (by decide))
  case h_15 => exact reads_lookupPair input Staking.reads_delegation
  case h_16 =>
    exact reads_lookup input fun a => Calls.bind (Staking.reads_commissionBps a) fun _ => trivial
  case h_17 => exact reads_lookup input Staking.reads_delegatedTotal
  case h_18 =>
    exact (reads_readTwoAddr input).bind fun x =>
      (reads_state (Staking.reads_pendingUndelegation x.1 x.2)).bind fun _ => reads_pure _
  case h_19 => exact absurd hcode (hne 0x12 (by decide))
  case h_20 => exact absurd hcode (hne 0x13 (by decide))
  case h_21 => exact reads_throw _

/-- A disabled contract, an empty input and a method that is no writer only read. -/
theorem reads_run (env : PreEnv) {input : Bytes}
    (h : env.stakingEnabled = true → ∀ m ∈ input.head?, m ∉ writers) : (run env input).Reads := by
  by_cases henabled : env.stakingEnabled = true
  · refine (reads_demand _ _).bind fun _ => ?_
    cases input with
    | nil => exact reads_throw _
    | cons m rest => exact reads_method env _ (h henabled m rfl)
  · have hrun : run env input = throw .stakingDisabled := by
      simp only [run, demand, henabled]
      rfl
    rw [hrun]
    exact reads_throw _

end StakingPrecompile

namespace OrderbookPrecompile

theorem reads_getOrder (input : Bytes) : (getOrder input).Reads := by
  refine (reads_demand _ _).bind fun _ => (reads_state (Orderbook.reads_getOrder _)).bind fun o => ?_
  split
  · exact reads_pure _
  · exact reads_pure _

theorem reads_best (input : Bytes) {query : Address → StateProgram (Option (U256 × U64))}
    (h : ∀ token, (query token).Calls Op.Reads) : (best input query).Reads := by
  refine (reads_demand _ _).bind fun _ => (reads_state (h _)).bind fun o => ?_
  split
  · exact reads_pure _
  · exact reads_pure _

/-- The methods that write: `place`, `cancel` and `fill`. -/
def writers : List UInt8 :=
  [0x00, 0x01, 0x02]

theorem reads_method (env : PreEnv) (input : Bytes) {m : UInt8} (hm : m ∉ writers) :
    (method env input m).Reads := by
  have hne : ∀ k : UInt8, k ∈ writers → m.toNat ≠ k.toNat := by
    intro k hk heq
    exact hm (UInt8.toNat_inj.mp heq ▸ hk)
  unfold method
  split <;> rename_i hcode
  case h_1 => exact absurd hcode (hne 0x00 (by decide))
  case h_2 => exact absurd hcode (hne 0x01 (by decide))
  case h_3 => exact absurd hcode (hne 0x02 (by decide))
  case h_4 => exact reads_getOrder input
  case h_5 => exact reads_best input fun token => Orderbook.reads_best token _ _
  case h_6 => exact reads_best input fun token => Orderbook.reads_best token _ _
  case h_7 =>
    exact (reads_demand _ _).bind fun _ => (reads_state (Orderbook.reads_getU256 _)).bind fun _ =>
      (reads_state (Orderbook.reads_getU256 _)).bind fun _ => reads_pure _
  case h_8 => exact reads_throw _

/-- A disabled contract, an empty input and a method that is no writer only read. -/
theorem reads_run (env : PreEnv) {input : Bytes}
    (h : env.nativeSwapEnabled = true → ∀ m ∈ input.head?, m ∉ writers) :
    (run env input).Reads := by
  by_cases henabled : env.nativeSwapEnabled = true
  · refine (reads_demand _ _).bind fun _ => ?_
    cases input with
    | nil => exact reads_throw _
    | cons m rest => exact reads_method env _ (h henabled m rfl)
  · have hrun : run env input = throw .swapDisabled := by
      simp only [run, demand, henabled]
      rfl
    rw [hrun]
    exact reads_throw _

end OrderbookPrecompile

end Dew
