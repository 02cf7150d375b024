/-
# Static calls that write

The converse of the previous module. A native transfer moves whatever `0x100` holds, and every method
that can write does write in some state: for each of them there is a run that leaves another word in
the storage of its module.

A method that writes reads its arguments first (`Returns`), then makes the write (`Leaves`), and
after it only moves balances and calls tokens (`Pays`), which leaves the storage alone.
-/
import Dew.EscrowCover
import Dew.StakeSolvency
import Dew.StaticCalls

open Program

namespace Dew

/-! ## Runs of the precompiles with their state -/

/-- The state database shows what `P` says, and the records of transfers are the given ones. -/
structure CallState.At (P : Ledger → Prop) (st : Address × U256) (d : U256) (s : CallState) :
    Prop where
  ledger : P s.db.view
  stake : s.stake = st
  deposit : s.deposit = d

namespace PreProgram

open CallState

variable {α β : Type} {erc20 : Erc20}

/-- Started where `P` holds, the program returns `a`, and then `Q` holds. -/
def Returns (erc20 : Erc20) (P : CallState → Prop) (p : PreProgram α) (a : α)
    (Q : CallState → Prop) : Prop :=
  Total (PreOp.exec erc20) P (ExceptT.run p) fun r s => r = .ok a ∧ Q s

/-- What follows a program that returns starts from its result. -/
theorem Returns.bind {P Q : CallState → Prop} {R : Except PrecompileError β → CallState → Prop}
    {p : PreProgram α} {a : α} {f : α → PreProgram β} (hp : Returns erc20 P p a Q)
    (hf : Total (PreOp.exec erc20) Q (ExceptT.run (f a)) R) :
    Total (PreOp.exec erc20) P (ExceptT.run (p >>= f)) R := by
  refine Total.bind hp fun r => Total.assume ?_
  rintro rfl
  exact hf

theorem returns_pure {P : CallState → Prop} (a : α) :
    Returns erc20 P (pure a : PreProgram α) a P :=
  Total.pure fun _ hs => ⟨rfl, hs⟩

theorem returns_demand {P : CallState → Prop} {c : Prop} [Decidable c] (hc : c)
    (e : PrecompileError) : Returns erc20 P (demand c e) () P := by
  unfold demand
  rw [if_pos hc]
  exact returns_pure ()

section At

variable {P Q : Ledger → Prop} {st : Address × U256} {d : U256}

/-- A program over the state database, on what the database shows. -/
theorem total_ofState {p : StateProgram α} {Q : α → Ledger → Prop}
    (hp : Total Op.execL P p Q) :
    Total (PreOp.exec erc20) (At P st d) (ofState p) fun r => At (Q r) st d := by
  intro s hs
  obtain ⟨a, L, hL, hQ⟩ := hp s.db.view hs.ledger
  obtain ⟨db, hexec, rfl⟩ := StateProgram.run_of_view hL
  exact ⟨a, { s with db := db }, by rw [run_ofState, hexec]; rfl, hQ, hs.stake, hs.deposit⟩

theorem returns_state {p : StateProgram α} {a : α}
    (hp : Total Op.execL P p fun r L => r = a ∧ Q L) :
    Returns erc20 (At P st d) (state p) a (At Q st d) := by
  refine Total.bind (total_ofState hp) fun r => Total.pure fun s hs => ?_
  obtain ⟨⟨rfl, hledger⟩, hstake, hdeposit⟩ := hs
  exact ⟨rfl, hledger, hstake, hdeposit⟩

theorem returns_stakeRecord : Returns erc20 (At P st d) (access .stakeRecord) st (At P st d) :=
  fun s hs => ⟨_, s, rfl, congrArg Except.ok hs.stake, hs⟩

theorem returns_depositValue : Returns erc20 (At P st d) (access .depositValue) d (At P st d) :=
  fun s hs => ⟨_, s, rfl, congrArg Except.ok hs.deposit, hs⟩

theorem returns_bondCaller (hst : st.2 ≠ 0) (e : PrecompileError) :
    Returns erc20 (At P st d) (bondCaller e) st (At P st d) :=
  returns_stakeRecord.bind ((returns_demand hst e).bind (returns_pure st))

/-- A method that is called on a known ledger and answers. -/
theorem returns_op {op : Op} {L L' : Ledger} {r : op.Result} (h : op.execL L = .ok (r, L')) :
    Returns erc20 (At (· = L) st d) (access (.state op)) r (At (· = L') st d) := by
  refine returns_state (p := op.call) (Total.op ?_)
  rintro _ rfl
  exact ⟨r, L', h, rfl, rfl⟩

end At

end PreProgram

open PreProgram CallState

/-! ## Native transfers -/

theorem balance_updateBalance (L : Ledger) (a b : Address) (f : U256 → U256) :
    (L.updateBalance a f).balance b =
      if b = a ∧ a ∉ L.suicides then f (L.balance a) else L.balance b := by
  by_cases hb : b = a
  · subst hb
    by_cases hdead : b ∈ L.suicides
    · rw [if_neg fun h => h.2 hdead]
      simp [Ledger.balance, Ledger.account?, Ledger.updateBalance, Ledger.updateAccount,
        Ledger.setObject, Ledger.record, Ledger.inScope, TxScope.appendJournal, hdead]
    · rw [if_pos ⟨rfl, hdead⟩, Ledger.balance_eq_accountOrNew L]
      simp [Ledger.balance, Ledger.account?, Ledger.updateBalance, Ledger.updateAccount,
        Ledger.setObject, Ledger.record, Ledger.inScope, TxScope.appendJournal, hdead]
  · rw [if_neg fun h => hb h.1]
    simp [Ledger.balance, Ledger.account?, Ledger.updateBalance, Ledger.updateAccount,
      Ledger.setObject, Ledger.record, Ledger.inScope, TxScope.appendJournal, hb]

/-- The ledger after a transfer of everything that `0x100` holds. -/
def transferred (L : Ledger) (a : Address) : Ledger :=
  (L.updateBalance nativeTransferAddr (· - L.balance nativeTransferAddr)).updateBalance a
    (· + L.balance nativeTransferAddr)

theorem total_nativeTransferRun (erc20 : Erc20) (input : Bytes) (L : Ledger) (st : Address × U256)
    (d : U256) :
    Total (PreOp.exec erc20) (At (· = L) st d) (ExceptT.run (nativeTransferRun input)) fun _ =>
      At (· = if input.length = 20 ∧ L.balance nativeTransferAddr ≠ 0 then
        transferred L (addressAt input 0) else L) st d := by
  unfold nativeTransferRun
  by_cases hlen : input.length = 20
  swap
  · rw [if_neg fun h => hlen h.1]
    unfold demand
    rw [if_neg hlen]
    exact fun s hs => ⟨.error .transferInput, s, rfl, hs⟩
  refine (returns_demand hlen _).bind ((returns_op rfl).bind ?_)
  by_cases hzero : L.balance nativeTransferAddr = 0
  · rw [if_pos hzero, if_neg fun h => h.2 hzero]
    exact Total.pure fun _ hs => hs
  · rw [if_neg hzero, if_pos ⟨hlen, hzero⟩]
    exact (returns_op rfl).bind ((returns_op rfl).bind (Total.pure fun _ hs => hs))

theorem staticCall_nativeTransfer (erc20 : Erc20) (env : PreEnv) (input : Bytes) (s : CallState) :
    ∃ r t, staticCall erc20 env .nativeTransfer input s = .ok (r, t) ∧
      t.db.view = if input.length = 20 ∧ s.db.view.balance nativeTransferAddr ≠ 0 then
        transferred s.db.view (addressAt input 0) else s.db.view := by
  obtain ⟨r, t, hrun, ht⟩ := total_nativeTransferRun erc20 input s.db.view s.stake s.deposit s
    ⟨rfl, rfl, rfl⟩
  exact ⟨r, t, hrun, ht.ledger⟩

/-- A static call of `0x100` ends, and changes nothing exactly if there is nothing to move, or it is
moved to `0x100` itself. -/
theorem nativeTransfer_unchanged_iff (erc20 : Erc20) (env : PreEnv) (input : Bytes) (s : CallState) :
    ∃ r t, staticCall erc20 env .nativeTransfer input s = .ok (r, t) ∧
      (s.Unchanged t ↔ (input.length = 20 → s.db.view.balance nativeTransferAddr = 0 ∨
        addressAt input 0 = nativeTransferAddr)) := by
  obtain ⟨r, t, hrun, hview⟩ := staticCall_nativeTransfer erc20 env input s
  refine ⟨r, t, hrun, ?_⟩
  by_cases hmoves : input.length = 20 ∧ s.db.view.balance nativeTransferAddr ≠ 0
  swap
  · rw [if_neg hmoves] at hview
    refine iff_of_true (CallState.unchanged_of_view hview) fun hlen => .inl ?_
    exact not_not.mp fun h => hmoves ⟨hlen, h⟩
  rw [if_pos hmoves] at hview
  obtain ⟨hlen, hne⟩ := hmoves
  have hlive : nativeTransferAddr ∉ s.db.view.suicides := by
    intro hdead
    exact hne (by simp [Ledger.balance, Ledger.account?, hdead])
  have hdebit : ∀ a, (s.db.view.updateBalance nativeTransferAddr
      (· - s.db.view.balance nativeTransferAddr)).balance a =
        if a = nativeTransferAddr then 0 else s.db.view.balance a := by
    intro a
    rw [balance_updateBalance]
    by_cases ha : a = nativeTransferAddr
    · rw [if_pos ⟨ha, hlive⟩, if_pos ha]
      exact BitVec.sub_self _
    · rw [if_neg fun h => ha h.1, if_neg ha]
  constructor
  · intro hsame _
    refine .inr (not_not.mp fun hother => hne ?_)
    rw [← hsame.balance, hview, transferred, balance_updateBalance,
      if_neg fun h => hother h.1.symm, hdebit, if_pos rfl]
  · intro h
    obtain hself := (h hlen).resolve_left hne
    refine ⟨fun a => ?_, fun _ => by rw [hview]; rfl, fun _ => by rw [hview]; rfl⟩
    rw [hview, transferred, hself, balance_updateBalance, hdebit, hdebit, if_pos rfl]
    by_cases ha : a = nativeTransferAddr
    · rw [if_pos ⟨ha, hlive⟩, ha]
      exact BitVec.zero_add _
    · rw [if_neg fun h => ha h.1, if_neg ha]

/-! ## Writes of the modules -/

/-- Tokens that do nothing and are content. -/
def quiet : Erc20 :=
  fun _ _ s => .ok (.ok [], s)

/-- Accesses that write no storage. -/
def PreOp.Pays : PreOp → Prop
  | .state (.getBalance _) | .state (.subBalance _ _) | .state (.addBalancePrev _ _) => True
  | .state _ => False
  | _ => True

/-- A method of the state database, on what the database shows. -/
theorem exec_state_of_view (erc20 : Erc20) {op : Op} {s : CallState} {r : op.Result} {L : Ledger}
    (h : op.execL s.db.view = .ok (r, L)) :
    ∃ db : StateDB, (PreOp.state op).exec erc20 s = .ok (r, { s with db := db }) ∧ db.view = L := by
  rw [← Op.exec_view] at h
  cases hop : op.exec s.db with
  | error e => simp [hop, Except.map] at h
  | ok rt =>
      rw [hop] at h
      obtain ⟨rfl, rfl⟩ := Prod.mk.inj (Except.ok.inj h)
      exact ⟨rt.2, by simp [PreOp.exec, hop], rfl⟩

theorem PreOp.exec_of_pays (o : PreOp) (ho : o.Pays) (s : CallState) :
    ∃ r t, o.exec quiet s = .ok (r, t) ∧ t.db.view.slot = s.db.view.slot := by
  have hop : ∀ {op : Op} {r : op.Result} {L : Ledger}, op.execL s.db.view = .ok (r, L) →
      L.slot = s.db.view.slot →
      ∃ r t, (PreOp.state op).exec quiet s = .ok (r, t) ∧ t.db.view.slot = s.db.view.slot := by
    intro op r L h hslot
    obtain ⟨db, hexec, rfl⟩ := exec_state_of_view quiet h
    exact ⟨r, _, hexec, hslot⟩
  cases o with
  | state op =>
      cases op with
      | getBalance a => exact hop rfl rfl
      | subBalance a x => exact hop rfl rfl
      | addBalancePrev a x => exact hop rfl rfl
      | _ => cases ho
  | _ => exact ⟨_, _, rfl, rfl⟩

namespace PreProgram

section Pays

variable {α β : Type}

/-- No access that the program can make writes storage. -/
def Pays (p : PreProgram α) : Prop :=
  (ExceptT.run p).Calls PreOp.Pays

theorem pays_pure (a : α) : Pays (pure a : PreProgram α) :=
  trivial

theorem pays_throw (e : PrecompileError) : Pays (throw e : PreProgram α) :=
  trivial

theorem Pays.bind {p : PreProgram α} {f : α → PreProgram β} (hp : p.Pays) (hf : ∀ a, (f a).Pays) :
    (p >>= f).Pays := by
  refine Calls.bind hp ?_
  rintro (e | a)
  · trivial
  · exact hf a

theorem pays_access {o : PreOp} (ho : o.Pays) : Pays (access o) :=
  Calls.bind ((Calls.op_iff o).mpr ho) fun _ => trivial

theorem pays_demand (c : Prop) [Decidable c] (e : PrecompileError) : Pays (demand c e) := by
  unfold demand
  split
  · exact pays_pure ()
  · exact pays_throw e

theorem pays_payOut (self dst : Address) (amount : U256) (e : PrecompileError) :
    Pays (payOut self dst amount e) :=
  Pays.bind (pays_access trivial) fun _ => Pays.bind (pays_demand _ e) fun _ =>
    Pays.bind (pays_access trivial) fun _ => Pays.bind (pays_access trivial) fun _ => pays_pure ()

theorem pays_payQuote (dst : Address) (amount : U256) (e : PrecompileError) :
    Pays (OrderbookPrecompile.payQuote dst amount e) := by
  unfold OrderbookPrecompile.payQuote
  split
  · exact pays_pure ()
  · exact pays_payOut _ dst amount e

theorem pays_erc20Transfer (token dst : Address) (amount : U256) :
    Pays (OrderbookPrecompile.erc20Transfer token dst amount) := by
  unfold OrderbookPrecompile.erc20Transfer OrderbookPrecompile.erc20Call
  split
  · exact pays_pure ()
  refine Pays.bind (pays_access trivial) fun answer => ?_
  split
  · exact pays_throw _
  · exact pays_demand _ _

/-- Such a program ends, and leaves the storage alone. -/
theorem Pays.run {p : PreProgram α} (hp : p.Pays) (s : CallState) :
    ∃ r t, (ExceptT.run p).run (PreOp.exec quiet) s = .ok (r, t) ∧
      t.db.view.slot = s.db.view.slot := by
  obtain ⟨r, t, hrun⟩ := Calls.run_ok (fun o ho s => by
    obtain ⟨r, t, h, -⟩ := o.exec_of_pays ho s
    exact ⟨r, t, h⟩) hp s
  refine ⟨r, t, hrun, ?_⟩
  refine Calls.run_trans (T := fun s t : CallState => t.db.view.slot = s.db.view.slot)
    (fun _ => rfl) (fun h h' => h'.trans h) ?_ hp hrun
  intro o ho s r t h
  obtain ⟨r', t', h', hslot⟩ := o.exec_of_pays ho s
  obtain ⟨-, rfl⟩ := Prod.mk.inj (Except.ok.inj (h'.symm.trans h))
  exact hslot

end Pays

section Leaves

variable {α β ε : Type} {id : StorageID} {x : U256} {P : CallState → Prop}

/-- Started where `P` holds, the program ends, and leaves the word `x` in a slot. -/
def Leaves (id : StorageID) (x : U256) (P : CallState → Prop) (p : PreProgram α) : Prop :=
  Total (PreOp.exec quiet) P (ExceptT.run p) fun _ s => s.db.view.slot id = x

theorem Leaves.bind {p : PreProgram α} {f : α → PreProgram β} (hp : Leaves id x P p)
    (hf : ∀ a, (f a).Pays) : Leaves id x P (p >>= f) := by
  have hrest : ∀ r : Except PrecompileError α,
      Pays (ExceptT.mk (ExceptT.bindCont f r) : PreProgram β) := by
    rintro (e | a)
    · trivial
    · exact hf a
  refine Total.bind hp fun r s hs => ?_
  obtain ⟨r', t, hrun, hslot⟩ := (hrest r).run s
  exact ⟨r', t, hrun, by rw [hslot, hs]⟩

theorem leaves_state {p : StateProgram α} {P : Ledger → Prop} {st : Address × U256} {d : U256}
    (hp : Total Op.execL P p fun _ L => L.slot id = x) : Leaves id x (At P st d) (state p) :=
  Total.bind (total_ofState hp) fun _ => Total.pure fun _ hs => hs.ledger

theorem leaves_attempt {wrap : ε → PrecompileError} {p : StateProgram (Except ε α)}
    {P : Ledger → Prop} {st : Address × U256} {d : U256}
    (hp : Total Op.execL P p fun _ L => L.slot id = x) :
    Leaves id x (At P st d) (attempt wrap p) := by
  refine (leaves_state hp).bind ?_
  rintro (e | a)
  · exact pays_throw _
  · exact pays_pure a

end Leaves

end PreProgram

/-- A precompile that is enabled as the flags say, in a block with the default parameters, where all
evidence convicts validator `9`. -/
def sampleEnv (swap staking : Bool) (origin : Address) : PreEnv where
  origin := origin
  blockTime := 0
  blockNum := 0
  stakingEnabled := staking
  nativeSwapEnabled := swap
  stakingCfg := defaultStakingConfig
  evidence _ := .ok 9

/-- Some static call of a method makes a change. -/
def Changes (swap staking : Bool) (c : SystemContract) (m : UInt8) : Prop :=
  ∃ origin rest s r t, staticCall quiet (sampleEnv swap staking origin) c (m :: rest) s = .ok (r, t) ∧
    ¬s.Unchanged t

theorem changes_of_leaves {swap staking : Bool} {c : SystemContract} {m : UInt8} {origin : Address}
    {rest : Bytes} {id : StorageID} {x : U256} {P : Ledger → Prop} {st : Address × U256} {d : U256}
    (hmodule : id.addr = stakingModuleAddr ∨ id.addr = orderbookModuleAddr)
    (h : Leaves id x (At P st d) (c.run (sampleEnv swap staking origin) (m :: rest)))
    {db : StateDB} (hdb : P db.view) (hne : db.view.slot id ≠ x) : Changes swap staking c m := by
  obtain ⟨r, t, hrun, ht⟩ := h ⟨db, st, d⟩ ⟨hdb, rfl, rfl⟩
  refine ⟨origin, rest, _, r, t, hrun, fun hsame => hne ?_⟩
  obtain ⟨addr, key⟩ := id
  obtain rfl | rfl := hmodule
  · exact (hsame.staking key).symm.trans ht
  · exact (hsame.orderbook key).symm.trans ht

/-! ### The staking module -/

namespace StakingPrecompile

open Staking

/-- The words of validator `9` and delegator `7`. -/
abbrev solo : Set Key := {k | k ∈ soloKeys}

theorem shows_tableDB {l : List (Key × U256)} (hl : ∀ e ∈ l, e.1 ∈ soloKeys) :
    Shows solo (ofTable l) (tableDB stakingModuleAddr Key.slot l).view :=
  ⟨_, fun _ hk => slot_tableDB injOn_soloKeys hl hk, rfl⟩

/-- A method that is known by the words after it, as a write of one of them. -/
theorem total_word {α : Type} {p : StateProgram α} {x : α} {B B' : Words} {k : Key} (hk : k ∈ soloKeys)
    (hp : Total Op.execL (Shows solo B) p fun r L => r = x ∧ Shows solo B' L) :
    Total Op.execL (Shows solo B) p fun _ L => L.slot ⟨stakingModuleAddr, k.slot⟩ = B' k := by
  refine hp.conseq (fun _ h => h) ?_
  rintro r L ⟨-, bal, hL⟩
  exact hL.word k hk

theorem changes_of_words {swap : Bool} {m : UInt8} (origin : Address) (rest : Bytes)
    (st : Address × U256) (l : List (Key × U256)) (B' : Words) (k : Key)
    (hl : ∀ e ∈ l, e.1 ∈ soloKeys) (hk : k ∈ soloKeys) (hne : ofTable l k ≠ B' k)
    (h : Leaves ⟨stakingModuleAddr, k.slot⟩ (B' k) (At (Shows solo (ofTable l)) st 0)
      (method (sampleEnv swap true origin) (m :: rest) m)) : Changes swap true .staking m := by
  refine changes_of_leaves (.inl rfl) ((returns_demand rfl _).bind h) (shows_tableDB hl) ?_
  rw [slot_tableDB injOn_soloKeys hl hk]
  exact hne

/-- The parameters of the module in the sample runs. -/
abbrev params : StakingModule := newStakingModule defaultStakingConfig

theorem bond_changes (swap : Bool) : Changes swap true .staking 0x00 := by
  refine changes_of_words 0 [] (9, 1) [] (bonded params (ofTable []) 9 1).2 (.self 9) (by decide)
    (by decide) (by decide) ?_
  have hbond := total_bond (B := ofTable []) (m := params) (a := 9) (by decide) injOn_soloKeys
    (by decide) (by decide) (by decide) (by decide) 1
  exact (returns_demand rfl _).bind ((returns_bondCaller (by decide) _).bind
    ((leaves_attempt (total_word (by decide) hbond)).bind fun _ =>
      Pays.bind (pays_access trivial) fun _ => Pays.bind (pays_access trivial) fun _ => pays_pure _))

theorem unbond_changes (swap : Bool) : Changes swap true .staking 0x01 := by
  refine changes_of_words 9 (Bytes.beBytes 32 1) (0, 0) [(.self 9, 1)]
    (unbonded params (ofTable [(.self 9, 1)]) 9 (wordAt (0x01 :: Bytes.beBytes 32 1) 1) 0).2 (.self 9)
    (by decide) (by decide) (by decide) ?_
  have hunbond := total_unbond (B := ofTable [(.self 9, 1)]) (m := params) (a := 9) (by decide)
    injOn_soloKeys (by decide) (by decide) (by decide) (by decide) (by decide)
    (wordAt (0x01 :: Bytes.beBytes 32 1) 1) 0
  exact (returns_demand (by decide) _).bind
    ((leaves_attempt (total_word (by decide) hunbond)).bind fun _ => pays_pure _)

theorem withdraw_changes (swap : Bool) : Changes swap true .staking 0x08 := by
  refine changes_of_words 9 [] (0, 0) [(.unbondAmt 9, 1)]
    (withdrawn (ofTable [(.unbondAmt 9, 1)]) 9 0).2 (.unbondAmt 9) (by decide) (by decide)
    (by decide) ?_
  have hwithdraw := total_withdraw (B := ofTable [(.unbondAmt 9, 1)]) (a := 9) injOn_soloKeys
    (by decide) (by decide) 0
  exact (returns_demand rfl _).bind ((leaves_attempt (total_word (by decide) hwithdraw)).bind fun _ =>
    Pays.bind (pays_payOut _ _ _ _) fun _ => pays_pure _)

theorem delegate_changes (swap : Bool) : Changes swap true .staking 0x0a := by
  refine changes_of_words 0 (Bytes.beBytes 20 9) (7, 1) [] (delegated (ofTable []) 9 7 1).2 (.del 9 7)
    (by decide) (by decide) (by decide) ?_
  have hdelegate := total_delegate (B := ofTable []) (v := 9) (d := 7) injOn_soloKeys (by decide)
    (by decide) (by decide) (by decide) (by decide) (by decide) 1
  exact (returns_demand (by decide) _).bind ((returns_bondCaller (by decide) _).bind
    ((leaves_attempt (total_word (by decide) hdelegate)).bind fun _ =>
      Pays.bind (pays_access trivial) fun _ => Pays.bind (pays_access trivial) fun _ => pays_pure _))

theorem undelegate_changes (swap : Bool) : Changes swap true .staking 0x0b := by
  refine changes_of_words 7 (Bytes.beBytes 20 9 ++ Bytes.beBytes 32 1) (0, 0)
    [(.del 9 7, 1), (.delTot 9, 1)]
    (undelegated params (ofTable [(.del 9 7, 1), (.delTot 9, 1)]) 9 7 1 0).2 (.del 9 7)
    (by decide) (by decide) (by decide) ?_
  have hundelegate := total_undelegate (B := ofTable [(.del 9 7, 1), (.delTot 9, 1)]) (v := 9) (d := 7)
    params injOn_soloKeys (by decide) (by decide) (by decide) (by decide) (by decide) (by decide)
    (by decide) (by decide) 1 0
  exact (returns_demand (by decide) _).bind
    ((leaves_attempt (total_word (by decide) hundelegate)).bind fun _ => pays_pure _)

theorem withdrawDelegation_changes (swap : Bool) : Changes swap true .staking 0x0c := by
  refine changes_of_words 7 (Bytes.beBytes 20 9) (0, 0) [(.delUnbondAmt 9 7, 1)]
    (withdrawnDelegation (ofTable [(.delUnbondAmt 9 7, 1)]) 9 7 0).2 (.delUnbondAmt 9 7)
    (by decide) (by decide) (by decide) ?_
  have hwithdraw := total_withdrawDelegation (B := ofTable [(.delUnbondAmt 9 7, 1)]) (v := 9) (d := 7)
    injOn_soloKeys (by decide) (by decide) 0
  exact (returns_demand (by decide) _).bind
    ((leaves_attempt (total_word (by decide) hwithdraw)).bind fun _ =>
      Pays.bind (pays_payOut _ _ _ _) fun _ => pays_pure _)

theorem setCommission_changes (swap : Bool) : Changes swap true .staking 0x0d := by
  refine changes_of_words 9 (Bytes.beBytes 32 1) (0, 0) []
    (Function.update (ofTable []) (.comm 9) 1) (.comm 9) (by decide) (by decide) (by decide) ?_
  have hset : Total Op.execL (Shows solo (ofTable [])) (Staking.setCommission 9 1) fun r L =>
      r = .ok () ∧ Shows solo (Function.update (ofTable []) (.comm 9) 1) L := by
    apply (total_store (k := .comm 9) injOn_soloKeys (by decide) 1).bind
    intro _
    exact Total.pure fun L hL => ⟨rfl, hL⟩
  exact (returns_demand (by decide) _).bind
    ((leaves_attempt (total_word (by decide) hset)).bind fun _ => pays_pure _)

theorem claimRewards_changes (swap : Bool) : Changes swap true .staking 0x12 := by
  refine changes_of_words 7 (Bytes.beBytes 20 9) (0, 0) [(.rewPend 9 7, 1)]
    (claimed (ofTable [(.rewPend 9 7, 1)]) 9 7).2 (.rewPend 9 7) (by decide) (by decide)
    (by decide) ?_
  have hclaim := total_claimRewards (B := ofTable [(.rewPend 9 7, 1)]) (v := 9) (d := 7)
    injOn_soloKeys (by decide) (by decide) (by decide) (by decide)
  exact (returns_demand (by decide) _).bind
    ((leaves_attempt (total_word (by decide) hclaim)).bind fun _ =>
      Pays.bind (pays_payOut _ _ _ _) fun _ => pays_pure _)

/-- One share that has earned one unit. -/
def earnedOne : List (Key × U256) :=
  [(.del 9 7, 1), (.rewIdx 9, stakePrecision)]

theorem pendingRewards_changes (swap : Bool) : Changes swap true .staking 0x13 := by
  refine changes_of_words 0 (Bytes.beBytes 20 9 ++ Bytes.beBytes 20 7) (0, 0) earnedOne
    (settled (ofTable earnedOne) 9 7) (.rewPend 9 7) (by decide) (by decide) (by decide) ?_
  have hpending := total_pendingRewards (B := ofTable earnedOne) (v := 9) (d := 7) injOn_soloKeys
    (by decide) (by decide) (by decide) (by decide)
  exact Returns.bind ((returns_demand (by decide) _).bind (returns_pure _))
    ((leaves_state (total_word (by decide) hpending)).bind fun _ => pays_pure _)

theorem jail_changes (swap : Bool) : Changes swap true .staking 0x06 := by
  have hjail := total_slashAndJail (K := solo) (B := ofTable []) (b := 0) (v := 9) injOn_soloKeys
    (by decide) (by decide) (by decide) (by decide) (by decide)
  have hword : Total Op.execL (Vault solo (ofTable []) 0) (slashAndJail 9) fun _ L =>
      L.slot ⟨stakingModuleAddr, (Key.jailed 9).slot⟩ = 1 := by
    refine hjail.conseq (fun _ h => h) ?_
    rintro r L ⟨-, hL⟩
    rw [hL.word (.jailed 9) (by decide)]
    decide
  obtain ⟨rest, hlen⟩ : ∃ rest : Bytes, ((0x06 : UInt8) :: rest).length = 229 :=
    ⟨List.replicate 228 0, by rw [List.length_cons, List.length_replicate]⟩
  have hmethod : Leaves ⟨stakingModuleAddr, (Key.jailed 9).slot⟩ 1
      (At (Vault solo (ofTable []) 0) (0, 0) 0)
      (method (sampleEnv swap true 0) (0x06 :: rest) 0x06) :=
    (returns_demand hlen _).bind ((leaves_state hword).bind fun _ => pays_pure _)
  have hnew : Vault solo (ofTable []) 0 (StateDB.new ∅).view :=
    ⟨fun _ _ => rfl, rfl, List.not_mem_nil⟩
  refine changes_of_leaves (.inl rfl) ((returns_demand rfl _).bind hmethod) hnew ?_
  show (0 : U256) ≠ 1
  decide

/-- Every method that can write writes in some static call. -/
theorem changes_of_writer {m : UInt8} (hm : m ∈ writers) (swap : Bool) :
    Changes swap true .staking m := by
  simp only [writers, List.mem_cons, List.not_mem_nil, or_false] at hm
  rcases hm with rfl | rfl | rfl | rfl | rfl | rfl | rfl | rfl | rfl | rfl
  · exact bond_changes swap
  · exact unbond_changes swap
  · exact jail_changes swap
  · exact withdraw_changes swap
  · exact delegate_changes swap
  · exact undelegate_changes swap
  · exact withdrawDelegation_changes swap
  · exact setCommission_changes swap
  · exact claimRewards_changes swap
  · exact pendingRewards_changes swap

end StakingPrecompile

/-! ### The orderbook module -/

namespace OrderbookPrecompile

open Orderbook

/-- A sell order of five units of the token `7` by the maker `7`. -/
def sampleOrder : Order where
  id := 1
  maker := 7
  baseToken := 7
  side := orderSideSell
  priceX18 := 1
  baseOpen := 5
  baseOrig := 5
  createdAt := 0
  status := orderStatusOpen

/-- A book whose only order is the sample order. -/
def sampleBook : List (Key × U256) :=
  [(.nextID, 1), (.order 1 0, packHeader sampleOrder), (.order 1 1, 7), (.order 1 2, 1),
    (.order 1 3, 5), (.order 1 4, 5), (.escrowB 7 7, 5)]

def sampleWords : Words :=
  fun k => (sampleBook.lookup k).getD 0

/-- The state database of the book, which shows it. -/
abbrev sampleDB : StateDB := tableDB orderbookModuleAddr Key.slot sampleBook

abbrev ShowsSole (B : Words) : Ledger → Prop :=
  Shows {7} 1 1 B sampleDB.view.balance

theorem findOrder_sampleWords : findOrder sampleWords 1 = some sampleOrder := by
  decide

theorem sampleWords_wellFormed : WellFormed {7} 1 sampleWords := by
  refine ⟨by decide, fun id o hfind => ?_⟩
  obtain ⟨-, hpos, hle⟩ := findOrder_eq_some hfind
  obtain rfl : id = 1 := BitVec.eq_of_toNat_eq (le_antisymm hle hpos)
  obtain rfl := Option.some.inj (findOrder_sampleWords.symm.trans hfind)
  exact ⟨rfl, rfl, by decide⟩

theorem slot_sampleDB {k : Key} (hk : k ∈ Key.within {7} 1) :
    sampleDB.view.slot ⟨orderbookModuleAddr, k.slot⟩ = sampleWords k := by
  refine slot_tableDB soleKeys_injOn ?_ hk
  intro e he
  simp only [sampleBook, List.mem_cons, List.not_mem_nil, or_false] at he
  rcases he with rfl | rfl | rfl | rfl | rfl | rfl | rfl
  · trivial
  all_goals exact ⟨by decide, by decide⟩

theorem showsSole_sampleDB : ShowsSole sampleWords sampleDB.view where
  word k hk _ := slot_sampleDB hk
  len t ht side hside := by
    have hk : Key.openLen t side ∈ Key.within {7} 1 := ⟨ht, hside⟩
    rw [show openLenSlot t side = (Key.openLen t side).slot from rfl, slot_sampleDB hk]
    exact Nat.zero_le 1
  balance := rfl

theorem changes_of_words {staking : Bool} {m : UInt8} (rest : Bytes) (B' : Words) (k : Key)
    (hk : k ∈ Key.within {7} 1) (hne : sampleWords k ≠ B' k)
    (h : Leaves ⟨orderbookModuleAddr, k.slot⟩ (B' k) (At (ShowsSole sampleWords) (0, 0) 0)
      (method (sampleEnv true staking 7) (m :: rest) m)) : Changes true staking .orderbook m := by
  refine changes_of_leaves (.inr rfl) ((returns_demand rfl _).bind h) showsSole_sampleDB ?_
  rw [slot_sampleDB hk]
  exact hne

theorem cancel_changes (staking : Bool) : Changes true staking .orderbook 0x01 := by
  refine changes_of_words (Bytes.beBytes 32 1) (cancelled sampleWords 7 1).2 (.order 1 3)
    ⟨by decide, by decide, by decide⟩ (by decide) ?_
  have hcancel : Total Op.execL (ShowsSole sampleWords) (Orderbook.cancel 7 1) fun _ L =>
      L.slot ⟨orderbookModuleAddr, (Key.order 1 3).slot⟩ =
        (cancelled sampleWords 7 1).2 (.order 1 3) := by
    refine (total_cancel soleKeys_injOn sampleWords_wellFormed le_rfl 7 1).conseq (fun _ h => h) ?_
    rintro r L ⟨-, hL⟩
    exact hL.word _ ⟨by decide, by decide, by decide⟩ rfl
  exact (returns_demand (by decide) _).bind ((leaves_attempt hcancel).bind fun _ =>
    Pays.bind (pays_payQuote _ _ _) fun _ => Pays.bind (pays_erc20Transfer _ _ _) fun _ =>
      pays_pure _)

theorem fill_changes (staking : Bool) : Changes true staking .orderbook 0x02 := by
  refine changes_of_words (Bytes.beBytes 32 1 ++ Bytes.beBytes 32 5) (filled sampleWords 7 1 5).2
    (.order 1 3) ⟨by decide, by decide, by decide⟩ (by decide) ?_
  have hget : Total Op.execL (ShowsSole sampleWords) (Orderbook.getOrder 1) fun r L =>
      r = some sampleOrder ∧ ShowsSole sampleWords L := by
    rw [← findOrder_sampleWords]
    exact total_getOrder 1 (by decide)
  have hfill : Total Op.execL (ShowsSole sampleWords) (Orderbook.fill 7 1 5) fun _ L =>
      L.slot ⟨orderbookModuleAddr, (Key.order 1 3).slot⟩ =
        (filled sampleWords 7 1 5).2 (.order 1 3) := by
    refine (total_fill soleKeys_injOn sampleWords_wellFormed le_rfl 7 1 5).conseq (fun _ h => h) ?_
    rintro r L ⟨-, hL⟩
    exact hL.word _ ⟨by decide, by decide, by decide⟩ rfl
  exact (returns_demand (by decide) _).bind ((returns_state hget).bind
    ((returns_demand rfl _).bind (returns_depositValue.bind ((returns_demand (by decide) _).bind
      ((leaves_attempt hfill).bind fun _ => Pays.bind (pays_erc20Transfer _ _ _) fun _ =>
        Pays.bind (pays_payQuote _ _ _) fun _ => Pays.bind (pays_payQuote _ _ _) fun _ =>
        Pays.bind (pays_access trivial) fun _ => Pays.bind (pays_access trivial) fun _ =>
          pays_pure _)))))

theorem returns_erc20TransferFrom {P : CallState → Prop} (token src dst : Address) (amount : U256) :
    Returns quiet P (erc20TransferFrom token src dst amount) () P := by
  unfold erc20TransferFrom erc20Call
  split
  · exact returns_pure ()
  · exact fun s hs => ⟨_, s, rfl, rfl, hs⟩

/-- The identifiers of the book are used up, so that the next one is zero. -/
theorem place_changes (staking : Bool) : Changes true staking .orderbook 0x00 := by
  have hplace : Total Op.execL (HoldsWrap exhaustedWords) (placeSell 7 7 1 5 0) fun _ L =>
      L.slot ⟨orderbookModuleAddr, (Key.escrowB 7 7).slot⟩ = 5 := by
    refine wrapped_placeSell.conseq (fun _ h => h) ?_
    rintro r L ⟨-, hL⟩
    rw [hL.word (.escrowB 7 7) (by simp [wrapKeys])]
    decide
  have hmethod : Leaves ⟨orderbookModuleAddr, (Key.escrowB 7 7).slot⟩ 5
      (At (HoldsWrap exhaustedWords) (0, 0) 0) (method (sampleEnv true staking 7)
        (0x00 :: 0x01 :: (Bytes.beBytes 20 7 ++ Bytes.beBytes 32 1 ++ Bytes.beBytes 32 5)) 0x00) :=
    (returns_demand (by decide) _).bind (returns_depositValue.bind ((returns_demand rfl _).bind
      ((returns_erc20TransferFrom _ _ _ _).bind ((leaves_attempt hplace).bind fun _ => pays_pure _))))
  refine changes_of_leaves (.inr rfl) ((returns_demand rfl _).bind hmethod) exhausted_holds ?_
  rw [exhausted_holds.word (.escrowB 7 7) (by simp [wrapKeys])]
  decide

/-- Every method that can write writes in some static call. -/
theorem changes_of_writer {m : UInt8} (hm : m ∈ writers) (staking : Bool) :
    Changes true staking .orderbook m := by
  simp only [writers, List.mem_cons, List.not_mem_nil, or_false] at hm
  rcases hm with rfl | rfl | rfl
  · exact place_changes staking
  · exact cancel_changes staking
  · exact fill_changes staking

end OrderbookPrecompile

/-! ## The calls that write -/

/-- Whether a contract can write in a static call whose input starts with the given byte, by the
feature flags. -/
def SystemContract.CanWrite (swap staking : Bool) (first : Option UInt8) : SystemContract → Prop
  | .nativeTransfer => first ≠ none
  | .orderbook => swap = true ∧ ∃ m ∈ first, m ∈ OrderbookPrecompile.writers
  | .staking => staking = true ∧ ∃ m ∈ first, m ∈ StakingPrecompile.writers

/-- A state database over nothing, after `0x100` received five units. -/
def fundedDB : StateDB :=
  ((StateDB.new ∅).addBalancePrev nativeTransferAddr 5).2

theorem balance_fundedDB : fundedDB.view.balance nativeTransferAddr = 5 := by
  have hview : fundedDB.view = (StateDB.new ∅).view.updateBalance nativeTransferAddr (· + 5) :=
    (StateDB.view_updateBalance _ _ _).2
  rw [hview, balance_updateBalance, if_pos ⟨rfl, List.not_mem_nil⟩]
  rfl

/-- The recipient of a transfer whose input starts with a given byte. -/
theorem addressAt_recipient (m : UInt8) :
    addressAt (m :: List.replicate 19 1) 0 ≠ nativeTransferAddr := by
  intro h
  have hnat := congrArg BitVec.toNat h
  simp [addressAt, Bytes.ofBytes, List.replicate, nativeTransferAddr] at hnat
  omega

theorem nativeTransfer_changes (swap staking : Bool) (m : UInt8) :
    Changes swap staking .nativeTransfer m := by
  let s : CallState := ⟨fundedDB, (0, 0), 0⟩
  obtain ⟨r, t, hrun, hiff⟩ := nativeTransfer_unchanged_iff quiet (sampleEnv swap staking 0)
    (m :: List.replicate 19 1) s
  refine ⟨0, _, s, r, t, hrun, fun hsame => ?_⟩
  rcases hiff.mp hsame rfl with h | h
  · exact absurd (balance_fundedDB.symm.trans h) (by decide)
  · exact addressAt_recipient m h

end Dew
