/-
# The execution of a block

What running the transactions of a block can do to the state, said once: a transaction that is
refused changes nothing that can be read, an included one makes elementary changes and ends with
`Finalise`, which drops the journal and all snapshots. So a block can be taken back only while none
of its transactions has been included.
-/
import Dew.NativeExecutor
import Dew.Node

namespace Dew

/-! ## Runs on the ledger -/

/-- A run on the caches is a run on the ledger. -/
theorem StateProgram.view_run {α : Type} {p : StateProgram α} {s t : StateDB} {a : α}
    (h : p.run Op.exec s = .ok (a, t)) : p.run Op.execL s.view = .ok (a, t.view) := by
  rw [← StateProgram.run_view, h]
  rfl

/-! ## The end of a transaction -/

/-- `t` is what `Finalise` makes of `u`, with or without the logs. -/
def Settles (u t : StateDB) : Prop :=
  t = u.finalise true ∨ t = (u.finalise true).clearLogs

namespace Settles

variable {u t : StateDB}

theorem db_eq (h : Settles u t) : t.db = u.db := by
  rcases h with rfl | rfl <;> exact StateDB.finalise_db u

theorem validRevisions (h : Settles u t) : t.validRevisions = [] := by
  have hreset : (u.finalise true).validRevisions = [] := by
    rw [StateDB.finalise_eq]
    rfl
  rcases h with rfl | rfl <;> exact hreset

end Settles

/-- The ways a transaction leaves the state: a refused one as it was but for what is cached, an
included one after elementary changes and `Finalise`. -/
def Executed {ε α : Type} (s : StateDB) : Except ε α → StateDB → Prop
  | .error _, t => t.view = s.view ∧ Store.Steps s.toStore t.toStore
  | .ok _, t => ∃ u : StateDB, Store.Steps s.toStore u.toStore ∧ Settles u t

namespace Executed

variable {ε α : Type} {s t : StateDB} {r : Except ε α}

theorem db_eq (h : Executed s r t) : t.db = s.db := by
  cases r with
  | error e => exact h.2.db_eq
  | ok a =>
      obtain ⟨u, hsteps, hsettles⟩ := h
      exact hsettles.db_eq.trans hsteps.db_eq

end Executed

/-! ## Flush and root -/

/-- A flush writes state rows only. -/
theorem StateDB.get?_flush_of_not_state (s : StateDB) {k : Bytes} (hk : isStateKey k = false) :
    s.flush.db.get? k = s.db.get? k := by
  have hwrites : ∀ w ∈ s.flushDirtyTo, isStateKey w.key = true := by
    intro w hw
    rcases List.mem_append.mp hw with hw | hw
    · obtain ⟨a, -, hw⟩ := List.mem_flatMap.mp hw
      unfold accountWrites at hw
      split at hw
      · obtain rfl := List.mem_singleton.mp hw
        rfl
      · split at hw
        · cases hw
        · rcases List.mem_cons.mp hw with rfl | hw
          · rfl
          · split at hw
            · cases hw
            · split at hw
              · obtain rfl := List.mem_singleton.mp hw
                rfl
              · cases hw
    · obtain ⟨id, -, rfl⟩ := List.mem_map.mp hw
      rfl
  have hother : ∀ w ∈ s.flushDirtyTo, w.key ≠ k := by
    rintro w hw rfl
    rw [hwrites w hw] at hk
    cases hk
  show (GoMap.applyWrites s.flushDirtyTo s.db).get? k = s.db.get? k
  rw [GoMap.get?_applyWrites_of_agree (v := none) (fun w hw heq => absurd heq (hother w hw)),
    if_neg]
  rintro ⟨w, hw, heq⟩
  exact hother w hw heq

/-- Computing the root caches code only. -/
theorem StateDB.steps_intermediateRoot (s : StateDB) :
    Store.Steps s.toStore s.intermediateRoot.2.toStore := by
  have hone : ∀ (x : GoMap Bytes Bytes × StateDB) (e : Address × Account),
      Store.Steps x.2.toStore (overlayAccount x e).2.toStore := by
    intro x e
    obtain ⟨merged, s⟩ := x
    unfold overlayAccount
    dsimp only
    split
    · exact .refl
    · split
      · exact .refl
      · unfold leafCode
        cases hcode : s.code.get? e.2.codeHash with
        | some code => exact .refl
        | none =>
            cases hrow : s.db.code? e.2.codeHash with
            | some blob => exact steps_putCode s _ _
            | none => exact .refl
  have hfold : ∀ (l : List (Address × Account)) (x : GoMap Bytes Bytes × StateDB),
      Store.Steps x.2.toStore (l.foldl overlayAccount x).2.toStore := by
    intro l
    induction l with
    | nil => exact fun x => .refl
    | cons e l ih => exact fun x => (hone x e).trans (ih _)
  exact hfold (s.accounts.entries.map fun e => (e.1, e.2)) (_, s)

/-! ## A message -/

namespace Vm

theorem run_buyGas (msg : Message) (L : Ledger) :
    ∃ r, (buyGas msg).run Op.execL L = .ok (r, L) := by
  unfold buyGas
  split
  · exact ⟨_, rfl⟩
  · split
    · exact ⟨_, rfl⟩
    · rw [Program.run_bind, Program.run_op]
      show ∃ r, Program.run Op.execL (ite _ _ _) L = .ok (r, L)
      split
      · exact ⟨_, rfl⟩
      · rw [Program.run_bind, Program.run_op]
        show ∃ r, Program.run Op.execL (ite _ _ _) L = .ok (r, L)
        split <;> exact ⟨_, rfl⟩

/-- A message that is refused changes nothing. -/
theorem view_execute_error {evm : Evm} {cfg : Config} {block : BlockContext} {msg : Message}
    {s t : StateDB} {e : VmError}
    (h : (execute evm cfg block msg).run Op.exec s = .ok (.error e, t)) : t.view = s.view := by
  have hview := StateProgram.view_run h
  obtain ⟨r, hbuy⟩ := run_buyGas msg s.view
  unfold execute at hview
  rw [Program.run_bind, hbuy, Program.ok_bind] at hview
  cases r with
  | error e' => exact (congrArg Prod.snd (Except.ok.inj hview)).symm
  | ok gasCost =>
      -- after the gas is bought every message ends with a result
      obtain ⟨_, _, -, hview⟩ := Program.run_bind_ok hview
      obtain ⟨_, _, -, hview⟩ := Program.run_bind_ok hview
      obtain ⟨_, _, -, hview⟩ := Program.run_bind_ok hview
      obtain ⟨_, _, -, hview⟩ := Program.run_bind_ok hview
      obtain ⟨_, _, -, hview⟩ := Program.run_bind_ok hview
      cases congrArg Prod.fst (Except.ok.inj hview)

/-- What `ApplyMessage` did: it refused the message, or ran it and finalised. -/
theorem applyMessage_cases {evm : Evm} {cfg : Config} {block : BlockContext} {msg : Message}
    (hmsg : msg.noFinalise = false) {s t : StateDB} {r : Except VmError Result}
    (h : applyMessage evm cfg block msg s = .ok (r, t)) :
    (∃ e, r = .error e ∧ t.view = s.view ∧ Store.Steps s.toStore t.toStore) ∨
      ∃ x u res, (execute evm cfg block.withDefaults msg).run Op.exec s = .ok (.ok x, u) ∧
        r = .ok res ∧ Settles u t := by
  unfold applyMessage at h
  cases hrun : (execute evm cfg block.withDefaults msg).run Op.exec s with
  | error p =>
      rw [hrun] at h
      cases h
  | ok out =>
      obtain ⟨res, u⟩ := out
      rw [hrun, hmsg] at h
      cases res with
      | error e =>
          cases h
          exact .inl ⟨e, rfl, view_execute_error hrun, StateProgram.steps hrun⟩
      | ok x =>
          cases h
          exact .inr ⟨x, u, _, rfl, rfl, .inr rfl⟩

end Vm

/-! ## The transactions of a block -/

namespace Node

variable {g : Geth} {n n' : Node}

theorem messageOf_spec {tx : EthTx} {sender : Address} {gasPrice : ℕ} {msg : Vm.Message}
    (h : messageOf tx sender gasPrice = .ok msg) :
    msg.noFinalise = false ∧ msg.sender = sender ∧ msg.target = tx.target := by
  unfold messageOf at h
  split at h
  · cases h
    exact ⟨rfl, rfl, rfl⟩
  · cases h

/-- An included transaction was decoded, its sender recovered and its nonce found right, and its
message was run and finalised. -/
structure Includes (g : Geth) (n : Node) (hdr : Header) (tx : Transaction) (s t : StateDB)
    (res : TxExecResult) (ethTx : EthTx) (sender : Address) : Prop where
  decoded : g.unmarshal tx.marshalBinary = .ok ethTx
  recovered : g.sender n.chainID ethTx = .ok sender
  nonce : ethTx.nonce = s.nonceOf sender
  hash : res.txHash = ethTx.hash
  ran : ∃ msg x u, msg.sender = sender ∧ msg.target = ethTx.target ∧
    (Vm.execute g.evm n.config (n.blockContext hdr).withDefaults msg).run Op.exec
      (s.getNonce sender).2 = .ok (.ok x, u) ∧ Settles u t

/-- The outcomes of `executeEVMTxLocked`; a refused transaction leaves what was read in the
caches. -/
theorem executeEVMTx_cases {hdr : Header} {tx : Transaction} {i : ℕ} {start : U64}
    {s t : StateDB} {r : Except NodeError (TxExecResult × U64)}
    (h : n.executeEVMTx g hdr tx i start s = .ok (r, t)) :
    (∃ e, r = .error e ∧ t.view = s.view ∧ Store.Steps s.toStore t.toStore) ∨
      ∃ res used ethTx sender, r = .ok (res, used) ∧ Includes g n hdr tx s t res ethTx sender := by
  unfold executeEVMTx at h
  split at h
  · cases h
    exact .inl ⟨_, rfl, rfl, .refl⟩
  rename_i ethTx hdecoded
  split at h
  · cases h
    exact .inl ⟨_, rfl, rfl, .refl⟩
  rename_i sender hrecovered
  split at h
  · cases h
    exact .inl ⟨_, rfl, rfl, .refl⟩
  have hread : Store.Steps s.toStore (s.getNonce sender).2.toStore :=
    StateDB.steps_getAccount (StateDB.noteRead s _) sender
  have hview : (s.getNonce sender).2.view = s.view :=
    StateDB.view_getAccount (StateDB.noteRead s _) sender
  dsimp only at h
  split at h
  · cases h
    exact .inl ⟨_, rfl, hview, hread⟩
  rename_i hnonce
  split at h
  · cases h
    exact .inl ⟨_, rfl, hview, hread⟩
  rename_i gasPrice _
  cases hmsg : messageOf ethTx sender gasPrice with
  | error p =>
      rw [hmsg] at h
      cases h
  | ok msg =>
      obtain ⟨hfinal, hsender, htarget⟩ := messageOf_spec hmsg
      rw [hmsg, Program.ok_bind] at h
      cases hrun : Vm.applyMessage g.evm n.config (n.blockContext hdr) msg
          (s.getNonce sender).2 with
      | error p =>
          rw [hrun] at h
          cases h
      | ok out =>
          obtain ⟨res, u⟩ := out
          rw [hrun] at h
          rcases Vm.applyMessage_cases hfinal hrun with
            ⟨e, rfl, hsame, hsteps⟩ | ⟨x, v, res', hexec, rfl, hsettles⟩
          · cases h
            exact .inl ⟨_, rfl, hsame.trans hview, hread.trans hsteps⟩
          · cases h
            refine .inr ⟨_, _, ethTx, sender, rfl, hdecoded, hrecovered, ?_, rfl, msg, x, v,
              hsender, htarget, hexec, hsettles⟩
            rw [not_not.mp hnonce, StateDB.getNonce_fst]

theorem executeEVMTx_executed {hdr : Header} {tx : Transaction} {i : ℕ} {start : U64}
    {s t : StateDB} {r : Except NodeError (TxExecResult × U64)}
    (h : n.executeEVMTx g hdr tx i start s = .ok (r, t)) : Executed s r t := by
  rcases executeEVMTx_cases h with
    ⟨e, rfl, hview, hsteps⟩ | ⟨res, used, ethTx, sender, rfl, hincl⟩
  · exact ⟨hview, hsteps⟩
  · obtain ⟨msg, x, u, -, -, hexec, hsettles⟩ := hincl.ran
    have hread : Store.Steps s.toStore (s.getNonce sender).2.toStore :=
      StateDB.steps_getAccount (StateDB.noteRead s _) sender
    exact ⟨u, hread.trans (StateProgram.steps hexec), hsettles⟩

/-- The run of a block: it stops at the first transaction that is refused, or all are included. -/
theorem executeBlockTxs_cons {hdr : Header} {tx : Transaction} {txs : List Transaction} {i : ℕ}
    {start : U64} {s t : StateDB} {r : Except NodeError (List TxExecResult × U64)}
    (h : n.executeBlockTxs g hdr (tx :: txs) i start s = .ok (r, t)) :
    (∃ e, r = .error e ∧ n.executeEVMTx g hdr tx i start s = .ok (.error e, t)) ∨
      ∃ res used u r', n.executeEVMTx g hdr tx i start s = .ok (.ok (res, used), u) ∧
        n.executeBlockTxs g hdr txs (i + 1) used u = .ok (r', t) ∧
        r = r'.map fun x => (res :: x.1, x.2) := by
  unfold executeBlockTxs at h
  cases hrun : n.executeEVMTx g hdr tx i start s with
  | error p =>
      rw [hrun] at h
      cases h
  | ok out =>
      obtain ⟨res, u⟩ := out
      rw [hrun, Program.ok_bind] at h
      cases res with
      | error e =>
          cases h
          exact .inl ⟨e, rfl, rfl⟩
      | ok x =>
          obtain ⟨first, used⟩ := x
          dsimp only at h
          cases hrest : n.executeBlockTxs g hdr txs (i + 1) used u with
          | error p =>
              rw [hrest] at h
              cases h
          | ok out' =>
              obtain ⟨res', v⟩ := out'
              rw [hrest] at h
              cases res' with
              | error e =>
                  cases h
                  exact .inr ⟨first, used, u, _, rfl, hrest, rfl⟩
              | ok y =>
                  cases h
                  exact .inr ⟨first, used, u, _, rfl, hrest, rfl⟩

/-- What every transaction of a block preserves, the block preserves. -/
theorem executeBlockTxs_preserves {P : StateDB → Prop}
    (hP : ∀ {ε α : Type} {s t : StateDB} {r : Except ε α}, P s → Executed s r t → P t)
    {hdr : Header} {txs : List Transaction} {i : ℕ} {start : U64} {s t : StateDB}
    {r : Except NodeError (List TxExecResult × U64)} (hs : P s)
    (h : n.executeBlockTxs g hdr txs i start s = .ok (r, t)) : P t := by
  induction txs generalizing i start s r with
  | nil =>
      cases h
      exact hs
  | cons tx txs ih =>
      rcases executeBlockTxs_cons h with ⟨e, rfl, hrun⟩ | ⟨res, used, u, r', hrun, hrest, rfl⟩
      · exact hP hs (executeEVMTx_executed hrun)
      · exact ih (hP hs (executeEVMTx_executed hrun)) hrest

/-- Once a transaction is included there is no snapshot left. -/
theorem executeBlockTxs_revisions {hdr : Header} {txs : List Transaction} {i : ℕ} {start : U64}
    {s t : StateDB} {r : Except NodeError (List TxExecResult × U64)}
    (h : n.executeBlockTxs g hdr txs i start s = .ok (r, t)) :
    t.view = s.view ∨ t.validRevisions = [] := by
  induction txs generalizing i start s r with
  | nil =>
      cases h
      exact .inl rfl
  | cons tx txs ih =>
      rcases executeBlockTxs_cons h with ⟨e, rfl, hrun⟩ | ⟨res, used, u, r', hrun, hrest, rfl⟩
      · exact .inl (executeEVMTx_executed hrun).1
      · obtain ⟨v, -, hsettles⟩ := executeEVMTx_executed hrun
        rcases ih hrest with hview | hnone
        · exact .inr ((congrArg (fun L : Ledger => L.validRevisions) hview).trans
            hsettles.validRevisions)
        · exact .inr hnone

end Node

end Dew
