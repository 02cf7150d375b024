/-
# Operations of the state database

The interface between the state database and everything that runs on it: an `Op` is one call of a
`StateDB` method with its arguments, `Op.Result` the type of what it returns, and `Op.exec` its
effect. Native modules and the EVM are programs over this interface, so that what holds for every
operation holds for whatever they do.
-/
import Dew.Program
import Dew.Views

namespace Dew

/-- One call of a `StateDB` method, or a panic. -/
inductive Op where
  | exist (addr : Address)
  | existEVM (addr : Address)
  | getBalance (addr : Address)
  | getNonce (addr : Address)
  | getCodeHash (addr : Address)
  | getCode (addr : Address)
  | empty (addr : Address)
  | getState (id : StorageID)
  | getCommittedState (id : StorageID)
  | getTransientState (addr : Address) (key : Hash)
  | getRefund
  | hasSelfDestructed (addr : Address)
  | isNewContract (addr : Address)
  | addressInAccessList (addr : Address)
  | slotInAccessList (addr : Address) (slot : Hash)
  | addBalancePrev (addr : Address) (amount : U256)
  | subBalance (addr : Address) (amount : U256)
  | setBalanceJournaled (addr : Address) (bal : U256)
  | setNonceJournaled (addr : Address) (nonce : U64)
  | setCodeJournaled (addr : Address) (code : Bytes)
  | createAccount (addr : Address)
  | createContract (addr : Address)
  | setState (id : StorageID) (value : Hash)
  | setStateJournaled (id : StorageID) (value : Hash)
  | selfDestruct (addr : Address)
  | selfDestruct6780 (addr : Address)
  | addRefund (gas : U64)
  | subRefund (gas : U64)
  | addLog (log : Log)
  | clearLogs
  | setTransientState (addr : Address) (key value : Hash)
  | addAddressToAccessList (addr : Address)
  | addSlotToAccessList (addr : Address) (slot : Hash)
  | prepare (sender coinbase : Address) (dest : Option Address) (precompiles : List Address)
  | snapshot
  | revertToSnapshot (revid : ℕ)
  /-- Not a method: a Go panic raised by the code that runs on the state database. -/
  | panic (reason : Panic)

/-- What a method returns. -/
@[reducible] def Op.Result : Op → Type
  | exist _ | existEVM _ | empty _ | hasSelfDestructed _ | isNewContract _
  | addressInAccessList _ => Bool
  | slotInAccessList _ _ => Bool × Bool
  | getBalance _ | addBalancePrev _ _ | subBalance _ _ | selfDestruct _ => U256
  | selfDestruct6780 _ => U256 × Bool
  | getNonce _ | getRefund => U64
  | getCodeHash _ | getState _ | getCommittedState _ | getTransientState _ _
  | setStateJournaled _ _ => Hash
  | getCode _ => Bytes
  | snapshot => ℕ
  | panic _ => Empty
  | _ => Unit

/-- The effect of a method on the state database. -/
def Op.exec : (op : Op) → StateDB → Except Panic (op.Result × StateDB)
  | .exist a, s => .ok (s.exist a)
  | .existEVM a, s => .ok (s.existEVM a)
  | .getBalance a, s => .ok (s.getBalance a)
  | .getNonce a, s => .ok (s.getNonce a)
  | .getCodeHash a, s => .ok (s.getCodeHash a)
  | .getCode a, s => .ok (s.getCode a)
  | .empty a, s => .ok (s.empty a)
  | .getState id, s => .ok (s.getState id)
  | .getCommittedState id, s => .ok (s.getCommittedState id, s)
  | .getTransientState a k, s => .ok (s.getTransientState a k, s)
  | .getRefund, s => .ok (s.refund, s)
  | .hasSelfDestructed a, s => .ok (s.hasSelfDestructed a, s)
  | .isNewContract a, s => .ok (s.isNewContract a, s)
  | .addressInAccessList a, s => .ok (s.accessList.containsAddress a, s)
  | .slotInAccessList a k, s => .ok (s.accessList.contains a k, s)
  | .addBalancePrev a x, s => .ok (s.addBalancePrev a x)
  | .subBalance a x, s => .ok (s.subBalance a x)
  | .setBalanceJournaled a b, s => .ok ((), s.setBalanceJournaled a b)
  | .setNonceJournaled a n, s => .ok ((), s.setNonceJournaled a n)
  | .setCodeJournaled a c, s => .ok ((), s.setCodeJournaled a c)
  | .createAccount a, s => .ok ((), s.createAccount a)
  | .createContract a, s => .ok ((), s.createContract a)
  | .setState id v, s => .ok ((), s.setState id v)
  | .setStateJournaled id v, s => .ok (s.setStateJournaled id v)
  | .selfDestruct a, s => .ok (s.selfDestruct a)
  | .selfDestruct6780 a, s => .ok (s.selfDestruct6780 a)
  | .addRefund g, s => .ok ((), s.addRefund g)
  | .subRefund g, s => (s.subRefund g).map ((), ·)
  | .addLog l, s => .ok ((), s.addLog l)
  | .clearLogs, s => .ok ((), s.clearLogs)
  | .setTransientState a k v, s => .ok ((), s.setTransientState a k v)
  | .addAddressToAccessList a, s => .ok ((), s.addAddressToAccessList a)
  | .addSlotToAccessList a k, s => .ok ((), s.addSlotToAccessList a k)
  | .prepare sender coinbase dest precompiles, s =>
    .ok ((), s.prepare sender coinbase dest precompiles)
  | .snapshot, s => .ok s.snapshot
  | .revertToSnapshot revid, s => (s.revertToSnapshot revid).map ((), ·)
  | .panic reason, _ => .error reason

/-- A program over the methods of the state database. -/
abbrev StateProgram (α : Type) := Program Op Op.Result α

/-- The program that calls one method. -/
abbrev Op.call (op : Op) : StateProgram op.Result :=
  Program.op op

/-- The state after a method, without its result. -/
def Op.apply (s : StateDB) (op : Op) : Except Panic StateDB :=
  (op.exec s).map Prod.snd

theorem snd_eq_of_ok {ε α σ : Type} {x : α × σ} {r : α} {t : σ}
    (h : (Except.ok x : Except ε (α × σ)) = .ok (r, t)) : x.2 = t := by
  rw [Except.ok.inj h]

open StateDB Store in
/-- Every method changes the caches by elementary changes only. -/
theorem Op.steps {op : Op} {s t : StateDB} {r : op.Result} (h : op.exec s = .ok (r, t)) :
    Steps s.toStore t.toStore := by
  cases op with
  | revertToSnapshot revid =>
      simp only [Op.exec] at h
      cases hrev : s.revertToSnapshot revid with
      | error e =>
          rw [hrev] at h
          cases h
      | ok u =>
          rw [hrev] at h
          cases h
          exact steps_revertToSnapshot hrev
  | panic reason => cases h
  | subRefund g =>
      simp only [Op.exec, StateDB.subRefund, TxScope.subRefund] at h
      split at h
      · cases h
      · cases h
        exact .refl
  | exist a =>
      simp only [Op.exec, StateDB.exist] at h
      split at h <;> (cases h; exact .refl)
  | existEVM a =>
      simp only [Op.exec, StateDB.existEVM, StateDB.exist] at h
      split at h
      · cases h
        exact .refl
      · split at h <;> (cases h; exact .refl)
  | getBalance a => exact snd_eq_of_ok h ▸ steps_getAccount (noteRead s _) a
  | getNonce a => exact snd_eq_of_ok h ▸ steps_getAccount (noteRead s _) a
  | getCodeHash a => exact snd_eq_of_ok h ▸ steps_getAccount (noteRead s _) a
  | getCode a => exact snd_eq_of_ok h ▸ steps_getCode s a
  | empty a =>
      have hget := steps_getAccount s a
      rw [getAccount_eq] at hget
      simp only [Op.exec, empty_eq] at h
      cases h
      exact hget
  | getState id => exact snd_eq_of_ok h ▸ steps_getState s id
  | addBalancePrev a x => exact snd_eq_of_ok h ▸ steps_updateBalance s a _
  | subBalance a x => exact snd_eq_of_ok h ▸ steps_updateBalance s a _
  | setBalanceJournaled a b => exact snd_eq_of_ok h ▸ steps_updateBalance s a fun _ => b
  | setNonceJournaled a n =>
      exact snd_eq_of_ok h ▸ steps_updateAccount s a (fun acc => .nonceChange a acc.nonce)
        (fun acc => { acc with nonce := n })
  | setCodeJournaled a c => exact snd_eq_of_ok h ▸ steps_setCodeJournaled s a c
  | createAccount a => exact snd_eq_of_ok h ▸ steps_createAccount s a
  | setState id v => exact snd_eq_of_ok h ▸ steps_setState s id v
  | setStateJournaled id v => exact snd_eq_of_ok h ▸ steps_setStateJournaled s id v
  | selfDestruct a => exact snd_eq_of_ok h ▸ steps_selfDestruct s a
  | selfDestruct6780 a => exact snd_eq_of_ok h ▸ steps_selfDestruct6780 s a
  | getCommittedState | getTransientState | getRefund | hasSelfDestructed | isNewContract
  | addressInAccessList | slotInAccessList | createContract | addRefund | addLog | clearLogs
  | setTransientState | addAddressToAccessList | addSlotToAccessList | prepare | snapshot =>
      cases h
      exact .refl

/-- A program changes the caches by elementary changes only. -/
theorem StateProgram.steps {α : Type} {p : StateProgram α} {s t : StateDB} {a : α}
    (h : p.run Op.exec s = .ok (a, t)) : Store.Steps s.toStore t.toStore :=
  Program.run_trans (h := Op.exec) (T := fun s t => Store.Steps s.toStore t.toStore)
    (fun _ => .refl) (fun h₁ h₂ => h₁.trans h₂) (fun _ _ _ _ hop => Op.steps hop) h

end Dew
