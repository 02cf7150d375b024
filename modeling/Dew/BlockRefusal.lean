/-
# Blocks that are refused

`ImportCommittedBlock` takes a snapshot, runs the transactions and goes back to the snapshot when
something is wrong. Every included transaction ends with `Finalise`, which drops the snapshots. So a
refused block leaves no trace, but it can be refused only while none of its transactions has been
included; after that it is committed or the node panics (`refused_import_unchanged`).
-/
import Dew.BodyBinding
import Dew.Reopening

namespace Dew

namespace StateDB

/-- Computing the root shows nothing new. -/
theorem view_intermediateRoot (s : StateDB) : s.intermediateRoot.2.view = s.view := by
  have hone : ∀ (x : GoMap Bytes Bytes × StateDB) (e : Address × Account),
      (overlayAccount x e).2.view = x.2.view := by
    intro x e
    unfold overlayAccount
    dsimp only
    split
    · rfl
    · split
      · rfl
      · rename_i hcode
        have hview := view_codeByHash x.2 e.2.codeHash
        rw [codeByHash, if_neg hcode] at hview
        unfold leafCode
        cases hmem : x.2.code.get? e.2.codeHash with
        | some code => rfl
        | none =>
            rw [hmem] at hview
            cases hrow : x.2.db.code? e.2.codeHash with
            | some blob => simpa [hrow] using hview
            | none => rfl
  have hfold (l : List (Address × Account)) (x : GoMap Bytes Bytes × StateDB) :
      (l.foldl overlayAccount x).2.view = x.2.view :=
    List.foldlRecOn (motive := fun y => y.2.view = x.2.view) l _ rfl
      fun y hy e _ => (hone y e).trans hy
  exact hfold (s.accounts.entries.map fun e => (e.1, e.2)) (_, s)

/-- Going back to a snapshot after which nothing was written. -/
theorem view_revertToSnapshot_of_view {s t u : StateDB} (hview : t.view = s.snapshot.2.view)
    (h : t.revertToSnapshot s.snapshot.1 = .ok u) :
    u.view = { s.view with nextRevisionID := s.nextRevisionID + 1 } := by
  have hrev := view_revertToSnapshot t s.snapshot.1
  rw [h, hview] at hrev
  have hledger (L : Ledger) : (L.inScope TxScope.snapshot).revertToSnapshot L.nextRevisionID =
      .ok { L with nextRevisionID := L.nextRevisionID + 1 } := by
    simp [Ledger.revertToSnapshot, Ledger.journalRevert, Ledger.inScope, TxScope.snapshot,
      findRevision]
  exact Except.ok.inj (hrev.trans (hledger s.view))

end StateDB

/-! ## Going back after an execution -/

namespace Node

variable {g : Geth} {n n' : Node} {hdr : Header} {txs : List Transaction} {s t u v : StateDB}
  {r : Except NodeError (List TxExecResult × U64)}

/-- The first transaction is included when the transactions are run after a snapshot of `s`. -/
def IncludesFirst (g : Geth) (n : Node) (hdr : Header) (txs : List Transaction) (s : StateDB) :
    Prop :=
  ∃ tx rest res u, txs = tx :: rest ∧ n.executeEVMTx g hdr tx 0 0 s.snapshot.2 = .ok (.ok res, u)

theorem validRevisions_of_includesFirst (hfirst : n.IncludesFirst g hdr txs s)
    (h : n.executeBlockTxs g hdr txs 0 0 s.snapshot.2 = .ok (r, t)) : t.validRevisions = [] := by
  obtain ⟨tx, rest, res, u, rfl, hrun⟩ := hfirst
  rcases executeBlockTxs_cons h with ⟨e, -, herror⟩ | ⟨res', used, u', r', hrun', hrest, -⟩
  · cases hrun.symm.trans herror
  · obtain ⟨v, -, hsettles⟩ := executeEVMTx_executed hrun'
    rcases executeBlockTxs_revisions hrest with hview | hnone
    · exact (congrArg (fun L : Ledger => L.validRevisions) hview).trans hsettles.validRevisions
    · exact hnone

/-- The state is as it was, and no transaction was included, or the snapshot would be gone. -/
theorem revert_executed (hrun : n.executeBlockTxs g hdr txs 0 0 s.snapshot.2 = .ok (r, t))
    (hview : u.view = t.view) (hrev : u.revertToSnapshot s.snapshot.1 = .ok v) :
    ¬n.IncludesFirst g hdr txs s ∧
      v.view = { s.view with nextRevisionID := s.nextRevisionID + 1 } := by
  have hkept : t.validRevisions ≠ [] := by
    intro hnone
    have hsame : u.validRevisions = t.validRevisions :=
      congrArg (fun L : Ledger => L.validRevisions) hview
    rw [StateDB.revertToSnapshot, hsame, hnone] at hrev
    cases hrev
  refine ⟨fun hfirst => hkept (validRevisions_of_includesFirst hfirst hrun), ?_⟩
  have hsame := (executeBlockTxs_revisions hrun).resolve_right hkept
  exact StateDB.view_revertToSnapshot_of_view (hview.trans hsame) hrev

/-! ## Import -/

/-- The checks of the header that come before the transactions. -/
def Follows (n : Node) (b : Block) : Prop :=
  n.blockNum.get? b.header.number = none ∧ b.header.number = n.header.number + 1 ∧
    b.header.parentHash = n.header.hash

theorem rollback_executed {b : Block} {e e' : NodeError}
    (hrun : n.executeBlockTxs g b.header b.transactions 0 0 n.statedb.snapshot.2 = .ok (r, t))
    (hview : u.view = t.view) (h : n.rollback u n.statedb.snapshot.1 e' = .ok (some e, n')) :
    ¬n.IncludesFirst g b.header b.transactions n.statedb ∧ ∃ v, n' = { n with statedb := v } ∧
      v.view = { n.statedb.view with nextRevisionID := n.statedb.nextRevisionID + 1 } := by
  unfold rollback at h
  cases hrev : u.revertToSnapshot n.statedb.snapshot.1 with
  | error p =>
      rw [hrev] at h
      cases h
  | ok v =>
      rw [hrev] at h
      cases h
      obtain ⟨hfirst, hv⟩ := revert_executed hrun hview hrev
      exact ⟨hfirst, v, rfl, hv⟩

/-- A refused block changes nothing that can be read, and none of its transactions was included. -/
theorem refused_import_unchanged {written : Bool} {b : Block} {e : NodeError}
    (h : n.importCommittedBlock g written b = .ok (some e, n')) :
    ¬n.Follows b ∧ n' = n ∨
      n.Follows b ∧ ¬n.IncludesFirst g b.header b.transactions n.statedb ∧
        ∃ t, n' = { n with statedb := t } ∧
          t.view = { n.statedb.view with nextRevisionID := n.statedb.nextRevisionID + 1 } := by
  unfold importCommittedBlock at h
  cases hnum : n.blockNum.get? b.header.number with
  | some existing =>
      left
      rw [hnum] at h
      dsimp only at h
      split at h <;> cases h
      exact ⟨fun hf => Option.some_ne_none _ (hnum.symm.trans hf.1), rfl⟩
  | none =>
      rw [hnum] at h
      dsimp only at h
      split at h
      · cases h
        exact .inl ⟨fun hf => absurd hf.2.1 ‹_›, rfl⟩
      split at h
      · cases h
        exact .inl ⟨fun hf => absurd hf.2.2 ‹_›, rfl⟩
      rename_i hnext hparent
      refine .inr ⟨⟨hnum, not_not.mp hnext, not_not.mp hparent⟩, ?_⟩
      unfold applyBlock at h
      cases hrun : n.executeBlockTxs g b.header b.transactions 0 0 n.statedb.snapshot.2 with
      | error p =>
          simp only [hrun] at h
          cases h
      | ok out =>
          obtain ⟨res, s⟩ := out
          cases res with
          | error e' =>
              simp only [hrun] at h
              exact rollback_executed hrun rfl h
          | ok r =>
              simp only [hrun, Program.ok_bind] at h
              split at h
              · exact rollback_executed hrun rfl h
              · split at h
                · exact rollback_executed hrun (StateDB.view_intermediateRoot s) h
                · split at h
                  · exact rollback_executed hrun (StateDB.view_intermediateRoot s) h
                  · cases h

/-- The next block, with a transaction that cannot be decoded. -/
def unreadableBlock : Block :=
  ⟨(emptyBlock emptyTxRoot).header, [⟨[]⟩]⟩

theorem unreadableBlock_refused : ∃ e n',
    emptyNode.importCommittedBlock noGeth true unreadableBlock = .ok (some e, n') ∧
      ∃ t, n' = { emptyNode with statedb := t } ∧ t.view = { emptyNode.statedb.view with
        nextRevisionID := emptyNode.statedb.nextRevisionID + 1 } := by
  have hnext : emptyNode.importCommittedBlock noGeth true unreadableBlock =
      emptyNode.applyBlock noGeth true unreadableBlock := by
    unfold importCommittedBlock
    exact (if_neg (by decide)).trans (if_neg (not_not.mpr rfl))
  obtain ⟨e, n', himport⟩ : ∃ e n', emptyNode.importCommittedBlock noGeth true unreadableBlock =
      .ok (some e, n') := ⟨_, _, hnext.trans rfl⟩
  rcases refused_import_unchanged himport with ⟨hnot, -⟩ | ⟨-, -, hstate⟩
  · exact absurd ⟨rfl, rfl, rfl⟩ hnot
  · exact ⟨e, n', himport, hstate⟩

end Node

end Dew
