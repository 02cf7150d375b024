/-
# The pool of a running node

Sending a transaction changes the pool by an addition, and a block that is sealed or imported by
removals. So what additions and removals keep, every call of the node keeps (`keeps_after`), and the
pool of a running node has one entry for a sender and a nonce and is within its limits
(`pool_of_running_node`).
-/
import Dew.Admission

namespace Dew

open Mempool

namespace PoolNode

/-- The calls that a node gets: transactions of the two kinds, and blocks of other nodes. -/
inductive Call where
  | send (turn : Turn) (raw : Bytes)
  | sendDew (turn : Turn) (raw : Bytes)
  | importBlock (written : Bool) (block : Block)

/-- The node after a call, unless it panics. -/
def after (lib : Library) (n : PoolNode) : Call → Except Panic PoolNode
  | .send turn raw => (n.sendRawTransaction lib turn raw).map Prod.snd
  | .sendDew turn raw => (n.sendDewRawTransaction lib turn raw).map Prod.snd
  | .importBlock written block => (n.importCommittedBlock lib written block).map Prod.snd

/-- Whatever a call returns, its pool satisfies `P`. -/
def Keeps {α : Type} (P : Pool → Prop) (r : Except Panic (α × PoolNode)) : Prop :=
  ∀ m, r.map Prod.snd = .ok m → P m.pool

section Keeps

variable {lib : Library} {n : PoolNode} {α β : Type} {P : Pool → Prop}

theorem keeps_ok {x : α} (h : P n.pool) : Keeps P (.ok (x, n)) := by
  rintro m ⟨⟩
  exact h

theorem Keeps.bind {r : Except Panic (β × PoolNode)}
    {k : β × PoolNode → Except Panic (α × PoolNode)} (h : Keeps P r)
    (hk : ∀ x m, P m.pool → Keeps P (k (x, m))) : Keeps P (r >>= k) := by
  cases r with
  | error p => exact fun _ heq => nomatch heq
  | ok out => exact hk out.1 out.2 (h out.2 rfl)

theorem Keeps.after {r : Except Panic β} {k : β → Except Panic (α × PoolNode)}
    (hk : ∀ x, Keeps P (k x)) : Keeps P (r >>= k) := by
  cases r with
  | error p => exact fun _ heq => nomatch heq
  | ok x => exact hk x

theorem keeps_rollback (hn : P n.pool) (s : StateDB) (snap : ℕ) (e : SealError) :
    Keeps P (n.rollback s snap e) :=
  .after fun _ => keeps_ok hn

theorem keeps_admitAndSeal {turn : Turn} {entry : Except PoolError Entry} {hash : Hash}
    {nonce account : U64} {sealReady : PoolNode → Except Panic (Option SealError × PoolNode)}
    (hadd : P (n.pool.accept turn.entryOrder entry).2)
    (hseal : ∀ m, P m.pool → Keeps P (sealReady m)) :
    Keeps P (n.admitAndSeal turn entry hash nonce account sealReady) := by
  unfold admitAndSeal
  dsimp only
  split
  · exact keeps_ok hadd
  · split
    · exact keeps_ok hadd
    · refine .bind (hseal _ hadd) fun err m hm => ?_
      cases err <;> exact keeps_ok hm

variable (hP : ∀ p op, P p → P (PoolOp.apply p op))

include hP

theorem keeps_removeAll {p : Pool} (hp : P p) (hashes : List Hash) : P (removeAll p hashes) := by
  induction hashes generalizing p with
  | nil => exact hp
  | cons h hashes ih => exact ih (hP p (.remove h) hp)

theorem keeps_persistBlock (hn : P n.pool) (s : StateDB) (snap : ℕ) (written : Bool)
    (block : Block) (results : List TxExecResult) (hashes : List Hash) :
    Keeps P (n.persistBlock s snap written block results hashes) := by
  unfold persistBlock
  split
  · exact keeps_rollback hn _ _ _
  · exact keeps_ok (keeps_removeAll hP hn hashes)

theorem keeps_sealReadyFromPool (hn : P n.pool) (turn : Turn) :
    Keeps P (n.sealReadyFromPool lib turn) := by
  unfold sealReadyFromPool
  dsimp only
  split
  · exact keeps_ok hn
  · refine .after fun out => ?_
    obtain ⟨res, s⟩ := out
    cases res with
    | error e => exact keeps_rollback hn _ _ _
    | ok r =>
        refine .bind (keeps_persistBlock hP hn _ _ _ _ _ _) fun err m hm => ?_
        dsimp only
        split
        · exact keeps_ok (keeps_removeAll hP hm _)
        · exact keeps_ok hm

theorem keeps_sealReadyDewFromPool (hn : P n.pool) (turn : Turn) :
    Keeps P (n.sealReadyDewFromPool lib turn) := by
  unfold sealReadyDewFromPool
  dsimp only
  split
  · exact keeps_ok hn
  · refine .after fun out => ?_
    obtain ⟨res, s⟩ := out
    cases res with
    | error e => exact keeps_rollback hn _ _ _
    | ok hashes => exact keeps_persistBlock hP hn _ _ _ _ _ _

theorem keeps_applyBlock (hn : P n.pool) (written : Bool) (block : Block) :
    Keeps P (applyBlock lib n written block) := by
  unfold applyBlock
  refine .after fun out => ?_
  obtain ⟨res, s⟩ := out
  cases res with
  | error e => exact keeps_rollback hn _ _ _
  | ok r =>
      dsimp only
      split
      · exact keeps_rollback hn _ _ _
      · split
        · exact keeps_rollback hn _ _ _
        · exact keeps_persistBlock hP hn _ _ _ _ _ _

/-- A check that fails returns early and leaves the pool alone. -/
theorem keeps_after (hn : P n.pool) {m : PoolNode} {c : Call} (h : n.after lib c = .ok m) :
    P m.pool := by
  revert m
  cases c with
  | send turn raw =>
      show Keeps P (n.sendRawTransaction lib turn raw)
      unfold sendRawTransaction
      dsimp only
      repeat' split
      all_goals try exact keeps_ok hn
      exact keeps_admitAndSeal (hP n.pool (.add turn.entryOrder (.evm _)) hn) fun m hm =>
        keeps_sealReadyFromPool hP hm turn
  | sendDew turn raw =>
      show Keeps P (n.sendDewRawTransaction lib turn raw)
      unfold sendDewRawTransaction
      dsimp only
      repeat' split
      all_goals try exact keeps_ok hn
      exact keeps_admitAndSeal (hP n.pool (.add turn.entryOrder (.dew _)) hn) fun m hm =>
        keeps_sealReadyDewFromPool hP hm turn
  | importBlock written block =>
      show Keeps P (n.importCommittedBlock lib written block)
      unfold importCommittedBlock
      repeat' split
      all_goals try exact keeps_ok hn
      exact keeps_applyBlock hP hn written block

end Keeps

/-- However a node is called, the maps of its pool agree, it has one entry for a sender and a nonce,
and the limits hold. -/
theorem pool_of_running_node {lib : Library} {n n' : PoolNode} {cfg : Config}
    (hglobal : 1 ≤ cfg.maxGlobal) (hper : 1 ≤ cfg.maxPerSender)
    (hbump : cfg.priceBumpPercent.toNat < 2 ^ 63 - 100) (hnew : n.pool = new cfg)
    (calls : List Call) (h : calls.foldlM (after lib) n = .ok n') : n'.pool.Sound := by
  have hstep : ∀ (p : Pool) (op : PoolOp), p.Sound ∧ p.policy = cfg.policy →
      (PoolOp.apply p op).Sound ∧ (PoolOp.apply p op).policy = cfg.policy := by
    rintro p op ⟨hp, hpolicy⟩
    obtain ⟨hsound, hsame⟩ := sound_run hp (by rwa [hpolicy]) [op]
    exact ⟨hsound, hsame.trans hpolicy⟩
  have hstart : n.pool.Sound ∧ n.pool.policy = cfg.policy := by
    rw [hnew]
    exact ⟨sound_new hglobal hper, rfl⟩
  clear hnew
  suffices hend : n'.pool.Sound ∧ n'.pool.policy = cfg.policy from hend.1
  induction calls generalizing n with
  | nil =>
      cases h
      exact hstart
  | cons c calls ih =>
      rw [List.foldlM_cons] at h
      cases hc : n.after lib c with
      | error p =>
          rw [hc] at h
          cases h
      | ok m =>
          rw [hc] at h
          exact ih h (keeps_after hstep hstart hc)

theorem idleNode_keeps_pool : ∃ raw n', [Call.send plainTurn raw].foldlM (after legacyLibrary)
    idleNode = .ok n' ∧ n'.pool.Sound := by
  obtain ⟨n', hsent⟩ := idleNode_admits legacyTx 0x612fb76ee7d53616253afa65a53d1d8a4225c45a
    legacyFormat (by decide) (by decide) (by decide) (Or.inl rfl) (by decide)
  have hafter : idleNode.after legacyLibrary
      (.send plainTurn (Rlp.encodeList legacyFields.items)) = .ok n' :=
    congrArg (Except.map Prod.snd) hsent
  have hrun : [Call.send plainTurn _].foldlM (after legacyLibrary) idleNode = .ok n' :=
    List.foldlM_cons.trans (congrArg (· >>= ([].foldlM (after legacyLibrary) ·)) hafter)
  have hnew : idleNode.pool = new defaultConfig := rfl
  exact ⟨_, n', hrun, pool_of_running_node (by decide) (by decide) (by decide) hnew _ hrun⟩

end PoolNode

end Dew
