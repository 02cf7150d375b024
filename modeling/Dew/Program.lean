/-
# Programs over an interface of operations

A `Program O R α` calls operations `o : O`, each of which answers with an `R o`, and returns an
`α`; what happens next may depend on the answers. `run` executes it against a handler that threads
a state and may fail. The rules lift facts about single operations to whole programs: a relation
between the first and the last state (`run_trans`), and a map between two state spaces that the
operations respect (`run_map`).
`Total` is total correctness with a precondition and a postcondition, and has the usual rules.
-/
import Mathlib.Tactic.Common

/-- A program that calls operations of an interface and returns an `α`. -/
inductive Program (O : Type) (R : O → Type) (α : Type) : Type
  | pure (a : α)
  | call (o : O) (k : R o → Program O R α)

namespace Program

variable {O : Type} {R : O → Type} {α β ε σ τ : Type}

/-- Continue a program with what depends on its result. -/
def bind : Program O R α → (α → Program O R β) → Program O R β
  | pure a, f => f a
  | call o k, f => call o fun r => (k r).bind f

instance : Monad (Program O R) where
  pure := pure
  bind := bind

/-- The program that calls one operation and returns its answer. -/
def op (o : O) : Program O R (R o) :=
  call o pure

/-- Run a program against a handler of its operations. -/
def run (h : (o : O) → σ → Except ε (R o × σ)) : Program O R α → σ → Except ε (α × σ)
  | pure a, s => .ok (a, s)
  | call o k, s => h o s >>= fun rt => (k rt.1).run h rt.2

@[simp] theorem ok_bind (a : α) (f : α → Except ε β) : (Except.ok a >>= f) = f a :=
  rfl

@[simp] theorem error_bind (e : ε) (f : α → Except ε β) : (Except.error e >>= f) = .error e :=
  rfl

section Rules

variable (h : (o : O) → σ → Except ε (R o × σ))

@[simp] theorem run_pure (a : α) (s : σ) :
    (Pure.pure a : Program O R α).run h s = .ok (a, s) :=
  rfl

@[simp] theorem run_op (o : O) (s : σ) : (op o : Program O R (R o)).run h s = h o s := by
  show (h o s >>= fun rt => Except.ok (rt.1, rt.2)) = h o s
  cases h o s <;> rfl

@[simp] theorem run_bind (p : Program O R α) (f : α → Program O R β) (s : σ) :
    (p >>= f).run h s = p.run h s >>= fun rt => (f rt.1).run h rt.2 := by
  show (p.bind f).run h s = _
  induction p generalizing s with
  | pure a => rfl
  | call o k ih =>
      show (h o s >>= fun rt => ((k rt.1).bind f).run h rt.2) =
        (h o s >>= fun rt => (k rt.1).run h rt.2) >>= fun rt => (f rt.1).run h rt.2
      cases h o s with
      | error e => rfl
      | ok rt => exact ih rt.1 rt.2

@[simp] theorem run_ite (c : Prop) [Decidable c] (p q : Program O R α) (s : σ) :
    (if c then p else q).run h s = if c then p.run h s else q.run h s := by
  split <;> rfl

variable {h}

theorem run_call_ok {o : O} {k : R o → Program O R α} {s t : σ} {a : α}
    (hrun : (call o k).run h s = .ok (a, t)) :
    ∃ r u, h o s = .ok (r, u) ∧ (k r).run h u = .ok (a, t) := by
  change (h o s >>= fun rt => (k rt.1).run h rt.2) = .ok (a, t) at hrun
  cases ho : h o s with
  | error e =>
      rw [ho] at hrun
      cases hrun
  | ok rt =>
      rw [ho] at hrun
      exact ⟨rt.1, rt.2, rfl, hrun⟩

theorem run_bind_ok {p : Program O R α} {f : α → Program O R β} {s t : σ} {b : β}
    (hrun : (p >>= f).run h s = .ok (b, t)) :
    ∃ a u, p.run h s = .ok (a, u) ∧ (f a).run h u = .ok (b, t) := by
  rw [run_bind] at hrun
  cases hp : p.run h s with
  | error e =>
      rw [hp] at hrun
      cases hrun
  | ok rt =>
      rw [hp] at hrun
      exact ⟨rt.1, rt.2, rfl, hrun⟩

/-- A reflexive and transitive relation that every operation establishes between the state before
and the state after holds between the ends of a run. -/
theorem run_trans {T : σ → σ → Prop} (hrefl : ∀ s, T s s)
    (htrans : ∀ {s t u}, T s t → T t u → T s u)
    (hop : ∀ o s r t, h o s = .ok (r, t) → T s t) {p : Program O R α} {s t : σ} {a : α}
    (hrun : p.run h s = .ok (a, t)) : T s t := by
  induction p generalizing s with
  | pure b =>
      cases hrun
      exact hrefl _
  | call o k ih =>
      obtain ⟨r, u, ho, hk⟩ := run_call_ok hrun
      exact htrans (hop o s r u ho) (ih r hk)

/-- A map of states that the operations of two handlers respect is respected by runs. -/
theorem run_map {h' : (o : O) → τ → Except ε (R o × τ)} {f : σ → τ}
    (hop : ∀ o s, (h o s).map (Prod.map id f) = h' o (f s)) (p : Program O R α) (s : σ) :
    (p.run h s).map (Prod.map id f) = p.run h' (f s) := by
  induction p generalizing s with
  | pure a => rfl
  | call o k ih =>
      show (h o s >>= fun rt => (k rt.1).run h rt.2).map _ =
        h' o (f s) >>= fun rt => (k rt.1).run h' rt.2
      rw [← hop]
      cases h o s with
      | error e => rfl
      | ok rt => exact ih rt.1 rt.2

end Rules

/-! ## Pre- and postconditions -/

/-- Started where `P` holds, the program ends without failure, and `Q` holds of its result and of
the state it leaves. -/
def Total (h : (o : O) → σ → Except ε (R o × σ)) (P : σ → Prop) (p : Program O R α)
    (Q : α → σ → Prop) : Prop :=
  ∀ s, P s → ∃ a t, p.run h s = .ok (a, t) ∧ Q a t

namespace Total

variable {h : (o : O) → σ → Except ε (R o × σ)} {P : σ → Prop} {Q : α → σ → Prop}

theorem pure {a : α} (hQ : ∀ s, P s → Q a s) : Total h P (Pure.pure a : Program O R α) Q := by
  intro s hs
  exact ⟨a, s, rfl, hQ s hs⟩

theorem op {o : O} {Q : R o → σ → Prop} (ho : ∀ s, P s → ∃ r t, h o s = .ok (r, t) ∧ Q r t) :
    Total h P (Program.op o) Q := by
  intro s hs
  obtain ⟨r, t, hrun, hQ⟩ := ho s hs
  exact ⟨r, t, by rw [run_op, hrun], hQ⟩

theorem bind {p : Program O R α} {f : α → Program O R β} {Q' : β → σ → Prop}
    (hp : Total h P p Q) (hf : ∀ a, Total h (Q a) (f a) Q') : Total h P (p >>= f) Q' := by
  intro s hs
  obtain ⟨a, t, hrun, hQ⟩ := hp s hs
  obtain ⟨b, u, hrun', hQ'⟩ := hf a t hQ
  refine ⟨b, u, ?_, hQ'⟩
  rw [run_bind, hrun, ok_bind]
  exact hrun'

theorem conseq {p : Program O R α} {P' : σ → Prop} {Q' : α → σ → Prop} (hp : Total h P p Q)
    (hP : ∀ s, P' s → P s) (hQ : ∀ a s, Q a s → Q' a s) : Total h P' p Q' := by
  intro s hs
  obtain ⟨a, t, hrun, hpost⟩ := hp s (hP s hs)
  exact ⟨a, t, hrun, hQ a t hpost⟩

/-- A fact that does not depend on the state may be used to prove the triple. -/
theorem assume {p : Program O R α} {c : Prop} (hp : c → Total h P p Q) :
    Total h (fun s => c ∧ P s) p Q := by
  intro s hs
  exact hp hs.1 s hs.2

/-- A value that the precondition says exists may be fixed. -/
theorem fix {ι : Type} {p : Program O R α} {P : ι → σ → Prop} (hp : ∀ i, Total h (P i) p Q) :
    Total h (fun s => ∃ i, P i s) p Q := by
  intro s hs
  obtain ⟨i, hi⟩ := hs
  exact hp i s hi

end Total

/-! ## Which operations a program calls -/

/-- Every operation the program can call satisfies `C`. -/
def Calls (C : O → Prop) : Program O R α → Prop
  | pure _ => True
  | call o k => C o ∧ ∀ r, (k r).Calls C

namespace Calls

variable {C : O → Prop}

@[simp] theorem pure_iff (a : α) : (Pure.pure a : Program O R α).Calls C ↔ True :=
  Iff.rfl

@[simp] theorem op_iff (o : O) : (Program.op o : Program O R (R o)).Calls C ↔ C o := by
  simp [Program.op, Calls]

@[simp] theorem ite_iff (c : Prop) [Decidable c] (p q : Program O R α) :
    (if c then p else q).Calls C ↔ (c → p.Calls C) ∧ (¬c → q.Calls C) := by
  split <;> simp [*]

theorem bind {p : Program O R α} {f : α → Program O R β} (hp : p.Calls C)
    (hf : ∀ a, (f a).Calls C) : (p >>= f).Calls C := by
  show (Program.bind p f).Calls C
  induction p with
  | pure a => exact hf a
  | call o k ih => exact ⟨hp.1, fun r => ih r (hp.2 r)⟩

/-- What the operations that a program calls preserve, the program preserves. -/
theorem run_trans {h : (o : O) → σ → Except ε (R o × σ)} {T : σ → σ → Prop} (hrefl : ∀ s, T s s)
    (htrans : ∀ {s t u}, T s t → T t u → T s u)
    (hop : ∀ o, C o → ∀ {s r t}, h o s = .ok (r, t) → T s t) {p : Program O R α} (hp : p.Calls C)
    {s t : σ} {a : α} (hrun : p.run h s = .ok (a, t)) : T s t := by
  induction p generalizing s with
  | pure b =>
      cases hrun
      exact hrefl _
  | call o k ih =>
      obtain ⟨r, u, ho, hk⟩ := run_call_ok hrun
      exact htrans (hop o hp.1 ho) (ih r (hp.2 r) hk)

/-- When the operations that a program calls never fail, it does not fail. -/
theorem run_ok {h : (o : O) → σ → Except ε (R o × σ)}
    (hop : ∀ o, C o → ∀ s, ∃ r t, h o s = .ok (r, t)) {p : Program O R α} (hp : p.Calls C) (s : σ) :
    ∃ a t, p.run h s = .ok (a, t) := by
  induction p generalizing s with
  | pure a => exact ⟨a, s, rfl⟩
  | call o k ih =>
      obtain ⟨r, u, ho⟩ := hop o hp.1 s
      obtain ⟨a, t, hk⟩ := ih r (hp.2 r) u
      refine ⟨a, t, ?_⟩
      show (h o s >>= fun rt => (k rt.1).run h rt.2) = _
      rw [ho]
      exact hk

end Calls

end Program
