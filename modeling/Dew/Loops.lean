/-
# Loops that may fail

A loop over a list whose rounds may fail: when all rounds succeed the results stand in the place of
the entries (`mapM_eq_ok_iff`), a loop that reads an entry and then changes a state is the reading
of all entries followed by the changes (`foldlM_eq_mapM`), and visiting the entries in another order
gives the same results in another order (`mapM_perm`, `mapM_flatten_perm`). A loop that collects what
it has not seen yet keeps the first entry of every key (`foldl_addNew`).

A loop that nothing bounds is given by what one round does. It ends exactly when one of the states
on its way leaves it (`within_eq_some_iff`).
-/
import Mathlib.Data.List.Perm.Basic
import Mathlib.Data.Nat.Find

namespace Loops

variable {α β σ ε : Type}

theorem mapM_eq_ok_iff {f : α → Except ε β} {as : List α} {bs : List β} :
    as.mapM f = .ok bs ↔ List.Forall₂ (fun a b => f a = .ok b) as bs := by
  induction as generalizing bs with
  | nil => simp [pure, Except.pure, eq_comm]
  | cons a as ih =>
      rw [List.mapM_cons]
      cases ha : f a with
      | error e => cases bs <;> simp [ha, bind, Except.bind]
      | ok b =>
          cases has : as.mapM f with
          | error e => cases bs <;> simp [ha, has, bind, Except.bind, ← ih]
          | ok bs' => cases bs <;> simp [ha, has, bind, Except.bind, pure, Except.pure, ← ih]

theorem mem_mapM_iff {f : α → Except ε β} {as : List α} {bs : List β} (h : as.mapM f = .ok bs)
    {b : β} : b ∈ bs ↔ ∃ a ∈ as, f a = .ok b := by
  replace h := mapM_eq_ok_iff.mp h
  induction h with
  | nil => simp
  | cons ha _ ih =>
      refine List.mem_cons.trans ((or_congr_right ih).trans ?_)
      simp only [List.exists_mem_cons_iff, ha, Except.ok.injEq, eq_comm]

theorem exists_mapM {f : α → Except ε β} {as : List α} (h : ∀ a ∈ as, ∃ b, f a = .ok b) :
    ∃ bs, as.mapM f = .ok bs := by
  induction as with
  | nil => exact ⟨[], rfl⟩
  | cons a as ih =>
      obtain ⟨hhead, htail⟩ := List.forall_mem_cons.mp h
      obtain ⟨b, hb⟩ := hhead
      obtain ⟨bs, hbs⟩ := ih htail
      exact ⟨b :: bs, mapM_eq_ok_iff.mpr (.cons hb (mapM_eq_ok_iff.mp hbs))⟩

/-- The first error of the loop is the first error of the reading. -/
theorem foldlM_eq_mapM {f : σ → α → Except ε σ} {r : α → Except ε β} {act : σ → β → σ}
    (h : ∀ s a, f s a = (r a).map (act s)) (as : List α) (s : σ) :
    as.foldlM f s = (as.mapM r).map fun bs => bs.foldl act s := by
  induction as generalizing s with
  | nil => rfl
  | cons a as ih =>
      rw [List.foldlM_cons, List.mapM_cons, h]
      cases r a with
      | error e => rfl
      | ok b =>
          show as.foldlM f (act s b) = _
          rw [ih]
          cases as.mapM r <;> rfl

theorem mapM_perm {f : α → Except ε β} {as as' : List α} {bs : List β} (has : as'.Perm as)
    (h : as.mapM f = .ok bs) : ∃ bs', as'.mapM f = .ok bs' ∧ bs'.Perm bs := by
  obtain ⟨bs', hbs', hperm⟩ := List.perm_comp_forall₂ has (mapM_eq_ok_iff.mp h)
  exact ⟨bs', mapM_eq_ok_iff.mpr hbs', hperm⟩

/-- Rounds that give lists, with the results of each round in another order too. -/
theorem mapM_flatten_perm {f f' : α → Except ε (List β)} {as as' : List α} {bss : List (List β)}
    (has : as'.Perm as)
    (hf : ∀ a ∈ as', ∀ bs, f a = .ok bs → ∃ bs', f' a = .ok bs' ∧ bs'.Perm bs)
    (h : as.mapM f = .ok bss) :
    ∃ bss', as'.mapM f' = .ok bss' ∧ bss'.flatten.Perm bss.flatten := by
  obtain ⟨bss₁, hbss₁, hperm⟩ := mapM_perm has h
  have hround : ∃ bss', as'.mapM f' = .ok bss' ∧ bss'.flatten.Perm bss₁.flatten := by
    clear hperm has
    replace hbss₁ := mapM_eq_ok_iff.mp hbss₁
    induction hbss₁ with
    | nil => exact ⟨[], rfl, List.Perm.refl _⟩
    | cons ha _ ih =>
        obtain ⟨hhead, htail⟩ := List.forall_mem_cons.mp hf
        obtain ⟨bs', hbs', hperm⟩ := hhead _ ha
        obtain ⟨bss', hbss', hperm'⟩ := ih htail
        exact ⟨bs' :: bss', mapM_eq_ok_iff.mpr (.cons hbs' (mapM_eq_ok_iff.mp hbss')),
          hperm.append hperm'⟩
  obtain ⟨bss', hbss', hperm'⟩ := hround
  exact ⟨bss', hbss', hperm'.trans hperm.flatten⟩

/-- The results of the last round stand last. -/
theorem mapM_append_singleton {f : α → Except ε β} {as : List α} {a : α} {bs : List β}
    (h : (as ++ [a]).mapM f = .ok bs) : ∃ init b, f a = .ok b ∧ bs = init ++ [b] := by
  rw [List.mapM_append, List.mapM_cons] at h
  cases hinit : as.mapM f with
  | error e =>
      rw [hinit] at h
      cases h
  | ok init =>
      cases ha : f a with
      | error e =>
          rw [hinit, ha] at h
          cases h
      | ok b =>
          rw [hinit, ha] at h
          exact ⟨init, b, rfl, (Except.ok.inj h).symm⟩

/-! ## Lists without repetitions -/

section AddNew

variable {κ : Type} [DecidableEq κ]

/-- An entry whose key is new is put at the end. -/
def addNew (key : α → κ) (out : List α) (a : α) : List α :=
  if key a ∈ out.map key then out else out ++ [a]

theorem foldl_addNew {key : α → κ} {l : List α} (hl : (l.map key).Nodup) (out : List α) :
    l.foldl (addNew key) out = out ++ l.filter fun a => key a ∉ out.map key := by
  induction l generalizing out with
  | nil => simp
  | cons a l ih =>
      obtain ⟨hnot, hl⟩ := List.nodup_cons.mp hl
      rw [List.foldl_cons, ih hl, addNew]
      by_cases hseen : key a ∈ out.map key
      · rw [if_pos hseen, List.filter_cons_of_neg (by simpa using hseen)]
      · rw [if_neg hseen, List.filter_cons_of_pos (by simpa using hseen), List.append_assoc,
          List.singleton_append]
        -- the key of `a` does not come again
        congr 2
        refine List.filter_congr fun x hx => ?_
        have hne : key x ≠ key a := fun heq => hnot (heq ▸ List.mem_map_of_mem hx)
        simp [hne]

end AddNew

/-! ## Loops without a bound -/

/-- The result of a loop if it is left within `n` rounds. A round gives the next state or the
result. -/
def within (round : σ → σ ⊕ β) : ℕ → σ → Option β
  | 0, _ => none
  | n + 1, s =>
    match round s with
    | .inl s' => within round n s'
    | .inr b => some b

theorem exists_first {p : ℕ → Prop} {k : ℕ} (hk : ¬p k) :
    ∃ i ≤ k, (∀ j < i, p j) ∧ ¬p i := by
  classical
  have hex : ∃ i, ¬p i := ⟨k, hk⟩
  exact ⟨Nat.find hex, Nat.find_min' hex hk, fun j hj => not_not.mp (Nat.find_min hex hj),
    Nat.find_spec hex⟩

section Within

variable {round : σ → σ ⊕ β} {state : ℕ → σ} {goesOn : ℕ → Prop} {out : ℕ → β}

theorem within_of_goesOn (hgo : ∀ i, goesOn i → round (state i) = .inl (state (i + 1)))
    (hstop : ∀ i, ¬goesOn i → round (state i) = .inr (out i)) {k : ℕ} (n i : ℕ)
    (hpast : ∀ j < k, goesOn (i + j)) (hk : ¬goesOn (i + k)) (hn : k < n) :
    within round n (state i) = some (out (i + k)) := by
  induction n generalizing i k with
  | zero => omega
  | succ n ih =>
      cases k with
      | zero =>
          simp only [Nat.add_zero] at hk ⊢
          rw [within, hstop i hk]
      | succ k =>
          rw [within, hgo i (hpast 0 (Nat.succ_pos k))]
          simp only [show i + (k + 1) = i + 1 + k by omega] at hk ⊢
          refine ih (i + 1) (fun j hj => ?_) hk (by omega)
          have hround := hpast (j + 1) (by omega)
          rwa [show i + (j + 1) = i + 1 + j by omega] at hround

theorem within_of_going (hgo : ∀ i, goesOn i → round (state i) = .inl (state (i + 1))) (n i : ℕ)
    (hpast : ∀ j < n, goesOn (i + j)) : within round n (state i) = none := by
  induction n generalizing i with
  | zero => rfl
  | succ n ih =>
      rw [within, hgo i (hpast 0 (Nat.succ_pos n))]
      refine ih (i + 1) fun j hj => ?_
      have hround := hpast (j + 1) (by omega)
      rwa [show i + (j + 1) = i + 1 + j by omega] at hround

/-- The loop ends exactly when a state on its way leaves it, with the result of that state. -/
theorem within_eq_some_iff (hgo : ∀ i, goesOn i → round (state i) = .inl (state (i + 1)))
    (hstop : ∀ i, ¬goesOn i → round (state i) = .inr (out i)) {b : β} :
    (∃ n, within round n (state 0) = some b) ↔
      ∃ k, (∀ j < k, goesOn j) ∧ ¬goesOn k ∧ b = out k := by
  constructor
  · rintro ⟨n, hn⟩
    have hleft : ∃ k, k < n ∧ ¬goesOn k := by
      by_contra hnot
      push Not at hnot
      rw [within_of_going hgo n 0 (by simpa using hnot)] at hn
      cases hn
    obtain ⟨k, hk, hnot⟩ := hleft
    obtain ⟨i, hik, hpast, hi⟩ := exists_first hnot
    have hend := within_of_goesOn hgo hstop n 0 (by simpa using hpast) (by simpa using hi)
      (lt_of_le_of_lt hik hk)
    rw [hn, Nat.zero_add] at hend
    exact ⟨i, hpast, hi, Option.some.inj hend⟩
  · rintro ⟨k, hpast, hk, rfl⟩
    have hend := within_of_goesOn hgo hstop (k + 1) 0 (by simpa using hpast) (by simpa using hk)
      (Nat.lt_succ_self k)
    rw [Nat.zero_add] at hend
    exact ⟨k + 1, hend⟩

end Within

end Loops
