/-
Calling something until it succeeds, a bounded number of times.

A call takes the state of whatever it is made on and returns a code and the next state;
zero is success.  `upTo` is the loop, and `Accepted` says without a loop what it means for
one of the calls to have succeeded: some call within the bound returned zero, and the ones
before it did not.
-/
import Mathlib.Tactic.TypeStar

namespace Retry

variable {σ : Type*} (op : σ → Int × σ)

/-- The state after `k` calls, however they went. -/
def after (s : σ) : Nat → σ
  | 0 => s
  | k + 1 => after (op s).2 k

/-- Call until the code is zero, `n` times at most; `ret` is the last code so far. -/
def upTo : Nat → Int → σ → Int × σ
  | 0, ret, s => (ret, s)
  | n + 1, _, s => if (op s).1 = 0 then (0, (op s).2) else upTo n (op s).1 (op s).2

/-- Call number `k` is the first to return zero, and it leaves `t`. -/
structure AcceptedAt (s : σ) (k : Nat) (t : σ) : Prop where
  refused : ∀ j < k, (op (after op s j)).1 ≠ 0
  accepted : op (after op s k) = (0, t)

/-- One of the first `n` calls returned zero, and the first to do so leaves `t`. -/
def Accepted (n : Nat) (s t : σ) : Prop := ∃ k < n, AcceptedAt op s k t

variable {op}

theorem after_succ (op : σ → Int × σ) (s : σ) (k : Nat) :
    after op s (k + 1) = (op (after op s k)).2 := by
  induction k generalizing s with
  | zero => rfl
  | succ k ih => exact ih (op s).2

/-- The same with the states before the calls written out. -/
theorem accepted_iff_states {n : Nat} {s t : σ} :
    Accepted op n s t ↔ ∃ k < n, ∃ states : Nat → σ, states 0 = s ∧
      (∀ j < k, (op (states j)).1 ≠ 0 ∧ states (j + 1) = (op (states j)).2) ∧
      op (states k) = (0, t) := by
  constructor
  · rintro ⟨k, hk, h⟩
    exact ⟨k, hk, after op s, rfl, fun j hj => ⟨h.refused j hj, after_succ op s j⟩, h.accepted⟩
  · rintro ⟨k, hk, states, hstart, hrefused, haccepted⟩
    have hafter : ∀ j ≤ k, after op s j = states j := by
      intro j
      induction j with
      | zero => exact fun _ => hstart.symm
      | succ j ih =>
          intro hj
          rw [after_succ, ih (Nat.le_of_lt hj), (hrefused j hj).2]
    refine ⟨k, hk, ?_, ?_⟩
    · intro j hj
      rw [hafter j (Nat.le_of_lt hj)]
      exact (hrefused j hj).1
    · rw [hafter k (Nat.le_refl k)]
      exact haccepted

theorem not_accepted_zero {s t : σ} : ¬ Accepted op 0 s t := by
  rintro ⟨k, hk, -⟩
  exact Nat.not_lt_zero k hk

/-- The first call succeeds, or it fails and one of the others does. -/
theorem accepted_succ_iff {n : Nat} {s t : σ} :
    Accepted op (n + 1) s t ↔ op s = (0, t) ∨ (op s).1 ≠ 0 ∧ Accepted op n (op s).2 t := by
  constructor
  · rintro ⟨k, hk, h⟩
    cases k with
    | zero => exact Or.inl h.accepted
    | succ k =>
        refine Or.inr ⟨h.refused 0 (Nat.succ_pos k), k, Nat.lt_of_succ_lt_succ hk, ?_, h.accepted⟩
        intro j hj
        exact h.refused (j + 1) (Nat.succ_lt_succ hj)
  · rintro (h | ⟨hne, k, hk, h⟩)
    · refine ⟨0, Nat.succ_pos n, ?_, h⟩
      intro j hj
      exact absurd hj (Nat.not_lt_zero j)
    · refine ⟨k + 1, Nat.succ_lt_succ hk, ?_, h.accepted⟩
      intro j hj
      cases j with
      | zero => exact hne
      | succ j => exact h.refused j (Nat.lt_of_succ_lt_succ hj)

/-- **What the loop returns.**  Started with a code other than zero, it ends with zero in
`t` exactly when one of the calls was accepted and left `t`. -/
theorem upTo_eq_zero_iff {n : Nat} {s t : σ} {ret : Int} (hret : ret ≠ 0) :
    upTo op n ret s = (0, t) ↔ Accepted op n s t := by
  induction n generalizing s ret with
  | zero =>
      constructor
      · intro h
        exact absurd (congrArg Prod.fst h) hret
      · intro h
        exact absurd h not_accepted_zero
  | succ n ih =>
      rw [accepted_succ_iff, upTo]
      by_cases hzero : (op s).1 = 0
      · rw [if_pos hzero]
        constructor
        · intro h
          exact Or.inl (Prod.ext hzero (Prod.mk.inj h).2)
        · rintro (h | ⟨hne, -⟩)
          · rw [h]
          · exact absurd hzero hne
      · rw [if_neg hzero, ih hzero]
        constructor
        · intro h
          exact Or.inr ⟨hzero, h⟩
        · rintro (h | ⟨-, h⟩)
          · exact absurd (congrArg Prod.fst h) hzero
          · exact h

/-- With at least one call to make, the code the loop starts with is never returned. -/
theorem upTo_succ_eq_zero_iff {n : Nat} {s t : σ} {ret : Int} :
    upTo op (n + 1) ret s = (0, t) ↔ Accepted op (n + 1) s t := by
  have hstart : upTo op (n + 1) ret s = upTo op (n + 1) 1 s := rfl
  rw [hstart]
  exact upTo_eq_zero_iff Int.one_ne_zero

theorem upTo_succ (op : σ → Int × σ) (n : Nat) (ret : Int) (s : σ) :
    upTo op (n + 1) ret s = if (op s).1 = 0 then (0, (op s).2) else upTo op n (op s).1 (op s).2 :=
  rfl

/-- **Two loops side by side.**  If the first calls, and all calls on related states, return
the same code and leave related states, so do the loops. -/
theorem upTo_succ_simulate {τ : Type*} {op' : τ → Int × τ} {R : σ → τ → Prop}
    (hstep : ∀ s t, R s t → (op s).1 = (op' t).1 ∧ R (op s).2 (op' t).2) {n : Nat}
    {ret ret' : Int} {s : σ} {t : τ} (hfirst : (op s).1 = (op' t).1 ∧ R (op s).2 (op' t).2) :
    (upTo op (n + 1) ret s).1 = (upTo op' (n + 1) ret' t).1 ∧
      R (upTo op (n + 1) ret s).2 (upTo op' (n + 1) ret' t).2 := by
  induction n generalizing s t ret ret' with
  | zero =>
      rw [upTo_succ op, upTo_succ op', ← hfirst.1]
      by_cases hzero : (op s).1 = 0
      · rw [if_pos hzero, if_pos hzero]
        exact ⟨rfl, hfirst.2⟩
      · rw [if_neg hzero, if_neg hzero]
        exact ⟨rfl, hfirst.2⟩
  | succ n ih =>
      rw [upTo_succ op, upTo_succ op', ← hfirst.1]
      by_cases hzero : (op s).1 = 0
      · rw [if_pos hzero, if_pos hzero]
        exact ⟨rfl, hfirst.2⟩
      · rw [if_neg hzero, if_neg hzero, hfirst.1]
        exact ih (hstep _ _ hfirst.2)

end Retry
