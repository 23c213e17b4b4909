/-
Folds whose rounds lose nothing.

A round takes a state and an input to the next state.  If no input lets two states meet and
no state lets two inputs meet, then the fold of the round over a list tells any two start
states apart, and it tells apart any two lists that differ in one place: what is before the
place is the same, the round at the place separates, and what is behind it keeps apart.
-/
import Mathlib.Data.List.Basic
import Mathlib.Tactic.TypeStar

namespace Mixing

variable {σ β : Type*}

/-- A round that is injective in the state and injective in the input. -/
structure Separating (round : σ → β → σ) : Prop where
  state : ∀ b, Function.Injective fun s => round s b
  input : ∀ s, Function.Injective (round s)

/-- Of the same length, and different in exactly one place. -/
def OneApart (xs ys : List β) : Prop :=
  xs.length = ys.length ∧ ∃ i : Nat, xs[i]? ≠ ys[i]? ∧ ∀ j, j ≠ i → xs[j]? = ys[j]?

/-- The place where they differ, and what is on both sides of it. -/
theorem OneApart.split {xs ys : List β} (h : OneApart xs ys) :
    ∃ front b c back, b ≠ c ∧ xs = front ++ b :: back ∧ ys = front ++ c :: back := by
  obtain ⟨hlen, i, hne, hsame⟩ := h
  have hi : i < xs.length := by
    by_contra hge
    apply hne
    rw [List.getElem?_eq_none (Nat.not_lt.mp hge), List.getElem?_eq_none (by omega)]
  have hi' : i < ys.length := hlen ▸ hi
  have hfront : xs.take i = ys.take i := by
    apply List.ext_getElem?
    intro j
    rw [List.getElem?_take, List.getElem?_take]
    by_cases hj : j < i
    · rw [if_pos hj, if_pos hj, hsame j (Nat.ne_of_lt hj)]
    · rw [if_neg hj, if_neg hj]
  have hback : xs.drop (i + 1) = ys.drop (i + 1) := by
    apply List.ext_getElem?
    intro j
    rw [List.getElem?_drop, List.getElem?_drop]
    exact hsame _ (by omega)
  refine ⟨xs.take i, xs[i], ys[i], xs.drop (i + 1), ?_, ?_, ?_⟩
  · intro heq
    apply hne
    rw [List.getElem?_eq_getElem hi, List.getElem?_eq_getElem hi', heq]
  · rw [← List.drop_eq_getElem_cons hi, List.take_append_drop]
  · rw [hfront, hback, ← List.drop_eq_getElem_cons hi', List.take_append_drop]

variable {round : σ → β → σ}

/-- **Start states are kept apart**, by lists of any length. -/
theorem Separating.foldl_injective (h : Separating round) (xs : List β) :
    Function.Injective fun s => xs.foldl round s := by
  induction xs with
  | nil =>
      intro s t heq
      exact heq
  | cons b rest ih =>
      intro s t heq
      exact h.state b (ih heq)

/-- **Lists one place apart are told apart**, from any start state. -/
theorem Separating.foldl_ne (h : Separating round) {xs ys : List β} (hapart : OneApart xs ys)
    (s : σ) : xs.foldl round s ≠ ys.foldl round s := by
  obtain ⟨front, b, c, back, hne, rfl, rfl⟩ := hapart.split
  intro heq
  rw [List.foldl_append, List.foldl_append, List.foldl_cons, List.foldl_cons] at heq
  have hround := h.foldl_injective back heq
  exact hne (h.input _ hround)

end Mixing
