/-
A cache that keeps one value and passes on only what differs from it.

Offered a value, the cache drops it when it is the value it holds and otherwise passes it
on and holds it.  What it passes on over any sequence of offers is the sequence with
repetitions removed, the value held at first counting as the first predecessor.
-/
import Mathlib.Data.List.Chain
import Mathlib.Data.List.Destutter

namespace Dedup

/-- The value held, and what was passed on so far. -/
structure Cache (α : Type*) where
  held : α
  passed : List α

variable {α : Type*} [DecidableEq α]

/-- Removing repetitions keeps the first value in front. -/
theorem destutter'_eq_cons (a : α) (vs : List α) :
    vs.destutter' (· ≠ ·) a = a :: (vs.destutter' (· ≠ ·) a).tail := by
  induction vs generalizing a with
  | nil => rfl
  | cons v rest ih =>
      by_cases hv : a = v
      · subst hv
        rw [List.destutter'_cons_neg _ (by simp)]
        exact ih a
      · rw [List.destutter'_cons_pos _ hv, List.tail_cons]

namespace Cache

def offer (c : Cache α) (v : α) : Cache α :=
  if v = c.held then c else ⟨v, c.passed ++ [v]⟩

@[simp] theorem offer_held (c : Cache α) (v : α) : (c.offer v).held = v := by
  unfold offer
  by_cases hv : v = c.held
  · rw [if_pos hv, hv]
  · rw [if_neg hv]

/-- **What is passed on** is what was offered, less every value equal to its predecessor. -/
theorem offers_passed (vs : List α) (c : Cache α) :
    (vs.foldl offer c).passed = c.passed ++ (vs.destutter' (· ≠ ·) c.held).tail := by
  induction vs generalizing c with
  | nil => simp
  | cons v rest ih =>
      rw [List.foldl_cons, ih, offer_held]
      by_cases hv : v = c.held
      · subst hv
        rw [List.destutter'_cons_neg _ (by simp), offer, if_pos rfl]
      · rw [List.destutter'_cons_pos _ (Ne.symm hv), List.tail_cons, destutter'_eq_cons v rest,
          offer, if_neg hv]
        simp

/-! ### What passes, and what it passes after -/

/-- What was passed on last, or the value `a` held at first, is what is held. -/
def FollowsFrom (c : Cache α) (a : α) : Prop := (a :: c.passed).getLast? = some c.held

theorem followsFrom_offer {c : Cache α} {a : α} (h : c.FollowsFrom a) (v : α) :
    (c.offer v).FollowsFrom a := by
  unfold offer
  by_cases hv : v = c.held
  · rw [if_pos hv]
    exact h
  · rw [if_neg hv]
    show (a :: (c.passed ++ [v])).getLast? = some v
    rw [← List.cons_append, List.getLast?_concat]

/-- An offer keeps a relation between neighbours exactly if it is dropped, or related to the
value held. -/
theorem isChain_offer_iff {c : Cache α} {a : α} (h : c.FollowsFrom a) (R : α → α → Prop) (v : α) :
    (a :: (c.offer v).passed).IsChain R ↔
      (a :: c.passed).IsChain R ∧ (v ≠ c.held → R c.held v) := by
  unfold FollowsFrom at h
  unfold offer
  by_cases hv : v = c.held
  · rw [if_pos hv]
    exact ⟨fun hchain => ⟨hchain, fun hne => absurd hv hne⟩, fun hboth => hboth.1⟩
  · rw [if_neg hv]
    show (a :: (c.passed ++ [v])).IsChain R ↔ _
    rw [← List.cons_append, List.isChain_append, h]
    constructor
    · rintro ⟨hchain, -, hlast⟩
      exact ⟨hchain, fun _ => hlast c.held rfl v rfl⟩
    · rintro ⟨hchain, hlast⟩
      refine ⟨hchain, List.isChain_singleton v, ?_⟩
      intro x hx y hy
      cases hx
      cases hy
      exact hlast hv

end Cache

end Dedup
