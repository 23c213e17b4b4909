/-
The loop that keeps the least value it has seen.

`least f bound is` goes through the candidates and keeps the first whose value is below
everything before it, and below `bound`, which the loop starts with.  Where some candidate
is below the bound it returns a candidate, and that one is the leftmost of those with the
least value (`least_eq`).
-/
import Mathlib.Data.List.Induction
import Mathlib.Order.Lattice

section

variable {ι α : Type*} [LinearOrder α]

/-- One turn: the state is what was chosen so far and its value. -/
def leastStep (f : ι → α) (s : Option ι × α) (i : ι) : Option ι × α :=
  if f i < s.2 then (some i, f i) else s

def least (f : ι → α) (bound : α) (is : List ι) : Option ι × α :=
  is.foldl (leastStep f) (none, bound)

/-- `i` is chosen from the list: what is before it is above it, what is after it not below. -/
def Leftmost (f : ι → α) (is : List ι) (i : ι) : Prop :=
  ∃ front back, is = front ++ i :: back ∧ (∀ j ∈ front, f i < f j) ∧ ∀ j ∈ back, f i ≤ f j

variable {f : ι → α} {bound : α} {is : List ι}

theorem Leftmost.le {i j : ι} (h : Leftmost f is i) (hj : j ∈ is) : f i ≤ f j := by
  obtain ⟨front, back, rfl, hfront, hback⟩ := h
  rw [List.mem_append, List.mem_cons] at hj
  rcases hj with hj | rfl | hj
  · exact (hfront j hj).le
  · exact le_rfl
  · exact hback j hj

/-- In an ascending list, everything below the leftmost has a greater value. -/
theorem Leftmost.lt [Preorder ι] {i j : ι} (h : Leftmost f is i) (hsorted : is.Pairwise (· < ·))
    (hj : j ∈ is) (hlt : j < i) : f i < f j := by
  obtain ⟨front, back, rfl, hfront, -⟩ := h
  rw [List.mem_append, List.mem_cons] at hj
  rcases hj with hj | rfl | hj
  · exact hfront j hj
  · exact absurd hlt (lt_irrefl j)
  · have hafter := (List.pairwise_cons.mp (List.pairwise_append.mp hsorted).2.1).1 j hj
    exact absurd hlt hafter.not_gt

theorem least_spec (f : ι → α) (bound : α) (is : List ι) :
    (∀ i ∈ is, bound ≤ f i) ∧ least f bound is = (none, bound) ∨
      ∃ i, Leftmost f is i ∧ f i < bound ∧ least f bound is = (some i, f i) := by
  induction is using List.reverseRecOn with
  | nil =>
      left
      exact ⟨fun i hi => absurd hi List.not_mem_nil, rfl⟩
  | append_singleton is k ih =>
      have hstep : least f bound (is ++ [k]) = leastStep f (least f bound is) k := by
        rw [least, List.foldl_append]
        rfl
      rw [hstep]
      rcases ih with ⟨hnone, hleast⟩ | ⟨i, ⟨front, back, hsplit, hfront, hback⟩, hbound, hleast⟩
      · rw [hleast, leastStep]
        by_cases hk : f k < bound
        · right
          refine ⟨k, ⟨is, [], rfl, fun j hj => hk.trans_le (hnone j hj), by simp⟩, hk, ?_⟩
          exact if_pos hk
        · left
          refine ⟨fun i hi => ?_, if_neg hk⟩
          rw [List.mem_append, List.mem_singleton] at hi
          rcases hi with hi | rfl
          · exact hnone i hi
          · exact not_lt.mp hk
      · right
        rw [hleast, leastStep]
        by_cases hk : f k < f i
        · refine ⟨k, ⟨is, [], rfl, ?_, by simp⟩, hk.trans hbound, if_pos hk⟩
          intro j hj
          rw [hsplit, List.mem_append, List.mem_cons] at hj
          rcases hj with hj | rfl | hj
          · exact hk.trans (hfront j hj)
          · exact hk
          · exact hk.trans_le (hback j hj)
        · refine ⟨i, ⟨front, back ++ [k], by rw [hsplit]; simp, hfront, ?_⟩, hbound, if_neg hk⟩
          intro j hj
          rw [List.mem_append, List.mem_singleton] at hj
          rcases hj with hj | rfl
          · exact hback j hj
          · exact not_lt.mp hk

/-- **The leftmost least** is chosen, where any candidate is below the bound. -/
theorem least_eq (h : ∃ i ∈ is, f i < bound) :
    ∃ i, Leftmost f is i ∧ (least f bound is).1 = some i := by
  obtain ⟨k, hk, hbelow⟩ := h
  rcases least_spec f bound is with ⟨hnone, -⟩ | ⟨i, hi, -, hleast⟩
  · exact absurd hbelow (not_lt.mpr (hnone k hk))
  · exact ⟨i, hi, by rw [hleast]⟩

end
