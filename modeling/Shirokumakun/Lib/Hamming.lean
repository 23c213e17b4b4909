/-
The Hamming distance of two words, and decoding to the nearest word of a code.

A word is a list.  `distance` counts the places where two words of one length differ.
`nearest` goes through the words of a code and takes the first that lies within `t` of
what was received; where the words of the code are more than `2 * t` apart, that is the
word that was sent, whichever `t` places were changed on the way (`nearest_eq_some`).
-/
import Mathlib.Data.List.GetD
import Mathlib.Data.List.Perm.Subperm

namespace Hamming

variable {β : Type*} [DecidableEq β]

/-- The places where two words differ. -/
def distance (xs ys : List β) : ℕ :=
  (List.zipWith (fun x y => decide (x ≠ y)) xs ys).count true

theorem distance_cons (x y : β) (xs ys : List β) :
    distance (x :: xs) (y :: ys) = distance xs ys + if x = y then 0 else 1 := by
  rw [distance, List.zipWith_cons_cons, List.count_cons, distance]
  by_cases h : x = y
  · simp [h]
  · simp [h]

theorem distance_comm (xs ys : List β) : distance xs ys = distance ys xs := by
  rw [distance, distance, List.zipWith_comm]
  simp only [ne_comm]

theorem distance_triangle {xs ys zs : List β} (hxy : xs.length = ys.length)
    (hyz : ys.length = zs.length) : distance xs zs ≤ distance xs ys + distance ys zs := by
  induction xs generalizing ys zs with
  | nil => exact Nat.zero_le _
  | cons x xs ih =>
      obtain ⟨y, ys, rfl⟩ := List.exists_cons_of_length_eq_add_one hxy.symm
      obtain ⟨z, zs, rfl⟩ := List.exists_cons_of_length_eq_add_one (hyz.symm.trans hxy.symm)
      have hrest := ih (Nat.succ.inj hxy) (Nat.succ.inj hyz)
      rw [distance_cons, distance_cons, distance_cons]
      by_cases hxz : x = z
      · rw [if_pos hxz]
        omega
      · by_cases hx : x = y
        · have hy : y ≠ z := fun h => hxz (hx.trans h)
          rw [if_neg hxz, if_neg hy]
          omega
        · rw [if_neg hxz, if_neg hx]
          omega

theorem distance_self (xs : List β) : distance xs xs = 0 := by
  induction xs with
  | nil => rfl
  | cons x xs ih => rw [distance_cons, ih, if_pos rfl]

section

variable {α : Type*}

theorem map_getD_range {n : ℕ} {xs : List α} (d : α) (h : xs.length = n) :
    (List.range n).map (fun i => xs.getD i d) = xs := by
  apply List.ext_getElem (by simp [h])
  intro i hi hi'
  rw [List.getElem_map, List.getElem_range, List.getD_eq_getElem _ _ hi']

end

/-! ### Decoding -/

section

variable {α : Type*} {code : α → List β} {words : List α} {t : ℕ} {received : List β}

/-- The first word of the code within `t` of what was received. -/
def nearest (code : α → List β) (words : List α) (t : ℕ) (received : List β) : Option α :=
  words.find? fun w => decide (distance (code w) received ≤ t)

/-- **Decoding undoes up to `t` changes** where the words are more than `2 * t` apart. -/
theorem nearest_eq_some
    (hapart : ∀ v ∈ words, ∀ w ∈ words, v = w ∨ 2 * t < distance (code v) (code w))
    (hlen : ∀ w ∈ words, (code w).length = received.length) {w : α} (hw : w ∈ words)
    (hnear : distance (code w) received ≤ t) : nearest code words t received = some w := by
  cases hfind : nearest code words t received with
  | none =>
      rw [nearest, List.find?_eq_none] at hfind
      exact absurd (decide_eq_true hnear) (hfind w hw)
  | some v =>
      have hv : v ∈ words := List.mem_of_find?_eq_some hfind
      have hvnear : distance (code v) received ≤ t := by
        simpa using List.find?_some hfind
      rcases hapart v hv w hw with rfl | hfar
      · rfl
      · have htriangle := distance_triangle (hlen v hv) (hlen w hw).symm
        rw [distance_comm received] at htriangle
        omega

end

end Hamming
