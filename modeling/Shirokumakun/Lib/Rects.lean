/-
Rectangles of a grid, and how many cells they cover.

A rectangle is its left and top edges, its width and its height.  `cells` lists what it
covers, row by row.  Rectangles that are apart share no cell, so the cells of a list of
rectangles, pairwise apart, are all different, and there are as many as the areas add up
to.  `offLines` cuts a rectangle along one column and one row, for rectangles that a pair
of crossing lines runs through.
-/
import Mathlib.Algebra.BigOperators.Group.List.Basic
import Mathlib.Algebra.GroupWithZero.Nat
import Mathlib.Data.List.Nodup
import Mathlib.Data.List.ProdSigma

/-- A rectangle, by its left and top edges, its width and its height. -/
structure Rect where
  left : ℕ
  top : ℕ
  width : ℕ
  height : ℕ

namespace Rect

def contains (r : Rect) (p : ℕ × ℕ) : Bool :=
  decide (r.left ≤ p.1 ∧ p.1 < r.left + r.width ∧ r.top ≤ p.2 ∧ p.2 < r.top + r.height)

/-- The cells of a rectangle, row by row. -/
def cells (r : Rect) : List (ℕ × ℕ) :=
  (List.range r.height).flatMap fun dy =>
    (List.range r.width).map fun dx => (r.left + dx, r.top + dy)

def area (r : Rect) : ℕ := r.width * r.height

/-- One of the two ends, on one axis, before the other begins. -/
def apart (r s : Rect) : Bool :=
  Nat.ble (r.left + r.width) s.left || Nat.ble (s.left + s.width) r.left ||
    Nat.ble (r.top + r.height) s.top || Nat.ble (s.top + s.height) r.top

def allApart : List Rect → Bool
  | [] => true
  | r :: rest => rest.all (apart r) && allApart rest

theorem contains_iff {r : Rect} {p : ℕ × ℕ} :
    r.contains p = true ↔
      r.left ≤ p.1 ∧ p.1 < r.left + r.width ∧ r.top ≤ p.2 ∧ p.2 < r.top + r.height :=
  decide_eq_true_iff

theorem mem_cells {r : Rect} {p : ℕ × ℕ} : p ∈ r.cells ↔ r.contains p = true := by
  simp only [cells, contains_iff, List.mem_flatMap, List.mem_map, List.mem_range]
  constructor
  · rintro ⟨dy, hdy, dx, hdx, rfl⟩
    exact ⟨Nat.le_add_right _ _, Nat.add_lt_add_left hdx _, Nat.le_add_right _ _,
      Nat.add_lt_add_left hdy _⟩
  · rintro ⟨hleft, hright, htop, hbottom⟩
    refine ⟨p.2 - r.top, by omega, p.1 - r.left, by omega, ?_⟩
    rw [Nat.add_sub_cancel' hleft, Nat.add_sub_cancel' htop]

theorem nodup_cells (r : Rect) : r.cells.Nodup := by
  rw [cells, List.nodup_flatMap]
  refine ⟨fun dy _ => ?_, ?_⟩
  · refine List.Nodup.map_on (fun dx _ dx' _ h => ?_) List.nodup_range
    exact Nat.add_left_cancel (Prod.mk.inj h).1
  · refine List.pairwise_lt_range.imp fun {dy dy'} hlt p hp hp' => ?_
    obtain ⟨dx, -, rfl⟩ := List.mem_map.mp hp
    obtain ⟨dx', -, h⟩ := List.mem_map.mp hp'
    have hsame := Nat.add_left_cancel (Prod.mk.inj h).2
    omega

theorem length_cells (r : Rect) : r.cells.length = r.area := by
  rw [cells, List.length_flatMap, area, Nat.mul_comm]
  simp

theorem disjoint_of_apart {r s : Rect} (h : apart r s = true) : List.Disjoint r.cells s.cells := by
  intro p hr hs
  rw [mem_cells, contains_iff] at hr hs
  simp only [apart, Bool.or_eq_true, Nat.ble_eq] at h
  omega

/-- Rectangles that are pairwise apart list no cell twice. -/
theorem nodup_flatMap_cells {rects : List Rect} (h : allApart rects = true) :
    (rects.flatMap cells).Nodup := by
  induction rects with
  | nil => exact List.nodup_nil
  | cons r rest ih =>
      rw [allApart, Bool.and_eq_true, List.all_eq_true] at h
      rw [List.flatMap_cons]
      refine List.Nodup.append r.nodup_cells (ih h.2) fun p hp hp' => ?_
      obtain ⟨s, hs, hps⟩ := List.mem_flatMap.mp hp'
      exact disjoint_of_apart (h.1 s hs) hp hps

theorem length_flatMap_cells (rects : List Rect) :
    (rects.flatMap cells).length = (rects.map area).sum := by
  rw [List.length_flatMap]
  exact congrArg List.sum (List.map_congr_left fun r _ => r.length_cells)

/-! ### Cutting along two lines -/

/-- The parts of an interval before and behind one place, by their start and length. -/
def around (cut : ℕ) (start len : ℕ) : List (ℕ × ℕ) :=
  [(start, min (start + len) cut - start),
    (max start (cut + 1), start + len - max start (cut + 1))]

/-- What is left of a rectangle without column `x` and row `y`. -/
def offLines (x y : ℕ) (r : Rect) : List Rect :=
  ((around x r.left r.width).flatMap fun h =>
    (around y r.top r.height).map fun v => (⟨h.1, v.1, h.2, v.2⟩ : Rect)).filter
      fun r => Nat.blt 0 r.area

theorem contains_offLines (x y : ℕ) (r : Rect) (p : ℕ × ℕ) :
    (∃ s ∈ offLines x y r, s.contains p = true) ↔
      r.contains p = true ∧ p.1 ≠ x ∧ p.2 ≠ y := by
  have hpos : ∀ s : Rect, s.contains p = true → Nat.blt 0 s.area = true := by
    intro s hs
    rw [contains_iff] at hs
    have hwidth : 0 < s.width := by omega
    have hheight : 0 < s.height := by omega
    exact Nat.ble_eq.mpr (Nat.mul_pos hwidth hheight)
  have hcut : ∀ cut start len k : ℕ, (∃ h ∈ around cut start len, h.1 ≤ k ∧ k < h.1 + h.2) ↔
      (start ≤ k ∧ k < start + len) ∧ k ≠ cut := by
    intro cut start len k
    simp only [around, List.mem_cons, List.not_mem_nil, or_false, exists_eq_or_imp,
      exists_eq_left]
    omega
  constructor
  · rintro ⟨s, hs, hp⟩
    rw [offLines, List.mem_filter, List.mem_flatMap] at hs
    obtain ⟨⟨h, hh, hrow⟩, -⟩ := hs
    obtain ⟨v, hv, rfl⟩ := List.mem_map.mp hrow
    rw [contains_iff] at hp
    obtain ⟨hx, hnx⟩ := (hcut x r.left r.width p.1).mp ⟨h, hh, hp.1, hp.2.1⟩
    obtain ⟨hy, hny⟩ := (hcut y r.top r.height p.2).mp ⟨v, hv, hp.2.2⟩
    exact ⟨contains_iff.mpr ⟨hx.1, hx.2, hy⟩, hnx, hny⟩
  · rintro ⟨hp, hnx, hny⟩
    rw [contains_iff] at hp
    obtain ⟨h, hh, hhp⟩ := (hcut x r.left r.width p.1).mpr ⟨⟨hp.1, hp.2.1⟩, hnx⟩
    obtain ⟨v, hv, hvp⟩ := (hcut y r.top r.height p.2).mpr ⟨hp.2.2, hny⟩
    have hcontains : (⟨h.1, v.1, h.2, v.2⟩ : Rect).contains p = true :=
      contains_iff.mpr ⟨hhp.1, hhp.2, hvp⟩
    refine ⟨⟨h.1, v.1, h.2, v.2⟩, ?_, hcontains⟩
    rw [offLines, List.mem_filter, List.mem_flatMap]
    exact ⟨⟨h, hh, List.mem_map_of_mem hv⟩, hpos _ hcontains⟩

end Rect
