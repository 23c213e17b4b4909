/-
Sequences of writes to a memory.

A `Memory` is anything with places that can be read and written one at a time: a list
with its indices, a grid with its coordinates.  Places may be out of range, so the law
that a write is read back and disturbs nothing else is asked for valid places only, and
a write must not make a place invalid.

What a run of writes leaves behind is then known from the list of them: a place none of
them names is unchanged, and a place that is named holds what one of the writes to it
wrote.  Where no place is named twice that is the write's own value.
-/
import Mathlib.Data.List.Nodup
import Mathlib.Tactic.TypeStar

/-- Places that can be read and written. -/
structure Memory (σ ι α : Type*) where
  get : σ → ι → α
  set : σ → ι → α → σ
  Valid : σ → ι → Prop
  valid_set : ∀ {s i j v}, Valid s i → Valid (set s j v) i
  get_set_self : ∀ {s i v}, Valid s i → get (set s i v) i = v
  get_set_ne : ∀ {s i j v}, Valid s i → Valid s j → j ≠ i → get (set s i v) j = get s j

namespace Memory

variable {σ ι α : Type*} (m : Memory σ ι α)

/-- Write in order. -/
def write (s : σ) (ws : List (ι × α)) : σ := ws.foldl (fun s w => m.set s w.1 w.2) s

/-- Every place that is written is valid. -/
def AllValid (s : σ) (ws : List (ι × α)) : Prop := ∀ w ∈ ws, m.Valid s w.1

theorem write_append (s : σ) (ws vs : List (ι × α)) :
    m.write s (ws ++ vs) = m.write (m.write s ws) vs := List.foldl_append

theorem write_flatMap {β : Type*} (f : β → List (ι × α)) (s : σ) (bs : List β) :
    m.write s (bs.flatMap f) = bs.foldl (fun s b => m.write s (f b)) s := by
  induction bs generalizing s with
  | nil => rfl
  | cons b bs ih => rw [List.flatMap_cons, write_append, ih, List.foldl_cons]

variable {m} {s : σ} {ws : List (ι × α)} {j : ι}

theorem valid_write (h : m.Valid s j) : m.Valid (m.write s ws) j := by
  induction ws generalizing s with
  | nil => exact h
  | cons w ws ih => exact ih (m.valid_set h)

theorem AllValid.write {vs : List (ι × α)} (h : m.AllValid s vs) : m.AllValid (m.write s ws) vs :=
  fun w hw => valid_write (h w hw)

theorem AllValid.tail {w : ι × α} (h : m.AllValid s (w :: ws)) :
    m.AllValid (m.set s w.1 w.2) ws := fun v hv => m.valid_set (h v (by simp [hv]))

/-- A place that is not written is unchanged. -/
theorem get_write_of_notMem (h : m.AllValid s ws) (hvalid : m.Valid s j)
    (hj : j ∉ ws.map Prod.fst) : m.get (m.write s ws) j = m.get s j := by
  induction ws generalizing s with
  | nil => rfl
  | cons w ws ih =>
      rw [List.map_cons, List.mem_cons, not_or] at hj
      have hrest : m.get (m.write (m.set s w.1 w.2) ws) j = m.get (m.set s w.1 w.2) j :=
        ih h.tail (m.valid_set hvalid) hj.2
      exact hrest.trans (m.get_set_ne (h w (by simp)) hvalid hj.1)

/-- A place that is written holds the value of a write to it. -/
theorem exists_of_get_write (h : m.AllValid s ws) (hj : j ∈ ws.map Prod.fst) :
    ∃ v, (j, v) ∈ ws ∧ m.get (m.write s ws) j = v := by
  induction ws generalizing s with
  | nil => simp at hj
  | cons w ws ih =>
      by_cases hlater : j ∈ ws.map Prod.fst
      · obtain ⟨v, hv, hget⟩ := ih h.tail hlater
        exact ⟨v, by simp [hv], hget⟩
      · obtain ⟨i, v⟩ := w
        obtain rfl : j = i := by
          rw [List.map_cons, List.mem_cons] at hj
          exact hj.resolve_right hlater
        have hvalid : m.Valid s j := h (j, v) (by simp)
        have hrest : m.get (m.write (m.set s j v) ws) j = m.get (m.set s j v) j :=
          get_write_of_notMem h.tail (m.valid_set hvalid) hlater
        exact ⟨v, List.mem_cons_self, hrest.trans (m.get_set_self hvalid)⟩

/-- Where no place is written twice, each holds what was written to it. -/
theorem get_write_of_mem (h : m.AllValid s ws) (hnodup : (ws.map Prod.fst).Nodup) {v : α}
    (hv : (j, v) ∈ ws) : m.get (m.write s ws) j = v := by
  obtain ⟨u, hu, hget⟩ := exists_of_get_write h (List.mem_map_of_mem (f := Prod.fst) hv)
  have hsame : (j, u) = (j, v) := List.inj_on_of_nodup_map hnodup hu hv rfl
  rw [hget, (Prod.mk.inj hsame).2]

/-- Where every write writes the same value, the places that are written hold it. -/
theorem get_write_const [DecidableEq ι] {v : α} (h : m.AllValid s ws) (hvalid : m.Valid s j)
    (hv : ∀ w ∈ ws, w.2 = v) :
    m.get (m.write s ws) j = if j ∈ ws.map Prod.fst then v else m.get s j := by
  by_cases hj : j ∈ ws.map Prod.fst
  · obtain ⟨u, hu, hget⟩ := exists_of_get_write h hj
    rw [if_pos hj, hget]
    exact hv (j, u) hu
  · rw [if_neg hj, get_write_of_notMem h hvalid hj]

/-- Memories that agree on what is not written agree after it. -/
theorem get_write_congr {s' : σ} (h : m.AllValid s ws) (h' : m.AllValid s' ws)
    (hj : m.Valid s j) (hj' : m.Valid s' j)
    (hsame : j ∈ ws.map Prod.fst ∨ m.get s j = m.get s' j) :
    m.get (m.write s ws) j = m.get (m.write s' ws) j := by
  induction ws generalizing s s' with
  | nil => exact hsame.resolve_left (by simp)
  | cons w ws ih =>
      refine ih h.tail h'.tail (m.valid_set hj) (m.valid_set hj') ?_
      have hw := h w (by simp)
      have hw' := h' w (by simp)
      by_cases hwj : j = w.1
      · right
        rw [hwj, m.get_set_self hw, m.get_set_self hw']
      · rw [List.map_cons, List.mem_cons, or_assoc] at hsame
        rcases hsame with hself | hlater | hsame
        · exact absurd hself hwj
        · exact Or.inl hlater
        · right
          rw [m.get_set_ne hw hj hwj, m.get_set_ne hw' hj' hwj, hsame]

/-! ### Changing places in turn -/

variable (m) in
/-- Change the chosen places, each from what it holds when its turn comes. -/
def modifyAll (chosen : ι → Bool) (f : ι → α → α) (s : σ) (places : List ι) : σ :=
  places.foldl (fun s i => if chosen i then m.set s i (f i (m.get s i)) else s) s

/-- Where no place comes twice, each is changed from what it held at the start. -/
theorem modifyAll_eq_write (chosen : ι → Bool) (f : ι → α → α) {places : List ι}
    (hnodup : places.Nodup) (h : ∀ i ∈ places, m.Valid s i) :
    m.modifyAll chosen f s places =
      m.write s ((places.filter chosen).map fun i => (i, f i (m.get s i))) := by
  induction places generalizing s with
  | nil => rfl
  | cons i places ih =>
      obtain ⟨hnotin, hrest⟩ := List.nodup_cons.mp hnodup
      have hi := h i (by simp)
      have hplaces : ∀ j ∈ places, m.Valid s j := fun j hj => h j (by simp [hj])
      rw [modifyAll, List.foldl_cons]
      by_cases hchosen : chosen i = true
      · have hkeep : ∀ j ∈ places, m.get (m.set s i (f i (m.get s i))) j = m.get s j := by
          intro j hj
          exact m.get_set_ne hi (hplaces j hj) fun hji => hnotin (hji ▸ hj)
        have hwrites : (places.filter chosen).map (fun j => (j, f j
            (m.get (m.set s i (f i (m.get s i))) j))) =
              (places.filter chosen).map fun j => (j, f j (m.get s j)) :=
          List.map_congr_left fun j hj => by rw [hkeep j (List.mem_of_mem_filter hj)]
        rw [if_pos hchosen, List.filter_cons_of_pos hchosen, List.map_cons, ← hwrites]
        exact ih hrest fun j hj => m.valid_set (hplaces j hj)
      · rw [if_neg hchosen, List.filter_cons_of_neg hchosen]
        exact ih hrest hplaces

theorem get_modifyAll (chosen : ι → Bool) (f : ι → α → α) {places : List ι}
    (hnodup : places.Nodup) (h : ∀ i ∈ places, m.Valid s i) (hj : j ∈ places) :
    m.get (m.modifyAll chosen f s places) j =
      if chosen j then f j (m.get s j) else m.get s j := by
  have hvalid : m.AllValid s ((places.filter chosen).map fun i => (i, f i (m.get s i))) := by
    intro w hw
    obtain ⟨i, hi, rfl⟩ := List.mem_map.mp hw
    exact h i (List.mem_of_mem_filter hi)
  have hfst : ((places.filter chosen).map fun i => (i, f i (m.get s i))).map Prod.fst =
      places.filter chosen := by
    rw [List.map_map]
    exact List.map_id _
  rw [modifyAll_eq_write chosen f hnodup h]
  by_cases hchosen : chosen j = true
  · rw [if_pos hchosen]
    refine get_write_of_mem hvalid (by rw [hfst]; exact hnodup.filter _) ?_
    exact List.mem_map_of_mem (List.mem_filter.mpr ⟨hj, hchosen⟩)
  · rw [if_neg hchosen]
    refine get_write_of_notMem hvalid (h j hj) ?_
    rw [hfst, List.mem_filter, not_and]
    exact fun _ => hchosen

end Memory

/-- A list, with its indices for places. -/
def listMemory {α : Type*} (zero : α) : Memory (List α) ℕ α where
  get := fun xs i => xs.getD i zero
  set := List.set
  Valid := fun xs i => i < xs.length
  valid_set := fun h => by rwa [List.length_set]
  get_set_self := fun h => by simp [List.getD_eq_getElem?_getD, h]
  get_set_ne := fun {xs i j v} _ _ hne => by
    simp [List.getD_eq_getElem?_getD, List.getElem?_set_ne hne.symm]

theorem length_listMemory_write {α : Type*} (zero : α) (xs : List α) (ws : List (ℕ × α)) :
    ((listMemory zero).write xs ws).length = xs.length := by
  induction ws generalizing xs with
  | nil => rfl
  | cons w ws ih => exact (ih _).trans List.length_set
