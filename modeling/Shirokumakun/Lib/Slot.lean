/-
A mailbox with room for one message.

Posting replaces whatever is queued; fetching takes a copy of it; delivering hands the
copy on.  Nothing is said here about locks, wake-ups or the messages themselves: posts
are numbered 1, 2, … in their order, and the machine keeps the numbers.

What such a mailbox guarantees by itself is order: delivered numbers never decrease
(`Inv`), and a message replaced while it was queued is never delivered.  What it does
not guarantee is that a message is delivered once, because nothing stops a second fetch
of the same message.  It is delivered once when every fetch finds something new
(`Fresh`, `delivered_nodup`).
-/
import Shirokumakun.Lib.Transition
import Mathlib.Data.List.Basic

namespace Slot

open Transition

/-- The numbers of a one-place mailbox.  `fetched` is the last message fetched, 0 before
the first; `loaded` says that it is still to be delivered; `replaced` lists the messages
that were overwritten before they were fetched. -/
structure Box where
  posted : Nat
  fetched : Nat
  loaded : Bool
  replaced : List Nat
  delivered : List Nat

inductive Act
  | post
  | fetch
  | deliver

namespace Box

def empty : Box := ⟨0, 0, false, [], []⟩

/-- The messages a post overwrites: the queued one, if it was not fetched. -/
def overwritten (posted fetched : Nat) : List Nat :=
  if fetched < posted then [posted] else []

def step (b : Box) : Act → Option Box
  | .post => some { b with
      posted := b.posted + 1
      replaced := b.replaced ++ overwritten b.posted b.fetched }
  | .fetch =>
      if 0 < b.posted ∧ b.loaded = false then
        some { b with fetched := b.posted, loaded := true }
      else none
  | .deliver =>
      if b.loaded then
        some { b with delivered := b.delivered ++ [b.fetched], loaded := false }
      else none

def machine : Machine Box Act := ⟨empty, step⟩

/-- A fetch finds a message that was posted after the last fetch. -/
def Fresh (b : Box) (a : Act) : Prop := a = .fetch → b.fetched < b.posted

/-! ### Order -/

/-- What every box satisfies. -/
structure Inv (b : Box) : Prop where
  fetched_le : b.fetched ≤ b.posted
  delivered_le : ∀ n ∈ b.delivered, n ≤ b.fetched
  sorted : b.delivered.Pairwise (· ≤ ·)
  replaced_lt : ∀ n ∈ b.replaced, n < b.posted ∧ n ≠ b.fetched ∧ n ∉ b.delivered
  last : b.loaded = false → b.fetched ≠ 0 → b.delivered.getLast? = some b.fetched

theorem inv_empty : Inv empty :=
  ⟨Nat.le_refl _, by simp [empty], by simp [empty], by simp [empty], fun _ h => absurd rfl h⟩

theorem Inv.post {b : Box} (h : Inv b) : Inv { b with
    posted := b.posted + 1
    replaced := b.replaced ++ overwritten b.posted b.fetched } := by
  refine ⟨Nat.le_succ_of_le h.fetched_le, h.delivered_le, h.sorted, ?_, h.last⟩
  intro n hn
  rcases List.mem_append.mp hn with hold | hnew
  · obtain ⟨hlt, hrest⟩ := h.replaced_lt n hold
    exact ⟨Nat.lt_succ_of_lt hlt, hrest⟩
  · -- The message overwritten now is the queued one, newer than all that was fetched.
    unfold overwritten at hnew
    split at hnew
    · rename_i hlt
      obtain rfl : n = b.posted := by simpa using hnew
      refine ⟨Nat.lt_succ_self _, Nat.ne_of_gt hlt, ?_⟩
      intro hmem
      exact absurd (h.delivered_le _ hmem) (Nat.not_le_of_lt hlt)
    · simp at hnew

theorem Inv.fetch {b : Box} (h : Inv b) :
    Inv { b with fetched := b.posted, loaded := true } := by
  refine ⟨Nat.le_refl _, ?_, h.sorted, ?_, fun hl => absurd hl (by simp)⟩
  · intro n hn
    exact Nat.le_trans (h.delivered_le n hn) h.fetched_le
  · intro n hn
    obtain ⟨hlt, -, hnot⟩ := h.replaced_lt n hn
    exact ⟨hlt, Nat.ne_of_lt hlt, hnot⟩

theorem Inv.deliver {b : Box} (h : Inv b) :
    Inv { b with delivered := b.delivered ++ [b.fetched], loaded := false } := by
  refine ⟨h.fetched_le, ?_, ?_, ?_, ?_⟩
  · intro n hn
    rcases List.mem_append.mp hn with hold | hnew
    · exact h.delivered_le n hold
    · exact Nat.le_of_eq (by simpa using hnew)
  · rw [List.pairwise_append]
    refine ⟨h.sorted, by simp, ?_⟩
    intro n hn m hm
    obtain rfl : m = b.fetched := by simpa using hm
    exact h.delivered_le n hn
  · intro n hn
    obtain ⟨hlt, hne, hnot⟩ := h.replaced_lt n hn
    refine ⟨hlt, hne, ?_⟩
    intro hmem
    rcases List.mem_append.mp hmem with hold | hnew
    · exact hnot hold
    · exact hne (by simpa using hnew)
  · intro _ _
    simp

theorem inv_step {b b' : Box} (h : Inv b) {a : Act} (hs : b.step a = some b') : Inv b' := by
  cases a with
  | post =>
      obtain rfl := Option.some.inj hs
      exact h.post
  | fetch =>
      simp only [step] at hs
      split at hs
      · obtain rfl := Option.some.inj hs
        exact h.fetch
      · exact absurd hs (by simp)
  | deliver =>
      simp only [step] at hs
      split at hs
      · obtain rfl := Option.some.inj hs
        exact h.deliver
      · exact absurd hs (by simp)

/-- **Deliveries never go back**, and nothing replaced in the queue is delivered. -/
theorem inv_of_reach {C : Box → Act → Prop} {b : Box} (h : machine.Reach C b) : Inv b :=
  h.invariant inv_empty fun s a _ hI _ hs => inv_step (b := s) hI (a := a) hs

/-! ### At most once -/

/-- What a box satisfies whose every fetch found something new. -/
structure Once (b : Box) : Prop where
  nodup : b.delivered.Nodup
  pending : b.loaded = true → b.fetched ∉ b.delivered

theorem once_step {b b' : Box} (hinv : Inv b) (h : Once b) {a : Act} (hfresh : Fresh b a)
    (hs : b.step a = some b') : Once b' := by
  cases a with
  | post =>
      obtain rfl := Option.some.inj hs
      exact ⟨h.nodup, h.pending⟩
  | fetch =>
      simp only [step] at hs
      split at hs
      · obtain rfl := Option.some.inj hs
        refine ⟨h.nodup, ?_⟩
        intro _ hmem
        exact absurd (hinv.delivered_le _ hmem) (Nat.not_le_of_lt (hfresh rfl))
      · exact absurd hs (by simp)
  | deliver =>
      simp only [step] at hs
      split at hs
      · rename_i hloaded
        obtain rfl := Option.some.inj hs
        refine ⟨?_, fun hl => absurd hl (by simp)⟩
        rw [List.nodup_append]
        refine ⟨h.nodup, by simp, ?_⟩
        intro n hn m hm hnm
        obtain rfl : m = b.fetched := by simpa using hm
        exact h.pending hloaded (hnm ▸ hn)
      · exact absurd hs (by simp)

/-- **Delivered at most once**, as long as every fetch finds something new. -/
theorem delivered_nodup {b : Box} (h : machine.Reach Fresh b) : b.delivered.Nodup := by
  have honce : Once b := h.invariant_from (fun _ hr => inv_of_reach hr)
    ⟨List.nodup_nil, fun hl => absurd hl (by simp [machine, empty])⟩
    fun s a _ hinv hI hfresh hs => once_step (b := s) hinv hI (a := a) hfresh hs
  exact honce.nodup

end Box

end Slot
