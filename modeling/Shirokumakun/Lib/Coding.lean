/-
Codes for a one-way channel.

Four layers, each generic in what it carries: numbers as bits with the least
significant bit first, words followed by a check word computed from them, words with
one number of ones, and frames opened by a symbol that occurs nowhere else in a frame.

The last one is what lets a receiver join a transmission in the middle.  A
`FrameCode` packages the encoder of one frame with the four facts a receiver needs
of it, and `FrameCode.scan_drop` is the conclusion: from any point of any stream of
frames, scanning for the opening symbol finds exactly the frames that begin at or
after that point.
-/
import Mathlib.Data.Bool.Count
import Mathlib.Data.Nat.Bitwise
import Mathlib.Data.List.Basic
import Mathlib.Tactic.TypeStar

namespace Coding

/-! ### Bits, least significant first -/

/-- The low `w` bits of `n`, least significant first. -/
def lsbFirst (w n : Nat) : List Bool := (List.range w).map n.testBit

/-- The number a list of bits spells, least significant first. -/
def ofLsbFirst : List Bool → Nat
  | [] => 0
  | b :: rest => b.toNat + 2 * ofLsbFirst rest

@[simp] theorem length_lsbFirst (w n : Nat) : (lsbFirst w n).length = w := by
  simp [lsbFirst]

theorem lsbFirst_succ (w n : Nat) : lsbFirst (w + 1) n = n.testBit 0 :: lsbFirst w (n / 2) := by
  simp only [lsbFirst, List.range_succ_eq_map, List.map_cons, List.map_map]
  congr 1
  exact List.map_congr_left fun i _ => by rw [Function.comp_apply, Nat.testBit_succ]

/-- Reading `w` bits back gives the number modulo `2 ^ w`. -/
theorem ofLsbFirst_lsbFirst (w n : Nat) : ofLsbFirst (lsbFirst w n) = n % 2 ^ w := by
  induction w generalizing n with
  | zero => simp [lsbFirst, ofLsbFirst, Nat.mod_one]
  | succ w ih =>
      have hbit : (n.testBit 0).toNat = n % 2 := by
        rw [Nat.testBit_zero]
        rcases Nat.mod_two_eq_zero_or_one n with h | h <;> simp [h]
      rw [lsbFirst_succ, ofLsbFirst, ih, hbit, Nat.pow_succ', Nat.mod_mul]

theorem length_flatMap_lsbFirst (w : Nat) (ns : List Nat) :
    (ns.flatMap (lsbFirst w)).length = w * ns.length := by
  induction ns with
  | nil => rfl
  | cons n rest ih =>
      rw [List.flatMap_cons, List.length_append, length_lsbFirst, ih, List.length_cons,
        Nat.mul_succ, Nat.add_comm]

/-- Cut the first `k` words of `w` bits off a list of bits. -/
def words (w : Nat) : Nat → List Bool → List Nat
  | 0, _ => []
  | k + 1, bits => ofLsbFirst (bits.take w) :: words w k (bits.drop w)

/-- **Words survive the trip through bits**, when they fit the width. -/
theorem words_flatMap (w : Nat) (ns : List Nat) (h : ∀ n ∈ ns, n < 2 ^ w) :
    words w ns.length (ns.flatMap (lsbFirst w)) = ns := by
  induction ns with
  | nil => rfl
  | cons n rest ih =>
      have hn : n % 2 ^ w = n := Nat.mod_eq_of_lt (h n (by simp))
      have htake : (lsbFirst w n ++ rest.flatMap (lsbFirst w)).take w = lsbFirst w n :=
        List.take_left' (length_lsbFirst w n)
      have hdrop : (lsbFirst w n ++ rest.flatMap (lsbFirst w)).drop w
          = rest.flatMap (lsbFirst w) := List.drop_left' (length_lsbFirst w n)
      rw [List.flatMap_cons, List.length_cons, words, htake, hdrop, ofLsbFirst_lsbFirst, hn,
        ih fun m hm => h m (by simp [hm])]

/-! ### Words followed by a check word -/

section Checked

variable {α : Type*} [DecidableEq α]

/-- Every word followed by its check word. -/
def withChecks (check : α → α) (xs : List α) : List α :=
  xs.flatMap fun x => [x, check x]

/-- Strip the check words; `none` if one is missing or wrong. -/
def stripChecks (check : α → α) : List α → Option (List α)
  | [] => some []
  | x :: c :: rest => if c = check x then (stripChecks check rest).map (x :: ·) else none
  | _ => none

theorem stripChecks_withChecks (check : α → α) (xs : List α) :
    stripChecks check (withChecks check xs) = some xs := by
  induction xs with
  | nil => rfl
  | cons x rest ih =>
      show stripChecks check (x :: check x :: withChecks check rest) = some (x :: rest)
      rw [stripChecks, if_pos rfl, ih]
      rfl

end Checked

/-! ### Constant weight

A word and its complement together have one number of ones.  Frames with one number of ones
cannot be turned into each other by losing ones alone, nor by gaining ones alone.
-/

theorem count_map_not (bits : List Bool) : (bits.map not).count true = bits.count false := by
  induction bits with
  | nil => rfl
  | cons b rest ih =>
      cases b with
      | false => simp [ih]
      | true => simp [ih]

/-- **Complements balance**: of every word and its check word together, `w` bits are ones. -/
theorem count_withChecks {α : Type*} [DecidableEq α] {bits : α → List Bool} {check : α → α}
    {w : Nat} (hlen : ∀ x, (bits x).length = w)
    (hcheck : ∀ x, bits (check x) = (bits x).map not) (xs : List α) :
    ((withChecks check xs).flatMap bits).count true = w * xs.length := by
  induction xs with
  | nil => rfl
  | cons x rest ih =>
      have hword : (withChecks check (x :: rest)).flatMap bits
          = bits x ++ bits (check x) ++ (withChecks check rest).flatMap bits := by
        show (x :: check x :: withChecks check rest).flatMap bits = _
        rw [List.flatMap_cons, List.flatMap_cons, List.append_assoc]
      have hpair := List.count_true_add_count_false (bits x)
      rw [hword, List.count_append, List.count_append, hcheck, count_map_not, ih, List.length_cons,
        Nat.mul_succ, ← hlen x]
      omega

/-- A list with a one wherever the other has one has as many ones at least. -/
theorem count_le_of_imp {a b : List Bool} (hlen : a.length = b.length)
    (h : ∀ i : Nat, a[i]? = some true → b[i]? = some true) : a.count true ≤ b.count true := by
  induction a generalizing b with
  | nil => simp
  | cons x rest ih =>
      cases b with
      | nil => simp at hlen
      | cons y rest' =>
          have hrest := ih (Nat.succ.inj hlen) fun i hi => h (i + 1) hi
          have hhead := h 0
          cases x with
          | false =>
              rw [List.count_cons_of_ne (by decide)]
              exact hrest.trans (List.count_le_count_cons ..)
          | true =>
              obtain rfl : y = true := by simpa using hhead rfl
              rw [List.count_cons_self, List.count_cons_self]
              exact Nat.succ_le_succ hrest

/-- And no more only if they are the same. -/
theorem eq_of_imp_of_count {a b : List Bool} (hlen : a.length = b.length)
    (h : ∀ i : Nat, a[i]? = some true → b[i]? = some true)
    (hcount : b.count true = a.count true) : a = b := by
  induction a generalizing b with
  | nil => exact (List.eq_nil_of_length_eq_zero hlen.symm).symm
  | cons x rest ih =>
      cases b with
      | nil => simp at hlen
      | cons y rest' =>
          have himp : ∀ i : Nat, rest[i]? = some true → rest'[i]? = some true :=
            fun i hi => h (i + 1) hi
          have hle := count_le_of_imp (Nat.succ.inj hlen) himp
          have hhead := h 0
          cases x with
          | false =>
              cases y with
              | false =>
                  rw [List.count_cons_of_ne (by decide),
                    List.count_cons_of_ne (by decide)] at hcount
                  rw [ih (Nat.succ.inj hlen) himp hcount]
              | true =>
                  rw [List.count_cons_self, List.count_cons_of_ne (by decide)] at hcount
                  omega
          | true =>
              obtain rfl : y = true := by simpa using hhead rfl
              rw [List.count_cons_self, List.count_cons_self, Nat.succ_inj] at hcount
              rw [ih (Nat.succ.inj hlen) himp hcount]

/-- **Words of one weight** that differ, differ in both directions; here is one of them. -/
theorem exists_lost {a b : List Bool} (hlen : a.length = b.length)
    (hcount : a.count true = b.count true) (hne : a ≠ b) :
    ∃ i : Nat, a[i]? = some true ∧ b[i]? = some false := by
  by_contra hnone
  apply hne
  refine eq_of_imp_of_count hlen ?_ hcount.symm
  intro i hi
  have hlt : i < b.length := by
    rw [← hlen]
    exact (List.getElem?_eq_some_iff.mp hi).1
  rw [List.getElem?_eq_getElem hlt, Option.some.injEq]
  by_contra hfalse
  apply hnone
  refine ⟨i, hi, ?_⟩
  rw [List.getElem?_eq_getElem hlt, Bool.eq_false_iff.mpr hfalse]

/-! ### Symbol by symbol -/

/-- Decoding each symbol of an encoded list gives the list back. -/
theorem mapM_map_eq_some {α β : Type*} {f : α → β} {g : β → Option α}
    (h : ∀ a, g (f a) = some a) (xs : List α) : (xs.map f).mapM g = some xs := by
  induction xs with
  | nil => rfl
  | cons x rest ih => simp [h x, ih]

/-! ### Frames with an opening symbol -/

/-- A way to encode values as frames of one length over the symbols `π`, such that the
opening symbol of a frame occurs nowhere else in it.  `norm` is what a decoded frame
tells of the value that was sent. -/
structure FrameCode (α β π : Type*) where
  frameLen : Nat
  encode : α → List π
  opens : π → Bool
  parse : List π → Option β
  norm : α → β
  length_encode : ∀ a, (encode a).length = frameLen
  opens_head : ∀ a, ∃ p, (encode a).head? = some p ∧ opens p = true
  not_opens_tail : ∀ a, ∀ p ∈ (encode a).tail, opens p = false
  parse_encode : ∀ a, parse (encode a) = some (norm a)

namespace FrameCode

variable {α β π : Type*} (c : FrameCode α β π)

/-- Scan a stream: skip symbols until one opens a frame, parse the frame there, go on
behind it.  The first argument counts the symbols of the last frame still to be skipped. -/
def scan : Nat → List π → List β
  | _, [] => []
  | skip + 1, _ :: rest => scan skip rest
  | 0, p :: rest =>
      if c.opens p then
        match c.parse ((p :: rest).take c.frameLen) with
        | some b => b :: scan (c.frameLen - 1) rest
        | none => scan 0 rest
      else scan 0 rest

/-- The frames of a list of values, one after another. -/
def stream (as : List α) : List π := as.flatMap c.encode

theorem scan_skip (xs ys : List π) : c.scan xs.length (xs ++ ys) = c.scan 0 ys := by
  induction xs with
  | nil => rfl
  | cons x rest ih => exact ih

/-- Symbols that open nothing are passed over. -/
theorem scan_silent (xs ys : List π) (h : ∀ p ∈ xs, c.opens p = false) :
    c.scan 0 (xs ++ ys) = c.scan 0 ys := by
  induction xs with
  | nil => rfl
  | cons x rest ih =>
      rw [List.cons_append, scan, if_neg (by simp [h x (by simp)])]
      exact ih fun p hp => h p (by simp [hp])

theorem encode_eq_cons (a : α) : ∃ p rest, c.encode a = p :: rest ∧ c.opens p = true ∧
    (∀ q ∈ rest, c.opens q = false) ∧ rest.length = c.frameLen - 1 := by
  obtain ⟨p, hp, hopen⟩ := c.opens_head a
  have htail := c.not_opens_tail a
  have hlen := c.length_encode a
  cases henc : c.encode a with
  | nil => rw [henc] at hp; simp at hp
  | cons q rest =>
      rw [henc] at hp htail hlen
      obtain rfl : q = p := by simpa using hp
      exact ⟨q, rest, rfl, hopen, htail, by simp at hlen; omega⟩

theorem frameLen_pos (a : α) : 0 < c.frameLen := by
  obtain ⟨p, rest, henc, -, -, -⟩ := c.encode_eq_cons a
  have hlen := c.length_encode a
  rw [henc, List.length_cons] at hlen
  omega

/-- A whole frame at the front of the stream is read and skipped. -/
theorem scan_frame (a : α) (ys : List π) :
    c.scan 0 (c.encode a ++ ys) = c.norm a :: c.scan 0 ys := by
  obtain ⟨p, rest, henc, hopen, -, hlen⟩ := c.encode_eq_cons a
  have htake : (p :: (rest ++ ys)).take c.frameLen = c.encode a := by
    rw [← List.cons_append, ← henc]
    exact List.take_left' (c.length_encode a)
  rw [henc, List.cons_append, scan, if_pos hopen, htake, c.parse_encode, ← hlen]
  simp only [scan_skip]

theorem scan_stream (as : List α) : c.scan 0 (c.stream as) = as.map c.norm := by
  induction as with
  | nil => rfl
  | cons a rest ih =>
      show c.scan 0 (c.encode a ++ c.stream rest) = _
      rw [scan_frame, ih, List.map_cons]

/-- What is left of a frame cut anywhere but at its front opens nothing. -/
theorem scan_cut_frame (a : α) {k : Nat} (hk : 0 < k) (ys : List π) :
    c.scan 0 ((c.encode a).drop k ++ ys) = c.scan 0 ys := by
  refine c.scan_silent _ ys fun p hp => ?_
  obtain ⟨j, rfl⟩ := Nat.exists_eq_succ_of_ne_zero (Nat.ne_of_gt hk)
  refine c.not_opens_tail a p ?_
  rw [← List.drop_one]
  rw [Nat.succ_eq_one_add, ← List.drop_drop] at hp
  exact List.mem_of_mem_drop hp

/-- **Self-synchronisation.**  A receiver that joins after `k` symbols decodes exactly the
frames that begin at or after its first symbol, in order. -/
theorem scan_drop (as : List α) (k : Nat) :
    c.scan 0 ((c.stream as).drop k)
      = (as.drop ((k + (c.frameLen - 1)) / c.frameLen)).map c.norm := by
  induction as generalizing k with
  | nil => simp [stream, scan]
  | cons a rest ih =>
      have hpos := c.frameLen_pos a
      have hlen := c.length_encode a
      have hstream : c.stream (a :: rest) = c.encode a ++ c.stream rest := rfl
      rcases Nat.eq_zero_or_pos k with rfl | hk
      · rw [Nat.zero_add, Nat.div_eq_of_lt (by omega), List.drop_zero, List.drop_zero]
        exact c.scan_stream (a :: rest)
      rcases Nat.lt_or_ge k c.frameLen with hlt | hge
      · -- The cut falls inside the first frame.
        have hone : (k + (c.frameLen - 1)) / c.frameLen = 1 :=
          Nat.div_eq_of_lt_le (by omega) (by omega)
        rw [hstream, List.drop_append_of_le_length (by omega), scan_cut_frame c a hk, hone,
          List.drop_one, List.tail_cons]
        exact c.scan_stream rest
      · -- The first frame is gone altogether.
        obtain ⟨j, rfl⟩ := Nat.exists_eq_add_of_le hge
        have hquot : (c.frameLen + j + (c.frameLen - 1)) / c.frameLen
            = (j + (c.frameLen - 1)) / c.frameLen + 1 := by
          rw [Nat.add_assoc, Nat.add_comm, Nat.add_div_right _ hpos]
        rw [hstream, ← List.drop_drop, List.drop_left' hlen, ih, hquot, List.drop_succ_cons]

end FrameCode

end Coding
