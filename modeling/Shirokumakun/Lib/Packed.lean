/-
Bits packed eight to a byte.

A stream of bits kept in bytes has one choice to make: which bit of its byte the
`i`-th bit of the stream is.  `Order` is that choice, with the two facts every
argument about it uses: a place is below eight, and two bits of one byte have
different places.  `msb` fills a byte from the top, `lsb` from the bottom.

Setting and clearing one bit are characterised once for any order, by what a read at
any index then returns.  `Holds` is what a writer that appends to a cleared buffer
keeps: the stream so far, and zeros from there to the end of the room it cleared.
-/
import Mathlib.Data.List.Basic
import Mathlib.Data.Nat.Bitwise
import Mathlib.Tactic.TypeStar

namespace Packed

/-- Which bit of its byte the `i`-th bit of a stream is. -/
structure Order where
  place : ℕ → ℕ
  lt : ∀ i, place i < 8
  apart : ∀ {i j}, place i = place j → i % 8 = j % 8

/-- The first bit of a byte is its highest. -/
def msb : Order where
  place := fun i => 7 - i % 8
  lt := fun i => by omega
  apart := fun h => by omega

/-- The first bit of a byte is its lowest. -/
def lsb : Order where
  place := fun i => i % 8
  lt := fun i => Nat.mod_lt i (by decide)
  apart := fun h => h

/-- Whether bit `k` of a byte is set. -/
def byteBit (b : UInt8) (k : ℕ) : Bool := b.toNat.testBit k

/-- The `i`-th bit of a buffer; there are zeros past its end. -/
def read (o : Order) (buffer : List UInt8) (i : ℕ) : Bool :=
  byteBit (buffer.getD (i / 8) 0) (o.place i)

/-- Or a bit into the `i`-th place. -/
def orBit (o : Order) (buffer : List UInt8) (i : ℕ) (b : Bool) : List UInt8 :=
  buffer.modify (i / 8) fun x => x ||| UInt8.ofNat (b.toNat <<< o.place i)

/-- And the `i`-th place away. -/
def clearBit (o : Order) (buffer : List UInt8) (i : ℕ) : List UInt8 :=
  buffer.modify (i / 8) fun x => x &&& UInt8.ofNat ((1 <<< o.place i) ^^^ 0xFF)

/-! ### One byte -/

theorem byteBit_or_ofNat (x : UInt8) (b : Bool) {j k : ℕ} (hk : k < 8) :
    byteBit (x ||| UInt8.ofNat (b.toNat <<< j)) k = (byteBit x k || (b && decide (k = j))) := by
  have hb : (b.toNat <<< j).testBit k = (b && decide (k = j)) := by
    cases b with
    | false => simp
    | true => simp [Nat.one_shiftLeft, Nat.testBit_two_pow, eq_comm]
  simp only [byteBit, UInt8.toNat_or, UInt8.toNat_ofNat', Nat.testBit_or, Nat.testBit_mod_two_pow,
    hb, hk, decide_true, Bool.true_and]

theorem byteBit_and_ofNat (x : UInt8) {j k : ℕ} (hk : k < 8) :
    byteBit (x &&& UInt8.ofNat ((1 <<< j) ^^^ 0xFF)) k = (byteBit x k && decide (k ≠ j)) := by
  have hff : (0xFF : ℕ).testBit k = true := by
    have : ∀ k : Fin 8, (0xFF : ℕ).testBit k = true := by decide
    exact this ⟨k, hk⟩
  have hb : ((1 <<< j) ^^^ 0xFF : ℕ).testBit k = decide (k ≠ j) := by
    rw [Nat.testBit_xor, hff, Nat.one_shiftLeft, Nat.testBit_two_pow, Bool.xor_true]
    by_cases h : k = j
    · simp [h]
    · simp [h, Ne.symm h]
  simp only [byteBit, UInt8.toNat_and, UInt8.toNat_ofNat', Nat.testBit_and,
    Nat.testBit_mod_two_pow, hb, hk, decide_true, Bool.true_and]

/-- Bytes with the same eight bits are the same. -/
theorem byte_ext {x y : UInt8} (h : ∀ k < 8, byteBit x k = byteBit y k) : x = y := by
  apply UInt8.toNat_inj.mp
  apply Nat.eq_of_testBit_eq
  intro k
  by_cases hk : k < 8
  · exact h k hk
  · have hpow : 2 ^ 8 ≤ 2 ^ k := Nat.pow_le_pow_right (by decide) (Nat.le_of_not_lt hk)
    rw [Nat.testBit_lt_two_pow (x.toNat_lt.trans_le hpow),
      Nat.testBit_lt_two_pow (y.toNat_lt.trans_le hpow)]

/-! ### One bit of a buffer -/

section

variable (o : Order) {buffer : List UInt8} {i j : ℕ}

@[simp] theorem length_orBit (b : Bool) : (orBit o buffer i b).length = buffer.length := by
  simp [orBit]

@[simp] theorem length_clearBit : (clearBit o buffer i).length = buffer.length := by
  simp [clearBit]

theorem getD_modify (f : UInt8 → UInt8) {k l : ℕ} (hk : k < buffer.length) :
    (buffer.modify k f).getD l 0 = if k = l then f (buffer.getD k 0) else buffer.getD l 0 := by
  simp only [List.getD_eq_getElem?_getD, List.getElem?_modify]
  by_cases h : k = l
  · subst h
    simp [hk]
  · simp [h]

theorem same_place (hbyte : i / 8 = j / 8) (hplace : o.place i = o.place j) : i = j := by
  have := o.apart hplace
  omega

theorem read_orBit (b : Bool) (hi : i < 8 * buffer.length) :
    read o (orBit o buffer i b) j = (read o buffer j || (b && decide (j = i))) := by
  have hbyte : i / 8 < buffer.length := by omega
  rw [read, orBit, getD_modify _ hbyte, read]
  by_cases h : i / 8 = j / 8
  · rw [if_pos h, h, byteBit_or_ofNat _ _ (o.lt j)]
    have hiff : o.place j = o.place i ↔ j = i := by
      refine ⟨fun hp => same_place o h.symm hp, fun hp => by rw [hp]⟩
    simp [hiff]
  · have hne : j ≠ i := fun hji => h (by rw [hji])
    simp [h, hne]

theorem read_clearBit (hi : i < 8 * buffer.length) :
    read o (clearBit o buffer i) j = (read o buffer j && decide (j ≠ i)) := by
  have hbyte : i / 8 < buffer.length := by omega
  rw [read, clearBit, getD_modify _ hbyte, read]
  by_cases h : i / 8 = j / 8
  · rw [if_pos h, h, byteBit_and_ofNat _ (o.lt j)]
    have hiff : o.place j = o.place i ↔ j = i := by
      refine ⟨fun hp => same_place o h.symm hp, fun hp => by rw [hp]⟩
    simp [hiff]
  · have hne : j ≠ i := fun hji => h (by rw [hji])
    simp [h, hne]

/-- Buffers of one length with the same bits are equal. -/
theorem ext_of_read {buffer' : List UInt8} (hlen : buffer.length = buffer'.length)
    (h : ∀ i, read lsb buffer i = read lsb buffer' i) : buffer = buffer' := by
  apply List.ext_getElem hlen
  intro n hn hn'
  apply byte_ext
  intro k hk
  have hbit := h (8 * n + k)
  have hdiv : (8 * n + k) / 8 = n := by omega
  have hmod : (8 * n + k) % 8 = k := by omega
  rw [read, read, hdiv, List.getD_eq_getElem _ _ hn, List.getD_eq_getElem _ _ hn'] at hbit
  rwa [show lsb.place (8 * n + k) = k from hmod] at hbit

end

/-! ### Streams -/

/-- The first `n` bits of a buffer. -/
def stream (o : Order) (buffer : List UInt8) (n : ℕ) : List Bool :=
  (List.range n).map (read o buffer)

@[simp] theorem length_stream (o : Order) (buffer : List UInt8) (n : ℕ) :
    (stream o buffer n).length = n := by
  simp [stream]

theorem getD_stream (o : Order) (buffer : List UInt8) {n i : ℕ} (h : i < n) :
    (stream o buffer n).getD i false = read o buffer i := by
  simp [stream, List.getD_eq_getElem?_getD, h]

/-- The bits appended so far, and zeros behind them to the end of the room that was
cleared for them. -/
structure Holds (o : Order) (buffer : List UInt8) (room : ℕ) (bits : List Bool) : Prop where
  fits : bits.length ≤ room
  inside : room ≤ 8 * buffer.length
  reads : ∀ i < room, read o buffer i = bits.getD i false

section

variable {o : Order} {buffer : List UInt8} {room : ℕ} {bits : List Bool}

theorem holds_nil (o : Order) (n : ℕ) (rest : List UInt8) :
    Holds o (List.replicate n 0 ++ rest) (8 * n) [] where
  fits := Nat.zero_le _
  inside := by
    rw [List.length_append, List.length_replicate]
    omega
  reads := by
    intro i hi
    have hbyte : i / 8 < n := by omega
    have hzero : (List.replicate n (0 : UInt8) ++ rest).getD (i / 8) 0 = 0 := by
      rw [List.getD_append _ _ _ _ (by simpa using hbyte)]
      simp [List.getD_eq_getElem?_getD, hbyte]
    rw [read, hzero]
    simp [byteBit]

theorem getD_concat (b : Bool) (i : ℕ) :
    (bits ++ [b]).getD i false = (bits.getD i false || (b && decide (i = bits.length))) := by
  rcases lt_trichotomy i bits.length with h | h | h
  · rw [List.getD_append _ _ _ _ h]
    simp [h.ne]
  · rw [List.getD_append_right _ _ _ _ h.ge, List.getD_eq_default bits false h.ge]
    simp [h]
  · have hlen : (bits ++ [b]).length ≤ i := by
      rw [List.length_append, List.length_singleton]
      exact h
    rw [List.getD_eq_default (bits ++ [b]) _ hlen, List.getD_eq_default bits _ h.le]
    simp [h.ne']

/-- Or-ing a bit in behind the stream appends it. -/
theorem Holds.push (h : Holds o buffer room bits) (b : Bool) (hroom : bits.length < room) :
    Holds o (orBit o buffer bits.length b) room (bits ++ [b]) where
  fits := by
    rw [List.length_append, List.length_singleton]
    exact hroom
  inside := by simpa using h.inside
  reads := by
    intro i hi
    have hin : bits.length < 8 * buffer.length := hroom.trans_le h.inside
    rw [read_orBit o b hin, h.reads i hi, getD_concat]

theorem Holds.stream_eq (h : Holds o buffer room bits) : stream o buffer bits.length = bits := by
  apply List.ext_getElem (by simp)
  intro i hi hi'
  have hread := h.reads i (hi'.trans_le h.fits)
  rw [List.getD_eq_getElem _ _ hi'] at hread
  simpa [stream] using hread

end

/-! ### Numbers, highest bit first -/

/-- The low `w` bits of a number, highest first. -/
def msbFirst : ℕ → ℕ → List Bool
  | 0, _ => []
  | w + 1, n => n.testBit w :: msbFirst w n

/-- The number a list of bits spells, highest first. -/
def ofMsbFirst : List Bool → ℕ
  | [] => 0
  | b :: rest => 2 ^ rest.length * b.toNat + ofMsbFirst rest

@[simp] theorem length_msbFirst (w n : ℕ) : (msbFirst w n).length = w := by
  induction w with
  | zero => rfl
  | succ w ih => rw [msbFirst, List.length_cons, ih]

theorem ofMsbFirst_msbFirst (w n : ℕ) : ofMsbFirst (msbFirst w n) = n % 2 ^ w := by
  induction w with
  | zero => simp [msbFirst, ofMsbFirst, Nat.mod_one]
  | succ w ih =>
      rw [msbFirst, ofMsbFirst, ih, length_msbFirst, Nat.mod_pow_succ, Nat.add_comm,
        Nat.toNat_testBit]

/-- The high bits of a number, then its low ones. -/
theorem msbFirst_add (a b n : ℕ) :
    msbFirst (a + b) n = msbFirst a (n >>> b) ++ msbFirst b (n % 2 ^ b) := by
  induction a with
  | zero =>
      have hlow : ∀ w ≤ b, msbFirst w (n % 2 ^ b) = msbFirst w n := by
        intro w hw
        induction w with
        | zero => rfl
        | succ w ih =>
            have hlt : w < b := hw
            rw [msbFirst, msbFirst, ih hlt.le, Nat.testBit_mod_two_pow, decide_eq_true hlt,
              Bool.true_and]
      rw [Nat.zero_add, msbFirst, List.nil_append, hlow b le_rfl]
  | succ a ih =>
      have hbit : (n >>> b).testBit a = n.testBit (a + b) := by
        rw [Nat.testBit_shiftRight, Nat.add_comm]
      rw [Nat.add_right_comm, msbFirst, msbFirst, ih, hbit, List.cons_append]

theorem msbFirst_xor (w a b : ℕ) :
    msbFirst w (a ^^^ b) = List.zipWith xor (msbFirst w a) (msbFirst w b) := by
  induction w with
  | zero => rfl
  | succ w ih => rw [msbFirst, msbFirst, msbFirst, ih, Nat.testBit_xor, List.zipWith_cons_cons]

theorem ofMsbFirst_lt (bits : List Bool) : ofMsbFirst bits < 2 ^ bits.length := by
  induction bits with
  | nil => simp [ofMsbFirst]
  | cons b rest ih =>
      rw [ofMsbFirst, List.length_cons, Nat.pow_succ']
      cases b with
      | false => simpa using ih.trans_le (Nat.le_mul_of_pos_left _ (by decide))
      | true => simpa [Nat.two_mul] using ih

theorem msbFirst_ofMsbFirst (bits : List Bool) : msbFirst bits.length (ofMsbFirst bits) = bits := by
  have hlow : ∀ (w n m : ℕ), w ≤ m → msbFirst w (n + 2 ^ m) = msbFirst w n := by
    intro w n m hw
    induction w with
    | zero => rfl
    | succ w ih =>
        rw [msbFirst, msbFirst, ih (by omega), Nat.add_comm, Nat.testBit_two_pow_add_gt hw]
  induction bits with
  | nil => rfl
  | cons b rest ih =>
      have hlt := ofMsbFirst_lt rest
      rw [List.length_cons, msbFirst, ofMsbFirst]
      cases b with
      | false =>
          rw [Bool.toNat_false, Nat.mul_zero, Nat.zero_add, Nat.testBit_lt_two_pow hlt, ih]
      | true =>
          rw [Bool.toNat_true, Nat.mul_one, Nat.testBit_two_pow_add_eq,
            Nat.testBit_lt_two_pow hlt, Nat.add_comm, hlow _ _ _ le_rfl, ih]
          rfl

theorem getD_msbFirst {w i : ℕ} (n : ℕ) (h : i < w) :
    (msbFirst w n).getD i false = n.testBit (w - 1 - i) := by
  induction w generalizing i with
  | zero => omega
  | succ w ih =>
      cases i with
      | zero => simp [msbFirst]
      | succ i =>
          rw [msbFirst, List.getD_cons_succ, ih (Nat.lt_of_succ_lt_succ h)]
          congr 1
          omega

/-- Read a number of `w` bits off the front of a stream. -/
def readNat (w : ℕ) (bits : List Bool) : Option (ℕ × List Bool) :=
  if w ≤ bits.length then some (ofMsbFirst (bits.take w), bits.drop w) else none

theorem readNat_append {w n : ℕ} (h : n < 2 ^ w) (rest : List Bool) :
    readNat w (msbFirst w n ++ rest) = some (n, rest) := by
  have hlen : w ≤ (msbFirst w n ++ rest).length := by simp
  rw [readNat, if_pos hlen, List.take_left' (length_msbFirst w n),
    List.drop_left' (length_msbFirst w n), ofMsbFirst_msbFirst, Nat.mod_eq_of_lt h]

/-! ### Bytes, highest bit first -/

/-- The first `n` bytes of a stream of bits. -/
def bytes : ℕ → List Bool → List UInt8
  | 0, _ => []
  | n + 1, bits => UInt8.ofNat (ofMsbFirst (bits.take 8)) :: bytes n (bits.drop 8)

theorem read_cons_of_lt (b : UInt8) (rest : List UInt8) {i : ℕ} (h : i < 8) :
    read msb (b :: rest) i = byteBit b (7 - i) := by
  have hzero : i / 8 = 0 := Nat.div_eq_of_lt h
  have hmod : i % 8 = i := Nat.mod_eq_of_lt h
  simp [read, msb, hzero, hmod]

theorem read_cons_add (b : UInt8) (rest : List UInt8) (i : ℕ) :
    read msb (b :: rest) (8 + i) = read msb rest i := by
  have hdiv : (8 + i) / 8 = i / 8 + 1 := by omega
  have hmod : (8 + i) % 8 = i % 8 := by omega
  simp [read, msb, hdiv, hmod]

theorem stream_cons (b : UInt8) (rest : List UInt8) (n : ℕ) :
    stream msb (b :: rest) (8 + n) = msbFirst 8 b.toNat ++ stream msb rest n := by
  have hfirst : (List.range 8).map (read msb (b :: rest)) = msbFirst 8 b.toNat := by
    apply List.ext_getElem (by simp)
    intro i hi hi'
    rw [List.length_map, List.length_range] at hi
    rw [← List.getD_eq_getElem _ false hi', getD_msbFirst _ hi, List.getElem_map,
      List.getElem_range, read_cons_of_lt b rest hi, byteBit]
  have hrest : (List.range n).map (read msb (b :: rest) ∘ fun i => 8 + i) = stream msb rest n :=
    List.map_congr_left fun i _ => read_cons_add b rest i
  rw [stream, List.range_add, List.map_append, List.map_map, hfirst, hrest]

theorem stream_append (front rest : List UInt8) :
    stream msb (front ++ rest) (8 * front.length) = front.flatMap fun b => msbFirst 8 b.toNat := by
  induction front with
  | nil => rfl
  | cons b front ih =>
      have hlen : 8 * (b :: front).length = 8 + 8 * front.length := by
        rw [List.length_cons]
        omega
      rw [hlen, List.cons_append, stream_cons, ih, List.flatMap_cons]

/-- A buffer read as bits and packed again is the buffer. -/
theorem bytes_stream (buffer : List UInt8) :
    bytes buffer.length (stream msb buffer (8 * buffer.length)) = buffer := by
  induction buffer with
  | nil => rfl
  | cons b rest ih =>
      have hlen : 8 * (b :: rest).length = 8 + 8 * rest.length := by
        rw [List.length_cons]
        omega
      rw [hlen, stream_cons, List.length_cons, bytes, List.take_left' (length_msbFirst _ _),
        List.drop_left' (length_msbFirst _ _), ih, ofMsbFirst_msbFirst,
        Nat.mod_eq_of_lt b.toNat_lt, UInt8.ofNat_toNat]

theorem read_take (o : Order) (buffer : List UInt8) {n i : ℕ} (h : i < 8 * n) :
    read o (buffer.take n) i = read o buffer i := by
  have hbyte : i / 8 < n := by omega
  rw [read, read, List.getD_eq_getElem?_getD, List.getD_eq_getElem?_getD,
    List.getElem?_take_of_lt hbyte]

theorem stream_take (o : Order) (buffer : List UInt8) (n : ℕ) :
    stream o (buffer.take n) (8 * n) = stream o buffer (8 * n) := by
  apply List.map_congr_left
  intro i hi
  exact read_take o buffer (List.mem_range.mp hi)

theorem bytes_stream_take {buffer : List UInt8} {n : ℕ} (h : n ≤ buffer.length) :
    bytes n (stream msb buffer (8 * n)) = buffer.take n := by
  have hlen : (buffer.take n).length = n := List.length_take_of_le h
  have htake := bytes_stream (buffer.take n)
  rwa [hlen, stream_take] at htake

end Packed
