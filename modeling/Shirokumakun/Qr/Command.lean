/-
The shell command that prints the pairing code as a symbol.

The pairing text comes from the Matter stack into a buffer of 64 bytes, is encoded in
version 9 or less, and is drawn with two characters for a module, spaces for black and
hashes for white, two white modules around it.  Each row is put together in one buffer of
256 bytes, which is not cleared between rows; only its terminator says where a row ends.

Nothing can go wrong after the text was fetched: whatever it says, 63 characters fit
version 9 at the lowest level, so the symbol is always there (`payloadsFit_nine`), and a
row never reaches the end of its buffer (`foldl_put`).  What is printed shows every module
(`cmdQr_spec`), and so what is read from the terminal is the pairing text.
-/
import Shirokumakun.Qr.Text

namespace Shirokumakun.Qr

/-! ### The command -/

/-- What the command prints. -/
inductive Output
  | error (text : String)
  | print (text : List UInt8)
  deriving DecidableEq, Repr

/-- The bytes of a literal. -/
def ascii (s : String) : List UInt8 := s.toList.map fun c => UInt8.ofNat c.toNat

/-- What a string function sees of a buffer: the bytes before the first null. -/
def cString (buffer : List UInt8) : List UInt8 := buffer.takeWhile (· != 0)

/-- The error numbers of the system. -/
def eio : ℤ := 5

def enomem : ℤ := 12

/-- `line[pos++] = c` -/
def put (s : List UInt8 × ℕ) (c : UInt8) : List UInt8 × ℕ := (s.1.set s.2 c, s.2 + 1)

def quiet : ℕ := 2

/-- From `-quiet` up to `size + quiet`. -/
def coordinates (size : ℕ) : List ℤ :=
  (List.range (size + 2 * quiet)).map fun k : ℕ => (k : ℤ) - quiet

/-- Whether the place is drawn dark. -/
def dark (qrBuf : List UInt8) (size : ℕ) (x y : ℤ) : Bool :=
  decide (0 ≤ x ∧ x < size ∧ 0 ≤ y ∧ y < size) && getModuleBounded qrBuf x y

def moduleChar (dark : Bool) : UInt8 := if dark then 32 else 35

/-- One row, in the buffer the row before was put together in. -/
def renderRow (qrBuf : List UInt8) (size : ℕ) (y : ℤ) (line : List UInt8) : List UInt8 :=
  let s := (coordinates size).foldl (fun s x =>
    let c := moduleChar (dark qrBuf size x y)
    put (put s c) c) (line, 0)
  s.1.set s.2 0

/-- All rows: the buffer, and what was printed. -/
def render (qrBuf line : List UInt8) : List UInt8 × List Output :=
  let size := getSize qrBuf
  (coordinates size).foldl (fun s y =>
    let line := renderRow qrBuf size y s.1
    (line, s.2 ++ [.print (cString line)])) (line, [])

/-- `matter qr`, with what the stack returns for the pairing text, what it leaves in the
buffer of the manual code, what the two static buffers hold from before, and the row
buffer.  `none` is a failed assertion of the encoder; otherwise what is printed, and what
is returned. -/
def cmdQr (qrCode : Option (List UInt8)) (manualStr qrBuf qrTmp line : List UInt8) :
    Option (List Output × ℤ) :=
  match qrCode with
  | none => some ([.error "Failed to get QR code"], -eio)
  | some qrSpan =>
      let qrStr := cString qrSpan
      (encodeText qrStr qrTmp qrBuf .low 1 9 .auto true).map fun encoded =>
        if encoded.ok then
          ((render encoded.qrcode line).2 ++ [.print [], .print (ascii "QR:     " ++ qrStr),
            .print (ascii "Manual: " ++ cString manualStr)], 0)
        else ([.error "QR encode failed"], -enomem)

/-! ### One row -/

theorem take_put (line : List UInt8) (pos : ℕ) (c : UInt8) (h : pos < line.length) :
    (put (line, pos) c).1.take (pos + 1) = line.take pos ++ [c] := by
  have hset : pos < (line.set pos c).length := by rwa [List.length_set]
  rw [put, List.take_succ_eq_append_getElem hset, List.getElem_set_self,
    List.take_set_of_le (Nat.le_refl pos)]

/-- **Rows do not overflow**: where there is room for two characters a module, those are
what is in the buffer, from the start to the position. -/
theorem foldl_put {ι : Type*} (f : ι → UInt8) (is : List ι) (line : List UInt8) (pos : ℕ)
    (hroom : pos + 2 * is.length ≤ line.length) :
    (is.foldl (fun s i => put (put s (f i)) (f i)) (line, pos)).2 = pos + 2 * is.length ∧
      (is.foldl (fun s i => put (put s (f i)) (f i)) (line, pos)).1.length = line.length ∧
      (is.foldl (fun s i => put (put s (f i)) (f i)) (line, pos)).1.take (pos + 2 * is.length) =
        line.take pos ++ is.flatMap fun i => [f i, f i] := by
  induction is generalizing line pos with
  | nil => simp
  | cons i is ih =>
      rw [List.length_cons] at hroom
      have hlen : (put (put (line, pos) (f i)) (f i)).1.length = line.length := by simp [put]
      have hfirst := take_put line pos (f i) (by omega)
      have hsecond : (put (put (line, pos) (f i)) (f i)).1.take (pos + 2) =
          line.take pos ++ [f i, f i] := by
        have hmiddle : pos + 1 < (put (line, pos) (f i)).1.length := by
          simp only [put, List.length_set]
          omega
        have hstep := take_put (put (line, pos) (f i)).1 (pos + 1) (f i) hmiddle
        rw [hfirst, List.append_assoc] at hstep
        exact hstep
      obtain ⟨hpos, hkeep, htake⟩ := ih (put (put (line, pos) (f i)) (f i)).1 (pos + 2)
        (by rw [hlen]; omega)
      have hend : pos + 2 + 2 * is.length = pos + 2 * (i :: is).length := by
        rw [List.length_cons]
        omega
      rw [hend] at hpos htake
      rw [List.foldl_cons, List.flatMap_cons, ← List.append_assoc, ← hsecond]
      exact ⟨hpos, hkeep.trans hlen, htake⟩

/-- A row as it is printed. -/
def rowText (qrBuf : List UInt8) (size : ℕ) (y : ℤ) : List UInt8 :=
  (coordinates size).flatMap fun x =>
    [moduleChar (dark qrBuf size x y), moduleChar (dark qrBuf size x y)]

theorem moduleChar_ne_zero (dark : Bool) : moduleChar dark ≠ 0 := by
  cases dark with
  | false => decide
  | true => decide

theorem cString_append {front : List UInt8} (back : List UInt8) (h : ∀ c ∈ front, c ≠ 0) :
    cString (front ++ 0 :: back) = front := by
  induction front with
  | nil => rfl
  | cons c front ih =>
      have hc : (c != 0) = true := bne_iff_ne.mpr (h c (by simp))
      have hrest := ih fun d hd => h d (by simp [hd])
      exact (List.takeWhile_cons_of_pos (p := (· != 0)) hc).trans (congrArg (c :: ·) hrest)

/-- What is printed of a row that was terminated at its position. -/
theorem cString_terminated {s : List UInt8 × ℕ} {front : List UInt8} (hpos : s.2 < s.1.length)
    (htake : s.1.take s.2 = front) (h : ∀ c ∈ front, c ≠ 0) :
    cString (s.1.set s.2 0) = front := by
  have hterm : (s.1.set s.2 0).take (s.2 + 1) = s.1.take s.2 ++ [0] := take_put s.1 s.2 0 hpos
  rw [← List.take_append_drop (s.2 + 1) (s.1.set s.2 0), hterm, htake, List.append_assoc]
  exact cString_append _ h

theorem length_coordinates (size : ℕ) : (coordinates size).length = size + 2 * quiet := by
  rw [coordinates, List.length_map, List.length_range]

theorem renderRow_spec (qrBuf : List UInt8) {size : ℕ} (y : ℤ) {line : List UInt8}
    (hroom : 2 * (size + 2 * quiet) < line.length) :
    cString (renderRow qrBuf size y line) = rowText qrBuf size y ∧
      (renderRow qrBuf size y line).length = line.length := by
  have hcount : 0 + 2 * (coordinates size).length = 2 * (size + 2 * quiet) := by
    rw [length_coordinates, Nat.zero_add]
  obtain ⟨hpos, hlen, htake⟩ := foldl_put (fun x => moduleChar (dark qrBuf size x y))
    (coordinates size) line 0 (by omega)
  rw [hcount] at hpos htake
  refine ⟨cString_terminated (by rw [hpos, hlen]; exact hroom) (by rw [hpos]; exact htake)
    fun c hc => ?_, List.length_set.trans hlen⟩
  obtain ⟨x, -, hx⟩ := List.mem_flatMap.mp hc
  simp only [List.mem_cons, List.not_mem_nil, or_false, or_self] at hx
  rw [hx]
  exact moduleChar_ne_zero _

/-! ### All rows -/

theorem foldl_renderRow (qrBuf : List UInt8) {size : ℕ} (ys : List ℤ) {line : List UInt8}
    (printed : List Output) (hroom : 2 * (size + 2 * quiet) < line.length) :
    (ys.foldl (fun s y => (renderRow qrBuf size y s.1,
        s.2 ++ [.print (cString (renderRow qrBuf size y s.1))])) (line, printed)).2 =
      printed ++ (ys.map (rowText qrBuf size)).map .print := by
  induction ys generalizing line printed with
  | nil => simp
  | cons y ys ih =>
      obtain ⟨hrow, hlen⟩ := renderRow_spec qrBuf y hroom
      rw [List.foldl_cons, ih _ (by rw [hlen]; exact hroom), hrow]
      simp

/-- The rows of a symbol. -/
def rows (qrBuf : List UInt8) : List (List UInt8) :=
  (coordinates (getSize qrBuf)).map (rowText qrBuf (getSize qrBuf))

theorem render_eq (qrBuf : List UInt8) {line : List UInt8}
    (hroom : 2 * (getSize qrBuf + 2 * quiet) < line.length) :
    (render qrBuf line).2 = (rows qrBuf).map .print :=
  foldl_renderRow qrBuf (coordinates (getSize qrBuf)) [] hroom

/-- The character at a column of a row, two for each coordinate. -/
theorem getD_flatMap_pair {ι : Type*} (f : ι → UInt8) {is : List ι} {k i : ℕ}
    (hk : k < is.length) (hi : i < 2) :
    (is.flatMap fun i => [f i, f i]).getD (2 * k + i) 0 = f (is.get ⟨k, hk⟩) := by
  induction is generalizing k with
  | nil => exact absurd hk (Nat.not_lt_zero k)
  | cons a is ih =>
      rw [List.flatMap_cons]
      cases k with
      | zero =>
          interval_cases i
          · rfl
          · rfl
      | succ k =>
          have hshift : 2 * (k + 1) + i = 2 * k + i + 1 + 1 := by omega
          rw [hshift]
          exact ih (Nat.lt_of_succ_lt_succ hk)

/-- **What is on the terminal**: at each place the character of its module, white around
the symbol. -/
theorem getD_rows (qrBuf : List UInt8) {k j i : ℕ} (hk : k < getSize qrBuf + 2 * quiet)
    (hj : j < getSize qrBuf + 2 * quiet) (hi : i < 2) :
    ((rows qrBuf).getD k []).getD (2 * j + i) 0 =
      moduleChar (getModuleBounded qrBuf ((j : ℤ) - quiet) ((k : ℤ) - quiet)) := by
  have hcoordinate : ∀ (n : ℕ) (hn : n < (coordinates (getSize qrBuf)).length),
      (coordinates (getSize qrBuf)).get ⟨n, hn⟩ = (n : ℤ) - quiet := by
    intro n hn
    simp [coordinates]
  have hcol : j < (coordinates (getSize qrBuf)).length := by rwa [length_coordinates]
  have hrowlen : k < (rows qrBuf).length := by
    rwa [rows, List.length_map, length_coordinates]
  have hrow : (rows qrBuf).getD k [] = rowText qrBuf (getSize qrBuf) ((k : ℤ) - quiet) := by
    rw [List.getD_eq_getElem _ _ hrowlen]
    simp [rows, coordinates]
  have hdark : ∀ x y : ℤ, dark qrBuf (getSize qrBuf) x y = getModuleBounded qrBuf x y := by
    intro x y
    rw [dark, getModuleBounded]
    simp only [← Bool.and_assoc, Bool.and_self]
  rw [hrow, rowText, getD_flatMap_pair _ hcol hi, hcoordinate, hdark]

/-! ### The command does what it is for -/

/-- Whatever the pairing text says, it fits version 9 at the lowest level. -/
theorem payloadsFit_nine {text : List UInt8} (h : text.length ≤ 63) :
    PayloadsFit 9 .low (textPayloads text) := by
  have hcap : getNumDataCodewords 9 .low * 8 = 1856 := by decide
  rw [PayloadsFit, hcap, textPayloads, int16Max]
  by_cases hempty : text.length = 0
  · rw [if_pos hempty]
    exact ⟨by simp, by decide, by decide⟩
  · rw [if_neg hempty]
    split_ifs
    · have hbits : (Payload.numeric text).bits.length = (text.length * 10 + 2) / 3 := by
        rw [Payload.bits, length_numeric_pack, codes, List.length_map]
      have hcount : numCharCountBits (Payload.numeric text).mode 9 = 10 := rfl
      rw [payloadsLength_singleton, hbits, hcount, List.forall_mem_singleton, hcount, Payload.count]
      omega
    · have hbits : (Payload.alphanumeric text).bits.length = (text.length * 11 + 1) / 2 := by
        rw [Payload.bits, length_alphanumeric_pack, codes, List.length_map]
      have hcount : numCharCountBits (Payload.alphanumeric text).mode 9 = 9 := rfl
      rw [payloadsLength_singleton, hbits, hcount, List.forall_mem_singleton, hcount, Payload.count]
      omega
    · have hbits : (Payload.byte text).bits.length = text.length * 8 :=
        length_flatMap_msbFirst 8 UInt8.toNat text
      have hcount : numCharCountBits (Payload.byte text).mode 9 = 8 := rfl
      rw [payloadsLength_singleton, hbits, hcount, List.forall_mem_singleton, hcount, Payload.count]
      omega

theorem length_cString_le (buffer : List UInt8) : (cString buffer).length ≤ buffer.length :=
  (List.takeWhile_sublist _).length_le

/-- **The command never fails once it has the pairing text**, and what it prints is a
symbol that reads as that text. -/
theorem cmdQr_spec {qrSpan qrBuf qrTmp line : List UInt8} (manualStr : List UInt8)
    (hspan : qrSpan.length ≤ 63) (hbuf : bufferLenForVersion 9 ≤ qrBuf.length)
    (htmp : bufferLenForVersion 9 ≤ qrTmp.length) (hline : line.length = 256) :
    ∃ qrcode, cmdQr (some qrSpan) manualStr qrBuf qrTmp line =
        some ((rows qrcode).map .print ++ [.print [],
          .print (ascii "QR:     " ++ cString qrSpan),
          .print (ascii "Manual: " ++ cString manualStr)], 0) ∧
      Reads qrcode (textPayloads (cString qrSpan)) ∧
      ∀ k < getSize qrcode + 2 * quiet, ∀ j < getSize qrcode + 2 * quiet, ∀ i < 2,
        ((rows qrcode).getD k []).getD (2 * j + i) 0 =
          moduleChar (getModuleBounded qrcode ((j : ℤ) - quiet) ((k : ℤ) - quiet)) := by
  have hrange : Range 1 9 := ⟨by decide, by decide, by decide⟩
  have hfits := payloadsFit_nine ((length_cString_le qrSpan).trans hspan)
  have hencodes : Encodes (encodeText (cString qrSpan) qrTmp qrBuf .low 1 9 .auto true) .low 1 9
      (textPayloads (cString qrSpan)) :=
    encodeText_of_fits _ hrange htmp hbuf ⟨9, by decide, by decide, hfits⟩
  obtain ⟨version, ecl, mask, e, he, hok, ⟨-, hmax, -⟩, hsymbol, hreads⟩ := hencodes
  have hroom : 2 * (getSize e.qrcode + 2 * quiet) < line.length := by
    rw [hline, hsymbol.size_eq, sizeOf, quiet]
    omega
  refine ⟨e.qrcode, ?_, hreads _ (Damaged.refl hsymbol), fun k hk j hj i hi =>
    getD_rows e.qrcode hk hj hi⟩
  simp only [cmdQr]
  rw [he, Option.map_some, if_pos hok, render_eq e.qrcode hroom]

theorem cmdQr_spec_mt :
    ∃ qrcode, cmdQr (some [77, 84, 58, 0]) [51, 0] (List.replicate 400 0) (List.replicate 400 7)
          (List.replicate 256 1) =
        some ((rows qrcode).map .print ++ [.print [],
          .print (ascii "QR:     " ++ cString [77, 84, 58, 0]),
          .print (ascii "Manual: " ++ cString [51, 0])], 0) ∧
      Reads qrcode (textPayloads (cString [77, 84, 58, 0])) ∧
      ∀ k < getSize qrcode + 2 * quiet, ∀ j < getSize qrcode + 2 * quiet, ∀ i < 2,
        ((rows qrcode).getD k []).getD (2 * j + i) 0 =
          moduleChar (getModuleBounded qrcode ((j : ℤ) - quiet) ((k : ℤ) - quiet)) :=
  cmdQr_spec [51, 0] (by decide) (by rw [List.length_replicate]; decide)
    (by rw [List.length_replicate]; decide) List.length_replicate

end Shirokumakun.Qr
