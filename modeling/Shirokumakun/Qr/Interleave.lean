/-
Blocks, and the order their codewords are sent in.

The data codewords are cut into blocks, the later ones a codeword longer; each gets its
error correction codewords, and the symbol holds the first codewords of all blocks, then
the second ones, and so on, the error correction codewords after the data.  The loop
finds the place of a codeword by a running index, and takes back a correction for the
short blocks at the one data codeword they do not have.

`dataIndex` and `eccIndex` are the places in closed form.  No two codewords have the same
place (`place_inj`), so what is written survives, and a reader who knows the places gets
the blocks back, each with its error correction codewords.  The computation uses the end
of the data buffer as scratch space for them, which is why the invariant of the loop
speaks of the data codewords only.
-/
import Shirokumakun.Lib.Writes
import Shirokumakun.Qr.Capacity
import Shirokumakun.Qr.ErrorCorrection

namespace Shirokumakun.Qr

/-! ### The function -/

def numShortBlocks (version : ℕ) (ecl : Ecc) : ℕ :=
  numBlocks version ecl - getNumRawDataModules version / 8 % numBlocks version ecl

def shortBlockDataLen (version : ℕ) (ecl : Ecc) : ℕ :=
  getNumRawDataModules version / 8 / numBlocks version ecl - blockEccLen version ecl

/-- `datLen` of block `i` -/
def blockDataLen (version : ℕ) (ecl : Ecc) (i : ℕ) : ℕ :=
  shortBlockDataLen version ecl + if i < numShortBlocks version ecl then 0 else 1

/-- The two buffers, and the offset of `dat` in the first. -/
structure Interleaving where
  data : List UInt8
  result : List UInt8
  dat : ℕ

/-- Put bytes into a buffer from an offset on. -/
def overwrite (buffer : List UInt8) (offset : ℕ) (bytes : List UInt8) : List UInt8 :=
  buffer.take offset ++ bytes ++ buffer.drop (offset + bytes.length)

/-- The loop that copies data codewords; returns the result and the running index. -/
def copyData (version : ℕ) (ecl : Ecc) (dat : List UInt8) (n : ℕ) (p : List UInt8 × ℕ) :
    List UInt8 × ℕ :=
  (List.range n).foldl (fun p j =>
    let k := if j = shortBlockDataLen version ecl then p.2 - numShortBlocks version ecl else p.2
    (p.1.set k (dat.getD j 0), k + numBlocks version ecl)) p

/-- The loop that copies error correction codewords. -/
def copyEcc (version : ℕ) (ecl : Ecc) (ecc : List UInt8) (n : ℕ) (p : List UInt8 × ℕ) :
    List UInt8 × ℕ :=
  (List.range n).foldl (fun p j =>
    (p.1.set p.2 (ecc.getD j 0), p.2 + numBlocks version ecl)) p

def interleaveBlock (version : ℕ) (ecl : Ecc) (generator : List UInt8) (s : Interleaving)
    (i : ℕ) : Interleaving :=
  let dataLen := getNumDataCodewords version ecl
  let datLen := blockDataLen version ecl i
  let dat := (s.data.drop s.dat).take datLen
  let ecc := calcReedSolomonRemainder dat generator
  let copied := copyData version ecl dat datLen (s.result, i)
  let copied := copyEcc version ecl ecc (blockEccLen version ecl) (copied.1, dataLen + i)
  ⟨overwrite s.data dataLen ecc, copied.1, s.dat + datLen⟩

/-- Both buffers after the loop over the blocks. -/
def addEccAndInterleave (data : List UInt8) (version : ℕ) (ecl : Ecc) (result : List UInt8) :
    Interleaving :=
  (List.range (numBlocks version ecl)).foldl
    (interleaveBlock version ecl (calcReedSolomonGenerator (blockEccLen version ecl)))
    ⟨data, result, 0⟩

/-! ### Places -/

/-- The place of data codeword `j` of block `i`. -/
def dataIndex (version : ℕ) (ecl : Ecc) (i j : ℕ) : ℕ :=
  if j = shortBlockDataLen version ecl then
    i + j * numBlocks version ecl - numShortBlocks version ecl
  else i + j * numBlocks version ecl

/-- The place of error correction codeword `j` of block `i`. -/
def eccIndex (version : ℕ) (ecl : Ecc) (i j : ℕ) : ℕ :=
  getNumDataCodewords version ecl + i + j * numBlocks version ecl

/-- The places of a block, data first. -/
def blockPlaces (version : ℕ) (ecl : Ecc) (i : ℕ) : List ℕ :=
  (List.range (blockDataLen version ecl i)).map (dataIndex version ecl i) ++
    (List.range (blockEccLen version ecl)).map (eccIndex version ecl i)

/-- The offset of block `i` in the data. -/
def blockStart (version : ℕ) (ecl : Ecc) (i : ℕ) : ℕ :=
  i * shortBlockDataLen version ecl + (i - numShortBlocks version ecl)

/-- The data codewords of block `i`. -/
def blockData (version : ℕ) (ecl : Ecc) (data : List UInt8) (i : ℕ) : List UInt8 :=
  (data.drop (blockStart version ecl i)).take (blockDataLen version ecl i)

theorem blockStart_succ (version : ℕ) (ecl : Ecc) (i : ℕ) :
    blockStart version ecl (i + 1) = blockStart version ecl i + blockDataLen version ecl i := by
  rw [blockStart, blockStart, blockDataLen, Nat.succ_mul]
  by_cases h : i < numShortBlocks version ecl
  · rw [if_pos h]
    omega
  · rw [if_neg h]
    omega

section

variable {version : ℕ} {ecl : Ecc}

theorem numShortBlocks_le : numShortBlocks version ecl ≤ numBlocks version ecl := Nat.sub_le _ _

/-- The blocks make up the data codewords. -/
theorem blockStart_numBlocks (h : Layout version ecl) :
    blockStart version ecl (numBlocks version ecl) = getNumDataCodewords version ecl := by
  have hmod := Nat.mod_lt (getNumRawDataModules version / 8) h.blocks_pos
  have hdiv := Nat.div_add_mod (getNumRawDataModules version / 8) (numBlocks version ecl)
  have hsplit : numBlocks version ecl * (getNumRawDataModules version / 8 / numBlocks version ecl) =
      numBlocks version ecl * shortBlockDataLen version ecl +
        blockEccLen version ecl * numBlocks version ecl := by
    rw [shortBlockDataLen, Nat.mul_comm (blockEccLen version ecl), ← Nat.mul_add,
      Nat.sub_add_cancel h.data_pos.le]
  rw [blockStart, getNumDataCodewords, numShortBlocks]
  omega

theorem blockStart_mono {i j : ℕ} (h : i ≤ j) :
    blockStart version ecl i ≤ blockStart version ecl j := by
  induction h with
  | refl => exact le_rfl
  | step _ ih =>
      rw [blockStart_succ]
      exact ih.trans (Nat.le_add_right _ _)

/-- A block ends within the data. -/
theorem blockStart_add_le (h : Layout version ecl) {i : ℕ} (hi : i < numBlocks version ecl) :
    blockStart version ecl i + blockDataLen version ecl i ≤ getNumDataCodewords version ecl := by
  rw [← blockStart_succ, ← blockStart_numBlocks h]
  exact blockStart_mono hi

theorem stride_inj {b i i' j j' : ℕ} (hi : i < b) (hi' : i' < b) (h : i + j * b = i' + j' * b) :
    i = i' ∧ j = j' := by
  have hpos : 0 < b := Nat.zero_lt_of_lt hi
  have hmod := congrArg (· % b) h
  have hdiv := congrArg (· / b) h
  simp only [Nat.add_mul_mod_self_right, Nat.mod_eq_of_lt hi, Nat.mod_eq_of_lt hi',
    Nat.add_mul_div_right _ _ hpos, Nat.div_eq_of_lt hi, Nat.div_eq_of_lt hi',
    Nat.zero_add] at hmod hdiv
  exact ⟨hmod, hdiv⟩

/-- A place before the extra codewords of the long blocks, and one of theirs. -/
theorem dataIndex_cases {i j : ℕ} (hi : i < numBlocks version ecl)
    (hj : j < blockDataLen version ecl i) :
    (j < shortBlockDataLen version ecl ∧ dataIndex version ecl i j = i + j * numBlocks version ecl ∧
        i + j * numBlocks version ecl < shortBlockDataLen version ecl * numBlocks version ecl) ∨
      (j = shortBlockDataLen version ecl ∧ numShortBlocks version ecl ≤ i ∧
        dataIndex version ecl i j =
          i - numShortBlocks version ecl +
            shortBlockDataLen version ecl * numBlocks version ecl) := by
  rw [blockDataLen] at hj
  by_cases hlast : j = shortBlockDataLen version ecl
  · right
    have hlong : numShortBlocks version ecl ≤ i := by
      by_contra hshort
      rw [if_pos (Nat.lt_of_not_le hshort)] at hj
      omega
    refine ⟨hlast, hlong, ?_⟩
    rw [dataIndex, if_pos hlast, hlast]
    omega
  · left
    have hlt : j < shortBlockDataLen version ecl := by
      by_cases hshort : i < numShortBlocks version ecl
      · rw [if_pos hshort] at hj
        omega
      · rw [if_neg hshort] at hj
        omega
    have hle := Nat.mul_le_mul_right (numBlocks version ecl) (Nat.succ_le_of_lt hlt)
    rw [Nat.succ_mul] at hle
    exact ⟨hlt, if_neg hlast, by omega⟩

theorem dataIndex_lt (h : Layout version ecl) {i j : ℕ} (hi : i < numBlocks version ecl)
    (hj : j < blockDataLen version ecl i) :
    dataIndex version ecl i j < getNumDataCodewords version ecl := by
  have htotal := blockStart_numBlocks h
  rw [blockStart, Nat.mul_comm] at htotal
  have hshort : numShortBlocks version ecl ≤ numBlocks version ecl := numShortBlocks_le
  rcases dataIndex_cases hi hj with ⟨-, hindex, hlt⟩ | ⟨-, hlong, hindex⟩
  · omega
  · omega

/-- Different data codewords have different places. -/
theorem dataIndex_inj {i i' j j' : ℕ} (hi : i < numBlocks version ecl)
    (hi' : i' < numBlocks version ecl) (hj : j < blockDataLen version ecl i)
    (hj' : j' < blockDataLen version ecl i')
    (h : dataIndex version ecl i j = dataIndex version ecl i' j') : i = i' ∧ j = j' := by
  rcases dataIndex_cases hi hj with ⟨-, hindex, hlt⟩ | ⟨hlast, hlong, hindex⟩
  · rcases dataIndex_cases hi' hj' with ⟨-, hindex', -⟩ | ⟨-, -, hindex'⟩
    · exact stride_inj hi hi' (by omega)
    · omega
  · rcases dataIndex_cases hi' hj' with ⟨-, hindex', hlt'⟩ | ⟨hlast', hlong', hindex'⟩
    · omega
    · omega

theorem eccIndex_lt (h : Layout version ecl) {i j : ℕ} (hi : i < numBlocks version ecl)
    (hj : j < blockEccLen version ecl) :
    eccIndex version ecl i j < getNumRawDataModules version / 8 := by
  have htotal := h.data_add_ecc
  have hle := Nat.mul_le_mul_right (numBlocks version ecl) (Nat.succ_le_of_lt hj)
  rw [Nat.succ_mul] at hle
  rw [eccIndex]
  omega

theorem eccIndex_inj {i i' j j' : ℕ} (hi : i < numBlocks version ecl)
    (hi' : i' < numBlocks version ecl)
    (h : eccIndex version ecl i j = eccIndex version ecl i' j') : i = i' ∧ j = j' := by
  rw [eccIndex, eccIndex] at h
  exact stride_inj hi hi' (by omega)

end

/-! ### The loops as writes -/

/-- What the loops write for one block. -/
def blockWrites (version : ℕ) (ecl : Ecc) (dat : List UInt8) (i : ℕ) : List (ℕ × UInt8) :=
  (List.range (blockDataLen version ecl i)).map
      (fun j => (dataIndex version ecl i j, dat.getD j 0)) ++
    (List.range (blockEccLen version ecl)).map fun j => (eccIndex version ecl i j,
      (calcReedSolomonRemainder dat
        (calcReedSolomonGenerator (blockEccLen version ecl))).getD j 0)

section

variable {version : ℕ} {ecl : Ecc}

theorem copyData_eq (dat result : List UInt8) (i : ℕ) {n : ℕ}
    (hn : n ≤ shortBlockDataLen version ecl + 1) :
    (copyData version ecl dat n (result, i)).1 = (listMemory 0).write result
        ((List.range n).map fun j => (dataIndex version ecl i j, dat.getD j 0)) ∧
      (n ≤ shortBlockDataLen version ecl →
        (copyData version ecl dat n (result, i)).2 = i + n * numBlocks version ecl) := by
  induction n with
  | zero =>
      refine ⟨rfl, fun _ => ?_⟩
      rw [Nat.zero_mul, Nat.add_zero]
      rfl
  | succ n ih =>
      obtain ⟨hwrite, hindex⟩ := ih (by omega)
      have hk := hindex (by omega)
      have hstep : copyData version ecl dat (n + 1) (result, i) =
          ((copyData version ecl dat n (result, i)).1.set (dataIndex version ecl i n)
            (dat.getD n 0), dataIndex version ecl i n + numBlocks version ecl) := by
        rw [copyData, List.range_succ, List.foldl_append, List.foldl_cons, List.foldl_nil]
        show (_, _) = _
        rw [← copyData, hk, dataIndex]
      rw [hstep]
      refine ⟨?_, fun hle => ?_⟩
      · rw [hwrite, List.range_succ, List.map_append, Memory.write_append]
        rfl
      · show dataIndex version ecl i n + numBlocks version ecl = i + (n + 1) * numBlocks version ecl
        rw [dataIndex, if_neg (by omega), Nat.succ_mul, Nat.add_assoc]

theorem copyEcc_eq (ecc result : List UInt8) (i n : ℕ) :
    copyEcc version ecl ecc n (result, getNumDataCodewords version ecl + i) =
      ((listMemory 0).write result
        ((List.range n).map fun j => (eccIndex version ecl i j, ecc.getD j 0)),
        eccIndex version ecl i n) := by
  induction n with
  | zero =>
      rw [eccIndex, Nat.zero_mul, Nat.add_zero]
      rfl
  | succ n ih =>
      have hindex : eccIndex version ecl i (n + 1) =
          eccIndex version ecl i n + numBlocks version ecl := by
        rw [eccIndex, eccIndex, Nat.succ_mul, Nat.add_assoc _ (n * _)]
      rw [copyEcc, List.range_succ, List.foldl_append, ← copyEcc, ih, List.map_append,
        Memory.write_append, hindex]
      rfl

theorem blockDataLen_le (i : ℕ) :
    blockDataLen version ecl i ≤ shortBlockDataLen version ecl + 1 := by
  rw [blockDataLen]
  split <;> omega

theorem interleaveBlock_result (s : Interleaving) (i : ℕ) :
    (interleaveBlock version ecl (calcReedSolomonGenerator (blockEccLen version ecl)) s i).result =
      (listMemory 0).write s.result (blockWrites version ecl
        ((s.data.drop s.dat).take (blockDataLen version ecl i)) i) := by
  rw [interleaveBlock, copyEcc_eq, (copyData_eq _ _ _ (blockDataLen_le i)).1, blockWrites,
    Memory.write_append]

/-- The scratch space is behind the data codewords. -/
theorem take_overwrite (buffer bytes : List UInt8) (offset : ℕ) (h : offset ≤ buffer.length) :
    (overwrite buffer offset bytes).take offset = buffer.take offset := by
  rw [overwrite, List.append_assoc, List.take_left' (List.length_take_of_le h)]

theorem take_drop_eq {xs ys : List UInt8} {n start len : ℕ} (h : xs.take n = ys.take n)
    (hle : start + len ≤ n) : (xs.drop start).take len = (ys.drop start).take len := by
  have hcut : ∀ zs : List UInt8, (zs.drop start).take len = ((zs.take n).drop start).take len := by
    intro zs
    rw [List.drop_take, List.take_take, Nat.min_eq_left (by omega)]
  rw [hcut xs, hcut ys, h]

/-- After `i` blocks: the writes so far, the offset, and the data codewords unchanged. -/
theorem addEccAndInterleave_loop (h : Layout version ecl) (data result : List UInt8)
    (hdata : getNumDataCodewords version ecl ≤ data.length) {i : ℕ}
    (hi : i ≤ numBlocks version ecl) :
    let s := (List.range i).foldl
      (interleaveBlock version ecl (calcReedSolomonGenerator (blockEccLen version ecl)))
      ⟨data, result, 0⟩
    s.result = (listMemory 0).write result ((List.range i).flatMap fun i =>
        blockWrites version ecl (blockData version ecl data i) i) ∧
      s.dat = blockStart version ecl i ∧
      getNumDataCodewords version ecl ≤ s.data.length ∧
      s.data.take (getNumDataCodewords version ecl) =
        data.take (getNumDataCodewords version ecl) := by
  induction i with
  | zero => exact ⟨rfl, by simp [blockStart], hdata, rfl⟩
  | succ i ih =>
      obtain ⟨hresult, hdat, hlen, htake⟩ := ih (by omega)
      have hblock := take_drop_eq htake (blockStart_add_le h (i := i) (by omega))
      rw [List.range_succ, List.foldl_append, List.foldl_cons, List.foldl_nil]
      refine ⟨?_, ?_, ?_, ?_⟩
      · rw [interleaveBlock_result, hresult, hdat, hblock, List.flatMap_append,
          Memory.write_append, List.flatMap_singleton]
        rfl
      · rw [blockStart_succ, ← hdat]
        rfl
      · show _ ≤ (overwrite _ _ _).length
        rw [overwrite, List.length_append, List.length_append, List.length_take_of_le hlen]
        omega
      · show (overwrite _ _ _).take _ = _
        rw [take_overwrite _ _ _ hlen, htake]

theorem addEccAndInterleave_result (h : Layout version ecl) (data result : List UInt8)
    (hdata : getNumDataCodewords version ecl ≤ data.length) :
    (addEccAndInterleave data version ecl result).result =
      (listMemory 0).write result ((List.range (numBlocks version ecl)).flatMap fun i =>
        blockWrites version ecl (blockData version ecl data i) i) :=
  (addEccAndInterleave_loop h data result hdata le_rfl).1

theorem length_overwrite {buffer bytes : List UInt8} {offset : ℕ}
    (h : offset + bytes.length ≤ buffer.length) :
    (overwrite buffer offset bytes).length = buffer.length := by
  rw [overwrite, List.length_append, List.length_append, List.length_drop,
    List.length_take_of_le (by omega)]
  omega

/-- Neither buffer grows: the scratch space lies inside the first. -/
theorem length_addEccAndInterleave (h : Layout version ecl) {data : List UInt8}
    (result : List UInt8) (hdata : getNumRawDataModules version / 8 ≤ data.length) :
    (addEccAndInterleave data version ecl result).data.length = data.length ∧
      (addEccAndInterleave data version ecl result).result.length = result.length := by
  have hroom : getNumDataCodewords version ecl + blockEccLen version ecl ≤ data.length := by
    have hsum := h.data_add_ecc
    have hblock := Nat.le_mul_of_pos_right (blockEccLen version ecl) h.blocks_pos
    omega
  constructor
  · refine List.foldlRecOn (motive := fun s : Interleaving => s.data.length = data.length) _ _ rfl
      fun s hs i _ => ?_
    have hecc : (calcReedSolomonRemainder ((s.data.drop s.dat).take (blockDataLen version ecl i))
        (calcReedSolomonGenerator (blockEccLen version ecl))).length = blockEccLen version ecl := by
      rw [length_calcReedSolomonRemainder, length_calcReedSolomonGenerator h.ecc_pos]
      rw [length_calcReedSolomonGenerator h.ecc_pos]
      exact h.ecc_pos
    exact (length_overwrite (by rw [hecc, hs]; exact hroom)).trans hs
  · rw [addEccAndInterleave_result h data result (by omega)]
    exact length_listMemory_write 0 result _

end

/-! ### Reading the blocks back -/

/-- Block `i` of a sequence of codewords, data and error correction. -/
def deinterleaveBlock (version : ℕ) (ecl : Ecc) (codewords : List UInt8) (i : ℕ) : List UInt8 :=
  (List.range (blockDataLen version ecl i)).map
      (fun j => codewords.getD (dataIndex version ecl i j) 0) ++
    (List.range (blockEccLen version ecl)).map
      (fun j => codewords.getD (eccIndex version ecl i j) 0)

def deinterleave (version : ℕ) (ecl : Ecc) (codewords : List UInt8) : List (List UInt8) :=
  (List.range (numBlocks version ecl)).map (deinterleaveBlock version ecl codewords)

/-- The data codewords of a sequence of codewords, as they are. -/
def readData (version : ℕ) (ecl : Ecc) (codewords : List UInt8) : List UInt8 :=
  (List.range (numBlocks version ecl)).flatMap fun i =>
    (deinterleaveBlock version ecl codewords i).take (blockDataLen version ecl i)

section

variable {version : ℕ} {ecl : Ecc}

theorem fst_blockWrites (dat : List UInt8) (i : ℕ) :
    (blockWrites version ecl dat i).map Prod.fst = blockPlaces version ecl i := by
  rw [blockWrites, List.map_append, List.map_map, List.map_map]
  rfl

theorem deinterleaveBlock_eq (codewords : List UInt8) (i : ℕ) :
    deinterleaveBlock version ecl codewords i =
      (blockPlaces version ecl i).map fun k => codewords.getD k 0 := by
  rw [deinterleaveBlock, blockPlaces, List.map_append, List.map_map, List.map_map]
  rfl

theorem lt_of_mem_blockPlaces (h : Layout version ecl) {i k : ℕ} (hi : i < numBlocks version ecl)
    (hk : k ∈ blockPlaces version ecl i) : k < getNumRawDataModules version / 8 := by
  rw [blockPlaces, List.mem_append] at hk
  rcases hk with hk | hk
  · obtain ⟨j, hj, rfl⟩ := List.mem_map.mp hk
    have hsum := h.data_add_ecc
    have hlt := dataIndex_lt h hi (List.mem_range.mp hj)
    omega
  · obtain ⟨j, hj, rfl⟩ := List.mem_map.mp hk
    exact eccIndex_lt h hi (List.mem_range.mp hj)

/-- A place of a block names the block. -/
theorem block_of_place (h : Layout version ecl) {i i' k : ℕ} (hi : i < numBlocks version ecl)
    (hi' : i' < numBlocks version ecl) (hk : k ∈ blockPlaces version ecl i)
    (hk' : k ∈ blockPlaces version ecl i') : i = i' := by
  rw [blockPlaces, List.mem_append, List.mem_map, List.mem_map] at hk hk'
  simp only [List.mem_range] at hk hk'
  rcases hk with ⟨j, hj, rfl⟩ | ⟨j, hj, rfl⟩
  · have hlt := dataIndex_lt h hi hj
    rcases hk' with ⟨j', hj', heq⟩ | ⟨j', hj', heq⟩
    · exact (dataIndex_inj hi' hi hj' hj heq).1.symm
    · rw [eccIndex] at heq
      omega
  · rcases hk' with ⟨j', hj', heq⟩ | ⟨j', hj', heq⟩
    · have hlt := dataIndex_lt h hi' hj'
      rw [eccIndex] at heq
      omega
    · exact (eccIndex_inj hi' hi heq).1.symm

theorem nodup_blockPlaces (h : Layout version ecl) {i : ℕ} (hi : i < numBlocks version ecl) :
    (blockPlaces version ecl i).Nodup := by
  refine List.Nodup.append ?_ ?_ ?_
  · refine List.Nodup.map_on (fun j hj j' hj' heq => ?_) List.nodup_range
    exact (dataIndex_inj hi hi (List.mem_range.mp hj) (List.mem_range.mp hj') heq).2
  · refine List.Nodup.map_on (fun j _ j' _ heq => ?_) List.nodup_range
    exact (eccIndex_inj hi hi heq).2
  · intro k hk hk'
    obtain ⟨j, hj, rfl⟩ := List.mem_map.mp hk
    obtain ⟨j', -, heq⟩ := List.mem_map.mp hk'
    have hlt := dataIndex_lt h hi (List.mem_range.mp hj)
    rw [eccIndex] at heq
    omega

/-- **No place is written twice.** -/
theorem place_inj (h : Layout version ecl) (dat : ℕ → List UInt8) :
    (((List.range (numBlocks version ecl)).flatMap fun i =>
      blockWrites version ecl (dat i) i).map Prod.fst).Nodup := by
  simp only [List.map_flatMap, fst_blockWrites]
  rw [List.nodup_flatMap]
  refine ⟨fun i hi => nodup_blockPlaces h (List.mem_range.mp hi), ?_⟩
  refine List.Pairwise.imp_of_mem ?_ List.pairwise_lt_range
  intro i i' hi hi' hlt k hk hk'
  have hsame := block_of_place h (List.mem_range.mp hi) (List.mem_range.mp hi') hk hk'
  omega

theorem allValid_writes (h : Layout version ecl) {result : List UInt8}
    (hresult : getNumRawDataModules version / 8 ≤ result.length) (dat : ℕ → List UInt8) :
    (listMemory 0).AllValid result ((List.range (numBlocks version ecl)).flatMap fun i =>
      blockWrites version ecl (dat i) i) := by
  intro w hw
  obtain ⟨i, hi, hmem⟩ := List.mem_flatMap.mp hw
  have hplace : w.1 ∈ blockPlaces version ecl i := by
    rw [← fst_blockWrites (dat i)]
    exact List.mem_map_of_mem hmem
  exact (lt_of_mem_blockPlaces h (List.mem_range.mp hi) hplace).trans_le hresult

theorem length_blockData (h : Layout version ecl) {data : List UInt8}
    (hdata : getNumDataCodewords version ecl ≤ data.length) {i : ℕ}
    (hi : i < numBlocks version ecl) :
    (blockData version ecl data i).length = blockDataLen version ecl i := by
  have hend := blockStart_add_le h hi
  rw [blockData, List.length_take, List.length_drop]
  omega

/-- **A reader gets the blocks back**, each with its error correction codewords. -/
theorem deinterleaveBlock_addEccAndInterleave (h : Layout version ecl) {data result : List UInt8}
    (hdata : getNumDataCodewords version ecl ≤ data.length)
    (hresult : getNumRawDataModules version / 8 ≤ result.length) {i : ℕ}
    (hi : i < numBlocks version ecl) :
    deinterleaveBlock version ecl (addEccAndInterleave data version ecl result).result i =
      block (blockEccLen version ecl) (blockData version ecl data i) := by
  have hread : ∀ k v, (k, v) ∈ blockWrites version ecl (blockData version ecl data i) i →
      (addEccAndInterleave data version ecl result).result.getD k 0 = v := by
    intro k v hkv
    rw [addEccAndInterleave_result h data result hdata]
    exact Memory.get_write_of_mem (allValid_writes h hresult _) (place_inj h _)
      (List.mem_flatMap.mpr ⟨i, List.mem_range.mpr hi, hkv⟩)
  have hlen := length_blockData h hdata hi
  have hecclen : (calcReedSolomonRemainder (blockData version ecl data i)
      (calcReedSolomonGenerator (blockEccLen version ecl))).length = blockEccLen version ecl := by
    rw [length_calcReedSolomonRemainder, length_calcReedSolomonGenerator h.ecc_pos]
    rw [length_calcReedSolomonGenerator h.ecc_pos]
    exact h.ecc_pos
  rw [deinterleaveBlock, block]
  congr 1
  · conv_rhs => rw [← Hamming.map_getD_range 0 hlen]
    refine List.map_congr_left fun j hj => hread _ _ ?_
    exact List.mem_append_left _ (List.mem_map_of_mem hj)
  · conv_rhs => rw [← Hamming.map_getD_range 0 hecclen]
    refine List.map_congr_left fun j hj => hread _ _ ?_
    exact List.mem_append_right _ (List.mem_map_of_mem hj)

/-- The blocks' data, one after the other, are the data codewords. -/
theorem flatMap_blockData (h : Layout version ecl) (data : List UInt8) :
    (List.range (numBlocks version ecl)).flatMap (blockData version ecl data) =
      data.take (getNumDataCodewords version ecl) := by
  have hsplit : ∀ n, (List.range n).flatMap (blockData version ecl data) =
      data.take (blockStart version ecl n) := by
    intro n
    induction n with
    | zero => simp [blockStart]
    | succ n ih =>
        rw [List.range_succ, List.flatMap_append, ih, List.flatMap_singleton, blockStart_succ,
          List.take_add]
        rfl
  rw [hsplit, blockStart_numBlocks h]

/-- The data codewords read back as they were. -/
theorem readData_addEccAndInterleave (h : Layout version ecl) {data result : List UInt8}
    (hdata : getNumDataCodewords version ecl ≤ data.length)
    (hresult : getNumRawDataModules version / 8 ≤ result.length) :
    readData version ecl (addEccAndInterleave data version ecl result).result =
      data.take (getNumDataCodewords version ecl) := by
  rw [← flatMap_blockData h, readData]
  refine List.flatMap_congr fun i hi => ?_
  have hi := List.mem_range.mp hi
  rw [deinterleaveBlock_addEccAndInterleave h hdata hresult hi, block,
    List.take_left' (length_blockData h hdata hi)]

/-- **Error correction**: whatever sequence of codewords arrives, at most one sequence of
data has all its blocks within half their error correction codewords of it. -/
theorem data_eq_of_blocks_near (h : Layout version ecl) {data data' received : List UInt8}
    (hdata : getNumDataCodewords version ecl ≤ data.length)
    (hdata' : getNumDataCodewords version ecl ≤ data'.length)
    (hnear : ∀ i < numBlocks version ecl,
      2 * Hamming.distance (block (blockEccLen version ecl) (blockData version ecl data i))
        (deinterleaveBlock version ecl received i) ≤ blockEccLen version ecl)
    (hnear' : ∀ i < numBlocks version ecl,
      2 * Hamming.distance (block (blockEccLen version ecl) (blockData version ecl data' i))
        (deinterleaveBlock version ecl received i) ≤ blockEccLen version ecl) :
    data.take (getNumDataCodewords version ecl) = data'.take (getNumDataCodewords version ecl) := by
  rw [← flatMap_blockData h data, ← flatMap_blockData h data']
  refine List.flatMap_congr fun i hi => ?_
  have hi := List.mem_range.mp hi
  have hlen := length_blockData h hdata hi
  have hlen' := length_blockData h hdata' hi
  have hlong : blockDataLen version ecl i + blockEccLen version ecl ≤ 255 := by
    have hshort := h.block_le
    have hle := h.data_pos
    have hblock : blockDataLen version ecl i ≤ shortBlockDataLen version ecl + 1 :=
      blockDataLen_le i
    rw [shortBlockDataLen] at hblock
    omega
  refine data_eq_of_near h.ecc_pos (hlen.trans hlen'.symm) (by rw [hlen]; exact hlong) ?_
    (hnear i hi) (hnear' i hi)
  rw [deinterleaveBlock, hlen]
  simp

end

/-- **A reader gets every block back**, and the data from the blocks; the codewords behind
those of the version are untouched. -/
theorem deinterleave_addEccAndInterleave {version : ℕ} {ecl : Ecc} (h : Version version)
    {data result : List UInt8} (hdata : getNumRawDataModules version / 8 ≤ data.length)
    (hresult : getNumRawDataModules version / 8 ≤ result.length) :
    deinterleave version ecl (addEccAndInterleave data version ecl result).result =
        (List.range (numBlocks version ecl)).map (fun i =>
          block (blockEccLen version ecl) (blockData version ecl data i)) ∧
      readData version ecl (addEccAndInterleave data version ecl result).result =
        data.take (getNumDataCodewords version ecl) ∧
      (addEccAndInterleave data version ecl result).result.drop
          (getNumRawDataModules version / 8) =
        result.drop (getNumRawDataModules version / 8) := by
  have hlayout := h.layout ecl
  have hsum := hlayout.data_add_ecc
  have hdata' : getNumDataCodewords version ecl ≤ data.length := by omega
  refine ⟨List.map_congr_left fun i hi => ?_,
    readData_addEccAndInterleave hlayout hdata' hresult, ?_⟩
  · exact deinterleaveBlock_addEccAndInterleave hlayout hdata' hresult (List.mem_range.mp hi)
  · have hlen := (length_addEccAndInterleave hlayout result hdata).2
    apply List.ext_getElem (by rw [List.length_drop, List.length_drop, hlen])
    intro k hk hk'
    rw [List.length_drop] at hk hk'
    -- every place that is written lies in front
    have hnot : getNumRawDataModules version / 8 + k ∉
        ((List.range (numBlocks version ecl)).flatMap fun i =>
          blockWrites version ecl (blockData version ecl data i) i).map Prod.fst := by
      simp only [List.map_flatMap, fst_blockWrites]
      intro hmem
      obtain ⟨i, hi, hplace⟩ := List.mem_flatMap.mp hmem
      have hlt := lt_of_mem_blockPlaces hlayout (List.mem_range.mp hi) hplace
      omega
    have hkeep := Memory.get_write_of_notMem (allValid_writes hlayout hresult _)
      (show getNumRawDataModules version / 8 + k < result.length by omega) hnot
    rw [← addEccAndInterleave_result hlayout data result hdata'] at hkeep
    have hin : getNumRawDataModules version / 8 + k <
        (addEccAndInterleave data version ecl result).result.length := by omega
    have hin' : getNumRawDataModules version / 8 + k < result.length := by omega
    have hget := List.getD_eq_getElem _ (0 : UInt8) hin
    have hget' := List.getD_eq_getElem _ (0 : UInt8) hin'
    rw [List.getElem_drop, List.getElem_drop, ← hget, ← hget']
    exact hkeep

theorem deinterleave_addEccAndInterleave_five :
    deinterleave 5 .high
          (addEccAndInterleave (List.replicate 200 3) 5 .high (List.replicate 200 0)).result =
        (List.range (numBlocks 5 .high)).map (fun i =>
          block (blockEccLen 5 .high) (blockData 5 .high (List.replicate 200 3) i)) ∧
      readData 5 .high
          (addEccAndInterleave (List.replicate 200 3) 5 .high (List.replicate 200 0)).result =
        (List.replicate 200 3).take (getNumDataCodewords 5 .high) ∧
      (addEccAndInterleave (List.replicate 200 3) 5 .high (List.replicate 200 0)).result.drop
          (getNumRawDataModules 5 / 8) =
        (List.replicate 200 0).drop (getNumRawDataModules 5 / 8) :=
  deinterleave_addEccAndInterleave ⟨by decide, by decide⟩
    (by rw [List.length_replicate]; decide) (by rw [List.length_replicate]; decide)

end Shirokumakun.Qr
