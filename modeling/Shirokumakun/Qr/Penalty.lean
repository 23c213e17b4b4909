/-
The penalty score of a symbol.

A line of modules is scored while it is scanned: the lengths of the last seven runs are
kept, the latest first, with how long the current one has become.  What that adds up to
is said here without the scan.  A line is a list of runs, white and black in turn, and it
costs `runScore` for each run and forty for each white run, the border included, that
ends a pattern like that of a finder (`scoreLine_expand`).

The last part of the score is how far the number of black modules is from half.  The
formula for it computes the least `k` with `(45 - 5k)% ≤ black / total ≤ (55 + 5k)%`, as
the comment in the source says (`balance_le_iff`).

The whole score is bounded (`getPenaltyScore_bounds`), far below the largest `long` that the
choice of a mask starts from.
-/
import Mathlib.Algebra.Order.BigOperators.Group.List
import Mathlib.Algebra.Order.Group.Abs
import Mathlib.Algebra.Order.Ring.Int
import Mathlib.Order.Bounds.Defs
import Mathlib.Tactic.Linarith
import Shirokumakun.Qr.Scan

namespace Shirokumakun.Qr

/-! ### The function -/

def penaltyN1 : ℤ := 3

def penaltyN2 : ℤ := 3

def penaltyN3 : ℤ := 40

def penaltyN4 : ℤ := 10

/-- A line being scanned.  A run is at most 177 modules, which a byte holds. -/
structure Line where
  runHistory : List ℕ
  color : Bool
  run : ℕ
  result : ℤ

def addRunToHistory (run : ℕ) (history : List ℕ) : List ℕ := run :: history.take 6

def hasFinderLikePattern (runHistory : List ℕ) : Bool :=
  let n := runHistory.getD 1 0
  decide (0 < n) && runHistory.getD 2 0 == n && runHistory.getD 4 0 == n &&
    runHistory.getD 5 0 == n && runHistory.getD 3 0 == n * 3 &&
    (decide (n * 4 ≤ runHistory.getD 0 0) || decide (n * 4 ≤ runHistory.getD 6 0))

/-- What the `run`-th module of a run adds. -/
def runStep (run : ℕ) : ℤ := if run = 5 then penaltyN1 else if 5 < run then 1 else 0

/-- What a finder-like pattern adds. -/
def finderStep (found : Bool) : ℤ := if found then penaltyN3 else 0

def scanModule (s : Line) (black : Bool) : Line :=
  if black = s.color then
    { s with run := s.run + 1, result := s.result + runStep (s.run + 1) }
  else
    let history := addRunToHistory s.run s.runHistory
    { runHistory := history
      color := black
      run := 1
      result := s.result + finderStep (!s.color && hasFinderLikePattern history) }

/-- The end of a line; behind a black module it is a dummy run of white. -/
def endLine (s : Line) : ℤ :=
  let history := addRunToHistory s.run s.runHistory
  let history := if s.color then addRunToHistory 0 history else history
  s.result + finderStep (hasFinderLikePattern history)

def scoreLine (result : ℤ) (modules : List Bool) : ℤ :=
  endLine (modules.foldl scanModule ⟨List.replicate 7 0, false, 0, result⟩)

/-- The 2*2 blocks of one colour. -/
def scoreBlocks (qrcode : List UInt8) (result : ℤ) : ℤ :=
  let qrsize := getSize qrcode
  (List.range (qrsize - 1)).foldl (fun result y =>
    (List.range (qrsize - 1)).foldl (fun result x =>
      let color := getModule qrcode x y
      if color = getModule qrcode (x + 1) y ∧ color = getModule qrcode x (y + 1) ∧
          color = getModule qrcode (x + 1) (y + 1) then result + penaltyN2
      else result) result) result

/-- The number of black modules. -/
def countBlack (qrcode : List UInt8) : ℕ :=
  let qrsize := getSize qrcode
  (List.range qrsize).foldl (fun black y =>
    (List.range qrsize).foldl (fun black x =>
      if getModule qrcode x y then black + 1 else black) black) 0

/-- `k` of the source; nothing that is divided is negative. -/
def balance (black total : ℕ) : ℤ :=
  (|(black : ℤ) * 20 - total * 10| + total - 1) / total - 1

def getPenaltyScore (qrcode : List UInt8) : ℤ :=
  let qrsize := getSize qrcode
  let result := (List.range qrsize).foldl (fun result y =>
    scoreLine result ((List.range qrsize).map fun x => getModule qrcode x y)) 0
  let result := (List.range qrsize).foldl (fun result x =>
    scoreLine result ((List.range qrsize).map fun y => getModule qrcode x y)) result
  let result := scoreBlocks qrcode result
  result + balance (countBlack qrcode) (qrsize * qrsize) * penaltyN4

/-! ### A line as its runs -/

/-- The line of these runs, from this colour on. -/
def expand : Bool → List ℕ → List Bool
  | _, [] => []
  | color, run :: runs => List.replicate run color ++ expand (!color) runs

/-- What a run costs. -/
def runScore (run : ℕ) : ℤ := if run < 5 then 0 else run - 2

/-- The last seven runs, the latest first. -/
def latest (runs : List ℕ) : List ℕ := (runs.reverse ++ List.replicate 7 0).take 7

/-- The runs with the border of a line that ends black. -/
def closed (runs : List ℕ) : List ℕ := if runs.length % 2 = 0 then runs ++ [0] else runs

/-- The white runs that end a finder-like pattern. -/
def finders (runs : List ℕ) : ℕ :=
  (List.range runs.length).countP fun i =>
    decide (i % 2 = 0) && hasFinderLikePattern (latest (runs.take (i + 1)))

theorem runScore_succ (run : ℕ) : runScore (run + 1) = runScore run + runStep (run + 1) := by
  simp only [runScore, runStep, penaltyN1]
  by_cases hfour : run < 4
  · rw [if_pos (by omega), if_pos (by omega), if_neg (by omega), if_neg (by omega)]
    rfl
  · by_cases hfive : run < 5
    · obtain rfl : run = 4 := by omega
      rfl
    · rw [if_neg (by omega), if_neg hfive, if_neg (by omega), if_pos (by omega)]
      push_cast
      ring

theorem addRunToHistory_latest (run : ℕ) (runs : List ℕ) :
    addRunToHistory run (latest runs) = latest (runs ++ [run]) := by
  simp [addRunToHistory, latest, List.take_take]

theorem finders_append (runs : List ℕ) (run : ℕ) :
    (finders (runs ++ [run]) : ℤ) * penaltyN3 = finders runs * penaltyN3 +
      finderStep (decide (runs.length % 2 = 0) && hasFinderLikePattern (latest (runs ++ [run]))) := by
  have hbefore : (List.range runs.length).countP (fun i => decide (i % 2 = 0) &&
      hasFinderLikePattern (latest ((runs ++ [run]).take (i + 1)))) = finders runs := by
    refine List.countP_congr fun i hi => ?_
    rw [List.mem_range] at hi
    rw [List.take_append_of_le_length hi]
  have hlast : (runs ++ [run]).take (runs.length + 1) = runs ++ [run] :=
    List.take_of_length_le (by simp)
  rw [finders, List.length_append, List.length_singleton, List.range_succ, List.countP_append,
    hbefore, List.countP_singleton, hlast, finderStep]
  cases (decide (runs.length % 2 = 0) && hasFinderLikePattern (latest (runs ++ [run]))) with
  | false => simp
  | true =>
      push_cast
      simp [penaltyN3]
      ring

/-- The scan after these runs and so much of the next one. -/
def scanned (result : ℤ) (runs : List ℕ) (run : ℕ) : Line where
  runHistory := latest runs
  color := decide (runs.length % 2 = 1)
  run := run
  result := result + ((runs ++ [run]).map runScore).sum + finders runs * penaltyN3

/-- Scanning on in the same colour. -/
theorem foldl_replicate (result : ℤ) (runs : List ℕ) (run k : ℕ) :
    (List.replicate k (decide (runs.length % 2 = 1))).foldl scanModule (scanned result runs run) =
      scanned result runs (run + k) := by
  induction k generalizing run with
  | zero => rfl
  | succ k ih =>
      have hstep : scanModule (scanned result runs run) (decide (runs.length % 2 = 1)) =
          scanned result runs (run + 1) := by
        have hcolor : decide (runs.length % 2 = 1) = (scanned result runs run).color := rfl
        rw [scanModule, if_pos hcolor]
        simp only [scanned, List.map_append, List.sum_append, List.map_singleton,
          List.sum_singleton, runScore_succ, Line.mk.injEq, true_and]
        ring
      rw [List.replicate_succ, List.foldl_cons, hstep, ih]
      congr 1
      omega

/-- The first module of the next run. -/
theorem scanModule_next (result : ℤ) (runs : List ℕ) (run : ℕ) :
    scanModule (scanned result runs run) (decide ((runs ++ [run]).length % 2 = 1)) =
      scanned result (runs ++ [run]) 1 := by
  have hflip : decide ((runs ++ [run]).length % 2 = 1) = !decide (runs.length % 2 = 1) := by
    rw [List.length_append, List.length_singleton, ← decide_not, decide_eq_decide]
    omega
  have hwhite : (!decide (runs.length % 2 = 1)) = decide (runs.length % 2 = 0) := by
    rw [← decide_not, decide_eq_decide]
    omega
  rw [scanModule, if_neg (by rw [hflip]; simp [scanned])]
  simp only [scanned, addRunToHistory_latest, hwhite, List.map_append, List.sum_append,
    List.map_singleton, List.sum_singleton, finders_append, Line.mk.injEq, true_and]
  have hone : runScore 1 = 0 := rfl
  rw [hone]
  ring

theorem endLine_scanned (result : ℤ) (runs : List ℕ) (run : ℕ) :
    endLine (scanned result runs run) =
      result + ((runs ++ [run]).map runScore).sum +
        finders (closed (runs ++ [run])) * penaltyN3 := by
  have hlen : (runs ++ [run]).length = runs.length + 1 := by simp
  rw [endLine]
  simp only [scanned, addRunToHistory_latest, closed, hlen]
  by_cases hblack : runs.length % 2 = 1
  · have heven : (runs.length + 1) % 2 = 0 := by omega
    have hodd : ¬ runs.length % 2 = 0 := by omega
    rw [if_pos heven, finders_append, finders_append, hlen]
    simp [hblack, heven, finderStep]
    ring
  · have heven : runs.length % 2 = 0 := by omega
    have hodd : ¬ (runs.length + 1) % 2 = 0 := by omega
    rw [if_neg hodd, finders_append]
    simp [heven]
    ring

/-- The rest of a line, from the end of any of its runs. -/
theorem endLine_expand (result : ℤ) {runs rest : List ℕ} {run : ℕ} (h : ∀ r ∈ rest, 0 < r) :
    endLine ((expand (decide ((runs ++ [run]).length % 2 = 1)) rest).foldl scanModule
        (scanned result runs run)) =
      result + ((runs ++ run :: rest).map runScore).sum +
        finders (closed (runs ++ run :: rest)) * penaltyN3 := by
  induction rest generalizing runs run with
  | nil => exact endLine_scanned result runs run
  | cons r rest ih =>
      obtain ⟨k, rfl⟩ := Nat.exists_eq_add_of_lt (h r (by simp))
      have hflip : (!decide ((runs ++ [run]).length % 2 = 1)) =
          decide ((runs ++ [run] ++ [1 + k]).length % 2 = 1) := by
        have hlen : (runs ++ [run] ++ [1 + k]).length = (runs ++ [run]).length + 1 :=
          List.length_append
        rw [hlen, ← decide_not, decide_eq_decide]
        omega
      have hr : 0 + k + 1 = 1 + k := by omega
      rw [hr, expand, List.foldl_append, Nat.add_comm 1 k, List.replicate_succ, List.foldl_cons,
        scanModule_next, foldl_replicate, Nat.add_comm k 1, hflip, ih fun q hq => h q (by simp [hq])]
      simp

/-- **The score of a line**, from its runs. -/
theorem scoreLine_expand (result : ℤ) {run : ℕ} {rest : List ℕ} (h : ∀ r ∈ rest, 0 < r) :
    scoreLine result (expand false (run :: rest)) =
      result + ((run :: rest).map runScore).sum +
        finders (closed (run :: rest)) * penaltyN3 := by
  have hstart : (⟨List.replicate 7 0, false, 0, result⟩ : Line) = scanned result [] 0 := by
    simp [scanned, latest, runScore, finders]
  have hfirst := foldl_replicate result [] 0 run
  rw [Nat.zero_add] at hfirst
  rw [scoreLine, hstart, expand, List.foldl_append]
  exact (congrArg (fun s => endLine ((expand true rest).foldl scanModule s)) hfirst).trans
    (@endLine_expand result [] rest run h)

/-- The runs of a line, the first of this colour and perhaps empty. -/
def runs : Bool → List Bool → List ℕ
  | _, [] => [0]
  | color, b :: modules =>
      let rest := runs b modules
      let rest := (rest.headD 0 + 1) :: rest.tail
      if b = color then rest else 0 :: rest

theorem runs_spec (color : Bool) (modules : List Bool) :
    ∃ run rest, runs color modules = run :: rest ∧ (∀ r ∈ rest, 0 < r) ∧
      expand color (run :: rest) = modules := by
  induction modules generalizing color with
  | nil => exact ⟨0, [], rfl, by simp, rfl⟩
  | cons b modules ih =>
      obtain ⟨run, rest, hruns, hrest, hexpand⟩ := ih b
      have hlonger : expand b ((run + 1) :: rest) = b :: modules := by
        rw [← hexpand, expand, expand, List.replicate_succ, List.cons_append]
      by_cases hb : b = color
      · subst hb
        exact ⟨run + 1, rest, by simp [runs, hruns], hrest, hlonger⟩
      · refine ⟨0, (run + 1) :: rest, ?_, ?_, ?_⟩
        · simp [runs, hruns, hb]
        · intro r hr
          rw [List.mem_cons] at hr
          rcases hr with rfl | hr
          · exact Nat.succ_pos _
          · exact hrest r hr
        · rw [expand, ← Bool.eq_not.mpr hb]
          exact hlonger

/-- What a line adds to the score. -/
def lineScore (modules : List Bool) : ℤ :=
  ((runs false modules).map runScore).sum + finders (closed (runs false modules)) * penaltyN3

theorem scoreLine_eq (result : ℤ) (modules : List Bool) :
    scoreLine result modules = result + lineScore modules := by
  obtain ⟨run, rest, hruns, hrest, hexpand⟩ := runs_spec false modules
  rw [← hexpand, scoreLine_expand result hrest, hexpand, lineScore, hruns, add_assoc]

/-! ### The loops over the symbol -/

theorem foldl_add_eq {β : Type*} (f : β → ℤ) (bs : List β) (result : ℤ) :
    bs.foldl (fun result b => result + f b) result = result + (bs.map f).sum := by
  induction bs generalizing result with
  | nil => simp
  | cons b bs ih => rw [List.foldl_cons, ih, List.map_cons, List.sum_cons, add_assoc]

/-- Two nested loops are one over the square. -/
theorem foldl_square {σ : Type*} (step : σ → ℕ × ℕ → σ) (qrsize : ℕ) (s : σ) :
    (List.range qrsize).foldl (fun s y =>
      (List.range qrsize).foldl (fun s x => step s (x, y)) s) s =
        (square qrsize).foldl step s := by
  rw [square, Rect.cells, List.foldl_flatMap]
  simp only [List.foldl_map, Nat.zero_add]

/-- A module with its three neighbours, all of one colour. -/
def sameColor (qrcode : List UInt8) (p : ℕ × ℕ) : Bool :=
  let color := getModule qrcode p.1 p.2
  color == getModule qrcode (p.1 + 1) p.2 && color == getModule qrcode p.1 (p.2 + 1) &&
    color == getModule qrcode (p.1 + 1) (p.2 + 1)

/-- The 2*2 blocks of one colour, by their first modules. -/
def blocks (qrcode : List UInt8) : ℕ := (square (getSize qrcode - 1)).countP (sameColor qrcode)

theorem scoreBlocks_eq (qrcode : List UInt8) (result : ℤ) :
    scoreBlocks qrcode result = result + penaltyN2 * blocks qrcode := by
  have hcount : ∀ (ps : List (ℕ × ℕ)) (result : ℤ),
      ps.foldl (fun result p =>
        let color := getModule qrcode p.1 p.2
        if color = getModule qrcode (p.1 + 1) p.2 ∧ color = getModule qrcode p.1 (p.2 + 1) ∧
            color = getModule qrcode (p.1 + 1) (p.2 + 1) then result + penaltyN2
        else result) result = result + penaltyN2 * (ps.countP (sameColor qrcode) : ℤ) := by
    intro ps
    induction ps with
    | nil => simp
    | cons p ps ih =>
        intro result
        rw [List.foldl_cons, ih, List.countP_cons]
        by_cases hp : sameColor qrcode p = true
        · rw [if_pos hp, if_pos (by simpa [sameColor, and_assoc] using hp)]
          push_cast
          ring
        · rw [if_neg hp, if_neg (by simpa [sameColor, and_assoc] using hp), Nat.add_zero]
  rw [blocks, ← hcount]
  exact foldl_square (fun result p =>
    let color := getModule qrcode p.1 p.2
    if color = getModule qrcode (p.1 + 1) p.2 ∧ color = getModule qrcode p.1 (p.2 + 1) ∧
        color = getModule qrcode (p.1 + 1) (p.2 + 1) then result + penaltyN2
    else result) (getSize qrcode - 1) result

theorem countBlack_eq (qrcode : List UInt8) :
    countBlack qrcode = (square (getSize qrcode)).countP fun p => getModule qrcode p.1 p.2 := by
  have hcount : ∀ (ps : List (ℕ × ℕ)) (black : ℕ),
      ps.foldl (fun black p => if getModule qrcode p.1 p.2 then black + 1 else black) black =
        black + ps.countP fun p => getModule qrcode p.1 p.2 := by
    intro ps
    induction ps with
    | nil => simp
    | cons p ps ih =>
        intro black
        rw [List.foldl_cons, ih, List.countP_cons]
        split_ifs <;> omega
  rw [← Nat.zero_add ((square (getSize qrcode)).countP _), ← hcount]
  exact foldl_square (fun black p => if getModule qrcode p.1 p.2 then black + 1 else black)
    (getSize qrcode) 0

def row (qrcode : List UInt8) (y : ℕ) : List Bool :=
  (List.range (getSize qrcode)).map fun x => getModule qrcode x y

def column (qrcode : List UInt8) (x : ℕ) : List Bool :=
  (List.range (getSize qrcode)).map fun y => getModule qrcode x y

/-- **The score**, without its loops. -/
theorem getPenaltyScore_eq (qrcode : List UInt8) :
    getPenaltyScore qrcode =
      ((List.range (getSize qrcode)).map fun y => lineScore (row qrcode y)).sum +
        ((List.range (getSize qrcode)).map fun x => lineScore (column qrcode x)).sum +
        penaltyN2 * blocks qrcode +
        penaltyN4 * balance (countBlack qrcode) (getSize qrcode * getSize qrcode) := by
  rw [getPenaltyScore]
  simp only [scoreLine_eq, foldl_add_eq, scoreBlocks_eq, zero_add]
  rw [mul_comm penaltyN4]
  rfl

/-! ### The balance of black and white -/

/-- `k` is at most `j` exactly when the share of black is within `45 - 5j` and `55 + 5j`
percent. -/
theorem balance_le_iff {black total : ℕ} (h : 0 < total) (j : ℤ) :
    balance black total ≤ j ↔
      (45 - 5 * j) * total ≤ 100 * black ∧ 100 * (black : ℤ) ≤ (55 + 5 * j) * total := by
  have hpos : (0 : ℤ) < total := by exact_mod_cast h
  have hdiv : balance black total ≤ j ↔
      (|(black : ℤ) * 20 - total * 10| + total - 1) / total < j + 2 := by
    rw [balance]
    omega
  have hmul : (j + 2) * total = j * total + 2 * total := by ring
  have hlow : (45 - 5 * j) * total = 45 * total - 5 * (j * total) := by ring
  have hhigh : (55 + 5 * j) * total = 55 * total + 5 * (j * total) := by ring
  have habs : |(black : ℤ) * 20 - total * 10| ≤ j * total + total ↔
      -(j * total + total) ≤ (black : ℤ) * 20 - total * 10 ∧
        (black : ℤ) * 20 - total * 10 ≤ j * total + total := abs_le
  rw [hdiv, Int.ediv_lt_iff_lt_mul hpos, hmul, hlow, hhigh]
  omega

/-- The size is odd, so half of the modules are never black and `k` is not negative. -/
theorem balance_nonneg {black total : ℕ} (hodd : total % 2 = 1) : 0 ≤ balance black total := by
  by_contra hneg
  have hle : balance black total ≤ -1 := by omega
  rw [balance_le_iff (by omega)] at hle
  omega

/-- The formula computes the smallest `k` that the comment in the source asks for. -/
theorem isLeast_balance {black total : ℕ} (hodd : total % 2 = 1) :
    IsLeast {k : ℤ | 0 ≤ k ∧ (45 - 5 * k) * total ≤ 100 * black ∧
      100 * (black : ℤ) ≤ (55 + 5 * k) * total} (balance black total) := by
  have hpos : 0 < total := by omega
  exact ⟨⟨balance_nonneg hodd, (balance_le_iff hpos _).mp le_rfl⟩,
    fun j hj => (balance_le_iff hpos j).mpr hj.2⟩

/-! ### The score is bounded -/

/-- The largest `long` of the target. -/
def longMax : ℤ := 2 ^ 31 - 1

theorem finderStep_le (found : Bool) : finderStep found ≤ 40 := by
  cases found with
  | false => decide
  | true => decide

theorem runStep_le (run : ℕ) : runStep run ≤ 40 := by
  rw [runStep, penaltyN1]
  split_ifs <;> decide

/-- No module of a line adds more than a finder-like pattern. -/
theorem foldl_scanModule_le (s : Line) (modules : List Bool) :
    (modules.foldl scanModule s).result ≤ s.result + 40 * modules.length := by
  induction modules generalizing s with
  | nil => simp
  | cons b modules ih =>
      have hstep : (scanModule s b).result ≤ s.result + 40 := by
        rw [scanModule]
        by_cases hb : b = s.color
        · rw [if_pos hb]
          exact add_le_add_right (runStep_le _) _
        · rw [if_neg hb]
          exact add_le_add_right (finderStep_le _) _
      have hrest := ih (scanModule s b)
      rw [List.foldl_cons, List.length_cons]
      push_cast
      linarith

theorem lineScore_le (modules : List Bool) : lineScore modules ≤ 40 * (modules.length + 1) := by
  have hscan := foldl_scanModule_le ⟨List.replicate 7 0, false, 0, 0⟩ modules
  have hend := finderStep_le
  rw [← zero_add (lineScore modules), ← scoreLine_eq, scoreLine, endLine]
  refine (add_le_add hscan (hend _)).trans (le_of_eq ?_)
  dsimp only
  ring

theorem lineScore_nonneg (modules : List Bool) : 0 ≤ lineScore modules := by
  have hruns : 0 ≤ ((runs false modules).map runScore).sum := by
    refine List.sum_nonneg fun n hn => ?_
    obtain ⟨run, -, rfl⟩ := List.mem_map.mp hn
    rw [runScore]
    split_ifs <;> omega
  rw [lineScore, penaltyN3]
  omega

/-- The lines of one direction. -/
theorem sum_lineScore (line : ℕ → List Bool) {qrsize : ℕ} (hsize : qrsize ≤ 177)
    (hline : ∀ i, (line i).length = qrsize) :
    0 ≤ ((List.range qrsize).map fun i => lineScore (line i)).sum ∧
      ((List.range qrsize).map fun i => lineScore (line i)).sum ≤ 177 * 7120 := by
  constructor
  · refine List.sum_nonneg fun n hn => ?_
    obtain ⟨i, -, rfl⟩ := List.mem_map.mp hn
    exact lineScore_nonneg _
  · have hsum := List.sum_le_card_nsmul ((List.range qrsize).map fun i => lineScore (line i)) 7120
      fun n hn => by
        obtain ⟨i, -, rfl⟩ := List.mem_map.mp hn
        have hle := lineScore_le (line i)
        rw [hline] at hle
        omega
    rw [List.length_map, List.length_range, nsmul_eq_mul] at hsum
    refine hsum.trans ?_
    omega

theorem length_square (qrsize : ℕ) : (square qrsize).length = qrsize * qrsize :=
  Rect.length_cells _

theorem total_odd {version : ℕ} {qrcode : List UInt8} (h : Symbol version qrcode) :
    getSize qrcode * getSize qrcode % 2 = 1 := by
  have hodd : getSize qrcode % 2 = 1 := by
    rw [h.size_eq, sizeOf]
    omega
  rw [Nat.mul_mod, hodd]

/-- The score is below the value that the choice of a mask starts from. -/
theorem getPenaltyScore_bounds {version : ℕ} {qrcode : List UInt8} (h : Symbol version qrcode) :
    0 ≤ getPenaltyScore qrcode ∧ getPenaltyScore qrcode < longMax := by
  have hsize : getSize qrcode ≤ 177 := by
    have hmax := h.version_ok.2
    rw [versionMax] at hmax
    rw [h.size_eq, sizeOf]
    omega
  have hrows := sum_lineScore (row qrcode) hsize fun y => by
    rw [row, List.length_map, List.length_range]
  have hcolumns := sum_lineScore (column qrcode) hsize fun x => by
    rw [column, List.length_map, List.length_range]
  have hblocks : blocks qrcode ≤ 177 * 177 := by
    refine List.countP_le_length.trans ?_
    rw [length_square]
    exact Nat.mul_le_mul (by omega) (by omega)
  have hbalance : balance (countBlack qrcode) (getSize qrcode * getSize qrcode) ≤ 9 := by
    have hblack : countBlack qrcode ≤ getSize qrcode * getSize qrcode := by
      rw [countBlack_eq, ← length_square]
      exact List.countP_le_length
    have hodd := total_odd h
    rw [balance_le_iff (by omega)]
    omega
  have hnonneg : 0 ≤ balance (countBlack qrcode) (getSize qrcode * getSize qrcode) :=
    balance_nonneg (total_odd h)
  rw [getPenaltyScore_eq, penaltyN2, penaltyN4, longMax]
  omega

/-- **The score of a symbol** is what its rows, its columns, its blocks and its balance add
up to. -/
theorem getPenaltyScore_spec {version : ℕ} {qrcode : List UInt8} (h : Symbol version qrcode) :
    ∃ k : ℤ,
      IsLeast {k : ℤ | 0 ≤ k ∧
        (45 - 5 * k) * (square (getSize qrcode)).length ≤
          100 * ((square (getSize qrcode)).countP fun p => getModule qrcode p.1 p.2) ∧
        100 * (((square (getSize qrcode)).countP fun p => getModule qrcode p.1 p.2 : ℕ) : ℤ) ≤
          (55 + 5 * k) * (square (getSize qrcode)).length} k ∧
      getPenaltyScore qrcode =
        ((List.range (getSize qrcode)).map fun y => lineScore (row qrcode y)).sum +
          ((List.range (getSize qrcode)).map fun x => lineScore (column qrcode x)).sum +
          3 * blocks qrcode + 10 * k ∧
      getPenaltyScore qrcode < longMax := by
  refine ⟨balance (countBlack qrcode) (getSize qrcode * getSize qrcode), ?_,
    getPenaltyScore_eq qrcode, (getPenaltyScore_bounds h).2⟩
  rw [length_square, ← countBlack_eq]
  exact isLeast_balance (total_odd h)

theorem getPenaltyScore_spec_white :
    ∃ k : ℤ,
      IsLeast {k : ℤ | 0 ≤ k ∧
        (45 - 5 * k) * (square (getSize (21 :: List.replicate 56 0))).length ≤
          100 * ((square (getSize (21 :: List.replicate 56 0))).countP fun p =>
            getModule (21 :: List.replicate 56 0) p.1 p.2) ∧
        100 * (((square (getSize (21 :: List.replicate 56 0))).countP fun p =>
            getModule (21 :: List.replicate 56 0) p.1 p.2 : ℕ) : ℤ) ≤
          (55 + 5 * k) * (square (getSize (21 :: List.replicate 56 0))).length} k ∧
      getPenaltyScore (21 :: List.replicate 56 0) =
        ((List.range (getSize (21 :: List.replicate 56 0))).map fun y =>
            lineScore (row (21 :: List.replicate 56 0) y)).sum +
          ((List.range (getSize (21 :: List.replicate 56 0))).map fun x =>
            lineScore (column (21 :: List.replicate 56 0) x)).sum +
          3 * blocks (21 :: List.replicate 56 0) + 10 * k ∧
      getPenaltyScore (21 :: List.replicate 56 0) < longMax := by
  have hsymbol : Symbol 1 (21 :: List.replicate 56 0) :=
    ⟨⟨by decide, by decide⟩, by decide, by decide⟩
  exact getPenaltyScore_spec hsymbol

end Shirokumakun.Qr
