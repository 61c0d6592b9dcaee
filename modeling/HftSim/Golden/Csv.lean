import HftSim.Golden.Mmu
import HftSim.Lib.Stdio

/-!
# Orders from a file (`csv_execution` in `sw_sim/memory_sim.c`)

The first line is taken for a header, and dropped, unless it contains one of four spellings of the order
types; two of the four spellings that the rows are then read with are not among them. A field that does
not fit the buffer it is scanned into overwrites what lies behind: there the model has no result.
-/

namespace HftSim.Golden

open Stdio

/-- `MAX_ORDERS` -/
def maxOrders : Nat := 1500000

/-- What a row says of an order; the time stamp is taken when it is created. -/
structure CsvOrder where
  isAsk : Bool
  symbol : List Char
  price : Int
  amount : Int
deriving DecidableEq, Repr

/-! ### A line -/

/-- One of the spellings the header test looks for. -/
def namesSide (line : List Char) : Bool :=
  strstr (cstr line) ['a', 's', 'k'] || strstr (cstr line) ['b', 'i', 'd'] ||
    strstr (cstr line) ['A', 's', 'k'] || strstr (cstr line) ['B', 'i', 'd']

/-- `sscanf(line, "%[^,],%[^,],%d,%d", type, symbol, &price, &amount) == 4` -/
def scanCsv (line : List Char) : Option (List Char × List Char × Int × Int) := do
  let (type, cs) ← scanField ',' (cstr line)
  let cs ← scanChar ',' cs
  let (symbol, cs) ← scanField ',' cs
  let cs ← scanChar ',' cs
  let (price, cs) ← scanInt cs
  let cs ← scanChar ',' cs
  let (amount, _) ← scanInt cs
  return (type, symbol, price, amount)

/-- `is_ask`; `none` is -1. -/
def isAskOf (type : List Char) : Option Bool :=
  if type = ['A', 's', 'k'] ∨ type = ['A', 'S', 'K'] then some true
  else if type = ['B', 'i', 'd'] ∨ type = ['B', 'I', 'D'] then some false
  else none

/-- The order of a line, if it is one; `symbol[3] = '\0'`. -/
def csvOrder (line : List Char) : Option CsvOrder := do
  let (type, symbol, price, amount) ← scanCsv line
  let isAsk ← isAskOf type
  return ⟨isAsk, symbol.take 3, price, amount⟩

/-- The fields that `sscanf` stores fit `type[16]` and `symbol[8]`. -/
def fitsBuffers (line : List Char) : Bool :=
  match scanField ',' (cstr line) with
  | none => true
  | some (type, cs) =>
    decide (type.length < 16) &&
      match (scanChar ',' cs).bind (scanField ',') with
      | none => true
      | some (symbol, _) => decide (symbol.length < 8)

/-! ### The file -/

/-- The `while` loop over the lines that are left, with the orders counted so far. -/
def csvLoop : Nat → List (List Char) → Option (List CsvOrder)
  | _, [] => some []
  | orders, l :: ls =>
    if maxOrders ≤ orders then some []
    else if fitsBuffers l = false then none
    else
      match csvOrder l with
      | none => csvLoop orders ls
      | some o => (csvLoop (orders + 1) ls).map (o :: ·)

/-- The lines the loop starts with: all of them after a `rewind`, else all but the first. `line` is what
the buffer holds before; it is looked at when the file is empty. -/
def csvBody (line : List Char) (ls : List (List Char)) : List (List Char) :=
  if namesSide (ls.head?.getD line) then ls else ls.tail

/-- The orders that `csv_execution` passes to `mem_aware_insert`. -/
def csvOrders (line file : List Char) : Option (List CsvOrder) := csvLoop 0 (csvBody line (lines 256 file))

/-- `csv_execution`, with the clock readings when the `k`-th order is created and while it is processed. -/
def csvExecution (clock : Nat → Nat) (now : Nat → Nat → Nat) (line file : List Char) : Option (Sim (List Char)) :=
  (csvOrders line file).map fun os =>
    Sim.run (os.mapIdx fun k o => ⟨o.symbol, ⟨o.price, clock k, o.amount, o.isAsk⟩, now k⟩)

/-! ### What the loop reads -/

/-- The lines that are read before there are `MAX_ORDERS` orders. -/
def linesRead : Nat → List (List Char) → List (List Char)
  | _, [] => []
  | orders, l :: ls =>
    if maxOrders ≤ orders then [] else l :: linesRead (orders + (csvOrder l).toList.length) ls

theorem csvLoop_eq {orders : Nat} {ls : List (List Char)}
    (h : orders + (ls.filterMap csvOrder).length ≤ maxOrders) :
    csvLoop orders ls =
      if ∀ l ∈ linesRead orders ls, fitsBuffers l = true then some (ls.filterMap csvOrder) else none := by
  induction ls generalizing orders with
  | nil => simp [csvLoop, linesRead]
  | cons l ls ih =>
    by_cases hmax : maxOrders ≤ orders
    · -- no order is left
      have hnil : (l :: ls).filterMap csvOrder = [] := List.length_eq_zero_iff.1 (by omega)
      simp [csvLoop, linesRead, hmax, hnil]
    · by_cases hfit : fitsBuffers l = true
      · cases ho : csvOrder l with
        | none =>
          rw [List.filterMap_cons_none ho] at h
          simp [csvLoop, linesRead, hmax, hfit, ho, ih h]
        | some o =>
          have hrest : orders + 1 + (ls.filterMap csvOrder).length ≤ maxOrders := by
            rw [List.filterMap_cons_some ho, List.length_cons] at h
            omega
          rw [csvLoop, if_neg hmax, if_neg (by simp [hfit]), ho, ih hrest]
          simp only [linesRead, hmax, if_false, ho, Option.toList_some, List.length_singleton, List.mem_cons,
            forall_eq_or_imp, hfit, true_and, List.filterMap_cons_some ho]
          split <;> rfl
      · simp [csvLoop, linesRead, hmax, hfit]

/-- No line that is read overwrites the stack. -/
def ReadsFit (line : List Char) (ls : List (List Char)) : Prop :=
  ∀ l ∈ linesRead 0 (csvBody line ls), fitsBuffers l = true

/-- The first line is no order, or the header test knows it for one. -/
def FirstKept (ls : List (List Char)) : Prop := ∀ l ∈ ls.head?, namesSide l = true ∨ csvOrder l = none

/-- A file of short lines with at most `MAX_ORDERS` rows is submitted as it stands exactly when its first
line is not an order that is taken for a header, and no field that is scanned is too long. -/
theorem csvOrders_iff (line file : List Char) (hlen : ∀ l ∈ textLines file, l.length < 256)
    (hrows : ((textLines file).filterMap csvOrder).length ≤ maxOrders) :
    csvOrders line file = some ((textLines file).filterMap csvOrder) ↔
      FirstKept (textLines file) ∧ ReadsFit line (textLines file) := by
  unfold csvOrders ReadsFit
  rw [lines_eq_textLines (by decide) hlen]
  cases hls : textLines file with
  | nil =>
    have hbody : csvBody line [] = [] := by
      unfold csvBody
      split <;> rfl
    simp [hbody, csvLoop, linesRead, FirstKept]
  | cons l ls =>
    rw [hls] at hrows
    have hfirst : FirstKept (l :: ls) ↔ namesSide l = true ∨ csvOrder l = none := by simp [FirstKept]
    rw [hfirst]
    by_cases hname : namesSide l = true
    · have hbody : csvBody line (l :: ls) = l :: ls := if_pos hname
      rw [hbody, csvLoop_eq (by omega)]
      split
      · rename_i hfit
        simp only [hname, true_or, true_and, true_iff]
        exact hfit
      · rename_i hfit
        simp only [hname, true_or, true_and, reduceCtorEq, false_iff]
        exact hfit
    · have hbody : csvBody line (l :: ls) = ls := if_neg hname
      have hshort : (ls.filterMap csvOrder).length ≤ maxOrders := by
        refine Nat.le_trans ?_ hrows
        rw [List.filterMap_cons]
        split <;> simp
      -- the lost order would be missing from the result
      have hsame : ls.filterMap csvOrder = (l :: ls).filterMap csvOrder ↔ csvOrder l = none := by
        cases ho : csvOrder l with
        | none => simp [List.filterMap_cons_none ho]
        | some o => simp [List.filterMap_cons_some ho]
      rw [hbody, csvLoop_eq (by omega)]
      split
      · rename_i hfit
        rw [Option.some.injEq, hsame]
        simp only [hname, Bool.false_eq_true, false_or]
        exact ⟨fun ho => ⟨ho, hfit⟩, fun h => h.1⟩
      · rename_i hfit
        simp only [reduceCtorEq, false_iff]
        exact fun h => hfit h.2

/-- `Type,Symbol,Price,Amount`, and an ask. -/
def withHeader : List Char :=
  ['T', 'y', 'p', 'e', ',', 'S', 'y', 'm', 'b', 'o', 'l', ',', 'P', 'r', 'i', 'c', 'e', ',', 'A', 'm', 'o', 'u', 'n',
    't', '\n', 'A', 'S', 'K', ',', 'A', 'A', 'A', ',', '5', ',', '1', '\n']

theorem csvOrders_withHeader :
    ((∀ l ∈ textLines withHeader, l.length < 256) ∧
      ((textLines withHeader).filterMap csvOrder).length ≤ maxOrders ∧
      (textLines withHeader).filterMap csvOrder = [⟨true, ['A', 'A', 'A'], 5, 1⟩]) ∧
    csvOrders [] withHeader = some ((textLines withHeader).filterMap csvOrder) :=
  ⟨by decide +kernel, (csvOrders_iff [] withHeader (by decide +kernel) (by decide +kernel)).2
    ⟨by unfold FirstKept; decide +kernel, by unfold ReadsFit; decide +kernel⟩⟩

/-- An ask and a bid in capitals, without a header. -/
def noHeader : List Char :=
  ['A', 'S', 'K', ',', 'A', 'A', 'A', ',', '5', ',', '1', '\n', 'B', 'I', 'D', ',', 'A', 'A', 'A', ',', '6', ',', '2',
    '\n']

/-- The ask is taken for the header. -/
theorem noHeader_loses_order :
    (∀ l ∈ textLines noHeader, l.length < 255) ∧ (textLines noHeader).length ≤ maxOrders ∧
      (textLines noHeader).filterMap csvOrder = [⟨true, ['A', 'A', 'A'], 5, 1⟩, ⟨false, ['A', 'A', 'A'], 6, 2⟩] ∧
      csvOrders [] noHeader = some [⟨false, ['A', 'A', 'A'], 6, 2⟩] ∧
      csvOrders [] noHeader ≠ some ((textLines noHeader).filterMap csvOrder) := by
  decide +kernel

end HftSim.Golden
