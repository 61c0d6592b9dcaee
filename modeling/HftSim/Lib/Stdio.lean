import Mathlib.Algebra.Order.Ring.Nat
import Mathlib.Data.List.Basic

/-!
# Reading text with the C library

What successive calls of `fgets` return, and the conversions of `sscanf` that take a line apart. A stream
is the list of its characters. `long` and `unsigned long` have 32 bits.
-/

namespace Stdio

/-! ### `fgets` -/

/-- The lines of a stream, when the line being read still has `room` characters to go. -/
def linesFrom (size room : Nat) : List Char → List (List Char)
  | [] => []
  | c :: cs =>
    if c = '\n' ∨ room ≤ 1 then [c] :: linesFrom size (size - 1) cs
    else
      match linesFrom size (room - 1) cs with
      | [] => [[c]]
      | l :: ls => (c :: l) :: ls

/-- What the calls of `fgets(line, size, f)` store one after the other until they return `NULL`. -/
def lines (size : Nat) (cs : List Char) : List (List Char) := linesFrom size (size - 1) cs

theorem linesFrom_line {size room : Nat} {l cs : List Char} (hnl : '\n' ∉ l) (hlen : l.length < room) :
    linesFrom size room (l ++ '\n' :: cs) = (l ++ ['\n']) :: lines size cs := by
  induction l generalizing room with
  | nil => simp [linesFrom, lines]
  | cons c l ih =>
    simp only [List.mem_cons, not_or] at hnl
    simp only [List.length_cons] at hlen
    have hgo : ¬ (c = '\n' ∨ room ≤ 1) := by
      rintro (h | h)
      · exact hnl.1 h.symm
      · omega
    rw [List.cons_append, linesFrom, if_neg hgo, ih hnl.2 (by omega)]
    rfl

theorem lines_line {size : Nat} {l cs : List Char} (hnl : '\n' ∉ l) (hlen : l.length + 1 < size) :
    lines size (l ++ '\n' :: cs) = (l ++ ['\n']) :: lines size cs :=
  linesFrom_line hnl (by omega)

/-- The lines of a text, with their newlines. -/
def textLines : List Char → List (List Char)
  | [] => []
  | c :: cs =>
    if c = '\n' then [c] :: textLines cs
    else
      match textLines cs with
      | [] => [[c]]
      | l :: ls => (c :: l) :: ls

theorem textLines_eq_nil {cs : List Char} : textLines cs = [] ↔ cs = [] := by
  constructor
  · intro h
    match cs with
    | [] => rfl
    | c :: cs =>
      rw [textLines] at h
      split at h
      · cases h
      · split at h <;> cases h
  · rintro rfl
    rfl

theorem ne_nil_of_mem_textLines {l cs : List Char} (h : l ∈ textLines cs) : l ≠ [] := by
  induction cs generalizing l with
  | nil => cases h
  | cons c cs ih =>
    rw [textLines] at h
    split at h
    · rcases List.mem_cons.1 h with rfl | h
      · simp
      · exact ih h
    · split at h
      · simp_all
      · rename_i l' ls hls
        rcases List.mem_cons.1 h with rfl | h
        · simp
        · exact ih (hls ▸ List.mem_cons_of_mem _ h)

/-- The line being read has `room` characters to go, the others fit. -/
theorem linesFrom_eq_textLines {size room : Nat} {cs : List Char} (hroom : 1 ≤ room) (hsize : 2 ≤ size)
    (hhead : ∀ l ∈ (textLines cs).head?, l.length ≤ room)
    (htail : ∀ l ∈ (textLines cs).tail, l.length < size) : linesFrom size room cs = textLines cs := by
  induction cs generalizing room with
  | nil => rfl
  | cons c cs ih =>
    -- the rest of the text from the next line on
    have hnext : ∀ {ls}, textLines cs = ls → (∀ l ∈ ls, l.length < size) →
        linesFrom size (size - 1) cs = ls := by
      rintro ls rfl h
      refine ih (by omega) (fun l hl => ?_) fun l hl => h l (List.mem_of_mem_tail hl)
      have := h l (List.mem_of_mem_head? hl)
      omega
    by_cases hc : c = '\n'
    · simp only [textLines, if_pos hc, List.tail_cons] at htail ⊢
      rw [linesFrom, if_pos (.inl hc), hnext rfl htail]
    · simp only [textLines, if_neg hc] at hhead htail ⊢
      cases hls : textLines cs with
      | nil =>
        obtain rfl := textLines_eq_nil.1 hls
        rw [linesFrom]
        split <;> rfl
      | cons l ls =>
        simp only [hls, List.head?_cons, Option.mem_def, Option.some.injEq, forall_eq', List.length_cons,
          List.tail_cons] at hhead htail
        have hpos := List.length_pos_iff.2 (ne_nil_of_mem_textLines (hls ▸ List.mem_cons_self))
        have hgo : ¬ (c = '\n' ∨ room ≤ 1) := by
          rintro (h | h)
          · exact hc h
          · omega
        rw [linesFrom, if_neg hgo, ih (by omega) (by simp [hls]; omega) (by simpa [hls] using htail), hls]

/-- When all lines fit, `fgets` returns them one by one. -/
theorem lines_eq_textLines {size : Nat} {cs : List Char} (hsize : 2 ≤ size)
    (h : ∀ l ∈ textLines cs, l.length < size) : lines size cs = textLines cs := by
  refine linesFrom_eq_textLines (by omega) hsize (fun l hl => ?_) fun l hl => h l (List.mem_of_mem_tail hl)
  have := h l (List.mem_of_mem_head? hl)
  omega

/-! ### `strstr` -/

/-- `strstr(s, needle) != NULL` -/
def strstr (s needle : List Char) : Bool := s.tails.any needle.isPrefixOf

/-! ### `sscanf` -/

/-- The string in a buffer: up to the first NUL. -/
def cstr (l : List Char) : List Char := l.takeWhile fun c => c ≠ '\x00'

def isspace (c : Char) : Bool := c ∈ [' ', '\t', '\n', '\x0b', '\x0c', '\r']

/-- A blank in the format. -/
def scanSpace (cs : List Char) : List Char := cs.dropWhile isspace

/-- An ordinary character in the format. -/
def scanChar (c : Char) : List Char → Option (List Char)
  | [] => none
  | d :: cs => if d = c then some cs else none

/-- `%<width>[^<stop>]` -/
def scanUntil (width : Nat) (stop : Char) (cs : List Char) : Option (List Char × List Char) :=
  let word := (cs.take width).takeWhile fun c => c ≠ stop
  if word = [] then none else some (word, cs.drop word.length)

/-- `%[^<stop>]` -/
def scanField (stop : Char) (cs : List Char) : Option (List Char × List Char) := scanUntil cs.length stop cs

/-- The value of a string of digits. -/
def decimal (ds : List Char) : Nat := ds.foldl (fun v c => 10 * v + (c.toNat - '0'.toNat)) 0

/-- `strtoul` of a sign and digits: out of range gives `ULONG_MAX`, a minus sign negates. -/
def strtoul (neg : Bool) (ds : List Char) : Nat :=
  if 2 ^ 32 ≤ decimal ds then 2 ^ 32 - 1
  else if neg then (2 ^ 32 - decimal ds) % 2 ^ 32
  else decimal ds

/-- `strtol` of a sign and digits: out of range gives `LONG_MAX` or `LONG_MIN`. -/
def strtol (neg : Bool) (ds : List Char) : Int :=
  if neg then max (-(decimal ds : Int)) (-2 ^ 31) else min (decimal ds : Int) (2 ^ 31 - 1)

/-- The optional sign of a number. -/
def scanSign : List Char → Bool × List Char
  | '-' :: cs => (true, cs)
  | '+' :: cs => (false, cs)
  | cs => (false, cs)

/-- `%u` -/
def scanUnsigned (cs : List Char) : Option (Nat × List Char) :=
  let signed := scanSign (scanSpace cs)
  let ds := signed.2.takeWhile Char.isDigit
  if ds = [] then none else some (strtoul signed.1 ds, signed.2.drop ds.length)

/-- `%d` -/
def scanInt (cs : List Char) : Option (Int × List Char) :=
  let signed := scanSign (scanSpace cs)
  let ds := signed.2.takeWhile Char.isDigit
  if ds = [] then none else some (strtol signed.1 ds, signed.2.drop ds.length)

end Stdio
