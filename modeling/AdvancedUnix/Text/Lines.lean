import Mathlib.Data.List.Basic
import Mathlib.Data.List.TakeWhile

/-!
# Lines of a text

A line ends behind its line feed, and the last line of a text may have none.
`splitLine` takes the first line off a text, and `lines` is what is taken off
until the text is empty.

A string ends at its terminator, so of a line that has one in it only the part in
front is seen.
-/

namespace Text

/-- The first line with its line feed, and what follows it. -/
def splitLine : List Char → List Char × List Char
  | [] => ([], [])
  | c :: s =>
      if c = '\n' then ([c], s)
      else (c :: (splitLine s).1, (splitLine s).2)

def lines : List Char → List (List Char)
  | [] => []
  | c :: s =>
      if c = '\n' then [c] :: lines s
      else
        match lines s with
        | [] => [[c]]
        | l :: ls => (c :: l) :: ls

/-- What is seen of a buffer as a string. -/
def cstring (s : List Char) : List Char := s.takeWhile (· ≠ '\x00')

@[simp] theorem lines_nil : lines [] = [] := rfl

theorem lines_feed (s : List Char) : lines ('\n' :: s) = ['\n'] :: lines s := if_pos rfl

theorem lines_char {c : Char} (h : c ≠ '\n') (s : List Char) :
    lines (c :: s) = match lines s with
      | [] => [[c]]
      | l :: ls => (c :: l) :: ls :=
  if_neg h

theorem splitLine_feed (s : List Char) : splitLine ('\n' :: s) = (['\n'], s) := if_pos rfl

theorem splitLine_char {c : Char} (h : c ≠ '\n') (s : List Char) :
    splitLine (c :: s) = (c :: (splitLine s).1, (splitLine s).2) :=
  if_neg h

theorem lines_cons (c : Char) (s : List Char) :
    lines (c :: s) = (splitLine (c :: s)).1 :: lines (splitLine (c :: s)).2 := by
  induction s generalizing c with
  | nil =>
      by_cases feed : c = '\n'
      · rw [feed, lines_feed, splitLine_feed]
      · rw [lines_char feed, splitLine_char feed]
        rfl
  | cons d s ih =>
      by_cases feed : c = '\n'
      · rw [feed, lines_feed, splitLine_feed]
      · rw [lines_char feed, splitLine_char feed, ih d]

/-- A line that ends at its only line feed is the first one of any text behind it. -/
theorem splitLine_line {body : List Char} (single : ∀ c ∈ body, c ≠ '\n') (rest : List Char) :
    splitLine (body ++ '\n' :: rest) = (body ++ ['\n'], rest) := by
  induction body with
  | nil => exact splitLine_feed rest
  | cons c body ih =>
      have others := ih fun d mem => single d (List.mem_cons_of_mem c mem)
      rw [List.cons_append, splitLine_char (single c List.mem_cons_self), others]
      rfl

theorem cstring_eq {s : List Char} (plain : ∀ c ∈ s, c ≠ '\x00') : cstring s = s :=
  List.takeWhile_eq_self_iff.mpr fun c mem => decide_eq_true (plain c mem)

end Text
