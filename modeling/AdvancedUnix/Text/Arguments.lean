import AdvancedUnix.Text.Lines
import AdvancedUnix.Text.Scanf

/-!
# Arguments that end at terminators

A sequence of arguments is stored one behind the other, each with its terminator. A
reader that takes the first line of this, and then strings out of the buffer, sees the
first argument only; it gets to the next one if it knows where that begins. Of an argument
with a line feed it sees the part up to there, and of what follows nothing.
-/

namespace Text

def nul : Char := '\x00'

/-- Arguments, each with its terminator. -/
def terminated : List (List Char) → List Char
  | [] => []
  | a :: as => a ++ nul :: terminated as

/-- The buffer of `getline` after it read the first line. -/
def lineBuffer (s : List Char) : List Char := (splitLine s).1 ++ [nul]

/-- The string that begins at an offset of a buffer, if it ends in it. -/
def stringAt (buffer : List Char) (k : Nat) : Option (List Char) :=
  if k < buffer.length then some (cstring (buffer.drop k)) else none

/-- The part of an argument that belongs to its first line. -/
def visible (a : List Char) : List Char := (splitLine a).1

/-- `%s`: the first word of a text, if it has one. -/
def scanString (s : List Char) : Option (List Char) :=
  let w := (s.dropWhile isspace).takeWhile fun c => !isspace c
  if w = [] then none else some w

/-- Texts with blanks between them. -/
def joined : List (List Char) → List Char
  | [] => []
  | [a] => a
  | a :: b :: as => a ++ ' ' :: joined (b :: as)

variable {a s w : List Char} {as : List (List Char)}

theorem visible_feed (s : List Char) : visible ('\n' :: s) = ['\n'] := by
  rw [visible, splitLine_feed]

theorem visible_char {c : Char} (h : c ≠ '\n') (s : List Char) :
    visible (c :: s) = c :: visible s := by
  rw [visible, splitLine_char h, visible]

/-- The first line of a longer text. -/
theorem visible_append (a s : List Char) :
    visible (a ++ s) = if '\n' ∈ a then visible a else a ++ visible s := by
  induction a with
  | nil => rfl
  | cons c a ih =>
      by_cases feed : c = '\n'
      · subst feed
        rw [List.cons_append, visible_feed, visible_feed, if_pos List.mem_cons_self]
      · have mem : '\n' ∈ c :: a ↔ '\n' ∈ a := by
          rw [List.mem_cons, or_iff_right (Ne.symm feed)]
        simp only [List.cons_append, visible_char feed, ih, mem]
        split <;> rfl

theorem visible_of_not_mem (h : '\n' ∉ a) : visible a = a := by
  have whole := visible_append a []
  have none : visible [] = [] := rfl
  rwa [List.append_nil, if_neg h, none, List.append_nil] at whole

theorem visible_front (a : List Char) : visible a <+: a := by
  induction a with
  | nil => exact List.prefix_refl []
  | cons c a ih =>
      by_cases feed : c = '\n'
      · subst feed
        rw [visible_feed]
        exact ⟨a, rfl⟩
      · rw [visible_char feed]
        exact List.cons_prefix_cons.mpr ⟨rfl, ih⟩

/-- A line feed, if there is one, is seen. -/
theorem mem_visible (h : '\n' ∈ a) : '\n' ∈ visible a := by
  induction a with
  | nil => cases h
  | cons c a ih =>
      by_cases feed : c = '\n'
      · subst feed
        rw [visible_feed]
        exact List.mem_cons_self
      · rw [visible_char feed]
        exact List.mem_cons_of_mem c (ih ((List.mem_cons.mp h).resolve_left (Ne.symm feed)))

theorem cstring_append (h : nul ∉ a) (s : List Char) : cstring (a ++ nul :: s) = a := by
  have all : ∀ c ∈ a, decide (c ≠ '\x00') = true := by
    intro c mem
    refine decide_eq_true fun zero => ?_
    rw [zero] at mem
    exact h mem
  have stop : (nul :: s).takeWhile (· ≠ '\x00') = [] :=
    List.takeWhile_cons_of_neg (by simp [nul])
  rw [cstring, List.takeWhile_append_of_pos all, stop, List.append_nil]

/-- What the buffer holds behind the first argument. -/
theorem lineBuffer_cons (a : List Char) (as : List (List Char)) :
    ∃ more, lineBuffer (terminated (a :: as)) = visible a ++ nul :: more ∧
      ('\n' ∉ a → more = lineBuffer (terminated as)) := by
  have line : lineBuffer (terminated (a :: as)) =
      visible (a ++ nul :: terminated as) ++ [nul] := rfl
  rw [line, visible_append]
  by_cases feed : '\n' ∈ a
  · rw [if_pos feed]
    exact ⟨[], rfl, fun none => absurd feed none⟩
  · rw [if_neg feed, visible_char (by simp [nul]), visible_of_not_mem feed]
    exact ⟨_, List.append_assoc _ _ _, fun _ => rfl⟩

theorem noNul_visible (h : nul ∉ a) : nul ∉ visible a :=
  fun mem => h ((visible_front a).mem mem)

/-- A string that begins in the visible part of the first argument. -/
theorem stringAt_within (h : nul ∉ a) {k : Nat} (le : k ≤ (visible a).length) :
    stringAt (lineBuffer (terminated (a :: as))) k = some ((visible a).drop k) := by
  obtain ⟨more, buffer, -⟩ := lineBuffer_cons a as
  have room : k < (visible a ++ nul :: more).length := by
    rw [List.length_append, List.length_cons]
    omega
  have clean : nul ∉ (visible a).drop k := fun mem => noNul_visible h (List.mem_of_mem_drop mem)
  rw [stringAt, buffer, if_pos room, List.drop_append_of_le_length le, cstring_append clean]

/-- The string that begins behind the terminator of the first argument. -/
theorem stringAt_behind (feed : '\n' ∉ a) (h : ∀ b ∈ as, nul ∉ b) :
    stringAt (lineBuffer (terminated (a :: as))) (a.length + 1) =
      some ((as.head?.map visible).getD []) := by
  obtain ⟨more, buffer, behind⟩ := lineBuffer_cons a as
  obtain rfl := behind feed
  have whole : visible a ++ nul :: lineBuffer (terminated as) =
      (a ++ [nul]) ++ lineBuffer (terminated as) := by
    rw [visible_of_not_mem feed, List.append_assoc]
    rfl
  have nonempty : 0 < (lineBuffer (terminated as)).length := by
    rw [lineBuffer, List.length_append]
    exact Nat.lt_add_left _ Nat.one_pos
  have length : (a ++ [nul]).length = a.length + 1 := List.length_append
  have room : (a ++ [nul]).length < ((a ++ [nul]) ++ lineBuffer (terminated as)).length := by
    have lengths : ((a ++ [nul]) ++ lineBuffer (terminated as)).length =
        (a ++ [nul]).length + (lineBuffer (terminated as)).length := List.length_append
    omega
  rw [stringAt, buffer, whole, ← length, if_pos room, List.drop_left]
  cases as with
  | nil => rfl
  | cons b as =>
      have seen : stringAt (lineBuffer (terminated (b :: as))) 0 = some ((visible b).drop 0) :=
        stringAt_within (h b List.mem_cons_self) (Nat.zero_le _)
      rw [stringAt, if_pos (by assumption), List.drop_zero, List.drop_zero] at seen
      exact seen

theorem scanString_eq_some (h : scanString s = some w) :
    ∃ front back, s = front ++ (w ++ back) ∧ (∀ c ∈ w, isspace c = false) ∧ w ≠ [] := by
  unfold scanString at h
  simp only at h
  split at h
  · cases h
  · rename_i nonempty
    cases h
    refine ⟨s.takeWhile isspace, (s.dropWhile isspace).dropWhile fun c => !isspace c, ?_,
      fun c mem => ?_, nonempty⟩
    · rw [List.takeWhile_append_dropWhile, List.takeWhile_append_dropWhile]
    · have solid := List.all_eq_true.mp List.all_takeWhile c mem
      simpa using solid

/-- The first word is the whole argument, or shorter than what is seen of it. -/
theorem scanString_visible (h : scanString (visible a) = some w) :
    (w = a ∧ '\n' ∉ a) ∨ w.length + 1 ≤ (visible a).length ∧ w ≠ a := by
  obtain ⟨front, back, split, solid, nonempty⟩ := scanString_eq_some h
  have noFeed : '\n' ∉ w := by
    intro mem
    have blank := solid _ mem
    cases blank
  by_cases whole : w = a
  · subst whole
    exact .inl ⟨rfl, noFeed⟩
  · refine .inr ⟨?_, whole⟩
    by_contra long
    have lengths := congrArg List.length split
    rw [List.length_append, List.length_append] at lengths
    have noFront : front = [] := List.length_eq_zero_iff.mp (by omega)
    have noBack : back = [] := List.length_eq_zero_iff.mp (by omega)
    rw [noFront, noBack, List.nil_append, List.append_nil] at split
    by_cases feed : '\n' ∈ a
    · have seen := mem_visible feed
      rw [split] at seen
      exact noFeed seen
    · rw [visible_of_not_mem feed] at split
      exact whole split.symm

end Text
