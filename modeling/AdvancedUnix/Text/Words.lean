import Mathlib.Data.List.Basic

/-!
# Words of a text

The words of a text are its longest parts without a separator. Any number of
separators may stand before a word, between two words and at the end.

`spaced` puts words one behind the other with separators between them, and its
words are the ones it was made of.
-/

namespace Text

variable (sep : Char → Bool)

def words : List Char → List (List Char)
  | [] => []
  | c :: s =>
      if sep c then words s
      else
        match s with
        | [] => [[c]]
        | d :: _ =>
            if sep d then [c] :: words s
            else
              match words s with
              | [] => [[c]]
              | w :: ws => (c :: w) :: ws

/-- A text that is a word. -/
structure Token where
  text : List Char
  nonempty : text ≠ []
  solid : ∀ c ∈ text, sep c = false

/-- At least one separator. -/
structure Gap where
  text : List Char
  nonempty : text ≠ []
  separates : ∀ c ∈ text, sep c = true

/-- A word stays one with fewer separators. -/
def Token.mono {sep sep' : Char → Bool} (t : Token sep)
    (fewer : ∀ c, sep c = false → sep' c = false) : Token sep' where
  text := t.text
  nonempty := t.nonempty
  solid c mem := fewer c (t.solid c mem)

/-- Words, each behind a gap, and what follows the last of them. -/
def spaced (rest : List Char) : List (Gap sep × Token sep) → List Char
  | [] => rest
  | (g, w) :: ws => g.text ++ (w.text ++ spaced rest ws)

variable {sep}

theorem words_sep {c : Char} {s : List Char} (h : sep c = true) :
    words sep (c :: s) = words sep s := by
  cases s <;> simp [words, h]

theorem words_seps {t : List Char} (s : List Char) (h : ∀ c ∈ t, sep c = true) :
    words sep (t ++ s) = words sep s := by
  induction t with
  | nil => rfl
  | cons c t ih =>
      rw [List.cons_append, words_sep (h c List.mem_cons_self)]
      exact ih fun d hd => h d (List.mem_cons_of_mem c hd)

/-- A text that starts with a word has one. -/
theorem words_ne_nil {c : Char} {s : List Char} (h : sep c = false) : words sep (c :: s) ≠ [] := by
  unfold words
  rw [if_neg (by simp [h])]
  cases s with
  | nil => simp
  | cons d s =>
      simp only
      split
      · simp
      · split <;> simp

/-- A separator keeps the words before it and behind it apart. -/
theorem words_append (t : List Char) {c : Char} (h : sep c = true) (s : List Char) :
    words sep (t ++ c :: s) = words sep t ++ words sep s := by
  induction t with
  | nil => exact words_sep h
  | cons a t ih =>
      cases first : sep a with
      | true => rw [List.cons_append, words_sep first, words_sep first, ih]
      | false =>
          cases t with
          | nil => simp [words, first, h]
          | cons d t =>
              have start : ∀ r, words sep (a :: d :: r) =
                  if sep d then [a] :: words sep (d :: r)
                  else
                    match words sep (d :: r) with
                    | [] => [[a]]
                    | w :: ws => (a :: w) :: ws := by
                intro r
                rw [words, if_neg (by simp [first])]
              rw [List.cons_append, List.cons_append, start, start]
              rw [List.cons_append] at ih
              cases next : sep d with
              | true => simp [ih]
              | false =>
                  have some : words sep (d :: t) ≠ [] := words_ne_nil next
                  obtain ⟨w, ws, cons⟩ := List.exists_cons_of_ne_nil some
                  simp [ih, cons]

/-- Separators only. -/
theorem words_blank {t : List Char} (h : ∀ c ∈ t, sep c = true) : words sep t = [] := by
  have := words_seps [] h
  rwa [List.append_nil] at this

/-- A word at the front of a text is its first word when a separator follows. -/
theorem words_word (w : Token sep) {s : List Char} (ends : ∀ c, s.head? = some c → sep c = true) :
    words sep (w.text ++ s) = w.text :: words sep s := by
  obtain ⟨text, nonempty, solid⟩ := w
  simp only
  induction text with
  | nil => exact absurd rfl nonempty
  | cons c t ih =>
      have first : sep c = false := solid c List.mem_cons_self
      cases t with
      | nil =>
          cases s with
          | nil => simp [words, first]
          | cons d s =>
              have next : sep d = true := ends d rfl
              rw [List.cons_append, List.nil_append, words, if_neg (by simp [first])]
              simp only [next, if_true]
      | cons d t =>
          have next : sep d = false := solid d (by simp)
          have rest := ih (by simp) fun e he => solid e (List.mem_cons_of_mem c he)
          rw [List.cons_append, List.cons_append, words, if_neg (by simp [first])]
          simp only [next, Bool.false_eq_true, if_false]
          rw [List.cons_append] at rest
          rw [rest]

/-- A word is its only one. -/
theorem words_solid (w : Token sep) : words sep w.text = [w.text] := by
  have alone := words_word w (s := []) (by simp)
  rwa [List.append_nil] at alone

theorem head?_spaced {rest : List Char} (ends : ∀ c, rest.head? = some c → sep c = true)
    (ws : List (Gap sep × Token sep)) :
    ∀ c, (spaced sep rest ws).head? = some c → sep c = true := by
  cases ws with
  | nil => exact ends
  | cons p ws =>
      obtain ⟨⟨text, nonempty, separates⟩, w⟩ := p
      intro c h
      cases text with
      | nil => exact absurd rfl nonempty
      | cons d text =>
          cases h
          exact separates _ List.mem_cons_self

/-- The words of a text that words were put into, and those of its end. -/
theorem words_spaced {rest : List Char} (ends : ∀ c, rest.head? = some c → sep c = true)
    (ws : List (Gap sep × Token sep)) :
    words sep (spaced sep rest ws) = ws.map (fun p => p.2.text) ++ words sep rest := by
  induction ws with
  | nil => rfl
  | cons p ws ih =>
      rw [spaced, words_seps _ p.1.separates, words_word p.2 (head?_spaced ends ws), ih]
      rfl

end Text
