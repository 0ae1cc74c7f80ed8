import AdvancedUnix.Memory.Buffer

/-!
# The newline at the end of a logged string

A string that ends in a newline is shown with an escape in its place. It is put
together in two static arrays: the string without its last byte is copied over
the start of the first array, and what stands there is printed into the second.

The copy brings no terminator, so behind it the first array still holds the end
of any longer string that was copied before. `Holding` describes the array
between calls: a string, and nulls up to the end. The last byte of the array is
written by no call that stays inside, so a terminator is always found.

A call that reads or writes outside the string and the arrays has no meaning, and
the run ends with it.
-/

namespace Fsmon

open Memory

def newline : Byte := 0x0a

/-- The backslash and the letter that stand for a newline. -/
def escape : CString := ⟨[0x5c, 0x6e], by decide⟩

/-- The static arrays. -/
structure Buffers where
  buff1 : Buffer 128
  buff2 : Buffer 132

/-- A null pointer is handed back, and so is a string that ends otherwise. -/
def convertToVerboseNewline (format : Option CString) (b : Buffers) :
    Option (Option CString × Buffers) :=
  match format with
  | none => some (none, b)
  | some format =>
      match format.bytes.getLast? with
      | none => none -- the byte before the string is read
      | some last =>
          if last = newline then
            (b.buff1.strncpy format (format.length - 1)).bind fun buff1 =>
              buff1.text.bind fun text =>
                (b.buff2.snprint (text.append escape)).bind fun buff2 =>
                  buff2.text.map fun result => (some result, ⟨buff1, buff2⟩)
          else some (some format, b)

/-- The arrays after some calls. -/
def calls : List (Option CString) → Buffers → Option Buffers
  | [], b => some b
  | f :: fs, b => (convertToVerboseNewline f b).bind fun r => calls fs r.2

/-- The arrays before the first call. -/
def Buffers.start : Buffers := ⟨.zero 128, .zero 132⟩

def EndsLine (s : CString) : Prop := s.bytes.getLast? = some newline

instance (s : CString) : Decidable (EndsLine s) := inferInstanceAs (Decidable (_ = _))

/-- A string without its last byte. -/
def body (s : CString) : CString := s.take (s.length - 1)

/-- What a string should be shown as. -/
def verbose (s : CString) : CString := if EndsLine s then (body s).append escape else s

/-- A call stays inside its string and the arrays. -/
def InBounds (f : Option CString) : Prop :=
  ∀ s, f = some s → s.bytes ≠ [] ∧ (EndsLine s → (body s).length < 128)

/-- The first array holds a string, and nulls behind it. -/
structure Holding (b : Buffers) (t : CString) : Prop where
  bytes : b.buff1.bytes = t.bytes ++ List.replicate (128 - t.length) 0#8
  short : t.length < 128

/-- A string that is written over the start of another. -/
def overlay (t s : CString) : CString := s.append (t.drop s.length)

/-- What the first array holds after some calls. -/
def held : List (Option CString) → CString → CString
  | [], t => t
  | none :: fs, t => held fs t
  | some s :: fs, t => held fs (if EndsLine s then overlay t (body s) else t)

theorem start_holding : Holding .start .empty := ⟨rfl, by decide⟩

theorem overlay_length (t s : CString) : (overlay t s).length = max s.length t.length := by
  simp only [overlay, CString.length, CString.append_bytes, CString.drop_bytes, List.length_append,
    List.length_drop]
  omega

/-- Only a string that is at least as long hides the other one. -/
theorem overlay_eq_iff (t s : CString) : overlay t s = s ↔ t.length ≤ s.length := by
  constructor
  · intro h
    have lengths := congrArg CString.length h
    rw [overlay_length] at lengths
    omega
  · intro h
    apply CString.ext
    rw [overlay, CString.append_bytes, CString.drop_bytes, List.drop_eq_nil_of_le h,
      List.append_nil]

section

variable {b : Buffers} {s t : CString}

theorem strncpy_line (b : Buffer 128) (s : CString) :
    b.strncpy s (s.length - 1) = b.write 0 (body s).bytes := by
  have fill : s.length - 1 - s.length = 0 := by omega
  rw [Buffer.strncpy, fill, List.replicate_zero, List.append_nil]
  rfl

/-- What is left of the nulls behind a string that is written over. -/
theorem drop_holding (t : CString) (n : Nat) :
    (t.bytes ++ List.replicate (128 - t.length) 0#8).drop n =
      (t.drop n).bytes ++ List.replicate (128 - max n t.length) 0#8 := by
  rw [List.drop_append, List.drop_replicate]
  congr 2
  simp only [CString.length]
  omega

/-- The copy of a line, when it stays inside. -/
theorem strncpy_body (h : Holding b t) (short : (body s).length < 128) :
    ∃ buff1, b.buff1.strncpy s (s.length - 1) = some buff1 ∧
      buff1.bytes = (overlay t (body s)).bytes ++
        List.replicate (128 - (overlay t (body s)).length) 0#8 := by
  obtain ⟨buff1, written, bytes⟩ := Buffer.write_bytes (b := b.buff1) (Nat.le_of_lt short)
  refine ⟨buff1, (strncpy_line b.buff1 s).trans written, ?_⟩
  calc buff1.bytes
      = (body s).bytes ++ b.buff1.bytes.drop (body s).length := bytes
    _ = (body s).bytes ++ ((t.drop (body s).length).bytes ++
          List.replicate (128 - max (body s).length t.length) 0#8) := by
        rw [h.bytes, drop_holding]
    _ = (overlay t (body s)).bytes ++
          List.replicate (128 - (overlay t (body s)).length) 0#8 := by
        rw [overlay_length, ← List.append_assoc]
        rfl

/-- A line that stays inside is shown with what the first array holds behind it. -/
theorem convert_line (h : Holding b t) (line : EndsLine s) (short : (body s).length < 128) :
    ∃ b', convertToVerboseNewline (some s) b =
        some (some ((overlay t (body s)).append escape), b') ∧
      Holding b' (overlay t (body s)) := by
  obtain ⟨buff1, copied, bytes⟩ := strncpy_body h short
  have fits : (overlay t (body s)).length < 128 := by
    rw [overlay_length]
    exact Nat.max_lt.mpr ⟨short, h.short⟩
  have terminated : buff1.text = some (overlay t (body s)) := by
    apply Buffer.text_of_Text
    refine ⟨List.replicate (127 - (overlay t (body s)).length) 0#8, ?_⟩
    rw [bytes, ← List.replicate_succ]
    congr 2
    omega
  have room : ((overlay t (body s)).append escape).length < 132 := by
    simp only [CString.length, CString.append_bytes, List.length_append] at fits ⊢
    have : escape.bytes.length = 2 := rfl
    omega
  obtain ⟨buff2, printed, shown⟩ := Buffer.snprint_text (b := b.buff2) room
  refine ⟨⟨buff1, buff2⟩, ?_, bytes, fits⟩
  simp [convertToVerboseNewline, show s.bytes.getLast? = some newline from line, copied,
    terminated, printed, shown]

/-- Any other string that is not empty is handed back. -/
theorem convert_other (b : Buffers) (nonempty : s.bytes ≠ []) (other : ¬ EndsLine s) :
    convertToVerboseNewline (some s) b = some (some s, b) := by
  obtain ⟨last, found⟩ : ∃ last, s.bytes.getLast? = some last :=
    ⟨_, List.getLast?_eq_some_getLast nonempty⟩
  have differs : last ≠ newline := by
    rintro rfl
    exact other found
  simp [convertToVerboseNewline, found, differs]

/-- A line that fills the first array leaves it without a terminator. -/
theorem text_none_of_long {buff1 : Buffer 128} (long : 128 ≤ (body s).length)
    (copied : b.buff1.strncpy s (s.length - 1) = some buff1) : buff1.text = none := by
  rw [strncpy_line] at copied
  by_cases full : (body s).length ≤ 128
  · obtain ⟨written, same, bytes⟩ := Buffer.write_bytes (b := b.buff1) full
    obtain rfl : written = buff1 := Option.some.inj (same.symm.trans copied)
    have whole : b.buff1.bytes.drop (body s).length = [] :=
      List.drop_eq_nil_of_le (b.buff1.length_eq.trans_le long)
    have missing : 0#8 ∉ written.bytes := by
      rw [bytes]
      change 0#8 ∉ _ ++ b.buff1.bytes.drop (body s).length
      rw [whole, List.append_nil]
      exact (body s).terminated
    exact if_neg missing
  · rw [Buffer.write_none (Nat.lt_of_not_le full)] at copied
    exact absurd copied (by simp)

/-- A call that has a meaning stays inside. -/
theorem inBounds_of_convert {f : Option CString} {r : Option CString × Buffers}
    (h : convertToVerboseNewline f b = some r) : InBounds f := by
  rintro s rfl
  have nonempty : s.bytes ≠ [] := by
    intro empty
    simp [convertToVerboseNewline, empty] at h
  refine ⟨nonempty, ?_⟩
  intro line
  by_contra long
  simp only [convertToVerboseNewline, show s.bytes.getLast? = some newline from line, if_true] at h
  obtain ⟨buff1, copied, h⟩ := Option.bind_eq_some_iff.mp h
  rw [text_none_of_long (Nat.le_of_not_lt long) copied] at h
  exact absurd h (by simp)

/-- A call that stays inside has a meaning, and what the first array holds
afterwards does not depend on anything else. -/
theorem convert_inBounds {f : Option CString} (h : Holding b t) (inside : InBounds f) :
    ∃ r, convertToVerboseNewline f b = some r ∧ Holding r.2 (held [f] t) := by
  cases f with
  | none => exact ⟨_, rfl, h⟩
  | some s =>
      obtain ⟨nonempty, short⟩ := inside s rfl
      by_cases line : EndsLine s
      · obtain ⟨b', shown, next⟩ := convert_line h line (short line)
        exact ⟨_, shown, by simpa [held, line] using next⟩
      · exact ⟨_, convert_other b nonempty line, by simpa [held, line] using h⟩

end

theorem held_cons (f : Option CString) (fs : List (Option CString)) (t : CString) :
    held (f :: fs) t = held fs (held [f] t) := by
  cases f <;> rfl

/-- The calls of a run have a meaning exactly when each of them stays inside. -/
theorem calls_inBounds {history : List (Option CString)} {b : Buffers} {t : CString}
    (h : Holding b t) (inside : ∀ f ∈ history, InBounds f) :
    ∃ b', calls history b = some b' ∧ Holding b' (held history t) := by
  induction history generalizing b t with
  | nil => exact ⟨b, rfl, h⟩
  | cons f fs ih =>
      obtain ⟨r, first, next⟩ := convert_inBounds h (inside f List.mem_cons_self)
      obtain ⟨b', rest, last⟩ := ih next fun g hg => inside g (List.mem_cons_of_mem f hg)
      exact ⟨b', by rw [calls, first]; exact rest, held_cons f fs t ▸ last⟩

theorem inBounds_of_calls {history : List (Option CString)} {b b' : Buffers}
    (h : calls history b = some b') : ∀ f ∈ history, InBounds f := by
  induction history generalizing b with
  | nil => simp
  | cons f fs ih =>
      obtain ⟨r, first, rest⟩ := Option.bind_eq_some_iff.mp h
      intro g hg
      obtain rfl | later := List.mem_cons.mp hg
      · exact inBounds_of_convert first
      · exact ih rest g later

/-- What is held is no longer than a bound exactly when no line that was copied is. -/
theorem held_length_le_iff (history : List (Option CString)) (t : CString) (n : Nat) :
    (held history t).length ≤ n ↔
      t.length ≤ n ∧ ∀ s, some s ∈ history → EndsLine s → (body s).length ≤ n := by
  induction history generalizing t with
  | nil => simp [held]
  | cons f fs ih =>
      cases f with
      | none => simpa [held] using ih t
      | some s =>
          rw [held, ih]
          by_cases line : EndsLine s
          · simp only [line, if_true, overlay_length, Nat.max_le, List.mem_cons, Option.some.injEq]
            constructor
            · rintro ⟨⟨mine, earlier⟩, later⟩
              refine ⟨earlier, ?_⟩
              rintro u (rfl | hu) ends
              · exact mine
              · exact later u hu ends
            · rintro ⟨earlier, all⟩
              exact ⟨⟨all s (.inl rfl) line, earlier⟩, fun u hu ends => all u (.inr hu) ends⟩
          · simp only [line, if_false, List.mem_cons, Option.some.injEq]
            constructor
            · rintro ⟨earlier, later⟩
              refine ⟨earlier, ?_⟩
              rintro u (rfl | hu) ends
              · exact absurd ends line
              · exact later u hu ends
            · rintro ⟨earlier, all⟩
              exact ⟨earlier, fun u hu ends => all u (.inr hu) ends⟩

/-- After some calls, a string is shown as it should be. -/
def Escapes (history : List (Option CString)) (s : CString) : Prop :=
  ∃ b r, calls history .start = some b ∧ convertToVerboseNewline (some s) b = some r ∧
    r.1 = some (verbose s)

theorem append_escape_eq_iff (s t : CString) : s.append escape = t.append escape ↔ s = t := by
  constructor
  · intro h
    have bytes : s.bytes ++ escape.bytes = t.bytes ++ escape.bytes := congrArg CString.bytes h
    exact CString.ext (List.append_cancel_right bytes)
  · rintro rfl
    rfl

/-- A call that stays inside shows its string as it should exactly when nothing that is
held reaches behind the copy. -/
theorem shown_iff {b : Buffers} {s t : CString} (h : Holding b t) (inside : InBounds (some s)) :
    (∃ r, convertToVerboseNewline (some s) b = some r ∧ r.1 = some (verbose s)) ↔
      (EndsLine s → t.length ≤ (body s).length) := by
  obtain ⟨nonempty, short⟩ := inside s rfl
  by_cases line : EndsLine s
  · obtain ⟨b', shown, -⟩ := convert_line h line (short line)
    rw [shown, verbose, if_pos line, ← overlay_eq_iff t (body s), ← append_escape_eq_iff]
    simp [line]
  · rw [convert_other b nonempty line, verbose, if_neg line]
    simp [line]

theorem inBounds_of_escapes {history : List (Option CString)} {s : CString}
    (h : Escapes history s) : (∀ f ∈ history, InBounds f) ∧ InBounds (some s) := by
  obtain ⟨b, r, earlier, shown, -⟩ := h
  exact ⟨inBounds_of_calls earlier, inBounds_of_convert shown⟩

/-- When every call stays inside, only an earlier line that is longer does harm. -/
theorem escapes_inBounds_iff {history : List (Option CString)} {s : CString}
    (inside : ∀ f ∈ history, InBounds f) (mine : InBounds (some s)) : Escapes history s ↔
      (EndsLine s → ∀ t, some t ∈ history → EndsLine t → (body t).length ≤ (body s).length) := by
  obtain ⟨b, earlier, h⟩ := calls_inBounds start_holding inside
  have longest := held_length_le_iff history .empty (body s).length
  have short : CString.empty.length ≤ (body s).length := Nat.zero_le _
  rw [and_iff_right short] at longest
  rw [← longest, ← shown_iff h mine]
  constructor
  · rintro ⟨b', r, same, shown⟩
    obtain rfl : b = b' := Option.some.inj (earlier.symm.trans same)
    exact ⟨r, shown⟩
  · rintro ⟨r, shown⟩
    exact ⟨b, r, earlier, shown⟩

/-- A string is shown as it should be exactly when every call stays inside and, for a
line, no earlier line was longer. -/
theorem escapes_iff (history : List (Option CString)) (s : CString) :
    Escapes history s ↔ (∀ f ∈ history, InBounds f) ∧ InBounds (some s) ∧
      (EndsLine s → ∀ t, some t ∈ history → EndsLine t → (body t).length ≤ (body s).length) := by
  constructor
  · intro h
    obtain ⟨inside, mine⟩ := inBounds_of_escapes h
    exact ⟨inside, mine, (escapes_inBounds_iff inside mine).mp h⟩
  · rintro ⟨inside, mine, longer⟩
    exact (escapes_inBounds_iff inside mine).mpr longer

namespace Demo

/-- The line `abcdef`. -/
def longer : CString := ⟨[0x61, 0x62, 0x63, 0x64, 0x65, 0x66, 0x0a], by decide⟩

/-- The line `x`. -/
def shorter : CString := ⟨[0x78, 0x0a], by decide⟩

theorem shorter_after_longer : ¬ Escapes [some longer] shorter := by
  intro h
  obtain ⟨inside, mine⟩ := inBounds_of_escapes h
  have bound := (escapes_inBounds_iff inside mine).mp h (by decide) longer (by simp) (by decide)
  exact absurd bound (by decide)

end Demo

end Fsmon
