import AdvancedUnix.Memory.Word

/-!
# Records in a block of memory

A block has a byte at every offset, and a number in it is up to eight bytes of a word, the
low ones first. A `Move` computes a field of one record from a field of another, and an
array of records is converted by the same moves for each index.

The records that are read may lie in the block that is written. When the writes stay in
front of them, what is written is determined by the block before the first move.
-/

namespace Memory

/-- A byte at every offset. -/
abbrev Block := Nat → Byte

namespace Block

def number (m : Block) (o n : Nat) : Word := wordOf fun k => if k < n then m (o + k) else 0

def put (m : Block) (o n : Nat) (w : Word) : Block := fun x =>
  if o ≤ x ∧ x < o + n then byteOf w (x - o) else m x

theorem byteOf_number (m : Block) (o n : Nat) {k : Nat} (hk : k < 8) :
    byteOf (m.number o n) k = if k < n then m (o + k) else 0 :=
  byteOf_wordOf _ hk

theorem number_congr {m m' : Block} {o o' n : Nat} (same : ∀ k < n, m (o + k) = m' (o' + k)) :
    m.number o n = m'.number o' n := by
  apply word_ext
  intro k hk
  rw [byteOf_number m o n hk, byteOf_number m' o' n hk]
  by_cases inside : k < n
  · rw [if_pos inside, if_pos inside, same k inside]
  · rw [if_neg inside, if_neg inside]

theorem put_inside (m : Block) {o n k : Nat} (w : Word) (hk : k < n) :
    m.put o n w (o + k) = byteOf w k := by
  rw [put, if_pos (by omega), Nat.add_sub_cancel_left]

theorem put_outside (m : Block) {o n x : Nat} (w : Word) (h : x < o ∨ o + n ≤ x) :
    m.put o n w x = m x :=
  if_neg (by omega)

/-- A number of eight bytes is the word that was put there. -/
theorem number_eq {m : Block} {o : Nat} {w : Word} (bytes : ∀ k < 8, m (o + k) = byteOf w k) :
    m.number o 8 = w := by
  apply word_ext
  intro k hk
  rw [byteOf_number m o 8 hk, if_pos hk, bytes k hk]

/-- Of a shorter one the low bits are those of the word. -/
theorem setWidth_number {m : Block} {o n : Nat} {w : Word} (size : n ≤ 8)
    (bytes : ∀ k < n, m (o + k) = byteOf w k) :
    (m.number o n).setWidth (8 * n) = w.setWidth (8 * n) := by
  ext i hi
  have byte : i / 8 < n := by omega
  have same : byteOf (m.number o n) (i / 8) = byteOf w (i / 8) := by
    rw [byteOf_number m o n (by omega), if_pos byte, bytes _ byte]
  have bit := congrArg (fun b => b.getLsbD (i % 8)) same
  have index : 8 * (i / 8) + i % 8 = i := by omega
  simpa [byteOf, index, hi, Nat.mod_lt i (show 0 < 8 by omega)] using bit

/-- A number of `n` bytes has no bits beyond these. -/
theorem getLsbD_number (m : Block) (o : Nat) {n i : Nat} (h : 8 * n ≤ i) :
    (m.number o n).getLsbD i = false := by
  by_cases inside : i < 64
  · have byte : byteOf (m.number o n) (i / 8) = 0 := by
      rw [byteOf_number m o n (by omega), if_neg (by omega)]
    have bit := congrArg (fun b => b.getLsbD (i % 8)) byte
    have index : 8 * (i / 8) + i % 8 = i := by omega
    simpa [byteOf, index, Nat.mod_lt i (show 0 < 8 by omega)] using bit
  · exact BitVec.getLsbD_of_ge _ i (by omega)

theorem number_lt (m : Block) (o : Nat) {n : Nat} : (m.number o n).toNat < 2 ^ (8 * n) := by
  refine Nat.lt_pow_two_of_testBit _ fun i hi => ?_
  rw [BitVec.testBit_toNat]
  exact m.getLsbD_number o hi

end Block

/-- A field of a record that is computed from a field of another one. -/
structure Move where
  (target width source size : Nat)
  value : Word → Word

namespace Move

/-- The field of the record at `d` is computed from the record at `s`. -/
def run (d s : Nat) (m : Block) (v : Move) : Block :=
  m.put (d + v.target) v.width (v.value (m.number (s + v.source) v.size))

/-- What the move writes, when the block before it is given. -/
def result (s : Nat) (m : Block) (v : Move) : Word := v.value (m.number (s + v.source) v.size)

/-- One record. -/
def convert (moves : List Move) (d s : Nat) (m : Block) : Block := moves.foldl (run d s) m

/-- An array of records of `span` bytes, from one of `raw` bytes each that starts at `base`. -/
def convertAll (moves : List Move) (span raw base : Nat) : Nat → Block → Block
  | 0, m => m
  | i + 1, m => convert moves (span * i) (base + raw * i) (convertAll moves span raw base i m)

/-- The fields lie one behind the other in a record, and are computed from the bytes of a
raw record. -/
structure Fits (moves : List Move) (span raw : Nat) : Prop where
  sorted : moves.Pairwise fun u v => u.target + u.width ≤ v.target
  target : ∀ v ∈ moves, v.target + v.width ≤ span
  source : ∀ v ∈ moves, v.source + v.size ≤ raw

variable {moves : List Move} {span raw base d s x : Nat} {m : Block}

theorem convert_frame (h : ∀ v ∈ moves, x < d + v.target ∨ d + v.target + v.width ≤ x) :
    convert moves d s m x = m x := by
  induction moves generalizing m with
  | nil => rfl
  | cons u moves ih =>
      rw [convert, List.foldl_cons, ← convert, ih fun v hv => h v (List.mem_cons_of_mem u hv)]
      exact m.put_outside _ (h u List.mem_cons_self)

/-- Outside its record a conversion changes nothing. -/
theorem convert_outside (fits : Fits moves span raw) (h : x < d ∨ d + span ≤ x) :
    convert moves d s m x = m x := by
  apply convert_frame
  intro v hv
  have := fits.target v hv
  omega

theorem result_congr {m' : Block} {v : Move} (inside : v.source + v.size ≤ raw)
    (same : ∀ x, s ≤ x → x < s + raw → m x = m' x) : v.result s m = v.result s m' := by
  rw [result, result, Block.number_congr fun k hk => same _ (by omega) (by omega)]

/-- The moves of one record do not disturb each other. -/
theorem convert_inside (fits : Fits moves span raw) (apart : d + span ≤ s ∨ s + raw ≤ d)
    {v : Move} (hv : v ∈ moves) {k : Nat} (hk : k < v.width) :
    convert moves d s m (d + v.target + k) = byteOf (v.result s m) k := by
  induction moves generalizing m with
  | nil => cases hv
  | cons u moves ih =>
      obtain ⟨sorted, target, source⟩ := fits
      obtain ⟨behind, sorted⟩ := List.pairwise_cons.mp sorted
      have room := target u List.mem_cons_self
      rw [convert, List.foldl_cons, ← convert]
      obtain rfl | later := List.mem_cons.mp hv
      · rw [convert_frame fun w hw => .inl (by have := behind w hw; omega)]
        exact m.put_inside _ hk
      · rw [ih ⟨sorted, fun w hw => target w (List.mem_cons_of_mem u hw),
          fun w hw => source w (List.mem_cons_of_mem u hw)⟩ later]
        refine congrArg (byteOf · k) (result_congr (source v hv) fun x low high => ?_)
        exact m.put_outside _ (by omega)

theorem convertAll_behind (fits : Fits moves span raw) {n : Nat} (h : span * n ≤ x) :
    convertAll moves span raw base n m x = m x := by
  induction n with
  | zero => rfl
  | succ n ih =>
      rw [Nat.mul_succ] at h
      rw [convertAll, convert_outside fits (.inr h), ih (by omega)]

/-- Each record has the fields that are computed from the raw record of its index, as it
was in the beginning. -/
theorem convertAll_inside (fits : Fits moves span raw) {n i : Nat} (room : span * n ≤ base)
    (hi : i < n) {v : Move} (hv : v ∈ moves) {k : Nat} (hk : k < v.width) :
    convertAll moves span raw base n m (span * i + v.target + k) =
      byteOf (v.result (base + raw * i) m) k := by
  have inside := fits.target v hv
  induction n with
  | zero => cases hi
  | succ n ih =>
      rw [Nat.mul_succ] at room
      rw [convertAll]
      obtain earlier | rfl := Nat.lt_succ_iff_lt_or_eq.mp hi
      · have before : span * i + span ≤ span * n := by
          rw [← Nat.mul_succ]
          exact Nat.mul_le_mul_left span earlier
        rw [convert_outside fits (.inl (by omega)), ih (by omega) earlier]
      · rw [convert_inside fits (.inl (by omega)) hv hk]
        refine congrArg (byteOf · k) (result_congr (fits.source v hv) fun x low _ => ?_)
        exact convertAll_behind fits (by omega)

end Move

end Memory
