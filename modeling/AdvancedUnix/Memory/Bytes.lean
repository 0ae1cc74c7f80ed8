import AdvancedUnix.Memory.Word

/-!
# Words and stacks in a total memory

The memory of a process as its own code sees it: a byte at every address. A
word occupies the eight bytes from its address on, as it does in a partial
memory.

A stack grows downwards, so what a piece of code may overwrite without asking
is a number of bytes below a stack pointer. `Below` describes such a region by
the distance to the pointer; distances wrap as addresses do, and no lemma below
needs a bound on the pointer.
-/

namespace Memory

/-- A byte at every address. -/
abbrev Bytes := Addr → Byte

def load (m : Bytes) (a : Addr) : Word := wordOf fun k => m (byteAddr a k)

def store (m : Bytes) (a : Addr) (w : Word) : Bytes := fun x =>
  if (x - a).toNat < 8 then byteOf w (x - a).toNat else m x

/-- What a load returns depends on the eight bytes of the word alone. -/
theorem load_congr {m m' : Bytes} {a : Addr}
    (same : ∀ k < 8, m (byteAddr a k) = m' (byteAddr a k)) : load m a = load m' a := by
  apply word_ext
  intro k hk
  rw [load, load, byteOf_wordOf _ hk, byteOf_wordOf _ hk, same k hk]

@[simp] theorem load_store_same (m : Bytes) (a : Addr) (w : Word) : load (store m a w) a = w := by
  apply word_ext
  intro k hk
  rw [load, byteOf_wordOf _ hk, store, byteAddr_sub hk, if_pos hk]

theorem store_outside {m : Bytes} {a x : Addr} {w : Word} (h : 8 ≤ (x - a).toNat) :
    store m a w x = m x :=
  if_neg (Nat.not_lt.mpr h)

/-- Two words that are eight bytes apart in both directions share no byte. -/
theorem load_store_of_apart {m : Bytes} {a b : Addr} {w : Word} (up : 8 ≤ (a - b).toNat)
    (down : 8 ≤ (b - a).toNat) : load (store m b w) a = load m a := by
  apply load_congr
  intro k hk
  apply store_outside
  have hsub : byteAddr a k - b = (a - b) + BitVec.ofNat 64 k := by
    simp only [byteAddr]
    bv_omega
  rw [hsub]
  bv_omega

/-- Two words of one object that do not overlap. -/
theorem load_store_slot {m : Bytes} {a : Addr} {w : Word} {i j : Nat}
    (apart : i + 8 ≤ j ∨ j + 8 ≤ i) (hi : i < 2 ^ 32) (hj : j < 2 ^ 32) :
    load (store m (byteAddr a j) w) (byteAddr a i) = load m (byteAddr a i) := by
  apply load_store_of_apart
  · simp only [byteAddr]
    bv_omega
  · simp only [byteAddr]
    bv_omega

/-- A word stored inside an object leaves the bytes outside the object alone. -/
theorem store_slot_outside {m : Bytes} {a x : Addr} {w : Word} {off size : Nat}
    (h : size ≤ (x - a).toNat) (inside : off + 8 ≤ size) :
    store m (byteAddr a off) w x = m x := by
  have bound : (x - a).toNat < 2 ^ 64 := BitVec.isLt _
  apply store_outside
  simp only [byteAddr]
  bv_omega

/-- The `n` bytes below a stack pointer. -/
def Below (sp : Addr) (n : Nat) (x : Addr) : Prop := (sp - 1 - x).toNat < n

instance (sp : Addr) (n : Nat) (x : Addr) : Decidable (Below sp n x) :=
  inferInstanceAs (Decidable (_ < _))

/-- A region that leaves out some address is smaller than the address range. -/
theorem size_lt_of_not_below {sp x : Addr} {n : Nat} (h : ¬ Below sp n x) : n < 2 ^ 64 :=
  Nat.lt_of_le_of_lt (Nat.not_lt.mp h) (BitVec.isLt _)

/-- Two moves of a stack pointer are one. -/
theorem sub_ofNat_sub (sp : Addr) (m n : Nat) :
    sp - BitVec.ofNat 64 m - BitVec.ofNat 64 n = sp - BitVec.ofNat 64 (m + n) := by
  rw [BitVec.ofNat_add]
  bv_omega

/-- The bytes below a lower pointer are below the upper one too. -/
theorem Below.mono {sp x : Addr} {d m n : Nat} (h : Below (sp - BitVec.ofNat 64 d) m x)
    (room : d + m ≤ n) : Below sp n x := by
  have hsplit : sp - 1 - x = (sp - BitVec.ofNat 64 d - 1 - x) + BitVec.ofNat 64 d := by bv_omega
  have hle : (sp - 1 - x).toNat ≤ (sp - BitVec.ofNat 64 d - 1 - x).toNat + d := by
    rw [hsplit, BitVec.toNat_add, BitVec.toNat_ofNat]
    refine (Nat.mod_le _ _).trans (Nat.add_le_add_left (Nat.mod_le _ _) _)
  unfold Below at h ⊢
  omega

/-- A memory whose bytes below a stack pointer are replaced by those of another. -/
def scribble (sp : Addr) (n : Nat) (junk m : Bytes) : Bytes := fun x =>
  if Below sp n x then junk x else m x

theorem scribble_outside {sp x : Addr} {n : Nat} {junk m : Bytes} (h : ¬ Below sp n x) :
    scribble sp n junk m x = m x :=
  if_neg h

/-- An object of `size` bytes that shares no byte with the `n` bytes below a
stack pointer. -/
def Clear (sp : Addr) (n : Nat) (a : Addr) (size : Nat) : Prop :=
  ∀ i < size, ¬ Below sp n (byteAddr a i)

instance (sp : Addr) (n : Nat) (a : Addr) (size : Nat) : Decidable (Clear sp n a size) :=
  inferInstanceAs (Decidable (∀ i < size, ¬ Below sp n (byteAddr a i)))

theorem load_scribble {sp a : Addr} {n : Nat} {junk m : Bytes} (h : Clear sp n a 8) :
    load (scribble sp n junk m) a = load m a :=
  load_congr fun k hk => scribble_outside (h k hk)

/-- The word at a stack pointer is clear of the bytes below a lower pointer, as
long as these do not run around the whole address range. -/
theorem clear_above {a : Addr} {d n : Nat} (room : d + n + 8 ≤ 2 ^ 64) :
    Clear (a - BitVec.ofNat 64 d) n a 8 := by
  intro k hk
  unfold Below
  simp only [byteAddr]
  bv_omega

/-- The word at a stack pointer is clear of the bytes below it. -/
theorem clear_self {a : Addr} {n : Nat} (room : n + 8 ≤ 2 ^ 64) : Clear a n a 8 := by
  have h := clear_above (a := a) (d := 0) (n := n) (by omega)
  rwa [BitVec.sub_zero] at h

/-- A word stored below a stack pointer leaves the bytes above it alone. -/
theorem store_below {sp x : Addr} {d n : Nat} {m : Bytes} {w : Word} (h : ¬ Below sp n x)
    (low : 8 ≤ d) (room : d ≤ n) : store m (sp - BitVec.ofNat 64 d) w x = m x := by
  have hn := size_lt_of_not_below h
  apply store_outside
  unfold Below at h
  bv_omega

/-- A byte of the region lies outside every clear object. -/
theorem Clear.outside {sp a x : Addr} {n size : Nat} (h : Clear sp n a size)
    (below : Below sp n x) : size ≤ (x - a).toNat := by
  by_contra inside
  apply h (x - a).toNat (by omega)
  rwa [byteAddr_offset]

theorem Clear.mono {sp a : Addr} {d m n size : Nat} (h : Clear sp n a size) (room : d + m ≤ n) :
    Clear (sp - BitVec.ofNat 64 d) m a size :=
  fun i hi below => h i hi (below.mono room)

end Memory
