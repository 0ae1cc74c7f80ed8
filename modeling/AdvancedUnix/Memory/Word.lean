import Mathlib.Data.BitVec
import Mathlib.Logic.Function.Basic
import Mathlib.Tactic.IntervalCases

/-!
# Little-endian words over a partially mapped memory

A memory maps an address to a byte, or to `none` where nothing is mapped. A
64-bit word occupies the eight bytes from its address on, the low byte first,
and an access to a word fails as soon as one of its bytes is not mapped.

Addresses wrap: the offset of `x` in the word at `a` is `x - a` modulo the
address range, so no lemma below needs a bound on the addresses.
-/

namespace Memory

abbrev Byte := BitVec 8
abbrev Addr := BitVec 64
abbrev Word := BitVec 64

/-- A byte for each mapped address. -/
abbrev Mem := Addr → Option Byte

/-- The byte of a word at offset `k`, the low byte at offset zero. -/
def byteOf (w : Word) (k : Nat) : Byte := w.extractLsb' (8 * k) 8

/-- The word that has the given bytes, the low byte first. -/
def wordOf (f : Nat → Byte) : Word :=
  f 7 ++ f 6 ++ f 5 ++ f 4 ++ f 3 ++ f 2 ++ f 1 ++ f 0

theorem byteOf_wordOf (f : Nat → Byte) {k : Nat} (hk : k < 8) : byteOf (wordOf f) k = f k := by
  apply BitVec.eq_of_getLsbD_eq
  intro j hj
  simp only [byteOf, wordOf, BitVec.getLsbD_extractLsb', BitVec.getLsbD_append, hj, decide_true,
    Bool.true_and]
  interval_cases k <;>
    simp (disch := omega) only [Nat.reduceMul, if_pos, if_neg] <;> exact congrArg _ (by omega)

/-- A word is determined by its eight bytes. -/
theorem word_ext {v w : Word} (h : ∀ k < 8, byteOf v k = byteOf w k) : v = w := by
  apply BitVec.eq_of_getLsbD_eq
  intro i hi
  have hbyte := congrArg (fun b => b.getLsbD (i % 8)) (h (i / 8) (by omega))
  have hmod : i % 8 < 8 := Nat.mod_lt _ (by decide)
  have hsplit : 8 * (i / 8) + i % 8 = i := Nat.div_add_mod i 8
  simpa only [byteOf, BitVec.getLsbD_extractLsb', hmod, hsplit, decide_true, Bool.true_and]
    using hbyte

/-- The mask of the low byte leaves exactly that byte. -/
theorem and_low_mask (w : Word) : w &&& 0xff = (byteOf w 0).setWidth 64 := by
  have mask : ∀ i : Fin 64, (0xff : Word).getLsbD i = decide (i.val < 8) := by decide
  apply BitVec.eq_of_getLsbD_eq
  intro i hi
  have hbit := mask ⟨i, hi⟩
  simp only at hbit
  rw [BitVec.getLsbD_and, hbit]
  by_cases h8 : i < 8 <;> simp [byteOf, h8, hi]

theorem low_byte_eq_iff (w : Word) (b : Byte) :
    w &&& 0xff = b.setWidth 64 ↔ byteOf w 0 = b := by
  rw [and_low_mask]
  constructor
  · intro h
    simpa using congrArg (fun v => v.setWidth 8) h
  · rintro rfl
    rfl

/-- Replacing the low byte through a mask leaves the other seven bytes alone. -/
theorem byteOf_replace_low (w : Word) (b : Byte) {k : Nat} (hk : k < 8) :
    byteOf ((w &&& 0xffffffffffffff00) ||| b.setWidth 64) k = if k = 0 then b else byteOf w k := by
  have mask : ∀ i : Fin 64, (0xffffffffffffff00 : Word).getLsbD i = decide (8 ≤ i.val) := by decide
  apply BitVec.eq_of_getLsbD_eq
  intro j hj
  have hbit := mask ⟨8 * k + j, by omega⟩
  simp only at hbit
  by_cases h0 : k = 0
  · subst h0
    simp [byteOf, hj, show ¬ 8 ≤ j by omega, show j < 64 by omega] at hbit ⊢
    simp [hbit]
  · simp only [byteOf, BitVec.getLsbD_extractLsb', BitVec.getLsbD_or, BitVec.getLsbD_and, hbit, hj,
      h0, if_false, decide_true, Bool.true_and, BitVec.getLsbD_setWidth]
    simp [show 8 ≤ 8 * k + j by omega]

/-- The address of the byte at offset `k` of the word at `a`. -/
def byteAddr (a : Addr) (k : Nat) : Addr := a + BitVec.ofNat 64 k

@[simp] theorem byteAddr_zero (a : Addr) : byteAddr a 0 = a := by simp [byteAddr]

theorem byteAddr_byteAddr (a : Addr) (i j : Nat) :
    byteAddr (byteAddr a i) j = byteAddr a (i + j) := by
  simp only [byteAddr, BitVec.add_assoc, BitVec.ofNat_add]

theorem byteAddr_sub {a : Addr} {k : Nat} (hk : k < 8) : (byteAddr a k - a).toNat = k := by
  rw [byteAddr, BitVec.add_comm, BitVec.add_sub_cancel, BitVec.toNat_ofNat]
  exact Nat.mod_eq_of_lt (by omega)

theorem byteAddr_offset (a x : Addr) : byteAddr a (x - a).toNat = x := by
  rw [byteAddr, BitVec.ofNat_toNat, BitVec.setWidth_eq, BitVec.add_comm, BitVec.sub_add_cancel]

/-- An address lies in the word at `a` exactly when it is one of its bytes. -/
theorem offset_lt_iff {a x : Addr} : (x - a).toNat < 8 ↔ ∃ k < 8, x = byteAddr a k := by
  constructor
  · intro h
    exact ⟨_, h, (byteAddr_offset a x).symm⟩
  · rintro ⟨k, hk, rfl⟩
    rwa [byteAddr_sub hk]

theorem byteAddr_eq_self_iff {a : Addr} {k : Nat} (hk : k < 8) : byteAddr a k = a ↔ k = 0 := by
  constructor
  · intro h
    have := byteAddr_sub (a := a) hk
    rw [h] at this
    simpa using this.symm
  · rintro rfl
    exact byteAddr_zero a

/-- All eight bytes of the word at `a` are mapped. -/
def Mapped (m : Mem) (a : Addr) : Prop := ∀ k < 8, m (byteAddr a k) ≠ none

instance (m : Mem) (a : Addr) : Decidable (Mapped m a) :=
  inferInstanceAs (Decidable (∀ k < 8, m (byteAddr a k) ≠ none))

def readWord (m : Mem) (a : Addr) : Option Word :=
  if Mapped m a then some (wordOf fun k => (m (byteAddr a k)).getD 0) else none

def writeWord (m : Mem) (a : Addr) (w : Word) : Option Mem :=
  if Mapped m a then
    some fun x => if (x - a).toNat < 8 then some (byteOf w (x - a).toNat) else m x
  else none

theorem readWord_eq_some_iff {m : Mem} {a : Addr} {w : Word} :
    readWord m a = some w ↔ ∀ k < 8, m (byteAddr a k) = some (byteOf w k) := by
  unfold readWord
  constructor
  · intro h k hk
    split at h
    · rename_i mapped
      obtain ⟨b, hb⟩ := Option.ne_none_iff_exists'.mp (mapped k hk)
      cases h
      rw [byteOf_wordOf _ hk, hb, Option.getD_some]
    · cases h
  · intro h
    have mapped : Mapped m a := fun k hk => by simp [h k hk]
    rw [if_pos mapped]
    refine congrArg some (word_ext fun k hk => ?_)
    rw [byteOf_wordOf _ hk, h k hk, Option.getD_some]

theorem readWord_isSome {m : Mem} {a : Addr} : (readWord m a).isSome ↔ Mapped m a := by
  unfold readWord
  split <;> simp_all

theorem readWord_eq_none {m : Mem} {a : Addr} : readWord m a = none ↔ ¬ Mapped m a := by
  rw [← readWord_isSome, Option.not_isSome_iff_eq_none]

theorem writeWord_eq_none {m : Mem} {a : Addr} {w : Word} :
    writeWord m a w = none ↔ ¬ Mapped m a := by
  unfold writeWord
  split <;> simp_all

/-- Inside the word a successful write leaves the bytes of the value. -/
theorem writeWord_inside {m m' : Mem} {a : Addr} {w : Word} (h : writeWord m a w = some m')
    {k : Nat} (hk : k < 8) : m' (byteAddr a k) = some (byteOf w k) := by
  unfold writeWord at h
  split at h
  · cases h
    simp only [byteAddr_sub hk, hk, if_true]
  · cases h

/-- Outside the word a write changes nothing. -/
theorem writeWord_outside {m m' : Mem} {a x : Addr} {w : Word} (h : writeWord m a w = some m')
    (hx : ∀ k < 8, x ≠ byteAddr a k) : m' x = m x := by
  unfold writeWord at h
  split at h
  · cases h
    have : ¬ (x - a).toNat < 8 := fun hlt => by
      obtain ⟨k, hk, rfl⟩ := offset_lt_iff.mp hlt
      exact hx k hk rfl
    simp only [this, if_false]
  · cases h

/-- A write maps nothing new and unmaps nothing. -/
theorem writeWord_eq_none_iff {m m' : Mem} {a x : Addr} {w : Word} (h : writeWord m a w = some m') :
    m' x = none ↔ m x = none := by
  by_cases hx : (x - a).toNat < 8
  · obtain ⟨k, hk, rfl⟩ := offset_lt_iff.mp hx
    have mapped : Mapped m a := by
      by_contra hm
      rw [writeWord_eq_none.mpr hm] at h
      cases h
    simp [writeWord_inside h hk, mapped k hk]
  · rw [writeWord_outside h fun k hk he => hx (offset_lt_iff.mpr ⟨k, hk, he⟩)]

theorem mapped_writeWord {m m' : Mem} {a b : Addr} {w : Word} (h : writeWord m a w = some m') :
    Mapped m' b ↔ Mapped m b := by
  simp only [Mapped, ne_eq, writeWord_eq_none_iff h]

/-- A byte that is replaced stays mapped. -/
theorem mapped_update {m : Mem} {a c : Addr} (b : Byte) (h : m a ≠ none) :
    Mapped (Function.update m a (some b)) c ↔ Mapped m c := by
  refine forall₂_congr fun k _ => ?_
  by_cases hk : byteAddr c k = a
  · simp [hk, h]
  · rw [Function.update_of_ne hk]

/-- Writing back a word that was read with only its low byte replaced changes
memory at one address. -/
theorem writeWord_replace_low {m m' : Mem} {a : Addr} {w : Word} {b : Byte}
    (read : readWord m a = some w)
    (write : writeWord m a ((w &&& 0xffffffffffffff00) ||| b.setWidth 64) = some m') :
    m' = Function.update m a (some b) := by
  funext x
  by_cases hx : (x - a).toNat < 8
  · obtain ⟨k, hk, rfl⟩ := offset_lt_iff.mp hx
    rw [writeWord_inside write hk, byteOf_replace_low w b hk]
    by_cases h0 : k = 0
    · subst h0
      simp
    · rw [if_neg h0, Function.update_of_ne (fun he => h0 ((byteAddr_eq_self_iff hk).mp he))]
      exact (readWord_eq_some_iff.mp read k hk).symm
  · have hne : x ≠ a := by
      rintro rfl
      simp at hx
    rw [writeWord_outside write fun k hk he => hx (offset_lt_iff.mpr ⟨k, hk, he⟩),
      Function.update_of_ne hne]

end Memory
