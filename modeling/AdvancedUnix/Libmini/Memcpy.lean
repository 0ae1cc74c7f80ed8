import AdvancedUnix.Memory.Bytes
import AdvancedUnix.Runs.While

/-!
# memcpy

The loop counts in an `int` up to a bound of 64 bits. Below `2 ^ 31` the counter gets to
the bound, and after `j` rounds the first `j` bytes are copied. From `2 ^ 31` on every value
of the counter is below the bound: the loop does not end, and behind the offset
`2 ^ 31 - 1` the counter is negative.
-/

namespace Libmini

open Memory

/-- The counter and the memory of `memcpy`, and the offsets that it has accessed. -/
structure Copy where
  i : BitVec 32
  mem : Bytes
  offsets : List Int

namespace Copy

/-- `i < num`, where both are converted to 64 bits. -/
def more (num : Word) (c : Copy) : Bool := (c.i.signExtend 64).slt num

/-- `((char*)dst)[i] = ((char*)src)[i]` and `++i`. -/
def round (dst src : Addr) (c : Copy) : Copy where
  i := c.i + 1
  mem := Function.update c.mem (dst + c.i.signExtend 64) (c.mem (src + c.i.signExtend 64))
  offsets := c.offsets ++ [c.i.toInt]

end Copy

/-- `memcpy`, with at most so many rounds of its loop. -/
def memcpy (dst src : Addr) (num : Word) (rounds : Nat) (m : Bytes) : Option Copy :=
  Runs.loop (Copy.more num) (Copy.round dst src) rounds ⟨0, m, []⟩

/-- What `memcpy` is for. -/
structure Copied (dst src : Addr) (num : Word) (m : Bytes) (c : Copy) : Prop where
  offsets : ∀ o ∈ c.offsets, 0 ≤ o ∧ o < num.toInt
  equal : ∀ k < num.toNat, c.mem (byteAddr dst k) = m (byteAddr src k)
  other : ∀ x, (∀ k < num.toNat, x ≠ byteAddr dst k) → c.mem x = m x

/-- Two areas of so many bytes that do not overlap. -/
def Apart (a b : Addr) (size : Nat) : Prop := ∀ j < size, ∀ k < size, byteAddr a j ≠ byteAddr b k

/-- A memory in which the first `j` bytes are copied. -/
def copied (dst src : Addr) (m : Bytes) (j : Nat) : Bytes := fun x =>
  if (x - dst).toNat < j then m (src + (x - dst)) else m x

theorem copied_inside {dst src x : Addr} {m : Bytes} {j : Nat} (h : (x - dst).toNat < j) :
    copied dst src m j x = m (src + (x - dst)) :=
  if_pos h

theorem copied_outside {dst src x : Addr} {m : Bytes} {j : Nat} (h : ¬ (x - dst).toNat < j) :
    copied dst src m j x = m x :=
  if_neg h

/-- After `j` rounds the first `j` bytes are copied. -/
structure CopyInv (dst src : Addr) (m : Bytes) (j : Nat) (c : Copy) : Prop where
  i : c.i = BitVec.ofNat 32 j
  mem : c.mem = copied dst src m j
  offsets : c.offsets = (List.range j).map Int.ofNat

theorem msb_counter {j : Nat} (h : j < 2 ^ 31) :
    (BitVec.ofNat 32 j).toNat = j ∧ (BitVec.ofNat 32 j).msb = false := by
  have small : (BitVec.ofNat 32 j).toNat = j := Nat.mod_eq_of_lt (by omega)
  refine ⟨small, ?_⟩
  rw [BitVec.msb_eq_false_iff_two_mul_lt, small]
  omega

theorem signExtend_counter {j : Nat} (h : j < 2 ^ 31) :
    (BitVec.ofNat 32 j).signExtend 64 = BitVec.ofNat 64 j := by
  obtain ⟨small, msb⟩ := msb_counter h
  rw [BitVec.signExtend_eq_setWidth_of_msb_false msb]
  apply BitVec.eq_of_toNat_eq
  rw [BitVec.toNat_setWidth, small, BitVec.toNat_ofNat]

theorem toInt_counter {j : Nat} (h : j < 2 ^ 31) : (BitVec.ofNat 32 j).toInt = j := by
  obtain ⟨small, msb⟩ := msb_counter h
  rw [BitVec.toInt_eq_toNat_of_msb msb, small]

section

variable {dst src : Addr} {num : Word} {m : Bytes}

theorem CopyInv.round {j : Nat} {c : Copy} (apart : Apart dst src num.toNat) (lt : j < num.toNat)
    (small : num.toNat < 2 ^ 31) (h : CopyInv dst src m j c) :
    CopyInv dst src m (j + 1) (c.round dst src) where
  i := by
    show c.i + 1 = _
    rw [h.i, BitVec.ofNat_add]
    rfl
  mem := by
    have counter : c.i.signExtend 64 = BitVec.ofNat 64 j := by
      rw [h.i, signExtend_counter (by omega)]
    have within : (BitVec.ofNat 64 j).toNat = j := Nat.mod_eq_of_lt (by omega)
    show Function.update c.mem (dst + c.i.signExtend 64) (c.mem (src + c.i.signExtend 64)) = _
    rw [counter, h.mem]
    funext x
    by_cases here : x = dst + BitVec.ofNat 64 j
    · -- the byte of the source is none of those that were overwritten
      have unread : ¬ (src + BitVec.ofNat 64 j - dst).toNat < j := fun below =>
        apart _ (below.trans lt) j lt (byteAddr_offset dst _)
      have offset : x - dst = BitVec.ofNat 64 j := by
        rw [here]
        exact add_sub_cancel_left _ _
      have inside : (x - dst).toNat < j + 1 := by
        rw [offset, within]
        exact Nat.lt_succ_self j
      rw [copied_inside inside, offset, here, Function.update_self, copied_outside unread]
    · have other : (x - dst).toNat ≠ j := by
        intro same
        apply here
        rw [← byteAddr_offset dst x, same]
        rfl
      rw [Function.update_of_ne here]
      exact if_congr (by omega) rfl rfl
  offsets := by
    show c.offsets ++ [c.i.toInt] = _
    rw [h.offsets, h.i, toInt_counter (by omega), List.range_succ, List.map_append]
    rfl

theorem toInt_eq_toNat (nonneg : 0 ≤ num.toInt) : num.toInt = num.toNat := by
  rw [BitVec.toInt_eq_toNat_cond] at nonneg ⊢
  split at nonneg
  · rename_i small
    rw [if_pos small]
  · have := num.isLt
    omega

theorem Copy.more_eq (nonneg : 0 ≤ num.toInt) (c : Copy) :
    c.more num = decide (c.i.toInt < num.toNat) := by
  rw [Copy.more, ← toInt_eq_toNat nonneg, Bool.eq_iff_iff, decide_eq_true_iff,
    BitVec.slt_iff_toInt_lt, BitVec.toInt_signExtend_of_le (by decide)]

theorem CopyInv.start : CopyInv dst src m 0 ⟨0, m, []⟩ :=
  ⟨rfl, funext fun _ => (if_neg (Nat.not_lt_zero _)).symm, rfl⟩

/-- Below `2 ^ 31` the loop ends after as many rounds as bytes are to be copied. -/
theorem memcpy_ends (nonneg : 0 ≤ num.toInt) (apart : Apart dst src num.toNat)
    (small : num.toNat < 2 ^ 31) :
    ∃ c, memcpy dst src num num.toNat m = some c ∧ CopyInv dst src m num.toNat c := by
  refine Runs.loop_counted (CopyInv dst src m) (fun j c lt h => ⟨?_, h.round apart lt small⟩) ?_
    CopyInv.start (Nat.zero_le _)
  · rw [Copy.more_eq nonneg, h.i, toInt_counter (by omega)]
    exact decide_eq_true (by omega)
  · intro c h
    rw [Copy.more_eq nonneg, h.i, toInt_counter small]
    exact decide_eq_false (by omega)

/-- From `2 ^ 31` on the counter is always below the bound. -/
theorem memcpy_none (nonneg : 0 ≤ num.toInt) (large : 2 ^ 31 ≤ num.toNat) (rounds : Nat) :
    memcpy dst src num rounds m = none := by
  refine Runs.loop_none (fun _ => True) (fun c _ => ⟨?_, trivial⟩) trivial rounds
  have most : c.i.toInt < 2 ^ 31 := BitVec.toInt_lt
  rw [Copy.more_eq nonneg]
  exact decide_eq_true (by omega)

theorem CopyInv.copied {c : Copy} (nonneg : 0 ≤ num.toInt) (h : CopyInv dst src m num.toNat c) :
    Copied dst src num m c where
  offsets o ho := by
    rw [h.offsets] at ho
    obtain ⟨j, hj, rfl⟩ := List.mem_map.mp ho
    have lt := List.mem_range.mp hj
    rw [toInt_eq_toNat nonneg]
    exact ⟨Int.natCast_nonneg j, Int.ofNat_lt.mpr lt⟩
  equal k hk := by
    have bound := num.isLt
    have offset : byteAddr dst k - dst = BitVec.ofNat 64 k := add_sub_cancel_left _ _
    have within : (BitVec.ofNat 64 k).toNat = k := Nat.mod_eq_of_lt (by omega)
    have inside : (byteAddr dst k - dst).toNat < num.toNat := by rwa [offset, within]
    rw [h.mem, copied_inside inside, offset]
    rfl
  other x away := by
    rw [h.mem]
    apply copied_outside
    intro inside
    exact away _ inside (byteAddr_offset dst x).symm

/-- `memcpy` does what it is for exactly when fewer than `2 ^ 31` bytes are to be copied. -/
theorem memcpy_iff (nonneg : 0 ≤ num.toInt) (apart : Apart dst src num.toNat) (m : Bytes) :
    (∃ rounds c, memcpy dst src num rounds m = some c ∧ Copied dst src num m c) ↔
      num.toNat < 2 ^ 31 := by
  constructor
  · rintro ⟨rounds, c, ended, -⟩
    by_contra large
    rw [memcpy_none nonneg (by omega)] at ended
    cases ended
  · intro small
    obtain ⟨c, ended, inv⟩ := memcpy_ends (m := m) nonneg apart small
    exact ⟨_, c, ended, inv.copied nonneg⟩

end

namespace Demo

/-- Eight bytes are copied. -/
theorem eight_copied :
    ∃ rounds c, memcpy 0x1000 0x2000 8 rounds (fun x => x.setWidth 8) = some c ∧
      Copied 0x1000 0x2000 8 (fun x => x.setWidth 8) c :=
  (memcpy_iff (by decide) (by unfold Apart; decide) _).mpr (by decide)

/-- Two areas of `2 ^ 31` bytes. -/
theorem large_notCopied :
    Apart 0x7f0000000000 0x7f0100000000 (0x80000000 : Word).toNat ∧
      ¬ ∃ rounds c,
        memcpy 0x7f0000000000 0x7f0100000000 0x80000000 rounds (fun _ => 0) = some c ∧
          Copied 0x7f0000000000 0x7f0100000000 0x80000000 (fun _ => 0) c := by
  constructor
  · intro j hj k hk
    have small : (0x80000000 : Word).toNat = 0x80000000 := rfl
    unfold byteAddr
    bv_omega
  · rintro ⟨rounds, c, ended, -⟩
    rw [memcpy_none (by decide) (by decide)] at ended
    cases ended

end Demo

end Libmini
