import AdvancedUnix.Sdb.Hiding

/-!
# What a dump shows

`dump` reads the tracee word by word into a buffer of 80 bytes that nobody has set, and
prints all of it. The reading stops at the first word that is not mapped as a whole, and
does not even begin when the end of the buffer lies beyond the last address: the sum of the
address and the size of the buffer is then a small number, which the address is not below.
-/

namespace Sdb

open Memory Traced

variable {K : Type}

/-- What stands at a position of a dump from `a` on was read, and is the byte of the tracee. -/
structure Shown (w : World K) (a : Addr) (buffer : List Byte) (k : Nat) : Prop where
  read : k < (Verb.dump.bytes w a).length
  byte : ∃ p, w.tracee = some p ∧ ∃ b, buffer[k]? = some b ∧ p.cpu.mem (a + (k : Addr)) = some b

/-- `dump` prints 80 positions, and each of them is `Shown`. -/
def DumpFaithful (env : Env K) (w : World K) (addrStr : List Char) (a : Addr) : Prop :=
  ∃ buffer, (sdbDump env addrStr w).ending = .prompt (.dump a buffer) ∧ buffer.length = 80 ∧
    ∀ k < 80, Shown w a buffer k

section

variable {env : Env K} {w : World K} {p : Proc K} {a : Addr}

/-- The bytes of consecutive words are consecutive. -/
theorem mapped_words_iff {m : Mem} {n : Nat} :
    (∀ j < n, Mapped m (a + (8 * j : Nat))) ↔ ∀ k : Nat, k < 8 * n → m (a + (k : Addr)) ≠ none := by
  have split : ∀ j i : Nat, byteAddr (a + ((8 * j : Nat) : Addr)) i =
      a + ((8 * j + i : Nat) : Addr) := by
    intro j i
    rw [byteAddr, Nat.cast_add, ← add_assoc]
    rfl
  constructor
  · intro mapped k hk
    have byte := mapped (k / 8) (by omega) (k % 8) (Nat.mod_lt k (by decide))
    rwa [split, Nat.div_add_mod] at byte
  · intro bytes j hj i hi
    rw [split]
    exact bytes _ (by omega)

/-- The words of the buffer are below its end exactly when the end is an address. -/
theorem below_end_iff :
    (∀ j < 10, a + ((8 * j : Nat) : Addr) < a + 80) ↔ a.toNat + 80 < 2 ^ 64 := by
  constructor
  · intro below
    have first := below 0 (by decide)
    rw [Nat.mul_zero, Nat.cast_zero, add_zero] at first
    bv_omega
  · intro room j hj
    show a + BitVec.ofNat 64 (8 * j) < a + 80
    bv_omega

/-- The whole buffer is read exactly when its end is an address and its bytes are mapped. -/
theorem dump_read_iff (hp : w.tracee = some p) :
    (∀ k < 80, k < (Verb.dump.bytes w a).length) ↔
      a.toNat + 80 < 2 ^ 64 ∧ ∀ k : Nat, k < 80 → p.cpu.mem (a + (k : Addr)) ≠ none := by
  have words : (∀ j < 10, Mapped p.cpu.mem (a + ((8 * j : Nat) : Addr))) ↔
      ∀ k : Nat, k < 80 → p.cpu.mem (a + (k : Addr)) ≠ none := mapped_words_iff (n := 10)
  rw [Verb.bytes, ← below_end_iff, ← words]
  constructor
  · intro read
    obtain ⟨-, words⟩ := (lt_length_peekWords hp).mp (read 79 (by decide))
    exact ⟨fun j hj => (words j (by omega)).1, fun j hj => (words j (by omega)).2⟩
  · rintro ⟨below, mapped⟩ k hk
    exact (lt_length_peekWords hp).mpr ⟨hk, fun j hj => ⟨below j (by omega), mapped j (by omega)⟩⟩

theorem length_dump_bytes (hp : w.tracee = some p) : (Verb.dump.bytes w a).length ≤ 80 := by
  by_contra more
  have within := ((lt_length_peekWords hp).mp (not_le.mp more)).1
  exact absurd within (by decide)

/-- The positions behind what was read show what the buffer held. -/
theorem sdbDump_eq (running : w.sdb.isRunning) {addrStr : List Char} (typed : addrStr ≠ [])
    (operand : operandAddr env.uninit addrStr = a) :
    sdbDump env addrStr w = ⟨w, .prompt (.dump a (Verb.dump.bytes w a ++
      (List.range' (Verb.dump.bytes w a).length (80 - (Verb.dump.bytes w a).length)).map
        env.uninit.buffer))⟩ := by
  subst operand
  rw [sdbDump, if_neg typed, if_neg (not_not.mpr running)]
  rfl

/-- `dump` shows what it read exactly when all 80 bytes are mapped and end below the last
address. -/
theorem dump_faithful_iff (running : w.sdb.isRunning) (hp : w.tracee = some p)
    {addrStr : List Char} (typed : addrStr ≠ []) (operand : operandAddr env.uninit addrStr = a) :
    DumpFaithful env w addrStr a ↔
      a.toNat + 80 < 2 ^ 64 ∧ ∀ k : Nat, k < 80 → p.cpu.mem (a + (k : Addr)) ≠ none := by
  rw [← dump_read_iff hp]
  constructor
  · rintro ⟨buffer, -, -, shown⟩ k hk
    exact (shown k hk).read
  · intro read
    have whole : (Verb.dump.bytes w a).length = 80 :=
      le_antisymm (length_dump_bytes hp) (read 79 (by decide))
    have printed : (sdbDump env addrStr w).ending = .prompt (.dump a (Verb.dump.bytes w a)) := by
      rw [sdbDump_eq running typed operand, whole, Nat.sub_self, List.range'_zero, List.map_nil,
        List.append_nil]
    have held := Decoding.holds_iff.mp (holds_peekWords hp (a + 80) 10 a)
    refine ⟨_, printed, whole, fun k hk => ⟨read k hk, p, hp, _, ?_, held k (read k hk)⟩⟩
    exact List.getElem?_eq_getElem (read k hk)

end

namespace Fragment

/-- A program of 96 `nop`s. -/
def longNops : Image Maps := image someMaps 0x400000 (List.replicate 96 0x90)

/-- This program, just started. -/
def stoppedIn (image : Image Maps) : World Maps :=
  (session host fresh ([.load "/bin/prog".toList, .start].map (cmd image 64))).world

theorem longNops_mapped {a : Addr} (inside : (a - 0x400000).toNat < 96) :
    longNops.cpu.mem a ≠ none := by
  apply List.getElem?_eq_none_iff.not.mpr
  rw [List.length_replicate]
  exact not_le.mpr inside

/-- All that is shown lies in the program. -/
theorem longNops_dumped :
    DumpFaithful (env ⟨7, seven_pos⟩ longNops 64) (stoppedIn longNops) "0x400001".toList
      0x400001 := by
  refine (dump_faithful_iff (p := longNops.load) rfl rfl (by decide) rfl).mpr ⟨by decide, ?_⟩
  intro k hk
  apply longNops_mapped
  show (0x400001 + BitVec.ofNat 64 k - 0x400000).toNat < 96
  bv_omega

/-- The program ends behind the first two words of the dump. -/
theorem nops_notDumped :
    ¬ DumpFaithful (env ⟨7, seven_pos⟩ nops 64) (stoppedIn nops) "0x400000".toList 0x400000 := by
  rintro ⟨buffer, -, -, shown⟩
  have behind := (shown 16 (by decide)).read
  have length : (Verb.dump.bytes (stoppedIn nops) 0x400000).length = 16 := rfl
  rw [length] at behind
  exact absurd behind (by decide)

end Fragment

end Sdb
