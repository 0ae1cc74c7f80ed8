import AdvancedUnix.Connections.Decoding
import Mathlib.Data.Fin.VecNotation

/-!
# The addresses of the kernel for IPv6

The kernel prints an IPv6 address as four numbers of the processor, eight digits each
and nothing between them. The parser reads all of them as one number into the first
four bytes, which hold all ones when the number does not fit, and the last of the four
numbers when the first two are zero. Nobody writes the other twelve bytes.

`inet_ntop` stands for any rendering that tells addresses apart.
-/

namespace Connections

open Memory Text

/-- Four bytes of an address. -/
def quad (addr : Fin 16 → Byte) (k : Fin 4) : Ipv4 where
  a := addr ⟨4 * k, by omega⟩
  b := addr ⟨4 * k + 1, by omega⟩
  c := addr ⟨4 * k + 2, by omega⟩
  d := addr ⟨4 * k + 3, by omega⟩

/-- One of the four numbers of an address. -/
def word6 (addr : Fin 16 → Byte) (k : Fin 4) : BitVec 32 := (quad addr k).word

/-- One end of a connection. -/
def kernelEnd6 (addr : Fin 16 → Byte) (port : BitVec 16) : List Char :=
  hex 8 (word6 addr 0).toNat ++ (hex 8 (word6 addr 1).toNat ++ (hex 8 (word6 addr 2).toNat ++
    hex 8 (word6 addr 3).toNat)) ++ ':' :: hex 4 port.toNat

/-- What is stored into the first four bytes. -/
def storedWord (addr : Fin 16 → Byte) : BitVec 32 :=
  if word6 addr 0 = 0 ∧ word6 addr 1 = 0 then word6 addr 3 else -1

/-- The bytes that are rendered. -/
def storedAddr (l : Locals) (addr : Fin 16 → Byte) (i : Fin 16) : Byte :=
  if i.val < 4 then octet (storedWord addr) i else l.s6Addr i

/-- The first four bytes are read back, the others are in place, and the port is not
written as 0. -/
structure Survives (l : Locals) (addr : Fin 16 → Byte) (port : BitVec 16) : Prop where
  word : word6 addr 0 = if word6 addr 0 = 0 ∧ word6 addr 1 = 0 then word6 addr 3 else -1
  held : ∀ i : Fin 16, 4 ≤ i → l.s6Addr i = addr i
  port : port ≠ 0 ∨ l.port &&& 0xffffffff00000000 = 0

theorem hex_length {width n : Nat} (pos : 0 < width) (h : n < 16 ^ width) :
    (hex width n).length = width := by
  have short : (numeral upperDigit 16 n).length ≤ width := by
    unfold numeral
    split
    · exact pos
    · rw [List.length_map, List.length_reverse]
      exact (Nat.digits_length_le_iff (by decide) n).mpr h
  rw [hex, padded, List.length_append, List.length_replicate]
  omega

theorem hex_word_length (v : BitVec 32) : (hex 8 v.toNat).length = 8 :=
  hex_length (by decide) (Nat.lt_of_lt_of_eq v.isLt (by decide))

/-- The four numbers read as one. -/
theorem spells_words (addr : Fin 16 → Byte) :
    Spells 16 (hex 8 (word6 addr 0).toNat ++ (hex 8 (word6 addr 1).toNat ++
        (hex 8 (word6 addr 2).toNat ++ hex 8 (word6 addr 3).toNat)))
      (((word6 addr 0).toNat * 2 ^ 32 + (word6 addr 1).toNat) * 2 ^ 64 +
        ((word6 addr 2).toNat * 2 ^ 32 + (word6 addr 3).toNat)) := by
  have spells := (spells_hex 8 (word6 addr 0).toNat).append
    ((spells_hex 8 (word6 addr 1).toNat).append
      ((spells_hex 8 (word6 addr 2).toNat).append (spells_hex 8 (word6 addr 3).toNat)))
  simp only [List.length_append, hex_word_length] at spells
  convert spells using 1
  ring

theorem scanPair_end6 (addr : Fin 16 → Byte) (port : BitVec 16) :
    scanPair (kernelEnd6 addr port) = (some (storedWord addr), some (port.setWidth 32)) := by
  have colon : Ends 16 (':' :: hex 4 port.toNat) := .cons (digit_none (by decide))
  have plain : ∀ c, (':' :: hex 4 port.toNat).head? = some c → c ≠ 'x' ∧ c ≠ 'X' := by
    rintro c ⟨⟩
    decide
  have address := scanNumber_spells (spells_words addr) colon plain
  have rest := scanNumber_spells_nil (spells_hex 4 port.toNat)
  have stored : unsigned32 (((word6 addr 0).toNat * 2 ^ 32 + (word6 addr 1).toNat) * 2 ^ 64 +
      ((word6 addr 2).toNat * 2 ^ 32 + (word6 addr 3).toNat) : Nat) = storedWord addr := by
    have second := (word6 addr 1).isLt
    have third := (word6 addr 2).isLt
    have fourth := (word6 addr 3).isLt
    unfold storedWord
    by_cases zero : word6 addr 0 = 0 ∧ word6 addr 1 = 0
    · have first : (word6 addr 0).toNat = 0 := by rw [zero.1]; rfl
      have next : (word6 addr 1).toNat = 0 := by rw [zero.2]; rfl
      rw [if_pos zero, unsigned32_natCast (by omega)]
      apply BitVec.eq_of_toNat_eq
      rw [BitVec.toNat_ofNat]
      omega
    · have large : 0 < (word6 addr 0).toNat ∨ 0 < (word6 addr 1).toNat := by
        by_contra small
        have first : (word6 addr 0).toNat = 0 := by omega
        have next : (word6 addr 1).toNat = 0 := by omega
        exact zero ⟨BitVec.eq_of_toNat_eq first, BitVec.eq_of_toNat_eq next⟩
      rw [if_neg zero, unsigned32_large (by omega)]
  unfold kernelEnd6
  simp only [scanPair, address, rest, Option.map_some, stored,
    unsigned32_toNat _ (show 16 ≤ 32 by decide)]

/-- What is stored for an end of a connection. -/
theorem parseAddrPortPair_end6 (ntop6 : (Fin 16 → Byte) → List Char) (l : Locals)
    (addr : Fin 16 → Byte) (port : BitVec 16) :
    parseAddrPortPair ntop6 l (kernelEnd6 addr port) true =
      some (ntop6 (storedAddr l addr), shownPort l.port port) := by
  unfold parseAddrPortPair
  simp only [scanPair_end6, portStr_port, if_true, Option.map_some, Option.getD_some]
  rfl

/-- A number is known by its bytes. -/
theorem word_octets (v : BitVec 32) :
    (⟨octet v 0, octet v 1, octet v 2, octet v 3⟩ : Ipv4).word = v := by
  apply BitVec.eq_of_getLsbD_eq
  intro i hi
  simp only [octet, Ipv4.word, BitVec.getLsbD_extractLsb', BitVec.getLsbD_append]
  grind

/-- The first four bytes of an address are those of its first number. -/
theorem octet_word6 (addr : Fin 16 → Byte) (i : Fin 16) (first : i < 4) :
    octet (word6 addr 0) i = addr i := by
  obtain ⟨a, b, c, d⟩ := octet_word (quad addr 0)
  have index : i = 0 ∨ i = 1 ∨ i = 2 ∨ i = 3 := by omega
  obtain rfl | rfl | rfl | rfl := index
  · exact a
  · exact b
  · exact c
  · exact d

theorem storedAddr_first (l : Locals) (addr : Fin 16 → Byte) {i : Fin 16} (first : i < 4) :
    storedAddr l addr i = octet (storedWord addr) i := if_pos first

theorem storedAddr_rest (l : Locals) (addr : Fin 16 → Byte) {i : Fin 16} (rest : 4 ≤ i) :
    storedAddr l addr i = l.s6Addr i := if_neg (Nat.not_lt.mpr rest)

/-- The bytes are those of the address when the first number is stored and the others
are there. -/
theorem storedAddr_eq_iff (l : Locals) (addr : Fin 16 → Byte) :
    storedAddr l addr = addr ↔
      word6 addr 0 = storedWord addr ∧ ∀ i : Fin 16, 4 ≤ i → l.s6Addr i = addr i := by
  constructor
  · intro same
    have stored : ∀ i : Fin 16, i < 4 → octet (storedWord addr) i = octet (word6 addr 0) i := by
      intro i first
      rw [← storedAddr_first l addr first, congrFun same i, octet_word6 addr i first]
    refine ⟨?_, ?_⟩
    · have a := stored 0 (by decide)
      have b := stored 1 (by decide)
      have c := stored 2 (by decide)
      have d := stored 3 (by decide)
      rw [← word_octets (storedWord addr), ← word_octets (word6 addr 0)]
      exact congrArg Ipv4.word (Ipv4.mk.injEq .. ▸ ⟨a.symm, b.symm, c.symm, d.symm⟩)
    · intro i rest
      rw [← congrFun same i, storedAddr_rest l addr rest]
  · rintro ⟨word, held⟩
    funext i
    rcases lt_or_ge i 4 with first | rest
    · rw [storedAddr_first l addr first, ← word, octet_word6 addr i first]
    · rw [storedAddr_rest l addr rest]
      exact held i rest

/-- An end of a connection over IPv6 is decoded exactly when its address and its port
survive the parser. -/
theorem end6_decoded_iff {ntop6 : (Fin 16 → Byte) → List Char} (faithful : Function.Injective ntop6)
    (l : Locals) (addr : Fin 16 → Byte) (port : BitVec 16) :
    parseAddrPortPair ntop6 l (kernelEnd6 addr port) true = some (ntop6 addr, portText port) ↔
      Survives l addr port := by
  rw [parseAddrPortPair_end6, Option.some_inj, Prod.mk.injEq, faithful.eq_iff, storedAddr_eq_iff,
    shownPort_eq_iff]
  constructor
  · rintro ⟨⟨word, held⟩, port⟩
    exact ⟨word, held, port⟩
  · rintro ⟨word, held, port⟩
    exact ⟨⟨word, held⟩, port⟩

namespace Demo

/-- Groups of four digits with colons between them, none left out. -/
def groups : List (BitVec 16) → List Char
  | [] => []
  | [g] => numeral lowerDigit 16 g.toNat
  | g :: h :: gs => numeral lowerDigit 16 g.toNat ++ ':' :: groups (h :: gs)

/-- The eight groups of an address. -/
def group (addr : Fin 16 → Byte) (k : Fin 8) : BitVec 16 :=
  addr ⟨2 * k, by omega⟩ ++ addr ⟨2 * k + 1, by omega⟩

/-- The rendering of an address that has no groups of zeros to leave out. -/
def fullText (addr : Fin 16 → Byte) : List Char := groups (List.ofFn (group addr))

/-- A group and what stands behind it are read back. -/
theorem groups_cons (g : BitVec 16) {gs : List (BitVec 16)} (more : gs ≠ []) :
    Text.scan 16 (groups (g :: gs)) = some (g.toNat, ':' :: groups gs) := by
  cases gs with
  | nil => exact absurd rfl more
  | cons h gs =>
      exact scan_spells (spells_numeral (by decide) digit_lower g.toNat)
        (.cons (digit_none (by decide)))

theorem groups_injective :
    ∀ gs hs : List (BitVec 16), gs.length = hs.length → groups gs = groups hs → gs = hs := by
  intro gs
  induction gs with
  | nil =>
      intro hs length same
      exact (List.length_eq_zero_iff.mp length.symm).symm
  | cons g gs ih =>
      intro hs length same
      cases hs with
      | nil => cases length
      | cons h hs =>
          have rest : gs.length = hs.length := Nat.succ.inj length
          by_cases last : gs = []
          · subst last
            obtain rfl := List.length_eq_zero_iff.mp rest.symm
            have read := fun g : BitVec 16 =>
              scan_spells_nil (spells_numeral (by decide) digit_lower g.toNat)
            have both : some (g.toNat, []) = some (h.toNat, []) :=
              (read g).symm.trans ((congrArg (Text.scan 16) same).trans (read h))
            rw [BitVec.eq_of_toNat_eq (congrArg Prod.fst (Option.some.inj both))]
          · have more : hs ≠ [] := by
              intro none
              rw [none] at rest
              exact last (List.length_eq_zero_iff.mp rest)
            have both := (groups_cons g last).symm.trans
              ((congrArg (Text.scan 16) same).trans (groups_cons h more))
            obtain ⟨first, tail⟩ := Prod.mk.inj (Option.some.inj both)
            rw [BitVec.eq_of_toNat_eq first, ih hs rest (List.tail_eq_of_cons_eq tail)]

theorem fullText_injective : Function.Injective fullText := by
  intro a b same
  have lists := groups_injective _ _ (by rw [List.length_ofFn, List.length_ofFn]) same
  have equal : ∀ k, group a k = group b k := congrFun (List.ofFn_injective lists)
  have high : ∀ k : Fin 8, a ⟨2 * k, by omega⟩ = b ⟨2 * k, by omega⟩ := by
    intro k
    have := congrArg (BitVec.extractLsb' 8 8) (equal k)
    rwa [group, group, BitVec.extractLsb'_append_eq_left, BitVec.extractLsb'_append_eq_left] at this
  have low : ∀ k : Fin 8, a ⟨2 * k + 1, by omega⟩ = b ⟨2 * k + 1, by omega⟩ := by
    intro k
    have := congrArg (BitVec.extractLsb' 0 8) (equal k)
    rwa [group, group, BitVec.extractLsb'_append_eq_right,
      BitVec.extractLsb'_append_eq_right] at this
  funext i
  by_cases even : i.val % 2 = 0
  · have index : i = ⟨2 * (i / 2), by omega⟩ := Fin.ext (by simp only; omega)
    rw [index]
    exact high ⟨i / 2, by omega⟩
  · have index : i = ⟨2 * (i / 2) + 1, by omega⟩ := Fin.ext (by simp only; omega)
    rw [index]
    exact low ⟨i / 2, by omega⟩

/-- The address ffff:ffff:1:2:3:4:5:6. -/
def allOnesPrefix : Fin 16 → Byte :=
  ![0xff, 0xff, 0xff, 0xff, 0, 1, 0, 2, 0, 3, 0, 4, 0, 5, 0, 6]

/-- The address 2001:db8:1:2:3:4:5:6. -/
def documentation : Fin 16 → Byte :=
  ![0x20, 0x01, 0x0d, 0xb8, 0, 1, 0, 2, 0, 3, 0, 4, 0, 5, 0, 6]

/-- The local variables after a call that left an address in them. -/
def heldAddr (addr : Fin 16 → Byte) : Locals := ⟨0, addr, 0⟩

theorem allOnesPrefix_survives : Survives (heldAddr allOnesPrefix) allOnesPrefix 443 where
  word := by decide
  held _ _ := rfl
  port := .inl (by decide)

/-- What starts with all ones and is in place already is decoded. -/
theorem allOnesPrefix_decoded :
    parseAddrPortPair fullText (heldAddr allOnesPrefix) (kernelEnd6 allOnesPrefix 443) true =
      some (fullText allOnesPrefix, portText 443) :=
  (end6_decoded_iff fullText_injective _ _ _).mpr allOnesPrefix_survives

/-- An address is shown with all ones in front. -/
theorem documentation_lost :
    parseAddrPortPair fullText (heldAddr documentation) (kernelEnd6 documentation 443) true ≠
      some (fullText documentation, portText 443) := by
  rw [parseAddrPortPair_end6]
  intro same
  have texts := congrArg Prod.fst (Option.some.inj same)
  have bytes := congrFun (fullText_injective texts) 0
  exact absurd bytes (by decide)

end Demo

end Connections
