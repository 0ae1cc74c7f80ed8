import AdvancedUnix.Memory.Word

/-!
# Arguments and results in registers

The calling convention sees two widths of integers and pointers: a 32-bit value
stands in the lower half of its register, and the upper half is unspecified, both
when the value is passed and when it is read. Floating-point arguments are
counted on their own.

A function with a variable argument list reads on where its fixed parameters
end. `VaList` is that place together with what was passed there, so it can be
handed to another function, which then reads the same arguments.
-/

namespace X86

open Memory

/-- The C types of parameters and results, as far as registers tell them apart. -/
inductive CType
  | int
  | unsigned
  | longLong
  | pointer
  deriving DecidableEq

namespace CType

def wide : CType → Bool
  | int | unsigned => false
  | longLong | pointer => true

/-- The part of a register that a type reads, extended with zeros. -/
def value (t : CType) (v : Word) : Word := if t.wide then v else (v.setWidth 32).setWidth 64

/-- A value of the type in a register whose upper half may be anything. -/
def pass (t : CType) (upper : BitVec 32) (v : Word) : Word :=
  if t.wide then v else upper ++ v.setWidth 32

@[simp] theorem value_pass (t : CType) (upper : BitVec 32) (v : Word) :
    t.value (t.pass upper v) = t.value v := by
  unfold value pass
  cases t.wide with
  | true => rfl
  | false =>
      simp only [Bool.false_eq_true, if_false]
      congr 1
      apply BitVec.eq_of_getLsbD_eq
      intro i hi
      rw [BitVec.getLsbD_setWidth]
      erw [BitVec.getLsbD_append]
      simp [hi]

@[simp] theorem value_value (t : CType) (v : Word) : t.value (t.value v) = t.value v := by
  cases t <;> simp [value, wide]

end CType

/-- What the places for arguments hold, counted for integers and pointers and for
floating-point values. -/
structure Args where
  int : Nat → Word
  vector : Nat → Word

/-- The type of an argument. -/
inductive Slot
  | int (t : CType)
  | double
  deriving DecidableEq

/-- Read arguments of some types, from a place on. -/
def Args.read (a : Args) : Nat → Nat → List Slot → List Word
  | _, _, [] => []
  | i, j, .int t :: ts => t.value (a.int i) :: a.read (i + 1) j ts
  | i, j, .double :: ts => a.vector j :: a.read i (j + 1) ts

/-- The next arguments of a variable argument list. -/
structure VaList where
  args : Args
  int : Nat
  vector : Nat

/-- Read arguments of some types from a variable argument list. -/
def VaList.read (va : VaList) (ts : List Slot) : List Word := va.args.read va.int va.vector ts

namespace Args

/-- Read the fixed parameters of a function. -/
def params (a : Args) (ts : List CType) : List Word := a.read 0 0 (ts.map .int)

/-- The list that starts behind the fixed parameters. -/
def vaStart (a : Args) (fixed : Nat) : VaList := ⟨a, fixed, 0⟩

/-- Pass values of some types, over what the places held before. -/
def pass (left : Args) (upper : Nat → BitVec 32) (ts : List CType) (vs : List Word) : Args where
  int i := match ts[i]?, vs[i]? with
    | some t, some v => t.pass (upper i) v
    | _, _ => left.int i
  vector := left.vector

end Args

end X86
