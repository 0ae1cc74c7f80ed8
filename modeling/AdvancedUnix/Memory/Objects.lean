import AdvancedUnix.Memory.Bytes

/-!
# Objects in a memory

A family of objects occupies regions of a memory, no two of which share a byte.
A word stored into one of them is read back there and nowhere else, so a
program that goes through its objects can be followed object by object. Two
memories agree on a family when every byte of every object is the same; what
lies between the objects is open.
-/

namespace Memory

universe u

variable {ι : Type u} {size : ι → Nat}

/-- Objects of given sizes at addresses where no two overlap. -/
structure Objects (size : ι → Nat) where
  address : ι → Addr
  apart : ∀ i j, i ≠ j → size i ≤ (address j - address i).toNat

namespace Objects

variable (o : Objects size)

/-- Every object but those left out is the same in two memories. -/
def AgreeBut (out : ι → Prop) (m m' : Bytes) : Prop :=
  ∀ i, ¬ out i → ∀ k < size i, m' (byteAddr (o.address i) k) = m (byteAddr (o.address i) k)

/-- Every object is the same in two memories. -/
def Agree (m m' : Bytes) : Prop := o.AgreeBut (fun _ => False) m m'

variable {o} {m m' m'' : Bytes} {out : ι → Prop}

/-- A byte of one object is outside every other one. -/
theorem outside {i j : ι} (other : i ≠ j) {k : Nat} (hk : k < size i) :
    size j ≤ (byteAddr (o.address i) k - o.address j).toNat := by
  have up := o.apart i j other
  have down := o.apart j i other.symm
  simp only [byteAddr]
  bv_omega

theorem AgreeBut.trans (h : o.AgreeBut out m m') (h' : o.AgreeBut out m' m'') :
    o.AgreeBut out m m'' :=
  fun i hi k hk => (h' i hi k hk).trans (h i hi k hk)

/-- A word of an object that is not left out. -/
theorem AgreeBut.load (h : o.AgreeBut out m m') {i : ι} (hi : ¬ out i) {off : Nat}
    (inside : off + 8 ≤ size i) :
    load m' (byteAddr (o.address i) off) = Memory.load m (byteAddr (o.address i) off) := by
  apply load_congr
  intro k hk
  rw [byteAddr_byteAddr]
  exact h i hi _ (by omega)

/-- A word stored in an object leaves the other objects alone. -/
theorem agreeBut_store {j : ι} {off : Nat} (inside : off + 8 ≤ size j) (w : Word) :
    o.AgreeBut (· = j) m (store m (byteAddr (o.address j) off) w) :=
  fun _ other _ hk => store_slot_outside (outside other hk) inside

end Objects

end Memory
