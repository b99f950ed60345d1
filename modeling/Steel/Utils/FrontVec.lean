import Steel.Utils.VarInt

/-! # Vectors with reserved front space

Packets are written behind some reserved bytes, into which their length is set
afterwards. Setting more bytes than are reserved is a panic.
-/

namespace Steel

open List

/-- The bytes before `frontSpace` are reserved. -/
structure FrontVec where
  buf : List UInt8
  frontSpace : ℕ
  frontSpace_le : frontSpace ≤ buf.length
  deriving DecidableEq

namespace FrontVec

def new (reserve : ℕ) : FrontVec := ⟨List.replicate reserve 0, reserve, by simp⟩

variable (v : FrontVec)

def len : ℕ := v.buf.length - v.frontSpace

def asSlice : List UInt8 := v.buf.drop v.frontSpace

def extendFromSlice (other : List UInt8) : FrontVec :=
  ⟨v.buf ++ other, v.frontSpace, by
    have := v.frontSpace_le
    rw [length_append]
    omega⟩

/-- `set_in_front`. `none` is the panic. -/
def setInFront (other : List UInt8) : Option FrontVec :=
  if h : other.length ≤ v.frontSpace then
    let newStart := v.frontSpace - other.length
    some ⟨v.buf.take newStart ++ other ++ v.buf.drop v.frontSpace, newStart, by
      have := v.frontSpace_le
      simp only [length_append, length_take, length_drop]
      omega⟩
  else none

@[simp] theorem len_eq : v.len = v.asSlice.length := by
  simp [len, asSlice]

@[simp] theorem frontSpace_new (reserve : ℕ) : (new reserve).frontSpace = reserve := rfl

@[simp] theorem asSlice_new (reserve : ℕ) : (new reserve).asSlice = [] := by
  simp [asSlice, new]

variable (other : List UInt8)

@[simp] theorem frontSpace_extendFromSlice :
    (v.extendFromSlice other).frontSpace = v.frontSpace := rfl

@[simp] theorem asSlice_extendFromSlice :
    (v.extendFromSlice other).asSlice = v.asSlice ++ other := by
  simp [asSlice, extendFromSlice, drop_append_of_le_length v.frontSpace_le]

theorem exists_setInFront (h : other.length ≤ v.frontSpace) :
    ∃ v', v.setInFront other = some v' ∧ v'.asSlice = other ++ v.asSlice ∧
      v'.frontSpace = v.frontSpace - other.length := by
  have hle := v.frontSpace_le
  refine ⟨_, dif_pos h, ?_, rfl⟩
  have htake : (v.buf.take (v.frontSpace - other.length)).length = v.frontSpace - other.length := by
    rw [length_take]
    omega
  simp only [asSlice]
  rw [append_assoc, drop_append_of_le_length (Nat.le_of_eq htake.symm),
    drop_eq_nil_of_le (Nat.le_of_eq htake), nil_append]

end FrontVec

/-- `VarInt::set_in_front`. The value is written to a buffer of zeros first. -/
def VarInt.setInFront (value : Int32) (v : FrontVec) (varintSize : ℕ) : Option FrontVec :=
  let buf := write value ++ List.replicate (MAX_SIZE - (write value).length) 0
  v.setInFront (buf.take varintSize)

theorem VarInt.setInFront_eq (value : Int32) (v : FrontVec) :
    setInFront value v (writtenSize value) = v.setInFront (write value) := by
  unfold setInFront
  rw [writtenSize_eq]
  simp

end Steel
