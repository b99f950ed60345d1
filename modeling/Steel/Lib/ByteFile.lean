import Mathlib.Data.List.Basic
import Mathlib.Data.List.TakeDrop

/-! # Byte files

A file is its list of bytes. Writing past the end fills the gap with zeros; reading a range is exact
and fails when the range leaves the file.
-/

namespace Steel

open List

abbrev ByteFile := List UInt8

namespace ByteFile

/-- Seek to an offset and write all of `data` there. -/
def writeAt (f : ByteFile) (off : ℕ) (data : List UInt8) : ByteFile :=
  if data = [] then f
  else f.take off ++ List.replicate (off - f.length) 0 ++ data ++ f.drop (off + data.length)

/-- Seek to an offset and read exactly `n` bytes. -/
def readExact (f : ByteFile) (off n : ℕ) : Option (List UInt8) :=
  if off + n ≤ f.length then some ((f.drop off).take n) else none

@[simp] theorem writeAt_nil (f : ByteFile) (off : ℕ) : writeAt f off [] = f := rfl

variable {f : ByteFile} {off : ℕ} {data : List UInt8}

theorem length_writeAt (h : data ≠ []) :
    (writeAt f off data).length = max f.length (off + data.length) := by
  simp only [writeAt, h, ↓reduceIte, length_append, length_take, length_replicate,
    length_drop]
  omega

theorem length_le_writeAt (f : ByteFile) (off : ℕ) (data : List UInt8) :
    f.length ≤ (writeAt f off data).length := by
  by_cases h : data = []
  · simp [h]
  · rw [length_writeAt h]; omega

theorem getElem?_writeAt_of_mem {i : ℕ} (h₁ : off ≤ i) (h₂ : i < off + data.length) :
    (writeAt f off data)[i]? = data[i - off]? := by
  have hd : data ≠ [] := by rintro rfl; simp at h₂; omega
  have hl : (f.take off ++ List.replicate (off - f.length) (0 : UInt8)).length = off := by
    simp; omega
  rw [writeAt, if_neg hd, append_assoc, List.getElem?_append_right (by omega), hl,
    List.getElem?_append_left (by omega)]

theorem getElem?_writeAt_of_not_mem {i : ℕ} (h : i < off ∨ off + data.length ≤ i)
    (hi : i < f.length) : (writeAt f off data)[i]? = f[i]? := by
  by_cases hd : data = []
  · simp [hd]
  have hl : (f.take off ++ List.replicate (off - f.length) (0 : UInt8)).length = off := by
    simp; omega
  rw [writeAt, if_neg hd]
  rcases h with h | h
  · rw [append_assoc, append_assoc, List.getElem?_append_left (by simp; omega),
      List.getElem?_take, if_pos h]
  · rw [List.getElem?_append_right (by simp; omega), List.getElem?_drop]
    congr 1
    simp only [length_append, length_take, length_replicate]
    omega

theorem readExact_eq_some_iff {n : ℕ} {bs : List UInt8} : readExact f off n = some bs ↔
      bs.length = n ∧ off + n ≤ f.length ∧ ∀ i < n, f[off + i]? = bs[i]? := by
  unfold readExact
  constructor
  · intro h
    split at h
    case isFalse => cases h
    case isTrue hle =>
      obtain rfl := Option.some.inj h
      refine ⟨by simp; omega, hle, fun i hi => ?_⟩
      simp [hi]
  · rintro ⟨hl, hle, he⟩
    rw [if_pos hle]
    congr 1
    apply ext_getElem?
    intro i
    by_cases hi : i < n
    · simp [hi, he i hi]
    · rw [List.getElem?_eq_none (by simp; omega), List.getElem?_eq_none (by omega)]

theorem readExact_writeAt_self (f : ByteFile) (off : ℕ) (h : data ≠ []) :
    readExact (writeAt f off data) off data.length = some data := by
  refine readExact_eq_some_iff.mpr ⟨rfl, ?_, fun i hi => ?_⟩
  · rw [length_writeAt h]; omega
  · rw [getElem?_writeAt_of_mem (by omega) (by omega)]
    congr 1; omega

theorem readExact_writeAt_of_disjoint {off' n : ℕ} {bs : List UInt8}
    (h : off' + n ≤ off ∨ off + data.length ≤ off') (hr : readExact f off' n = some bs) :
    readExact (writeAt f off data) off' n = some bs := by
  obtain ⟨hl, hle, he⟩ := readExact_eq_some_iff.mp hr
  refine readExact_eq_some_iff.mpr ⟨hl, Nat.le_trans hle (length_le_writeAt _ _ _), fun i hi => ?_⟩
  rw [← he i hi]
  apply getElem?_writeAt_of_not_mem <;> omega

theorem readExact_append_left {g : ByteFile} : readExact (f ++ g) 0 f.length = some f := by
  simp [readExact]

theorem readExact_append_right {g : ByteFile} : readExact (f ++ g) f.length g.length = some g := by
  simp [readExact]

end ByteFile

end Steel
