import Mathlib.Algebra.Order.Floor.Div
import Mathlib.Data.Nat.Bitwise

/-! # Packing small numbers into 64-bit words

Each word holds as many entries of a fixed width as fit into it, lowest bits first.
-/

namespace Steel

open List Nat

namespace BitPack

variable {bits : ℕ}

def perWord (bits : ℕ) : ℕ := 64 / bits

/-- The entry `j` of a word. -/
def entry (bits : ℕ) (word : BitVec 64) (j : ℕ) : ℕ := (word >>> (j * bits)).toNat % 2 ^ bits

/-- The entry `i` of a sequence of words. -/
def entryAt (bits : ℕ) (words : List (BitVec 64)) (i : ℕ) : Option ℕ :=
  (words[i / perWord bits]?).map fun word => entry bits word (i % perWord bits)

def place (bits : ℕ) (v j : ℕ) : BitVec 64 := BitVec.ofNat 64 v <<< (j * bits)

variable (word : BitVec 64)

theorem entry_lt (j : ℕ) : entry bits word j < 2 ^ bits :=
  Nat.mod_lt _ (Nat.two_pow_pos bits)

theorem getLsbD_place (v j b : ℕ) :
    (place bits v j).getLsbD b = (decide (b < 64) && decide (j * bits ≤ b) &&
      v.testBit (b - j * bits)) := by
  rw [place, BitVec.getLsbD_shiftLeft, BitVec.getLsbD_ofNat]
  by_cases hb : b < 64
  · by_cases hj : j * bits ≤ b
    · simp [hb, hj, Nat.not_lt.mpr hj, Nat.lt_of_le_of_lt (Nat.sub_le b (j * bits)) hb]
    · simp [hj, Nat.lt_of_not_le hj]
  · simp [hb]

theorem mul_perWord_le {j : ℕ} (hj : j < perWord bits) : j * bits + bits ≤ 64 := by
  calc j * bits + bits = (j + 1) * bits := (succ_mul j bits).symm
    _ ≤ perWord bits * bits := mul_le_mul_right bits hj
    _ ≤ 64 := div_mul_le_self 64 bits

theorem entry_eq {word : BitVec 64} {j v : ℕ} (hv : v < 2 ^ bits)
    (h : ∀ b < bits, word.getLsbD (j * bits + b) = v.testBit b) : entry bits word j = v := by
  apply eq_of_testBit_eq
  intro b
  rw [entry, testBit_mod_two_pow, ← BitVec.getLsbD, BitVec.getLsbD_ushiftRight]
  by_cases hb : b < bits
  · simp [hb, h b hb]
  · have hlt : v < 2 ^ b := Nat.lt_of_lt_of_le hv (Nat.pow_le_pow_right (by decide) (by omega))
    simp [hb, Nat.testBit_lt_two_pow hlt]

theorem entry_unique {v j j' b : ℕ} (hv : v < 2 ^ bits) (hb : b < bits)
    (hle : j' * bits ≤ j * bits + b) (ht : v.testBit (j * bits + b - j' * bits) = true) :
    j' = j := by
  rcases lt_trichotomy j' j with hlt | heq | hgt
  · have hmul : (j' + 1) * bits ≤ j * bits := mul_le_mul_right bits hlt
    rw [succ_mul] at hmul
    have hbig : v < 2 ^ (j * bits + b - j' * bits) :=
      Nat.lt_of_lt_of_le hv (Nat.pow_le_pow_right (by decide) (by omega))
    rw [Nat.testBit_lt_two_pow hbig] at ht
    cases ht
  · exact heq
  · have hmul : (j + 1) * bits ≤ j' * bits := mul_le_mul_right bits hgt
    rw [succ_mul] at hmul
    omega

/-- Or several numbers into a word, each into its own entry. -/
def orEntries (bits : ℕ) (entries : List (ℕ × ℕ)) (word : BitVec 64) : BitVec 64 :=
  entries.foldl (fun word e => word ||| place bits e.1 e.2) word

@[simp] theorem orEntries_nil : orEntries bits [] word = word := rfl

theorem orEntries_cons (e : ℕ × ℕ) (entries : List (ℕ × ℕ)) (word : BitVec 64) :
    orEntries bits (e :: entries) word = orEntries bits entries (word ||| place bits e.1 e.2) := rfl

variable (entries : List (ℕ × ℕ))

theorem getLsbD_orEntries (b : ℕ) : (orEntries bits entries word).getLsbD b = true ↔
      word.getLsbD b = true ∨ ∃ e ∈ entries, (place bits e.1 e.2).getLsbD b = true := by
  induction entries generalizing word with
  | nil => simp
  | cons e entries ih =>
    rw [orEntries_cons, ih, BitVec.getLsbD_or, Bool.or_eq_true]
    simp [or_assoc]

theorem entry_orEntries {entries : List (ℕ × ℕ)} {v j : ℕ} (hmem : (v, j) ∈ entries)
    (hfit : ∀ e ∈ entries, e.1 < 2 ^ bits) (huniq : ∀ e ∈ entries, e.2 = j → e.1 = v)
    (hj : j < perWord bits) : entry bits (orEntries bits entries 0) j = v := by
  apply entry_eq (hfit _ hmem)
  intro b hb
  have hend := mul_perWord_le hj
  apply Bool.eq_iff_iff.mpr
  rw [getLsbD_orEntries]
  constructor
  · rintro (h0 | ⟨e, he, hbit⟩)
    · simp at h0
    · rw [getLsbD_place] at hbit
      simp only [Bool.and_eq_true, decide_eq_true_eq] at hbit
      have hej := entry_unique (hfit e he) hb hbit.1.2 hbit.2
      rw [← huniq e he hej, ← hej]
      simpa [hej] using hbit.2
  · intro hbit
    refine Or.inr ⟨(v, j), hmem, ?_⟩
    rw [getLsbD_place]
    simp [hbit]
    omega

def Holds (bits : ℕ) (words : List (BitVec 64)) (values : List ℕ) : Prop :=
  ∀ i v, values[i]? = some v → entryAt bits words i = some v

def scatter (bits : ℕ) (entries : List (ℕ × ℕ)) (words : List (BitVec 64)) : List (BitVec 64) :=
  entries.foldl (fun words e =>
    words.modify (e.2 / perWord bits) (· ||| place bits e.1 (e.2 % perWord bits))) words

variable (words : List (BitVec 64))

theorem getElem?_scatter (a : ℕ) :
    (scatter bits entries words)[a]? = (words[a]?).map (orEntries bits
      ((entries.filter fun e => e.2 / perWord bits = a).map
        fun e => (e.1, e.2 % perWord bits))) := by
  induction entries generalizing words with
  | nil =>
    have hid : orEntries bits [] = id := rfl
    simp [scatter, hid]
  | cons e entries ih =>
    rw [scatter, foldl_cons, ← scatter, ih, List.getElem?_modify]
    cases words[a]? with
    | none => rfl
    | some word =>
      by_cases ha : e.2 / perWord bits = a
      · rw [filter_cons_of_pos (by simpa using ha), map_cons]
        simp [ha, orEntries_cons]
      · rw [filter_cons_of_neg (by simpa using ha)]
        simp [ha]

@[simp] theorem length_scatter : (scatter bits entries words).length = words.length := by
  induction entries generalizing words with
  | nil => rfl
  | cons e entries ih => rw [scatter, foldl_cons, ← scatter, ih, length_modify]

/-- Values that fit their entries are held by the array they are or-ed into. -/
theorem holds_scatter {values : List ℕ} {n : ℕ} (hbits : 0 < perWord bits)
    (hfit : ∀ v ∈ values, v < 2 ^ bits) (hn : values.length ≤ n * perWord bits) :
    Holds bits (scatter bits values.zipIdx (List.replicate n 0)) values := by
  intro i v hv
  obtain ⟨hi, -⟩ := List.getElem?_eq_some_iff.mp hv
  have hword : i / perWord bits < n := Nat.div_lt_of_lt_mul (by rw [Nat.mul_comm]; omega)
  have hmem : (v, i) ∈ values.zipIdx := List.mem_zipIdx_iff_getElem?.mpr hv
  rw [entryAt, getElem?_scatter, List.getElem?_replicate, if_pos hword, Option.map_some,
    Option.map_some]
  refine congrArg some (entry_orEntries ?_ ?_ ?_ (mod_lt _ hbits))
  · exact mem_map.mpr ⟨(v, i), mem_filter.mpr ⟨hmem, by simp⟩, rfl⟩
  · rintro _ he
    obtain ⟨⟨w, k⟩, hk, rfl⟩ := mem_map.mp he
    exact hfit w (fst_mem_of_mem_zipIdx (mem_filter.mp hk).1)
  · rintro _ he heq
    obtain ⟨⟨w, k⟩, hk, rfl⟩ := mem_map.mp he
    have hw := List.mem_zipIdx_iff_getElem?.mp (mem_filter.mp hk).1
    have hdiv : k / perWord bits = i / perWord bits := by simpa using (mem_filter.mp hk).2
    have hmod : k % perWord bits = i % perWord bits := heq
    have hki : k = i := by
      rw [← div_add_mod k (perWord bits), ← div_add_mod i (perWord bits), hdiv, hmod]
    rw [hki] at hw
    exact Option.some.inj (hw.symm.trans hv)

def pack (bits : ℕ) (values : List ℕ) : List (BitVec 64) :=
  (List.range (values.length ⌈/⌉ perWord bits)).map fun i =>
    orEntries bits ((values.drop (i * perWord bits)).take (perWord bits)).zipIdx 0

def unpack (bits : ℕ) (words : List (BitVec 64)) : List ℕ :=
  words.flatMap fun word => (List.range (perWord bits)).map (entry bits word)

@[simp] theorem length_pack (values : List ℕ) :
    (pack bits values).length = values.length ⌈/⌉ perWord bits := by
  rw [pack, length_map, length_range]

theorem getElem?_unpack (hbits : 0 < perWord bits) (words : List (BitVec 64)) (i : ℕ) :
    (unpack bits words)[i]? = entryAt bits words i := by
  induction words generalizing i with
  | nil => simp [unpack, entryAt]
  | cons word words ih =>
    have hlen : ((List.range (perWord bits)).map (entry bits word)).length = perWord bits := by simp
    rw [unpack, flatMap_cons, ← unpack]
    rcases Nat.lt_or_ge i (perWord bits) with hi | hi
    · rw [List.getElem?_append_left (by rwa [hlen])]
      simp [entryAt, Nat.div_eq_of_lt hi, Nat.mod_eq_of_lt hi, hi]
    · obtain ⟨k, rfl⟩ := Nat.exists_eq_add_of_le hi
      rw [List.getElem?_append_right (by omega), hlen, Nat.add_sub_cancel_left, ih]
      simp [entryAt, Nat.add_div_left k hbits]

section

variable {values : List ℕ} (hbits : 0 < perWord bits) (hfit : ∀ v ∈ values, v < 2 ^ bits)

include hbits hfit

/-- Values that fit their entries are held by the words they are packed into. -/
theorem holds_pack : Holds bits (pack bits values) values := by
  intro i v hv
  obtain ⟨hi, -⟩ := List.getElem?_eq_some_iff.mp hv
  have hword : i / perWord bits < values.length ⌈/⌉ perWord bits := by
    apply Nat.div_lt_of_lt_mul
    calc i < values.length := hi
      _ ≤ perWord bits * (values.length ⌈/⌉ perWord bits) := le_smul_ceilDiv hbits
  have hj := Nat.mod_lt i hbits
  have hcell : ((values.drop (i / perWord bits * perWord bits)).take
      (perWord bits))[i % perWord bits]? = some v := by
    rw [List.getElem?_take_of_lt hj, List.getElem?_drop, Nat.div_add_mod', hv]
  rw [entryAt, pack, List.getElem?_map, List.getElem?_range hword, Option.map_some, Option.map_some]
  refine congrArg some (entry_orEntries (List.mem_zipIdx_iff_getElem?.mpr hcell) ?_ ?_ hj)
  · intro e he
    exact hfit _ (mem_of_mem_drop (mem_of_mem_take (fst_mem_of_mem_zipIdx he)))
  · rintro ⟨w, k⟩ he rfl
    exact Option.some.inj ((List.mem_zipIdx_iff_getElem?.mp he).symm.trans hcell)

theorem take_unpack_pack : (unpack bits (pack bits values)).take values.length = values := by
  apply ext_getElem?
  intro i
  rcases lt_or_ge i values.length with hi | hi
  · have hv := List.getElem?_eq_getElem hi
    rw [List.getElem?_take_of_lt hi, getElem?_unpack hbits, holds_pack hbits hfit i _ hv, hv]
  · rw [List.getElem?_eq_none (by simp; omega), List.getElem?_eq_none hi]

end

end BitPack

end Steel
