import Steel.ChunkSaver.RegionManager

/-! # Sector allocation

The first-fit search returns sectors that no existing entry uses, as long as the end of the returned
range stays inside the 32-bit sector space.
-/

namespace Steel

open List RegionHeader ChunkEntry

theorem toNat_max (a b : UInt32) : (max a b).toNat = max a.toNat b.toNat := by
  rcases Nat.le_total a.toNat b.toNat with h | h
  · have he : max a b = b := if_pos h
    rw [he, max_eq_right h]
  · by_cases hle : a ≤ b
    · have he : max a b = b := if_pos hle
      rw [he, max_eq_right (UInt32.le_iff_toNat_le.mp hle)]
    · have he : max a b = a := if_neg hle
      rw [he, max_eq_left h]

namespace RegionHeader

variable {needed fs cur : UInt32} {ranges : List (UInt32 × UInt32)}

theorem le_firstGap : cur.toNat ≤ (firstGap needed fs cur ranges).toNat := by
  induction ranges generalizing cur with
  | nil => rw [firstGap, toNat_max]; exact le_max_left _ _
  | cons r ranges ih =>
    rw [firstGap]
    split
    · exact le_rfl
    · exact (le_max_left _ _).trans ((toNat_max _ _).ge.trans ih)

/-- Sorted ranges are all missed by the returned one, which lies below one of them or
past the end of the file. Wrapping sums are excluded by the bound on the result. -/
theorem firstGap_spec (hs : ranges.Pairwise fun r r' => r.1.toNat ≤ r'.1.toNat)
    (hlt : (firstGap needed fs cur ranges).toNat + needed.toNat < 2 ^ 32) :
    (∀ r ∈ ranges, r.2.toNat ≤ (firstGap needed fs cur ranges).toNat ∨
      (firstGap needed fs cur ranges).toNat + needed.toNat ≤ r.1.toNat) ∧
    (fs.toNat ≤ (firstGap needed fs cur ranges).toNat ∨ ∃ r ∈ ranges,
      (firstGap needed fs cur ranges).toNat + needed.toNat ≤ r.1.toNat) := by
  induction ranges generalizing cur with
  | nil =>
    rw [firstGap, toNat_max]
    exact ⟨by simp, .inl (le_max_right _ _)⟩
  | cons r ranges ih =>
    obtain ⟨start, stop⟩ := r
    obtain ⟨hhead, htail⟩ := pairwise_cons.mp hs
    have hcur : cur.toNat ≤ (firstGap needed fs cur ((start, stop) :: ranges)).toNat := le_firstGap
    have hsum : (cur + needed).toNat = cur.toNat + needed.toNat := by
      rw [UInt32.toNat_add, Nat.mod_eq_of_lt (by omega)]
    by_cases hgap : start ≥ cur + needed
    · have he : firstGap needed fs cur ((start, stop) :: ranges) = cur := by
        rw [firstGap, if_pos hgap]
      have hle : cur.toNat + needed.toNat ≤ start.toNat :=
        hsum ▸ UInt32.le_iff_toNat_le.mp hgap
      rw [he]
      refine ⟨?_, .inr ⟨_, mem_cons_self, hle⟩⟩
      rintro r hr
      rcases mem_cons.mp hr with rfl | hr
      · exact .inr hle
      · exact .inr (hle.trans (hhead r hr))
    · have he : firstGap needed fs cur ((start, stop) :: ranges) =
          firstGap needed fs (max cur stop) ranges := by rw [firstGap, if_neg hgap]
      rw [he] at hlt ⊢
      obtain ⟨hall, hend⟩ := ih htail hlt
      have hstop : stop.toNat ≤ (firstGap needed fs (max cur stop) ranges).toNat :=
        (le_max_right _ _).trans ((toNat_max _ _).ge.trans le_firstGap)
      refine ⟨?_, hend.imp id fun ⟨r, hr, h⟩ => ⟨r, mem_cons_of_mem _ hr, h⟩⟩
      rintro r hr
      rcases mem_cons.mp hr with rfl | hr
      · exact .inl hstop
      · exact hall r hr

variable {h : RegionHeader}

theorem mem_usedRanges {i : Fin chunksPerRegion} (he : (h.entries i).entryExists = true) :
    ((h.entries i).sectorOffset, (h.entries i).sectorOffset + (h.entries i).sectorCount) ∈
      h.usedRanges := by
  rw [usedRanges, mem_mergeSort, mem_map]
  exact ⟨h.entries i, mem_filter.mpr ⟨mem_ofFn.mpr ⟨i, rfl⟩, he⟩, rfl⟩

theorem of_mem_usedRanges {r : UInt32 × UInt32} (hr : r ∈ h.usedRanges) :
    ∃ i, (h.entries i).entryExists = true ∧
      r = ((h.entries i).sectorOffset, (h.entries i).sectorOffset + (h.entries i).sectorCount) := by
  rw [usedRanges, mem_mergeSort, mem_map] at hr
  obtain ⟨e, he, rfl⟩ := hr
  obtain ⟨hm, hex⟩ := mem_filter.mp he
  obtain ⟨i, rfl⟩ := mem_ofFn.mp hm
  exact ⟨i, hex, rfl⟩

theorem usedRanges_sorted (h : RegionHeader) :
    h.usedRanges.Pairwise fun r r' => r.1.toNat ≤ r'.1.toNat := by
  have hp := @List.pairwise_mergeSort _ (fun r r' : UInt32 × UInt32 => decide (r.1 ≤ r'.1))
    (fun a b c hab hbc => by
      simp only [decide_eq_true_eq] at *
      exact UInt32.le_trans hab hbc)
    (fun a b => by
      simp only [Bool.or_eq_true, decide_eq_true_eq]
      exact UInt32.le_total _ _)
    (((List.ofFn h.entries).filter entryExists).map fun e =>
      (e.sectorOffset, e.sectorOffset + e.sectorCount))
  exact hp.imp fun hle => UInt32.le_iff_toNat_le.mp (by simpa using hle)

@[simp] theorem usedRanges_new : new.usedRanges = [] := by
  have hf : (List.ofFn new.entries).filter entryExists = [] := by
    rw [filter_eq_nil_iff]
    intro e he
    obtain ⟨i, rfl⟩ := mem_ofFn.mp he
    simp
  rw [usedRanges, hf, map_nil, mergeSort_nil]

theorem usedRanges_single (i : Fin chunksPerRegion) {e : ChunkEntry} (he : e.entryExists = true) :
    (new.setEntry i e).usedRanges = [(e.sectorOffset, e.sectorOffset + e.sectorCount)] := by
  have hp : entryExists ∘ (new.setEntry i e).entries = fun j => decide (j = i) := by
    funext j
    by_cases hj : j = i
    · subst hj; simpa using he
    · simp [setEntry_of_ne _ hj, hj]
  have hf : (List.ofFn (new.setEntry i e).entries).filter entryExists = [e] := by
    rw [ofFn_eq_map, filter_map, hp, filter_eq,
      count_eq_one_of_mem (nodup_finRange _) (mem_finRange i)]
    simp
  rw [usedRanges, hf, map_singleton, mergeSort_singleton]

theorem Valid.findFreeSectors_spec {needed fs : UInt32} (hv : h.Valid fs.toNat) (hn : needed ≠ 0)
    (hlt : (h.findFreeSectors needed fs).toNat + needed.toNat < 2 ^ 32) :
    3 ≤ (h.findFreeSectors needed fs).toNat ∧ ∀ i, (h.entries i).entryExists = true →
        (h.entries i).endSector ≤ (h.findFreeSectors needed fs).toNat ∨
        (h.findFreeSectors needed fs).toNat + needed.toNat ≤ (h.entries i).sectorOffset.toNat := by
  have he : h.findFreeSectors needed fs = firstGap needed fs firstDataSector h.usedRanges := by
    rw [findFreeSectors, if_neg hn]
  rw [he] at hlt ⊢
  refine ⟨@le_firstGap _ _ firstDataSector _, fun i hex => ?_⟩
  have hend := (hv.validIn i hex).end_le
  have hfs := fs.toNat_lt
  have hsum : ((h.entries i).sectorOffset + (h.entries i).sectorCount).toNat =
      (h.entries i).endSector := by
    rw [UInt32.toNat_add]; exact Nat.mod_eq_of_lt (by unfold endSector at hend; omega)
  have hspec := (firstGap_spec h.usedRanges_sorted hlt).1 _ (mem_usedRanges hex)
  rwa [hsum] at hspec

end RegionHeader

def PayloadOk (c : List UInt8) : Prop := c ≠ [] ∧ c.length ≤ maxChunkSize

variable {c : List UInt8}

theorem toNat_sectorsFor (hc : PayloadOk c) : (sectorsFor c).toNat = (c.length + 4095) / 4096 := by
  have hmax : maxChunkSize = 16777216 := rfl
  have hle := hc.2
  rw [sectorsFor, UInt32.toNat_ofNat', Nat.ceilDiv_eq_add_pred_div, sectorSize]
  omega

theorem sectorsFor_pos (hc : PayloadOk c) : 0 < (sectorsFor c).toNat := by
  have := length_pos_iff.mpr hc.1
  rw [toNat_sectorsFor hc]; omega

theorem toNat_sizeBytes_entryOf (hc : PayloadOk c) (off : UInt32) (status : ChunkStatus) :
    (entryOf off c status).sizeBytes.toNat = c.length := by
  have hmax : maxChunkSize = 16777216 := rfl
  have hle := hc.2
  rw [entryOf, UInt32.toNat_ofNat']
  omega

theorem endSector_entryOf (hc : PayloadOk c) (off : UInt32) (status : ChunkStatus) :
    (entryOf off c status).endSector = off.toNat + (sectorsFor c).toNat := by
  rw [endSector, toNat_sectorCount, toNat_sizeBytes_entryOf hc,
    toNat_sectorsFor hc, Nat.ceilDiv_eq_add_pred_div]
  rfl

namespace RegionHandle

/-- The end of the range chosen for a payload stays in the 32-bit sector space. -/
def Fits (handle : RegionHandle) (i : Fin chunksPerRegion) (c : List UInt8) : Prop :=
  (handle.chooseSectors i (sectorsFor c)).toNat + (sectorsFor c).toNat < 2 ^ 32

variable {handle : RegionHandle} {i : Fin chunksPerRegion} {c : List UInt8}
  (status : ChunkStatus) (file : ByteFile)

theorem chooseSectors_spec (hv : handle.header.Valid handle.fileSectors.toNat)
    (hc : PayloadOk c) (hf : handle.Fits i c) :
    3 ≤ (handle.chooseSectors i (sectorsFor c)).toNat ∧
      ∀ j, j ≠ i → (handle.header.entries j).entryExists = true →
        (handle.header.entries j).endSector ≤ (handle.chooseSectors i (sectorsFor c)).toNat ∨
        (handle.chooseSectors i (sectorsFor c)).toNat + (sectorsFor c).toNat ≤
          (handle.header.entries j).sectorOffset.toNat := by
  unfold Fits at hf
  unfold chooseSectors at hf ⊢
  dsimp only at hf ⊢
  split at hf
  case isTrue hold =>
    rw [if_pos hold]
    obtain ⟨hex, hcount⟩ := hold
    refine ⟨(hv.validIn i hex).start_ge, fun j hj hexj => ?_⟩
    have hle := UInt32.le_iff_toNat_le.mp hcount
    rcases hv.disjoint j i hj hexj hex with h | h
    · exact .inl h
    · unfold endSector at h
      exact .inr (by omega)
  case isFalse hold =>
    rw [if_neg hold]
    have hn : sectorsFor c ≠ 0 := fun h0 => by
      have := sectorsFor_pos hc
      simp [h0] at this
    obtain ⟨h3, hall⟩ := hv.findFreeSectors_spec hn hf
    exact ⟨h3, fun j _ hexj => hall j hexj⟩

theorem storeChunk_header : (handle.storeChunk file i c status).1.header = handle.header.setEntry i
      (entryOf (handle.chooseSectors i (sectorsFor c)) c status) := rfl

theorem toNat_storeChunk_fileSectors (hf : handle.Fits i c) :
    (handle.storeChunk file i c status).1.fileSectors.toNat = max handle.fileSectors.toNat
        ((handle.chooseSectors i (sectorsFor c)).toNat + (sectorsFor c).toNat) := by
  have hsum : (handle.chooseSectors i (sectorsFor c) + sectorsFor c).toNat =
      (handle.chooseSectors i (sectorsFor c)).toNat + (sectorsFor c).toNat := by
    rw [UInt32.toNat_add, Nat.mod_eq_of_lt hf]
  simp only [storeChunk, writeChunkData]
  split
  case isTrue h =>
    rw [UInt32.lt_iff_toNat_lt] at h
    omega
  case isFalse h =>
    rw [UInt32.lt_iff_toNat_lt] at h
    omega

theorem valid_storeChunk (hv : handle.header.Valid handle.fileSectors.toNat)
    (hc : PayloadOk c) (hf : handle.Fits i c) :
    (handle.storeChunk file i c status).1.header.Valid
      (handle.storeChunk file i c status).1.fileSectors.toNat := by
  obtain ⟨h3, hfree⟩ := chooseSectors_spec hv hc hf
  have hfs := toNat_storeChunk_fileSectors status file hf
  rw [storeChunk_header, hfs]
  have hend := endSector_entryOf hc (handle.chooseSectors i (sectorsFor c)) status
  have hself : (entryOf (handle.chooseSectors i (sectorsFor c)) c status).ValidIn
      (max handle.fileSectors.toNat
        ((handle.chooseSectors i (sectorsFor c)).toNat + (sectorsFor c).toNat)) := by
    refine ⟨h3, ?_, ?_, ?_⟩
    · rw [toNat_sizeBytes_entryOf hc]; exact length_pos_iff.mpr hc.1
    · rw [toNat_sizeBytes_entryOf hc]; exact hc.2
    · rw [hend]; exact le_max_right _ _
  constructor
  · intro j hex
    by_cases hj : j = i
    · subst hj; rwa [setEntry_self]
    · rw [setEntry_of_ne _ hj] at hex ⊢
      exact (hv.validIn j hex).mono (le_max_left _ _)
  · have hnew : ∀ j, j ≠ i → (handle.header.entries j).entryExists = true →
        (handle.header.entries j).Disjoint
          (entryOf (handle.chooseSectors i (sectorsFor c)) c status) := by
      intro j hj hex
      unfold ChunkEntry.Disjoint
      rw [hend]
      exact hfree j hj hex
    intro j k hjk hexj hexk
    by_cases hj : j = i
    · subst hj
      rw [setEntry_of_ne _ hjk.symm] at hexk ⊢
      rw [setEntry_self]
      exact (hnew k hjk.symm hexk).symm
    · rw [setEntry_of_ne _ hj] at hexj ⊢
      by_cases hk : k = i
      · subst hk
        rw [setEntry_self]
        exact hnew j hj hexj
      · rw [setEntry_of_ne _ hk] at hexk ⊢
        exact hv.disjoint j k hjk hexj hexk

theorem valid_clear {h : RegionHeader} {fs : ℕ} (hv : h.Valid fs) (i : Fin chunksPerRegion) :
    (h.setEntry i .empty).Valid fs := by
  have hne : ∀ j, ((h.setEntry i .empty).entries j).entryExists = true →
      j ≠ i ∧ (h.setEntry i .empty).entries j = h.entries j := by
    intro j hex
    have hj : j ≠ i := by rintro rfl; simp at hex
    exact ⟨hj, setEntry_of_ne _ hj _⟩
  constructor
  · intro j hex
    obtain ⟨-, he⟩ := hne j hex
    rw [he] at hex ⊢
    exact hv.validIn j hex
  · intro j k hjk hj hk
    obtain ⟨-, ej⟩ := hne j hj
    obtain ⟨-, ek⟩ := hne k hk
    rw [ej] at hj ⊢
    rw [ek] at hk ⊢
    exact hv.disjoint j k hjk hj hk

end RegionHandle

end Steel
