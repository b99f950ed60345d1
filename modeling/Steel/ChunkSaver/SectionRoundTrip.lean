import Steel.ChunkSaver.SectionStorage
import Steel.Lib.Fallible

/-! # Stored sections validate and load unchanged

The palettes of a builder only grow, so an index handed out for one section stays valid for the
finished chunk.
-/

namespace Steel

open Steel.Except (ok_bind)

open List PalettedContainer Nat

/-- The registry finds the state ids and biome ids by the names it gives them, and the
properties of a block have different names. -/
structure Registry.Lawful (registry : Registry) : Prop where
  stateIdFromProperties : ∀ id key, registry.byStateId id = some key →
    registry.stateIdFromProperties key (registry.getProperties id) = some id
  nodup_names : ∀ id key, registry.byStateId id = some key →
    ((registry.getProperties id).map Prod.fst).Nodup
  biomeIdFromKey : ∀ id key, registry.biomeById id = some key →
    registry.biomeIdFromKey key = some id

namespace Registry

variable (registry : Registry)

def blockEntry (id : BlockStateId) : Option PersistentBlockState :=
  (registry.byStateId id).map fun key => ⟨key, registry.getProperties id⟩

def biomeEntry (id : UInt16) : Option Identifier := registry.biomeById id.toNat

end Registry

/-- The entries are different and each of them belongs to a 16-bit id. -/
structure Interned {α : Type} (entryOf : UInt16 → Option α) (entries : List α) : Prop where
  nodup : entries.Nodup
  exists_id : ∀ entry ∈ entries, ∃ id, entryOf id = some entry

namespace Interned

variable {α : Type} {entryOf : UInt16 → Option α} {entries : List α}

theorem nil : Interned entryOf [] := ⟨nodup_nil, by simp⟩

theorem length_le (h : Interned entryOf entries) : entries.length ≤ 2 ^ 16 := by
  have hsub : entries.map some ⊆ (List.range (2 ^ 16)).map fun n => entryOf (UInt16.ofNat n) := by
    intro entry hentry
    obtain ⟨e, he, rfl⟩ := mem_map.mp hentry
    obtain ⟨id, hid⟩ := h.exists_id e he
    refine mem_map.mpr ⟨id.toNat, mem_range.mpr id.toNat_lt, ?_⟩
    rw [UInt16.ofNat_toNat, hid]
  have hnodup : (entries.map some).Nodup := h.nodup.map (Option.some_injective α)
  have hle := (subperm_of_subset hnodup hsub).length_le
  rwa [length_map, length_map, length_range] at hle

variable [DecidableEq α]

/-- An entry is found under the returned index, and the old entries keep theirs. -/
theorem ensureEntry (h : Interned entryOf entries) {id : UInt16} {entry : α}
    (hid : entryOf id = some entry) :
    ∃ index entries', ensureEntry entries entry = (index, entries') ∧
      Interned entryOf entries' ∧ entries <+: entries' ∧
      entries'[index.toNat]? = some entry := by
  unfold Steel.ensureEntry
  split
  case h_1 idx hidx =>
    obtain ⟨hlt, hget, -⟩ := List.findIdx?_eq_some_iff_getElem.mp hidx
    have hle := h.length_le
    refine ⟨_, _, rfl, h, prefix_rfl, ?_⟩
    rw [UInt16.toNat_ofNat', mod_eq_of_lt (by omega), List.getElem?_eq_getElem hlt]
    exact congrArg some (by simpa using hget)
  case h_2 hidx =>
    have hnot : entry ∉ entries := by
      intro hmem
      simpa using List.findIdx?_eq_none_iff.mp hidx entry hmem
    have hnew : Interned entryOf (entries ++ [entry]) := by
      constructor
      · exact h.nodup.append (nodup_singleton entry) (disjoint_singleton.mpr hnot)
      · intro e he
        rcases mem_append.mp he with he | he
        · exact h.exists_id e he
        · rw [mem_singleton.mp he]
          exact ⟨id, hid⟩
    have hle := hnew.length_le
    rw [length_append, length_singleton] at hle
    refine ⟨_, _, rfl, hnew, prefix_append _ _, ?_⟩
    rw [UInt16.toNat_ofNat', mod_eq_of_lt (by omega)]
    simp

end Interned

/-- The builder's palettes hold the entries of ids. -/
structure ChunkBuilder.Ok (registry : Registry) (builder : ChunkBuilder) : Prop where
  blockStates : Interned registry.blockEntry builder.blockStates
  biomes : Interned registry.biomeEntry builder.biomes

/-- Entries are only appended to the builder's palettes. -/
structure ChunkBuilder.Grows (builder builder' : ChunkBuilder) : Prop where
  blockStates : builder.blockStates <+: builder'.blockStates
  biomes : builder.biomes <+: builder'.biomes

namespace ChunkBuilder.Grows

variable {b b' b'' : ChunkBuilder}

theorem refl (b : ChunkBuilder) : Grows b b := ⟨prefix_rfl, prefix_rfl⟩

theorem trans (h : Grows b b') (h' : Grows b' b'') : Grows b b'' :=
  ⟨h.blockStates.trans h'.blockStates, h.biomes.trans h'.biomes⟩

end ChunkBuilder.Grows

theorem getElem?_of_prefix {α : Type} {l l' : List α} (h : l <+: l') {i : ℕ} {a : α}
    (ha : l[i]? = some a) : l'[i]? = some a := by
  obtain ⟨t, rfl⟩ := h
  rw [List.getElem?_append_left (List.getElem?_eq_some_iff.mp ha).1, ha]

section Builder

variable (registry : Registry)

/-- The index names the block state in the builder's palette. -/
def NamesState (builder : ChunkBuilder) (index : UInt16) (id : BlockStateId) : Prop :=
  ∃ entry, registry.blockEntry id = some entry ∧ builder.blockStates[index.toNat]? = some entry

def NamesBiome (builder : ChunkBuilder) (index : UInt16) (id : UInt16) : Prop :=
  ∃ entry, registry.biomeEntry id = some entry ∧ builder.biomes[index.toNat]? = some entry

def Hands (names : ChunkBuilder → UInt16 → UInt16 → Prop)
    (ensure : ChunkBuilder → UInt16 → Except Failure (UInt16 × ChunkBuilder))
    (id : UInt16) : Prop :=
  ∀ b : ChunkBuilder, b.Ok registry → ∃ index b', ensure b id = .ok (index, b') ∧ b'.Ok registry ∧
    b.Grows b' ∧ names b' index id

end Builder

variable {registry : Registry}
variable {id : BlockStateId} {b : ChunkBuilder} {index : UInt16} {chunk : PersistentChunk}

theorem ensureBlockState_hands (hid : (registry.byStateId id).isSome = true) :
    Hands registry (NamesState registry) (ensureBlockState registry) id := by
  intro b hb
  obtain ⟨key, hkey⟩ := Option.isSome_iff_exists.mp hid
  have hentry : registry.blockEntry id = some ⟨key, registry.getProperties id⟩ := by
    rw [Registry.blockEntry, hkey]
    rfl
  obtain ⟨index, entries, hensure, hint, hpre, hget⟩ := hb.blockStates.ensureEntry hentry
  refine ⟨index, ⟨entries, b.biomes⟩, ?_, ⟨hint, hb.biomes⟩, ⟨hpre, prefix_rfl⟩,
    ⟨_, hentry, hget⟩⟩
  simp only [ensureBlockState, hkey, unwrap, ok_bind, hensure]

variable {id : UInt16}

theorem ensureBiome_hands (hid : (registry.biomeById id.toNat).isSome = true) :
    Hands registry (NamesBiome registry) (ensureBiome registry) id := by
  intro b hb
  obtain ⟨key, hkey⟩ := Option.isSome_iff_exists.mp hid
  have hentry : registry.biomeEntry id = some key := hkey
  obtain ⟨index, entries, hensure, hint, hpre, hget⟩ := hb.biomes.ensureEntry hentry
  refine ⟨index, ⟨b.blockStates, entries⟩, ?_, ⟨hb.blockStates, hint⟩, ⟨prefix_rfl, hpre⟩,
    ⟨_, hentry, hget⟩⟩
  simp only [ensureBiome, hkey, unwrap, ok_bind, hensure]

theorem NamesState.mono {b' : ChunkBuilder} (h : NamesState registry b index id) (hb : b.Grows b') :
    NamesState registry b' index id := by
  obtain ⟨entry, hentry, hget⟩ := h
  exact ⟨entry, hentry, getElem?_of_prefix hb.blockStates hget⟩

theorem NamesBiome.mono {b' : ChunkBuilder} (h : NamesBiome registry b index id)
    (hb : b.Grows b') : NamesBiome registry b' index id := by
  obtain ⟨entry, hentry, hget⟩ := h
  exact ⟨entry, hentry, getElem?_of_prefix hb.biomes hget⟩

variable {names : ChunkBuilder → UInt16 → UInt16 → Prop}

variable {ensure : ChunkBuilder → UInt16 → Except Failure (UInt16 × ChunkBuilder)}

theorem ensureAll_hands {values : List UInt16}
    (hmono : ∀ b b' index id, names b index id → b.Grows b' → names b' index id)
    (hands : ∀ id ∈ values, Hands registry names ensure id) (hb : b.Ok registry) :
    ∃ palette b', ensureAll ensure b values = .ok (palette, b') ∧ b'.Ok registry ∧ b.Grows b' ∧
      List.Forall₂ (names b') palette values := by
  induction values generalizing b with
  | nil => exact ⟨[], b, rfl, hb, .refl b, .nil⟩
  | cons id values ih =>
    obtain ⟨index, b₁, hensure, hb₁, hgrow₁, hname⟩ := hands id mem_cons_self b hb
    obtain ⟨palette, b₂, hall, hb₂, hgrow₂, hnames⟩ :=
      ih (fun id' hid' => hands id' (mem_cons_of_mem id hid')) hb₁
    refine ⟨index :: palette, b₂, ?_, hb₂, hgrow₁.trans hgrow₂,
      .cons (hmono _ _ _ _ hname hgrow₂) hnames⟩
    simp only [ensureAll, hensure, ok_bind, hall]

theorem bitsForPaletteLen_spec {len : ℕ} (h2 : 2 ≤ len) (hle : len ≤ 2 ^ 16) :
    ∃ bits, bitsForPaletteLen len = some bits ∧ 0 < bits.toNat ∧ bits.toNat ≤ 16 ∧
      len ≤ 2 ^ bits.toNat := by
  unfold bitsForPaletteLen
  rw [if_neg (by omega)]
  split
  case isTrue h => exact ⟨1, rfl, by decide, by decide, h⟩
  split
  case isTrue h => exact ⟨2, rfl, by decide, by decide, h⟩
  split
  case isTrue h => exact ⟨4, rfl, by decide, by decide, h⟩
  split
  case isTrue h => exact ⟨8, rfl, by decide, by decide, h⟩
  case isFalse => exact ⟨16, rfl, by decide, by decide, hle⟩

theorem validatePackedPalette_eq_ok {palette : List UInt16} {bits : UInt8}
    {data : List (BitVec 64)} {entryCount globalPaletteLen : ℕ} {name : String}
    (hbits : bitsForPaletteLen palette.length = some bits)
    (hwords : data.length = entryCount ⌈/⌉ (64 / bits.toNat))
    (hglobal : ∀ index ∈ palette, index.toNat < globalPaletteLen)
    (hlocal : ∀ index ∈ (unpackIndices data bits).take entryCount, index.toNat < palette.length) :
    validatePackedPalette palette bits data entryCount globalPaletteLen name = .ok () := by
  have hg : palette.find? (fun index => globalPaletteLen ≤ index.toNat) = none := by
    rw [List.find?_eq_none]
    intro index hindex
    simpa using hglobal index hindex
  have hl : ((unpackIndices data bits).take entryCount).find?
      (fun index => palette.length ≤ index.toNat) = none := by
    rw [List.find?_eq_none]
    intro index hindex
    simpa using hlocal index hindex
  simp [validatePackedPalette, hbits, hwords, hg, hl]

section Packed

variable {V : Type} [DecidableEq V] {d : ℕ} {data : HeterogeneousPalette V d}
variable (ht : Tallies data.cube.flat data.palette)
include ht

open PalettedContainer

theorem palette_length_le : data.palette.length ≤ d * d * d := by
  have hsub : data.palette.map Prod.fst ⊆ data.cube.flat := fun v hv => ht.mem_fst_iff.mp hv
  have hle := (subperm_of_subset ht.nodup hsub).length_le
  rwa [length_map, Cube.length_flat] at hle

theorem cellIndices_eq : cellIndices data = positions data := by
  apply map_congr_left
  intro v hv
  rw [(position_spec ht hv).1]
  rfl

/-- The packed positions come back in front of the padding of the last word. -/
theorem take_unpackIndices {bits : UInt8} (hpos : 0 < bits.toNat) (h16 : bits.toNat ≤ 16)
    (hlen : data.palette.length ≤ 2 ^ bits.toNat) :
    (unpackIndices (packIndices (cellIndices data) bits) bits).take (d * d * d) =
      positions data := by
  have hword : 0 < BitPack.perWord bits.toNat := Nat.div_pos (by omega) hpos
  have hpow : 2 ^ bits.toNat ≤ 2 ^ 16 := Nat.pow_le_pow_right (by decide) h16
  have htoNat := map_toNat_positions ht (by omega)
  have hcount : ((positions data).map UInt32.toNat).length = d * d * d := by
    rw [length_map, positions, length_map, Cube.length_flat]
  have hfit : ∀ n ∈ (positions data).map UInt32.toNat, n < 2 ^ bits.toNat := by
    rw [htoNat]
    intro n hn
    obtain ⟨v, hv, rfl⟩ := mem_map.mp hn
    exact lt_of_lt_of_le (position_lt ht hv) hlen
  have hround := BitPack.take_unpack_pack hword hfit
  rw [hcount] at hround
  rw [cellIndices_eq ht, packIndices, unpackIndices, ← map_take, hround, map_map]
  simp [Function.comp_def]

theorem fillCube_eq_ok {indices : List UInt32} (hlen : data.palette.length < 2 ^ 32)
    (hind : indices.take (d * d * d) = positions data) :
    fillCube (data.palette.map Prod.fst) indices = .ok data.cube := by
  have hcell : ∀ i : Fin (d * d * d), ((indices[(i : ℕ)]?).bind fun index =>
      (data.palette.map Prod.fst)[index.toNat]?) = some (data.cube.atIndex i) := by
    intro i
    have hmem : data.cube.atIndex i ∈ data.cube.flat := by
      rw [Cube.flat_eq_ofFn]
      exact mem_ofFn.mpr ⟨i, rfl⟩
    have hi : indices[(i : ℕ)]? =
        some (UInt32.ofNat (position data.palette (data.cube.atIndex i))) := by
      rw [← List.getElem?_take_of_lt i.isLt, hind, positions, List.getElem?_map,
        Cube.flat_eq_ofFn, List.getElem?_ofFn, dif_pos i.isLt]
      rfl
    obtain ⟨c, hc⟩ := (position_spec ht hmem).2
    rw [hi, Option.bind_some,
      UInt32.toNat_ofNat_of_lt' (lt_trans (position_lt ht hmem) hlen), List.getElem?_map, hc]
    rfl
  have hall : ∀ i : Fin (d * d * d), ((indices[(i : ℕ)]?).bind fun index =>
      (data.palette.map Prod.fst)[index.toNat]?).isSome = true := by
    intro i
    rw [hcell i]
    rfl
  rw [fillCube, dif_pos hall]
  refine congrArg Except.ok ?_
  funext y z x
  rw [← Cube.atIndex_index x y z data.cube]
  exact Option.get_of_eq_some _ (hcell _)

end Packed

def PersistentChunk.builder (chunk : PersistentChunk) : ChunkBuilder :=
  ⟨chunk.blockStates, chunk.biomes⟩

theorem resolveBlockState_eq_ok (hreg : registry.Lawful)
    (h : NamesState registry chunk.builder index id) :
    resolveBlockState registry chunk index = .ok id := by
  obtain ⟨entry, hentry, hget⟩ := h
  obtain ⟨key, hkey, rfl⟩ := Option.map_eq_some_iff.mp hentry
  have hnames := hreg.nodup_names id key hkey
  have hget' : chunk.blockStates[index.toNat]? = some ⟨key, registry.getProperties id⟩ := hget
  simp only [resolveBlockState, hget', hreg.stateIdFromProperties id key hkey]
  rw [List.Nodup.dedup hnames]
  simp

theorem resolveBiome_eq_ok (hreg : registry.Lawful)
    (h : NamesBiome registry chunk.builder index id) :
    resolveBiome registry chunk index = .ok id := by
  obtain ⟨key, hkey, hget⟩ := h
  have hget' : chunk.biomes[index.toNat]? = some key := hget
  simp only [resolveBiome, hget', hreg.biomeIdFromKey id.toNat key hkey]
  rw [if_pos id.toNat_lt, UInt16.ofNat_toNat]

theorem exists_of_forall₂ {α β : Type} {R : α → β → Prop} {l : List α} {r : List β}
    (h : List.Forall₂ R l r) {a : α} (ha : a ∈ l) : ∃ b, R a b := by
  induction h with
  | nil => simp at ha
  | cons hab _ ih =>
    rcases mem_cons.mp ha with rfl | ha
    · exact ⟨_, hab⟩
    · exact ih ha

theorem NamesState.lt (h : NamesState registry b index id) :
    index.toNat < b.blockStates.length := by
  obtain ⟨entry, -, hget⟩ := h
  exact (List.getElem?_eq_some_iff.mp hget).1

theorem NamesBiome.lt (h : NamesBiome registry b index id) :
    index.toNat < b.biomes.length := by
  obtain ⟨entry, -, hget⟩ := h
  exact (List.getElem?_eq_some_iff.mp hget).1

/-- A container that is not being built, of cells with a property. -/
structure Finalized {d : ℕ} (c : PalettedContainer UInt16 d) (registered : UInt16 → Prop) :
    Prop where
  exists_cube : ∃ cube, c.Represents cube ∧ ∀ v ∈ cube.flat, registered v
  ne_building : ∀ cells, c ≠ .building cells

/-- The parts of a stored container: a palette of indices, the width of a position in it and
the packed positions. -/
theorem packed_hands {d : ℕ}
    {data : HeterogeneousPalette UInt16 d} {volume : ℕ} (hvol : d * d * d = volume)
    (hd : volume ≤ 2 ^ 16) (hrep : (heterogeneous data).Represents data.cube)
    (hmono : ∀ b b' index id, names b index id → b.Grows b' → names b' index id)
    (hands : ∀ v ∈ data.cube.flat, Hands registry names ensure v) (hb : b.Ok registry) :
    ∃ palette b' bits, ensureAll ensure b (data.palette.map Prod.fst) = .ok (palette, b') ∧
      bitsForPaletteLen palette.length = some bits ∧ b'.Ok registry ∧ b.Grows b' ∧
      List.Forall₂ (names b') palette (data.palette.map Prod.fst) ∧
      (∀ len name, (∀ index ∈ palette, index.toNat < len) →
        validatePackedPalette palette bits (packIndices (cellIndices data) bits) volume len
          name = .ok ()) ∧
      fillCube (data.palette.map Prod.fst)
        (unpackIndices (packIndices (cellIndices data) bits) bits) = .ok data.cube := by
  subst hvol
  obtain ⟨-, ht, h2⟩ := hrep
  have hle := palette_length_le ht
  have hvalues : ∀ v ∈ data.palette.map Prod.fst, Hands registry names ensure v := fun v hv =>
    hands v (ht.mem_fst_iff.mp hv)
  obtain ⟨palette, b', hall, hb', hgrow, hnames⟩ := ensureAll_hands hmono hvalues hb
  have hlen : palette.length = data.palette.length := by
    rw [hnames.length_eq, length_map]
  obtain ⟨bits, hbits, hpos, h16, hfit⟩ := bitsForPaletteLen_spec h2 (hle.trans hd)
  have htake := take_unpackIndices ht hpos h16 hfit
  refine ⟨palette, b', bits, hall, hlen ▸ hbits, hb', hgrow, hnames, ?_,
    fillCube_eq_ok ht (by omega) htake⟩
  intro len name hglobal
  refine validatePackedPalette_eq_ok (hlen ▸ hbits) ?_ hglobal ?_
  · rw [packIndices, BitPack.length_pack, length_map, cellIndices, length_map, Cube.length_flat]
    rfl
  · rw [htake, hlen]
    intro index hindex
    obtain ⟨v, hv, rfl⟩ := mem_map.mp hindex
    have hlt := position_lt ht hv
    have hsize : position data.palette v < UInt32.size :=
      lt_of_lt_of_le hlt ((hle.trans hd).trans (by decide))
    rwa [UInt32.toNat_ofNat_of_lt' hsize]

theorem biomesToPersistent_spec (hreg : registry.Lawful) {c : BiomePalette}
    (hc : Finalized c fun v => (registry.biomeById v.toNat).isSome = true) (hb : b.Ok registry) :
    ∃ p b', biomesToPersistent registry b c = .ok (p, b') ∧ b'.Ok registry ∧ b.Grows b' ∧
      ∀ chunk : PersistentChunk, b'.Grows chunk.builder → (∀ i, validateBiomes chunk i p = .ok ()) ∧
        ∃ c', persistentToBiomes registry chunk p = .ok c' ∧
          ∀ x y z, c'.get x y z = c.get x y z := by
  obtain ⟨⟨cube, hrep, hids⟩, hne⟩ := hc
  cases c with
  | homogeneous v =>
    obtain rfl : cube = .const v := hrep
    have hv : (registry.biomeById v.toNat).isSome = true :=
      hids v (Cube.mem_flat.mpr ⟨0, 0, 0, rfl⟩)
    obtain ⟨index, b', hensure, hb', hgrow, hname⟩ := ensureBiome_hands hv b hb
    refine ⟨.homogeneous index, b', ?_, hb', hgrow, fun chunk hchunk => ⟨fun i => ?_, ?_⟩⟩
    · simp only [biomesToPersistent, hensure, ok_bind]
    · have hlt : index.toNat < chunk.biomes.length := (hname.mono hchunk).lt
      simp only [validateBiomes]
      rw [if_neg (by omega)]
    · refine ⟨.homogeneous v, ?_, fun x y z => rfl⟩
      simp only [persistentToBiomes, resolveBiome_eq_ok hreg (hname.mono hchunk), ok_bind]
  | heterogeneous data =>
    obtain rfl : data.cube = cube := hrep.1
    have hands : ∀ v ∈ data.cube.flat, Hands registry (NamesBiome registry)
        (ensureBiome registry) v := fun v hv => ensureBiome_hands (hids v hv)
    obtain ⟨palette, b', bits, hall, hbits, hb', hgrow, hnames, hvalid, hfill⟩ :=
      packed_hands rfl (by decide) hrep (fun _ _ _ _ h => h.mono) hands hb
    refine ⟨.heterogeneous palette bits (packIndices (cellIndices data) bits), b', ?_, hb', hgrow,
      fun chunk hchunk => ?_⟩
    · simp only [biomesToPersistent, hall, ok_bind, hbits, unwrap]
    · have hnames' := hnames.imp fun _ _ h => NamesBiome.mono h hchunk
      constructor
      · intro i
        apply hvalid
        intro index hindex
        obtain ⟨v, hv⟩ := exists_of_forall₂ hnames' hindex
        exact hv.lt
      · refine ⟨.fromCube data.cube, ?_, fun x y z => ?_⟩
        · have hmap :
              palette.mapM (resolveBiome registry chunk) = .ok (data.palette.map Prod.fst) :=
            Except.mapM_eq_ok.2 (hnames'.imp fun _ _ h => resolveBiome_eq_ok hreg h)
          simp only [persistentToBiomes, hmap, ok_bind, hfill]
        · have hcube := represents_fromCube (by decide) (by decide) data.cube
          rw [get_eq hcube, get_eq hrep]
  | building cells => exact absurd rfl (hne cells)

/-- The containers of the section are finalized and hold registered ids. -/
structure ChunkSection.Storable (registry : Registry) (s : ChunkSection) : Prop where
  states : Finalized s.states fun v => (registry.byStateId v).isSome = true
  biomes : Finalized s.biomes fun v => (registry.biomeById v.toNat).isSome = true

/-- The stored section passes validation and is loaded with the same cells. -/
structure Restores (registry : Registry) (chunk : PersistentChunk) (s : ChunkSection)
    (p : PersistentSection) : Prop where
  valid : ∀ i, validateSection chunk i p = .ok ()
  loads : ∃ s', persistentToSection registry chunk p = .ok s' ∧
    (∀ x y z, s'.states.get x y z = s.states.get x y z) ∧
    ∀ x y z, s'.biomes.get x y z = s.biomes.get x y z

theorem persistentToSection_heterogeneous {palette : List UInt16} {bits : UInt8}
    {words : List (BitVec 64)} {biomes : PersistentBiomeData} {runtimePalette : List BlockStateId}
    {cube : Cube BlockStateId 16} {c : BiomePalette}
    (hmap : palette.mapM (resolveBlockState registry chunk) = .ok runtimePalette)
    (hfill : fillCube runtimePalette (unpackIndices words bits) = .ok cube)
    (hload : persistentToBiomes registry chunk biomes = .ok c) :
    persistentToSection registry chunk (.heterogeneous palette bits words biomes) =
      .ok (.newWithBiomes (.fromCube cube) c) := by
  rw [persistentToSection, hmap, ok_bind, hfill, ok_bind, hload, ok_bind]

theorem sectionToPersistent_spec (hreg : registry.Lawful) {s : ChunkSection}
    (hs : s.Storable registry) (hb : b.Ok registry) :
    ∃ p b', sectionToPersistent registry b s = .ok (p, b') ∧ b'.Ok registry ∧ b.Grows b' ∧
      ∀ chunk : PersistentChunk, b'.Grows chunk.builder → Restores registry chunk s p := by
  obtain ⟨pb, b₁, hbiomes, hb₁, hgrow₁, hrest⟩ := biomesToPersistent_spec hreg hs.biomes hb
  obtain ⟨⟨cube, hrep, hids⟩, hne⟩ := hs.states
  cases hstates : s.states with
  | homogeneous v =>
    rw [hstates] at hrep
    obtain rfl : cube = .const v := hrep
    have hv : (registry.byStateId v).isSome = true := hids v (Cube.mem_flat.mpr ⟨0, 0, 0, rfl⟩)
    obtain ⟨index, b₂, hensure, hb₂, hgrow₂, hname⟩ := ensureBlockState_hands hv b₁ hb₁
    refine ⟨.homogeneous index pb, b₂, ?_, hb₂, hgrow₁.trans hgrow₂, fun chunk hchunk => ?_⟩
    · simp only [sectionToPersistent, hbiomes, ok_bind, hstates, hensure]
    · obtain ⟨hvalid, c', hload, hget⟩ := hrest chunk (hgrow₂.trans hchunk)
      have hname' := hname.mono hchunk
      constructor
      · intro i
        have hlt : index.toNat < chunk.blockStates.length := hname'.lt
        simp only [validateSection]
        rw [if_neg (by omega), hvalid]
      · refine ⟨.newWithBiomes (.homogeneous v) c', ?_, fun x y z => ?_, hget⟩
        · simp only [persistentToSection, resolveBlockState_eq_ok hreg hname', ok_bind, hload]
        · rw [hstates]
          rfl
  | heterogeneous data =>
    rw [hstates] at hrep
    obtain rfl : data.cube = cube := hrep.1
    have hands : ∀ v ∈ data.cube.flat, Hands registry (NamesState registry)
        (ensureBlockState registry) v := fun v hv => ensureBlockState_hands (hids v hv)
    obtain ⟨palette, b₂, bits, hall, hbits, hb₂, hgrow₂, hnames, hpacked, hfill⟩ :=
      packed_hands rfl (by decide) hrep (fun _ _ _ _ h => h.mono) hands hb₁
    refine ⟨.heterogeneous palette bits (packIndices (cellIndices data) bits) pb, b₂, ?_, hb₂,
      hgrow₁.trans hgrow₂, fun chunk hchunk => ?_⟩
    · simp only [sectionToPersistent, hbiomes, ok_bind, hstates, hall, hbits, unwrap]
    · obtain ⟨hvalid, c', hload, hget⟩ := hrest chunk (hgrow₂.trans hchunk)
      have hnames' := hnames.imp fun _ _ h => NamesState.mono h hchunk
      constructor
      · intro i
        have hlt : ∀ index ∈ palette, index.toNat < chunk.blockStates.length := by
          intro index hindex
          obtain ⟨v, hv⟩ := exists_of_forall₂ hnames' hindex
          exact hv.lt
        simp only [validateSection]
        rw [hpacked _ _ hlt]
        exact hvalid i
      · refine ⟨.newWithBiomes (.fromCube data.cube) c', ?_, fun x y z => ?_, hget⟩
        · have hmap : palette.mapM (resolveBlockState registry chunk) =
              .ok (data.palette.map Prod.fst) :=
            Except.mapM_eq_ok.2 (hnames'.imp fun _ _ h => resolveBlockState_eq_ok hreg h)
          exact persistentToSection_heterogeneous hmap hfill hload
        · have hcube := represents_fromCube (by decide) (by decide) data.cube
          rw [hstates, ChunkSection.newWithBiomes_states, get_eq hrep,
            get_eq hcube]
  | building cells => exact absurd hstates (hne cells)

variable {sections : List ChunkSection}

theorem sectionsToPersistent_spec (hreg : registry.Lawful)
    (hs : ∀ s ∈ sections, s.Storable registry) (hb : b.Ok registry) :
    ∃ ps b', sectionsToPersistent registry b sections = .ok (ps, b') ∧ b'.Ok registry ∧
      b.Grows b' ∧ ∀ chunk : PersistentChunk, b'.Grows chunk.builder →
        List.Forall₂ (Restores registry chunk) sections ps := by
  induction sections generalizing b with
  | nil => exact ⟨[], b, rfl, hb, .refl b, fun _ _ => .nil⟩
  | cons s sections ih =>
    obtain ⟨p, b₁, hstore, hb₁, hgrow₁, hrest₁⟩ :=
      sectionToPersistent_spec hreg (hs s mem_cons_self) hb
    obtain ⟨ps, b₂, hstores, hb₂, hgrow₂, hrest₂⟩ :=
      ih (fun s' hs' => hs s' (mem_cons_of_mem s hs')) hb₁
    refine ⟨p :: ps, b₂, ?_, hb₂, hgrow₁.trans hgrow₂, fun chunk hchunk =>
      .cons (hrest₁ chunk (hgrow₂.trans hchunk)) (hrest₂ chunk hchunk)⟩
    simp only [sectionsToPersistent, hstore, ok_bind, hstores]

theorem validateSectionsFrom_eq_ok {ps : List PersistentSection}
    (h : List.Forall₂ (Restores registry chunk) sections ps) (i : ℕ) :
    validateSectionsFrom chunk i ps = .ok () := by
  induction h generalizing i with
  | nil => rfl
  | cons hp _ ih => simp only [validateSectionsFrom, hp.valid, ih]

/-- Storing all sections of a chunk through one builder succeeds. In every chunk with these
sections and palettes all sections pass validation, so that the chunk passes if its other fields
do, and every section is loaded with the same cells. -/
theorem sections_round_trip (hreg : registry.Lawful) (sections : List ChunkSection)
    (hs : ∀ s ∈ sections, s.Storable registry) :
    ∃ ps b, sectionsToPersistent registry .new sections = .ok (ps, b) ∧
      ∀ chunk : PersistentChunk, chunk.sections = ps → chunk.blockStates = b.blockStates →
        chunk.biomes = b.biomes →
        validateSectionsFrom chunk 0 chunk.sections = .ok () ∧
        (∀ status minY height, validateRange chunk minY height = .ok () →
          validateRest chunk status minY height = .ok () →
          validatePersistentChunk chunk status minY height = .ok ()) ∧
        List.Forall₂ (fun s p => ∃ s', persistentToSection registry chunk p = .ok s' ∧
          (∀ x y z, s'.states.get x y z = s.states.get x y z) ∧
          ∀ x y z, s'.biomes.get x y z = s.biomes.get x y z) sections chunk.sections := by
  have hnew : ChunkBuilder.new.Ok registry := ⟨.nil, .nil⟩
  obtain ⟨ps, b, hstores, -, -, hrest⟩ := sectionsToPersistent_spec hreg hs hnew
  refine ⟨ps, b, hstores, ?_⟩
  rintro chunk rfl hstates hbiomes
  have hbuilder : chunk.builder = b := by
    rw [PersistentChunk.builder, hstates, hbiomes]
  have hall := hrest chunk (hbuilder ▸ .refl b)
  have hvalid := validateSectionsFrom_eq_ok hall 0
  refine ⟨hvalid, ?_, hall.imp fun _ _ h => h.loads⟩
  intro status minY height hrange hother
  simp only [validatePersistentChunk, hrange, hvalid, hother, ok_bind]

def meadow : Registry where
  byStateId id :=
    if id = 0 then some ⟨"minecraft", "air"⟩
    else if id = 8 ∨ id = 9 then some ⟨"minecraft", "grass_block"⟩
    else none
  getProperties id :=
    if id = 8 then [("snowy", "true")] else if id = 9 then [("snowy", "false")] else []
  stateIdFromProperties key properties :=
    if key = ⟨"minecraft", "air"⟩ then if properties = [] then some 0 else none
    else if key = ⟨"minecraft", "grass_block"⟩ then
      if properties = [("snowy", "false")] then some 9 else some 8
    else none
  biomeById id := if id = 40 then some ⟨"minecraft", "plains"⟩ else none
  biomeIdFromKey key := if key = ⟨"minecraft", "plains"⟩ then some 40 else none

theorem meadow_lawful : meadow.Lawful := by
  have hstate : ∀ id key, meadow.byStateId id = some key → (id = 0 ∧ key = ⟨"minecraft", "air"⟩) ∨
        ((id = 8 ∨ id = 9) ∧ key = ⟨"minecraft", "grass_block"⟩) := by
    intro id key h
    simp only [meadow] at h
    split at h
    case isTrue h0 => exact .inl ⟨h0, (Option.some.inj h).symm⟩
    split at h
    case isTrue h1 => exact .inr ⟨h1, (Option.some.inj h).symm⟩
    case isFalse => cases h
  constructor
  · intro id key h
    rcases hstate id key h with ⟨rfl, rfl⟩ | ⟨rfl | rfl, rfl⟩ <;> decide
  · intro id key h
    rcases hstate id key h with ⟨rfl, rfl⟩ | ⟨rfl | rfl, rfl⟩ <;> decide
  · intro id key h
    simp only [meadow] at h
    split at h
    case isTrue h0 =>
      obtain rfl := h0
      obtain rfl := Option.some.inj h
      rfl
    case isFalse => cases h

def grassSection : ChunkSection :=
  .newWithBiomes (.fromCube ((Cube.const 0).set 3 4 5 9)) (.homogeneous 40)

theorem grassSection_storable : grassSection.Storable meadow := by
  constructor
  · refine ⟨⟨_, represents_fromCube (by decide) (by decide) _, ?_⟩,
      fromCube_ne_building _⟩
    intro v hv
    obtain ⟨x, y, z, rfl⟩ := Cube.mem_flat.mp hv
    simp only [Cube.set, Cube.const]
    split <;> decide
  · refine ⟨⟨.const 40, rfl, ?_⟩, by rintro cells ⟨⟩⟩
    intro v hv
    rw [Cube.flat_const] at hv
    rw [eq_of_mem_replicate hv]
    decide

theorem sections_round_trip_grass :
    ∃ ps b, sectionsToPersistent meadow .new [grassSection] = .ok (ps, b) ∧
      ∀ chunk : PersistentChunk, chunk.sections = ps → chunk.blockStates = b.blockStates →
        chunk.biomes = b.biomes → validateSectionsFrom chunk 0 chunk.sections = .ok () := by
  obtain ⟨ps, b, hstore, hchunk⟩ := sections_round_trip meadow_lawful [grassSection]
    (by simpa using grassSection_storable)
  exact ⟨ps, b, hstore, fun chunk hps hstates hbiomes => (hchunk chunk hps hstates hbiomes).1⟩

end Steel
