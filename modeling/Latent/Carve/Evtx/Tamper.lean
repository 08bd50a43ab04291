import Latent.Carve.Evtx.Fixtures

open Rust

namespace Latent.Evtx

-- The two byte strings are of one length and differ in the byte at `p`, and only there.
structure DiffersAt (data data' : Bytes) (p : ℕ) : Prop where
  length : data'.length = data.length
  byte   : data'[p]? ≠ data[p]?
  others : ∀ i, i ≠ p → data'[i]? = data[i]?

variable {data data' : Bytes} {p : ℕ} {b : UInt8}

theorem DiffersAt.eq_set (h : DiffersAt data data' p) :
    ∃ b, p < data.length ∧ data[p]? ≠ some b ∧ data' = data.set p b := by
  have hp : p < data.length := by
    by_contra hn
    have hb := h.byte
    rw [List.getElem?_eq_none (by have := h.length; omega), List.getElem?_eq_none (by omega)] at hb
    exact hb rfl
  have hp' : p < data'.length := h.length ▸ hp
  refine ⟨data'[p], hp, fun he => h.byte ?_, ?_⟩
  · rw [he, List.getElem?_eq_getElem hp']
  · apply List.ext_getElem?
    intro i
    by_cases hi : i = p
    case pos => rw [hi, List.getElem?_set_self hp, List.getElem?_eq_getElem hp']
    case neg => rw [List.getElem?_set_ne (Ne.symm hi), h.others i hi]

-- The header checksum skips the eight bytes from 120 on, which hold the flags and the checksum.
theorem hash_checkedHeader_ne (hl : 512 ≤ data.length) (hp : p < 120 ∨ 128 ≤ p ∧ p < 512)
    (hb : data[p]? ≠ some b) :
    Crc32.hash (checkedHeader (data.set p b)) ≠ Crc32.hash (checkedHeader data) := by
  have h₁ : (subslice data 0 120).length = 120 := length_subslice_of_le (by omega)
  have h₂ : (subslice data 128 384).length = 384 := length_subslice_of_le (by omega)
  simp only [checkedHeader]
  rcases hp with hp | ⟨hge, hlt⟩
  · rw [subslice_set_of_inside (Nat.zero_le _) (by omega), subslice_set_of_outside (by omega),
      Nat.sub_zero, ← List.set_append_left _ _ (by omega)]
    refine Crc32.hash_set_ne (by simp [h₁]; omega) ?_
    rwa [List.getElem?_append_left (by omega), getElem?_subslice_of_lt hp, Nat.zero_add]
  · rw [subslice_set_of_outside (by omega), subslice_set_of_inside hge (by omega)]
    have hs : subslice data 0 120 ++ (subslice data 128 384).set (p - 128) b =
        (subslice data 0 120 ++ subslice data 128 384).set (p - 8) b := by
      rw [List.set_append_right _ _ (by omega), h₁]
      congr 2
    rw [hs]
    refine Crc32.hash_set_ne (by simp [h₁, h₂]; omega) ?_
    rw [List.getElem?_append_right (by omega), h₁, getElem?_subslice_of_lt (by omega)]
    rwa [show 128 + (p - 8 - 120) = p by omega]

theorem hash_checkedRecords_ne (h : ChunkValid data) (h₁ : 512 ≤ p) (h₂ : p < freeSpace data)
    (hb : data[p]? ≠ some b) :
    Crc32.hash (checkedRecords (data.set p b)) ≠ Crc32.hash (checkedRecords data) := by
  have hl := h.records
  have hf : freeSpace (data.set p b) = freeSpace data := Bytes.leAt_set_of_outside (by omega)
  have hs : (subslice data 512 (freeSpace data - 512)).length = freeSpace data - 512 :=
    length_subslice_of_le (by omega)
  rw [checkedRecords, hf, subslice_set_of_inside h₁ (by omega), ← checkedRecords]
  refine Crc32.hash_set_ne (by simp only [checkedRecords, hs]; omega) ?_
  rwa [checkedRecords, getElem?_subslice_of_lt (by omega), Nat.add_sub_cancel' h₁]

theorem ChunkValid.not_set (h : ChunkValid data) (hb : data[p]? ≠ some b)
    (hp : p < 120 ∨ 124 ≤ p ∧ p < freeSpace data) : ¬ChunkValid (data.set p b) := by
  intro h'
  have hl := h.length
  have hh := h'.headerCrc
  by_cases hs : 124 ≤ p ∧ p < 128
  case pos =>
    -- The stored checksum changes and the computed one does not.
    have hc : checkedHeader (data.set p b) = checkedHeader data := by
      simp (disch := omega) only [checkedHeader, subslice_set_of_outside]
    rw [hc, h.headerCrc] at hh
    exact Bytes.leAt_set_ne (by omega) hs.1 (by omega) hb hh.symm
  case neg =>
    rw [Bytes.leAt_set_of_outside (by omega), ← h.headerCrc] at hh
    by_cases hr : 512 ≤ p
    case pos =>
      have hc := h'.recordsCrc
      rw [Bytes.leAt_set_of_outside (by omega), ← h.recordsCrc] at hc
      exact hash_checkedRecords_ne h hr (by omega) hb hc
    case neg => exact hash_checkedHeader_ne hl (by omega) hb hh

-- The flags of the header and whatever follows the records are in neither checksum.
theorem ChunkValid.set (h : ChunkValid data) (hp : 120 ≤ p ∧ p < 124 ∨ freeSpace data ≤ p) :
    ChunkValid (data.set p b) := by
  have hb := h.bounds.1
  have hf : freeSpace (data.set p b) = freeSpace data := Bytes.leAt_set_of_outside (by omega)
  rw [chunkValid_iff] at h ⊢
  simp only [checkedHeader, checkedRecords, hf] at h ⊢
  simpa (disch := omega) only [subslice_set_of_outside, Bytes.leAt_set_of_outside, List.length_set] using h

theorem FileHeaderValid.not_set (h : FileHeaderValid data) (hb : data[p]? ≠ some b)
    (hp : p < 120 ∨ 124 ≤ p ∧ p < 128) : ¬FileHeaderValid (data.set p b) := by
  intro h'
  have hl := h.length
  have hh := h'.headerCrc
  rcases hp with hp | ⟨hge, hlt⟩
  · have hs : (subslice data 0 120).length = 120 := length_subslice_of_le (by omega)
    rw [Bytes.leAt_set_of_outside (by omega), ← h.headerCrc,
      subslice_set_of_inside (Nat.zero_le _) (by omega)] at hh
    refine Crc32.hash_set_ne (by omega) ?_ hh
    rwa [getElem?_subslice_of_lt (by omega), Nat.zero_add]
  · rw [subslice_set_of_outside (by omega), h.headerCrc] at hh
    exact Bytes.leAt_set_ne (by omega) hge hlt hb hh.symm

theorem FileHeaderValid.set (h : FileHeaderValid data) (hp : 120 ≤ p ∧ p < 124 ∨ 128 ≤ p) :
    FileHeaderValid (data.set p b) := by
  rw [fileHeaderValid_iff] at h ⊢
  simpa (disch := omega) only [subslice_set_of_outside, Bytes.leAt_set_of_outside, List.length_set] using h

theorem fileHeaderMeta_set (hp : 120 ≤ p) :
    fileHeaderMeta (data.set p b) =
      { fileHeaderMeta data with flags := (fileHeaderMeta (data.set p b)).flags } := by
  simp (disch := omega) only [fileHeaderMeta, Bytes.leAt_set_of_outside]

-- A change of one byte is noticed wherever a checksum covers it or stands, and nowhere else.
theorem one_byte_change (h : DiffersAt data data' p) :
    (∀ len, validateChunk data = .ok len →
      (p < 120 ∨ 124 ≤ p ∧ p < freeSpace data → ∃ e, validateChunk data' = .err e) ∧
      (120 ≤ p ∧ p < 124 ∨ freeSpace data ≤ p → validateChunk data' = .ok len)) ∧
    (∀ header, validateFileHeader data = .ok header →
      (p < 120 ∨ 124 ≤ p ∧ p < 128 → ∃ e, validateFileHeader data' = .err e) ∧
      (120 ≤ p ∧ p < 124 ∨ 128 ≤ p → ∃ flags, validateFileHeader data' = .ok { header with flags })) := by
  obtain ⟨b, _, hb, rfl⟩ := h.eq_set
  constructor
  case left =>
    intro len hlen
    have ⟨hv, he⟩ := validateChunk_decides.ok_iff.mp hlen
    refine ⟨fun hp => validateChunk_decides.err (hv.not_set hb hp), fun hp => ?_⟩
    exact validateChunk_decides.ok_iff.mpr ⟨hv.set hp, by rw [he, List.length_set]⟩
  case right =>
    intro header hheader
    have ⟨hv, he⟩ := validateFileHeader_decides.ok_iff.mp hheader
    refine ⟨fun hp => validateFileHeader_decides.err (hv.not_set hb hp), fun hp => ?_⟩
    refine ⟨(fileHeaderMeta (data.set p b)).flags, ?_⟩
    refine validateFileHeader_decides.ok_iff.mpr ⟨hv.set hp, ?_⟩
    rw [he, fileHeaderMeta_set (by omega)]

theorem differsAt_set (hp : p < data.length) (hb : data[p]? ≠ some b) : DiffersAt data (data.set p b) p where
  length     := List.length_set
  byte       := by rw [List.getElem?_set_self hp]; exact hb.symm
  others i h := List.getElem?_set_ne (Ne.symm h)

-- A byte of the chunk header that is checked, one of its flags, and the same in a file header.
theorem one_byte_change_built :
    (∃ e, validateChunk ((buildChunk [1]).set 100 0xff) = .err e) ∧
    (∃ len, validateChunk (buildChunk [1]) = .ok len ∧ validateChunk ((buildChunk [1]).set 120 0xff) = .ok len) ∧
    (∃ e, validateFileHeader (buildFileHeader.set 100 0xff) = .err e) ∧
    ∃ flags, validateFileHeader (buildFileHeader.set 120 0xff) =
      .ok { fileHeaderMeta buildFileHeader with flags } := by
  have hc : ChunkValid (buildChunk [1]) := buildChunk_valid (by decide)
  have hf := buildFileHeader_valid
  have hlen := validateChunk_decides.ok hc
  have hmeta := validateFileHeader_decides.ok hf
  have hcl := hc.length
  have hfl := hf.length
  have h₁ : DiffersAt (buildChunk [1]) _ 100 := differsAt_set (b := 0xff) (by omega) (by decide +kernel)
  have h₂ : DiffersAt (buildChunk [1]) _ 120 := differsAt_set (b := 0xff) (by omega) (by decide +kernel)
  have h₃ : DiffersAt buildFileHeader _ 100 := differsAt_set (b := 0xff) (by omega) (by decide +kernel)
  have h₄ : DiffersAt buildFileHeader _ 120 := differsAt_set (b := 0xff) (by omega) (by decide +kernel)
  exact ⟨((one_byte_change h₁).1 _ hlen).1 (by decide), ⟨_, hlen, ((one_byte_change h₂).1 _ hlen).2 (by decide)⟩,
    ((one_byte_change h₃).2 _ hmeta).1 (by decide), ((one_byte_change h₄).2 _ hmeta).2 (by decide)⟩

end Latent.Evtx
