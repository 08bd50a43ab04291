import Latent.Carve.Diagnostics
import Latent.Carve.Evtx.Extractor

open Rust

namespace Latent

namespace Source

-- A read of at most `window` bytes fails or returns no more than it was asked for. A longer read may
-- do anything, so code that never panics on such a source never asks for one.
def Bounded (source : Source) (window : ℕ) : Prop :=
  ∀ offset len, len ≤ window →
    (∃ e, source.readAt offset len = .err e) ∨
    ∃ bytes, source.readAt offset len = .ok bytes ∧ bytes.length ≤ len

namespace Bounded

variable [OverflowChecks] {source : Source} {window offset len : ℕ}

-- A read that does not reach 2⁶⁴ fails or fills its buffer.
theorem go_cases (hb : source.Bounded window) {fuel rest : ℕ} (hf : rest ≤ fuel) (hw : rest ≤ window)
    (ho : offset + rest < 2 ^ 64) :
    (∃ e, readExactAt.go source len fuel offset rest = .err e) ∨
    ∃ buf, readExactAt.go source len fuel offset rest = .ok buf ∧ buf.length = rest := by
  induction fuel generalizing offset rest with
  | zero =>
    cases Nat.le_zero.mp hf
    exact .inr ⟨[], by simp [readExactAt.go], rfl⟩
  | succ fuel hi =>
    cases rest
    case zero => exact .inr ⟨[], by simp [readExactAt.go], rfl⟩
    case succ rest =>
      rw [readExactAt.go]
      rcases hb offset (rest + 1) hw with ⟨e, hr⟩ | ⟨bytes, hr, hl⟩
      · exact .inl ⟨e, by rw [hr, Exec.err_bind]⟩
      · rw [hr, Exec.ok_bind]
        by_cases h₀ : bytes.length = 0
        case pos => exact .inl ⟨_, by rw [if_pos h₀]⟩
        case neg =>
          rw [if_neg h₀, if_neg (Nat.not_lt.mpr hl), U64.add_eq (by omega), Exec.ok_bind]
          have hend : offset + bytes.length + (rest + 1 - bytes.length) < 2 ^ 64 := by omega
          rcases hi (by omega) (by omega) hend with ⟨e, ht⟩ | ⟨tail, ht, hlt⟩
          · exact .inl ⟨e, by rw [ht, Exec.err_bind]⟩
          · refine .inr ⟨bytes ++ tail, by rw [ht, Exec.ok_bind], ?_⟩
            rw [List.length_append, hlt]
            omega

theorem readExactAt_cases (hb : source.Bounded window) (hw : len ≤ window) (ho : offset + len < 2 ^ 64) :
    (∃ e, source.readExactAt offset len = .err e) ∨
    ∃ buf, source.readExactAt offset len = .ok buf ∧ buf.length = len :=
  hb.go_cases (Nat.le_refl _) hw ho

end Bounded

theorem Conforming.bounded {source : Source} {content : Bytes} (hc : source.Conforming content)
    (window : ℕ) : source.Bounded window := by
  intro offset len _
  by_cases ho : offset ≤ content.length
  case pos =>
    have ⟨n, hr, hn, _⟩ := hc.inRange len ho
    refine .inr ⟨_, hr, ?_⟩
    rw [length_subslice]
    omega
  case neg => exact .inl ⟨_, hc.outOfRange len (Nat.lt_of_not_le ho)⟩

end Source

namespace Evtx

structure RecordBytes (config : Config) (data bytes : Bytes) : Prop where
  length  : bytes.length = recordSize data
  min     : 32 ≤ recordSize data
  aligned : 8 ∣ recordSize data
  max     : recordSize data ≤ config.maxRecordSize.toNat
  tail    : Bytes.leAt bytes (bytes.length - 4) 4 = recordSize data

structure Confined (config : Config) (offset : ℕ) (data : Bytes) (c : Carved) : Prop where
  offset   : c.offset = offset
  nonempty : c.bytes ≠ []
  inside   : c.bytes <+: data
  shape    : (c.kind = "evtx.chunk" ∧ c.bytes.length ≤ 65536) ∨
             (c.kind = "evtx.file_header" ∧ c.bytes.length = 128) ∨
             (c.kind = "evtx.record" ∧ RecordBytes config data c.bytes)

theorem subslice_zero_prefix {data : Bytes} {n : ℕ} : subslice data 0 n <+: data := by
  rw [subslice_zero]
  exact List.take_prefix ..

theorem length_subslice_zero {data : Bytes} {n : ℕ} (h : n ≤ data.length) :
    (subslice data 0 n).length = n :=
  length_subslice_of_le (by omega)

theorem subslice_zero_ne_nil {data : Bytes} {n : ℕ} (h : n ≤ data.length) (h₀ : 0 < n) :
    subslice data 0 n ≠ [] := by
  apply List.ne_nil_of_length_pos
  rwa [length_subslice_zero h]

variable {config : Config} {offset : ℕ} {data : Bytes}

-- The smallest size that passes the bound is 28, and the smallest aligned one above it is 32.
theorem RecordValid.recordBytes (h : RecordValid config data) :
    RecordBytes config data (subslice data 0 (recordSize data)) := by
  have hmin := h.bounds.1
  have haligned := h.aligned
  have hlength : (subslice data 0 (recordSize data)).length = recordSize data := length_subslice_zero h.fits
  refine ⟨hlength, by omega, Nat.dvd_of_mod_eq_zero haligned, h.bounds.2, ?_⟩
  rw [hlength, Bytes.leAt, subslice_subslice (by omega), Nat.zero_add]
  exact h.tail

section

variable [Sha256]

theorem ChunkValid.confined (h : ChunkValid data) :
    Confined config offset data
      (.new offset "evtx.chunk" "carve.evtx.chunk" (subslice data 0 (min CHUNK_SIZE data.length))) := by
  have hl := h.length
  have hc : CHUNK_SIZE = 65536 := rfl
  refine ⟨rfl, subslice_zero_ne_nil (Nat.min_le_right ..) (by omega), subslice_zero_prefix, .inl ⟨rfl, ?_⟩⟩
  simp only [Carved.new]
  rw [length_subslice_zero (Nat.min_le_right ..)]
  omega

theorem FileHeaderValid.confined (h : FileHeaderValid data) :
    Confined config offset data
      (.new offset "evtx.file_header" "carve.evtx.file_header"
        (subslice data 0 (min FILE_HEADER_SIZE data.length))) := by
  have hl := h.length
  have hc : FILE_HEADER_SIZE = 128 := rfl
  refine ⟨rfl, subslice_zero_ne_nil (Nat.min_le_right ..) (by omega), subslice_zero_prefix,
    .inr <| .inl ⟨rfl, ?_⟩⟩
  simp only [Carved.new]
  rw [length_subslice_zero (Nat.min_le_right ..)]
  omega

theorem RecordValid.confined (h : RecordValid config data) :
    Confined config offset data
      (.new offset "evtx.record" "carve.evtx.record" (subslice data 0 (recordSize data))) := by
  have hmin := h.bounds.1
  exact ⟨rfl, subslice_zero_ne_nil h.fits (by omega), subslice_zero_prefix, .inr <| .inr ⟨rfl, h.recordBytes⟩⟩

variable [OverflowChecks]

-- Every extractor's answer is an error or one artefact that stays inside the bytes it was given.
theorem extract_confined (config : Config) (offset : ℕ) (data : Bytes) :
    (∃ e, extract config offset data = .err e) ∨
    ∃ c, extract config offset data = .ok [c] ∧ Confined config offset data c := by
  by_cases hc : CHUNK_MAGIC <+: data
  case pos =>
    by_cases hv : ChunkValid data
    case pos => exact .inr ⟨_, (extract_chunk hc).ok hv, hv.confined⟩
    case neg => exact .inl ((extract_chunk hc).err hv)
  case neg =>
    by_cases hf : FILE_MAGIC <+: data
    case pos =>
      by_cases hv : FileHeaderValid data
      case pos => exact .inr ⟨_, (extract_fileHeader hf).ok hv, hv.confined⟩
      case neg => exact .inl ((extract_fileHeader hf).err hv)
    case neg =>
      by_cases hr : RECORD_MAGIC <+: data
      case pos =>
        by_cases hv : RecordValid config data
        case pos => exact .inr ⟨_, (extract_record hr).ok hv, hv.confined⟩
        case neg => exact .inl ((extract_record hr).err hv)
      case neg => exact .inl ⟨_, extract_neither hc hf hr⟩

variable {reg : Registry} {source : Source}

-- The window lies inside the source, or it is empty, so the position after it is below 2⁶⁴.
theorem extractHit_confined (hreg : reg.extractors = [extractor config]) (hsize : source.size < 2 ^ 64)
    (hsource : source.Bounded (extractor config).maxStructureSize) (ho : offset < 2 ^ 64) (id : ℕ) :
    ∃ carved reg', reg.extractHit source offset id = .ok (carved, reg') ∧
      ∀ c ∈ carved, ∃ window, source.readExactAt offset window.length = .ok window ∧
        window.length ≤ (extractor config).maxStructureSize ∧ Confined config offset window c := by
  cases hid : reg.patternOwner[id]? with
  | none => exact ⟨[], reg, by rw [Registry.extractHit, hid], by simp⟩
  | some owner =>
    obtain ⟨e, he⟩ := Registry.exists_owner hid
    have hmem := List.mem_of_getElem? he
    rw [hreg, List.mem_singleton] at hmem
    subst hmem
    have hend : offset + min (extractor config).maxStructureSize (source.size - offset) < 2 ^ 64 := by omega
    simp only [Registry.extractHit, hid, he, Exec.unwrap_some, Exec.ok_bind, U64.saturatingSub]
    rcases hsource.readExactAt_cases (Nat.min_le_left ..) hend with ⟨e, hr⟩ | ⟨buf, hr, hl⟩
    · exact ⟨[], _, by rw [hr], by simp⟩
    · have hw : buf.length ≤ (extractor config).maxStructureSize := hl ▸ Nat.min_le_left ..
      rcases extract_confined config offset buf with ⟨e, hx⟩ | ⟨c, hx, hc⟩
      · have hx : (extractor config).extract offset buf = .err e := hx
        simp only [hr, hx]
        exact ⟨[], _, rfl, by simp⟩
      · have hx : (extractor config).extract offset buf = .ok [c] := hx
        simp only [hr, hx]
        refine ⟨[c], _, rfl, fun c' hc' => ⟨buf, hl.symm ▸ hr, hw, ?_⟩⟩
        exact List.mem_singleton.mp hc' ▸ hc

-- Extraction never panics, never asks the source for more than the window and stays inside its input.
theorem extraction_panic_free_and_confined (config : Config) (hreg : reg.extractors = [extractor config])
    (hsize : source.size < 2 ^ 64) (hsource : source.Bounded (extractor config).maxStructureSize)
    (ho : offset < 2 ^ 64) (id : ℕ) :
    (∃ carved reg', reg.extractHit source offset id = .ok (carved, reg') ∧
      ∀ c ∈ carved, ∃ window, source.readExactAt offset window.length = .ok window ∧
        window.length ≤ (extractor config).maxStructureSize ∧ Confined config offset window c) ∧
    ∀ data, (∃ e, extract config offset data = .err e) ∨
      ∃ c, extract config offset data = .ok [c] ∧ Confined config offset data c :=
  ⟨extractHit_confined hreg hsize hsource ho id, extract_confined config offset⟩

end

section

attribute [local instance] OverflowChecks.on Sha256.standard

theorem extraction_panic_free_and_confined_fileHeader :
    (∃ carved reg', (Registry.build [extractor .default]).extractHit (rawSource buildFileHeader) 0 2 =
        .ok (carved, reg') ∧
      ∀ c ∈ carved, ∃ window, (rawSource buildFileHeader).readExactAt 0 window.length = .ok window ∧
        window.length ≤ (extractor .default).maxStructureSize ∧ Confined .default 0 window c) ∧
    ∀ data, (∃ e, extract .default 0 data = .err e) ∨
      ∃ c, extract .default 0 data = .ok [c] ∧ Confined .default 0 data c := by
  have hl : buildFileHeader.length = 128 := by simp [buildFileHeader]
  have hc : (rawSource buildFileHeader).Conforming buildFileHeader := rawSource_conforming (by omega)
  have hsize : (rawSource buildFileHeader).size < 2 ^ 64 := by
    rw [hc.size_eq]
    exact hc.size_lt
  exact extraction_panic_free_and_confined .default rfl hsize (hc.bounded _) (by decide) 2

end
end Evtx
end Latent
