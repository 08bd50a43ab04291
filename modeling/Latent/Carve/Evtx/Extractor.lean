import Latent.Carve.Evtx.Fixtures
import Latent.Carve.Pipeline
import Latent.Core.Sha256

open Rust

namespace Latent.Evtx

-- Two magics of which neither begins with the other one do not begin the same bytes.
theorem not_isPrefixOf {p q data : Bytes} (hp : p <+: data) (hpq : ¬p <+: q) (hqp : ¬q <+: p) :
    ¬q.isPrefixOf data := fun h =>
  (List.prefix_or_prefix_of_prefix hp (List.isPrefixOf_iff_prefix.mp h)).elim hpq hqp

section

variable [Sha256] [OverflowChecks]

-- The magic that is there decides, whatever signature the candidate was found by.
def extract (config : Config) (offset : ℕ) (data : Bytes) : Exec Rejection (List Carved) :=
  if CHUNK_MAGIC.isPrefixOf data then do
    let len ← validateChunk data
    .ok [Carved.new offset "evtx.chunk" "carve.evtx.chunk" (← slice data 0 len)]
  else if FILE_MAGIC.isPrefixOf data then do
    let _ ← validateFileHeader data
    let len := min FILE_HEADER_SIZE data.length
    .ok [Carved.new offset "evtx.file_header" "carve.evtx.file_header" (← slice data 0 len)]
  else if RECORD_MAGIC.isPrefixOf data then do
    let frame ← validateRecord data config
    .ok [Carved.new offset "evtx.record" "carve.evtx.record" (← slice data 0 frame.size)]
  else
    .err .notThisFormat

def extractor (config : Config) : Extractor where
  metadata         := { name := "evtx", platform := .windows, method := "carve.evtx" }
  signatures       := [CHUNK_MAGIC, RECORD_MAGIC, FILE_MAGIC]
  maxStructureSize := CHUNK_SIZE
  extract          := extract config

variable {config : Config} {offset : ℕ} {data : Bytes}

theorem extract_chunk (h : CHUNK_MAGIC <+: data) :
    (extract config offset data).Decides (ChunkValid data)
      [.new offset "evtx.chunk" "carve.evtx.chunk" (subslice data 0 (min CHUNK_SIZE data.length))] := by
  rw [extract, if_pos (List.isPrefixOf_iff_prefix.mpr h)]
  refine validateChunk_decides.andThen fun _ => ?_
  rw [slice_eq (Nat.zero_le _) (Nat.min_le_right ..)]
  rfl

theorem extract_fileHeader (h : FILE_MAGIC <+: data) :
    (extract config offset data).Decides (FileHeaderValid data)
      [.new offset "evtx.file_header" "carve.evtx.file_header"
        (subslice data 0 (min FILE_HEADER_SIZE data.length))] := by
  rw [extract, if_neg (not_isPrefixOf h (by decide) (by decide)), if_pos (List.isPrefixOf_iff_prefix.mpr h)]
  refine validateFileHeader_decides.andThen fun _ => ?_
  dsimp only
  rw [slice_eq (Nat.zero_le _) (Nat.min_le_right ..)]
  rfl

theorem extract_record (h : RECORD_MAGIC <+: data) :
    (extract config offset data).Decides (RecordValid config data)
      [.new offset "evtx.record" "carve.evtx.record" (subslice data 0 (recordSize data))] := by
  rw [extract, if_neg (not_isPrefixOf h (by decide) (by decide)),
    if_neg (not_isPrefixOf h (by decide) (by decide)), if_pos (List.isPrefixOf_iff_prefix.mpr h)]
  refine validateRecord_decides.andThen fun hv => ?_
  rw [slice_eq (Nat.zero_le _) hv.fits]
  rfl

theorem extract_neither (hc : ¬CHUNK_MAGIC <+: data) (hf : ¬FILE_MAGIC <+: data)
    (hr : ¬RECORD_MAGIC <+: data) : extract config offset data = .err .notThisFormat := by
  rw [← List.isPrefixOf_iff_prefix] at hc hf hr
  rw [extract, if_neg hc, if_neg hf, if_neg hr]

-- What is accepted is one artefact, at the offset of the candidate.
theorem extract_cases (config : Config) (offset : ℕ) (data : Bytes) :
    (∃ e, extract config offset data = .err e) ∨
    ∃ c, extract config offset data = .ok [c] ∧ c.offset = offset := by
  by_cases hc : CHUNK_MAGIC <+: data
  case pos => exact (extract_chunk hc).cases.imp_right fun h => ⟨_, h, rfl⟩
  case neg =>
    by_cases hf : FILE_MAGIC <+: data
    case pos => exact (extract_fileHeader hf).cases.imp_right fun h => ⟨_, h, rfl⟩
    case neg =>
      by_cases hr : RECORD_MAGIC <+: data
      case pos => exact (extract_record hr).cases.imp_right fun h => ⟨_, h, rfl⟩
      case neg => exact .inl ⟨_, extract_neither hc hf hr⟩

theorem extractor_anchored (config : Config) : (extractor config).Anchored where
  total offset data := by
    cases extract_cases config offset data with
    | inl h => have ⟨e, h⟩ := h; simp [extractor, h]
    | inr h => have ⟨c, h, _⟩ := h; simp [extractor, h]
  rejects offset data h :=
    ⟨_, extract_neither (h _ (by simp [extractor])) (h _ (by simp [extractor])) (h _ (by simp [extractor]))⟩
  prefixFree {i j p q} hi hj hpq := by
    have hfree : ∀ i j : Fin 3, [CHUNK_MAGIC, RECORD_MAGIC, FILE_MAGIC].get i <+:
        [CHUNK_MAGIC, RECORD_MAGIC, FILE_MAGIC].get j → i = j := by decide
    obtain ⟨hi', rfl⟩ := List.getElem?_eq_some_iff.mp hi
    obtain ⟨hj', rfl⟩ := List.getElem?_eq_some_iff.mp hj
    exact Fin.mk.inj (hfree ⟨i, hi'⟩ ⟨j, hj'⟩ hpq)

theorem artefactsAt_cases (config : Config) (content : Bytes) (offset : ℕ) :
    (extractor config).artefactsAt content offset = [] ∨
    ∃ c, (extractor config).artefactsAt content offset = [c] ∧ c.offset = offset := by
  cases extract_cases config offset (subslice content offset CHUNK_SIZE) with
  | inl h =>
    obtain ⟨e, h⟩ := h
    exact .inl <| by simp [Extractor.artefactsAt, extractor, h, accepted]
  | inr h =>
    obtain ⟨c, h, ho⟩ := h
    exact .inr ⟨c, by simp [Extractor.artefactsAt, extractor, h, accepted], ho⟩

theorem pairwise_artefactsAt (config : Config) (content : Bytes) (n : ℕ) :
    ((List.range n).flatMap ((extractor config).artefactsAt content)).Pairwise (·.offset < ·.offset) := by
  have ho : ∀ offset, ∀ c ∈ (extractor config).artefactsAt content offset, c.offset = offset := by
    intro offset c hc
    cases artefactsAt_cases config content offset with
    | inl h => simp [h] at hc
    | inr h =>
      have ⟨c', h, ho⟩ := h
      rw [h, List.mem_singleton] at hc
      exact hc ▸ ho
  refine List.pairwise_flatMap.mpr ⟨fun offset _ => ?_, ?_⟩
  · cases artefactsAt_cases config content offset with
    | inl h => simp [h]
    | inr h => have ⟨c, h, _⟩ := h; simp [h]
  · refine List.pairwise_lt_range.imp fun hlt c₁ h₁ c₂ h₂ => ?_
    rwa [ho _ _ h₁, ho _ _ h₂]

variable {rt : Runtime} {scanConfig : ScanConfig} {source : Source} {content : Bytes}
variable {s : Scanner (Registry.build [extractor config]).patterns}

-- Nothing that the extractor would validate at any offset is missed, emitted twice or out of order.
theorem recovers_every_artefact
    (hnew : Scanner.new rt (Registry.build [extractor config]).patterns scanConfig = .ok s)
    (hpool : ∀ threads, rt.buildPool threads = .ok ()) (hc : source.Conforming content)
    (hf : scanConfig.Fits content.length) (hoverlap : 7 ≤ scanConfig.overlap.toNat) :
    ∃ hits artefacts reg', s.scan rt source = .ok hits ∧
      Registry.extractHits source (.build [extractor config]) (hits.map fun h => (h.offset, h.patternId)) =
        .ok (artefacts, reg') ∧
      (extractor config).bruteForce content = .ok artefacts ∧
      artefacts.Pairwise (·.offset < ·.offset) := by
  have ha := extractor_anchored config
  have hlen : ∀ p ∈ (extractor config).signatures, p.length - 1 ≤ scanConfig.overlap.toNat := by
    have h₇ : ∀ p ∈ [CHUNK_MAGIC, RECORD_MAGIC, FILE_MAGIC], p.length - 1 ≤ 7 := by decide
    exact fun p hp => Nat.le_trans (h₇ p hp) hoverlap
  have ⟨hits, reg', hs, hx⟩ := ha.recovers hnew hpool hc hf hlen
  exact ⟨hits, _, reg', hs, hx, ha.bruteForce_eq, pairwise_artefactsAt config content _⟩

end

section

attribute [local instance] OverflowChecks.on

local instance : Sha256 :=
  .standard

-- A source that is nothing but a file header, in blocks of 64 bytes.
theorem recovers_every_artefact_fileHeader :
    ∃ s, Scanner.new naiveRuntime (Registry.build [extractor .default]).patterns ⟨64, 16, 2, 4096⟩ = .ok s ∧
      ∃ hits artefacts reg', s.scan naiveRuntime (rawSource buildFileHeader) = .ok hits ∧
        Registry.extractHits (rawSource buildFileHeader) (.build [extractor .default])
          (hits.map fun h => (h.offset, h.patternId)) = .ok (artefacts, reg') ∧
        (extractor .default).bruteForce buildFileHeader = .ok artefacts ∧
        artefacts.Pairwise (·.offset < ·.offset) := by
  have hl : buildFileHeader.length = 128 := by simp [buildFileHeader]
  have hc : (rawSource buildFileHeader).Conforming buildFileHeader := rawSource_conforming (by omega)
  have hf : ScanConfig.Fits ⟨64, 16, 2, 4096⟩ buildFileHeader.length :=
    ScanConfig.fits_of_lt (by rw [hl]; decide)
  exact ⟨_, rfl, recovers_every_artefact rfl (fun _ => rfl) hc hf (by decide)⟩

end
end Latent.Evtx
