import Latent.Carve.Evtx.Salvage

open Rust

namespace Latent.Evtx

variable {config : Config} {data : Bytes} {n pos k : ℕ}

-- What lies in front of the cut is not changed by it.
theorem subslice_take (h : pos + k ≤ n) : subslice (data.take n) pos k = subslice data pos k := by
  rw [← subslice_zero, subslice_subslice h, Nat.zero_add]

theorem leAt_take (h : pos + k ≤ n) : Bytes.leAt (data.take n) pos k = Bytes.leAt data pos k := by
  rw [Bytes.leAt, subslice_take h, Bytes.leAt]

theorem prefix_take_iff {magic : Bytes} (h : magic.length ≤ n) : magic <+: data.take n ↔ magic <+: data := by
  rw [List.prefix_take_iff]
  exact and_iff_left h

-- The records area of a chunk ends inside the 64 KiB that are kept of it.
theorem ChunkValid.take (h : ChunkValid data) (hn : CHUNK_SIZE ≤ n) : ChunkValid (data.take n) := by
  have hc : CHUNK_SIZE = 65536 := rfl
  have hb := h.bounds
  have hf : freeSpace (data.take n) = freeSpace data := leAt_take (by omega)
  have hl : (data.take n).length = min n data.length := List.length_take
  refine ⟨?length, ?magic, ?bounds, ?headerCrc, ?records, ?recordsCrc, ?coherent⟩
  case length =>
    have := h.length
    omega
  case magic => rw [subslice_take (by omega), h.magic]
  case bounds => rwa [hf]
  case headerCrc =>
    rw [checkedHeader, subslice_take (by omega), subslice_take (by omega), leAt_take (by omega)]
    exact h.headerCrc
  case records =>
    have := h.records
    omega
  case recordsCrc =>
    rw [checkedRecords, hf, subslice_take (by omega), leAt_take (by omega)]
    exact h.recordsCrc
  case coherent =>
    simp (disch := omega) only [leAt_take]
    exact h.coherent

theorem FileHeaderValid.take (h : FileHeaderValid data) (hn : 128 ≤ n) : FileHeaderValid (data.take n) := by
  have hl := h.length
  refine ⟨?length, ?magic, ?headerCrc, ?coherent⟩
  case length =>
    rw [List.length_take]
    omega
  case magic => rw [subslice_take (by omega), h.magic]
  case headerCrc =>
    rw [subslice_take (by omega), leAt_take (by omega)]
    exact h.headerCrc
  case coherent =>
    simp (disch := omega) only [leAt_take]
    exact h.coherent

theorem recordSize_take (h : 8 ≤ n) : recordSize (data.take n) = recordSize data :=
  leAt_take h

-- A frame that is seen through a cut is there without it.
theorem Framed.of_take (h : Framed (data.take n)) : Framed data := by
  have hl := h.length
  have hlt : (data.take n).length = min n data.length := List.length_take
  have hsize : recordSize (data.take n) = recordSize data := recordSize_take (by omega)
  have hmin := h.size
  have hfits := h.fits
  refine ⟨by omega, ?magic, by omega, ?aligned, by omega, ?tail⟩
  case magic   => rw [← subslice_take (n := n) (by omega), h.magic]
  case aligned => rw [← hsize, h.aligned]
  case tail    => rw [← hsize, ← leAt_take (n := n) (by omega), h.tail]

-- A record stands on its own. What the cut takes away of its neighbour can only be in its favour.
theorem RecordValid.take (h : RecordValid config data) (hn : recordSize data ≤ n) :
    RecordValid config (data.take n) := by
  have hmin := h.bounds.1
  have hl := h.length
  have hfits := h.fits
  have hlt : (data.take n).length = min n data.length := List.length_take
  have hsize : recordSize (data.take n) = recordSize data := recordSize_take (by omega)
  refine ⟨by omega, ?magic, ?bounds, ?aligned, by omega, ?tail, ?filetime, ?monotone⟩
  case magic    => rw [subslice_take (by omega), h.magic]
  case bounds   => rw [hsize]; exact h.bounds
  case aligned  => rw [hsize, h.aligned]
  case tail     => rw [hsize, leAt_take (by omega), h.tail]
  case filetime =>
    rw [leAt_take (by omega)]
    exact h.filetime
  case monotone =>
    rw [hsize, List.drop_take, Record.recordId_take (by omega)]
    intro hf
    have hl := hf.length
    rw [List.length_take] at hl
    rw [Record.recordId_take (by omega)]
    exact h.monotone hf.of_take

-- A record alone, of any size that the configuration allows.
theorem Record.valid_encode {r : Record}
    (hf : config.minFiletime.toNat ≤ r.filetime.toNat ∧ r.filetime.toNat ≤ config.maxFiletime.toNat)
    (hs : r.encode.length ≤ config.maxRecordSize.toNat) : RecordValid config r.encode := by
  have hlen : r.encode.length = recordLength r.body := length_buildRecord
  have hlt : recordLength r.body < 256 ^ 4 := by
    have := config.maxRecordSize.toNat_lt
    omega
  have hframed : Framed (r.encode ++ []) := framed_buildRecord hlt
  have hsize : recordSize (r.encode ++ []) = recordLength r.body := recordSize_buildRecord hlt
  have htime : Bytes.leAt (r.encode ++ []) 16 8 = r.filetime.toNat := filetime_buildRecord
  rw [List.append_nil] at hframed hsize htime
  refine ⟨hframed.length, hframed.magic, ⟨hframed.size, by omega⟩, hframed.aligned, hframed.fits, hframed.tail,
    by rwa [htime], fun hn => ?_⟩
  have hl := hn.length
  rw [hsize, ← hlen, List.drop_length] at hl
  exact absurd hl (by decide)

section

variable [Sha256] [OverflowChecks] {offset : ℕ} {c : Carved}

-- What is kept of an accepted candidate, by its magic.
theorem extract_eq_ok_iff : extract config offset data = .ok [c] ↔
    (CHUNK_MAGIC <+: data ∧ ChunkValid data ∧
      c = .new offset "evtx.chunk" "carve.evtx.chunk" (subslice data 0 (min CHUNK_SIZE data.length))) ∨
    (FILE_MAGIC <+: data ∧ FileHeaderValid data ∧
      c = .new offset "evtx.file_header" "carve.evtx.file_header"
        (subslice data 0 (min FILE_HEADER_SIZE data.length))) ∨
    (RECORD_MAGIC <+: data ∧ RecordValid config data ∧
      c = .new offset "evtx.record" "carve.evtx.record" (subslice data 0 (recordSize data))) := by
  constructor
  case mp =>
    intro h
    by_cases hc : CHUNK_MAGIC <+: data
    case pos =>
      have ⟨hv, he⟩ := (extract_chunk hc).ok_iff.mp h
      exact .inl ⟨hc, hv, List.singleton_inj.mp he⟩
    case neg =>
      by_cases hf : FILE_MAGIC <+: data
      case pos =>
        have ⟨hv, he⟩ := (extract_fileHeader hf).ok_iff.mp h
        exact .inr <| .inl ⟨hf, hv, List.singleton_inj.mp he⟩
      case neg =>
        by_cases hr : RECORD_MAGIC <+: data
        case pos =>
          have ⟨hv, he⟩ := (extract_record hr).ok_iff.mp h
          exact .inr <| .inr ⟨hr, hv, List.singleton_inj.mp he⟩
        case neg => cases (extract_neither hc hf hr).symm.trans h
  case mpr =>
    rintro (⟨hm, hv, rfl⟩ | ⟨hm, hv, rfl⟩ | ⟨hm, hv, rfl⟩)
    · exact (extract_chunk hm).ok hv
    · exact (extract_fileHeader hm).ok hv
    · exact (extract_record hm).ok hv

-- A cut through the data behind a record does not change what becomes of the record.
theorem extract_take (hm : RECORD_MAGIC <+: data) (hv : RecordValid config data) (hn : recordSize data ≤ n) :
    extract config offset (data.take n) =
      .ok [.new offset "evtx.record" "carve.evtx.record" (subslice data 0 (recordSize data))] := by
  have hmin := hv.bounds.1
  have hsize : recordSize (data.take n) = recordSize data := recordSize_take (by omega)
  have hmn : RECORD_MAGIC <+: data.take n := (prefix_take_iff (by simp; omega)).mpr hm
  rw [(extract_record hmn).ok (hv.take hn), hsize, subslice_take (by omega)]

-- Every artefact validates again without its surroundings, a record also with any part of them.
theorem revalidates (h : extract config offset data = .ok [c]) :
    extract config offset c.bytes = .ok [c] ∧
    (c.kind = "evtx.record" → ∀ n, c.bytes.length ≤ n → extract config offset (data.take n) = .ok [c]) := by
  rcases extract_eq_ok_iff.mp h with ⟨hm, hv, rfl⟩ | ⟨hm, hv, rfl⟩ | ⟨hm, hv, rfl⟩
  · refine ⟨?_, fun hk => by simp [Carved.new] at hk⟩
    have hb : subslice data 0 (min CHUNK_SIZE data.length) = data.take CHUNK_SIZE :=
      subslice_zero.trans List.take_eq_take_min.symm
    have hmc : CHUNK_MAGIC <+: data.take CHUNK_SIZE := (prefix_take_iff (by decide)).mpr hm
    have hk : subslice (data.take CHUNK_SIZE) 0 (min CHUNK_SIZE (data.take CHUNK_SIZE).length) =
        data.take CHUNK_SIZE := subslice_all (Nat.le_min.mpr ⟨List.length_take_le .., Nat.le_refl _⟩)
    simp only [Carved.new, hb]
    rw [(extract_chunk hmc).ok (hv.take (Nat.le_refl _)), hk]
    rfl
  · refine ⟨?_, fun hk => by simp [Carved.new] at hk⟩
    have hb : subslice data 0 (min FILE_HEADER_SIZE data.length) = data.take 128 := by
      rw [subslice_zero]
      exact congrArg (data.take ·) (Nat.min_eq_left hv.length)
    have hmf : FILE_MAGIC <+: data.take 128 := (prefix_take_iff (by decide)).mpr hm
    have hk : subslice (data.take 128) 0 (min FILE_HEADER_SIZE (data.take 128).length) = data.take 128 :=
      subslice_all (Nat.le_min.mpr ⟨List.length_take_le .., Nat.le_refl _⟩)
    simp only [Carved.new, hb]
    rw [(extract_fileHeader hmf).ok (hv.take (Nat.le_refl _)), hk]
    rfl
  · refine ⟨?_, fun _ n hn => ?_⟩
    · have ht : extract config offset (data.take (recordSize data)) = _ := extract_take hm hv (Nat.le_refl _)
      rwa [← subslice_zero] at ht
    · refine extract_take hm hv ?_
      have hl : (subslice data 0 (recordSize data)).length = recordSize data :=
        length_subslice_of_le (by have := hv.fits; omega)
      exact hl ▸ hn

-- Through a window of 64 KiB a record is seen whole or, when it is longer than that, not at all.
theorem accepted_take (hm : RECORD_MAGIC <+: data) (hv : RecordValid config data) :
    accepted (extract config offset (data.take CHUNK_SIZE)) =
      if recordSize data ≤ CHUNK_SIZE then
        [.new offset "evtx.record" "carve.evtx.record" (subslice data 0 (recordSize data))]
      else
        [] := by
  split
  case isTrue h => rw [extract_take hm hv h, accepted]
  case isFalse h =>
    have hmt : RECORD_MAGIC <+: data.take CHUNK_SIZE := (prefix_take_iff (by decide)).mpr hm
    have hnv : ¬RecordValid config (data.take CHUNK_SIZE) := by
      intro hv
      have hf := hv.fits
      rw [recordSize_take (by decide), List.length_take] at hf
      exact h (Nat.le_trans hf (Nat.min_le_left ..))
    obtain ⟨e, he⟩ : ∃ e, extract config offset (data.take CHUNK_SIZE) = .err e := (extract_record hmt).err hnv
    rw [he]
    rfl

variable {reg : Registry} {source : Source} {content : Bytes} {id : ℕ}

-- A candidate is handed the bytes from its offset on, cut after the window.
theorem extractHit_eq_take (hreg : reg.Routes id (extractor config)) (hc : source.Conforming content)
    (ho : offset ≤ content.length) : ∃ reg', reg.extractHit source offset id =
      .ok (accepted (extract config offset ((content.drop offset).take CHUNK_SIZE)), reg') :=
  have ⟨reg', h, _⟩ := Registry.extractHit_eq hreg hc ho ((extractor_anchored config).total _)
  ⟨reg', h⟩

theorem offset_le_of_extract (hx : extract config offset (content.drop offset) = .ok [c]) :
    offset ≤ content.length := by
  by_contra hn
  rw [List.drop_eq_nil_of_le (by omega), extract_neither (by decide) (by decide) (by decide)] at hx
  cases hx

-- The bounded lookahead loses a record exactly when the record is longer than the window.
theorem lookahead_iff (hreg : reg.Routes id (extractor config)) (hc : source.Conforming content)
    (hx : extract config offset (content.drop offset) = .ok [c]) (hk : c.kind = "evtx.record") :
    (∃ reg', reg.extractHit source offset id = .ok ([c], reg')) ↔
      recordSize (content.drop offset) ≤ (extractor config).maxStructureSize := by
  have ⟨reg', hhit⟩ := extractHit_eq_take hreg hc (offset_le_of_extract hx)
  have hw : (extractor config).maxStructureSize = CHUNK_SIZE := rfl
  rcases extract_eq_ok_iff.mp hx with ⟨_, _, rfl⟩ | ⟨_, _, rfl⟩ | ⟨hm, hv, rfl⟩
  · simp [Carved.new] at hk
  · simp [Carved.new] at hk
  · rw [hhit, accepted_take hm hv, hw]
    split
    case isTrue h  => exact iff_of_true ⟨reg', rfl⟩ h
    case isFalse h => exact iff_of_false (by simp) h

end

section

attribute [local instance] OverflowChecks.on Sha256.standard

theorem extract_strayRecords : extract .default 3 (strayRecords.drop 3) =
    .ok [.new 3 "evtx.record" "carve.evtx.record" firstRecord.encode] := by
  have hf : firstRecord.Admissible .default := ⟨by decide, by decide⟩
  have hd : strayRecords.drop 3 = firstRecord.encode ++ (Record.layOut [lastRecord] ++ [0xff]).take 33 := by
    decide
  rw [hd, extract_encode hf (by decide) (by decide)]

theorem revalidates_strayRecords :
    extract .default 3 firstRecord.encode =
      .ok [.new 3 "evtx.record" "carve.evtx.record" firstRecord.encode] ∧
    ("evtx.record" = "evtx.record" → ∀ n, firstRecord.encode.length ≤ n →
      extract .default 3 ((strayRecords.drop 3).take n) =
        .ok [.new 3 "evtx.record" "carve.evtx.record" firstRecord.encode]) :=
  revalidates extract_strayRecords

theorem lookahead_iff_strayRecords :
    (∃ reg', (Registry.build [extractor .default]).extractHit (rawSource strayRecords) 3 1 =
      .ok ([.new 3 "evtx.record" "carve.evtx.record" firstRecord.encode], reg')) ↔
      recordSize (strayRecords.drop 3) ≤ (extractor .default).maxStructureSize :=
  lookahead_iff (Registry.routes_build_singleton (by decide)) (rawSource_conforming (by decide))
    extract_strayRecords rfl

-- A configuration that allows records which are longer than a chunk, and such a record.
def longRecords : Config :=
  { Config.default with maxRecordSize := 65544 }

def longRecord : Record where
  recordId := 1
  filetime := 133000000000000000
  body     := Bytes.zeros 65516

-- A record that is longer than the window: it is all that its source holds, and nothing of it is found.
theorem Record.not_extractHit_encode {r : Record}
    (hf : config.minFiletime.toNat ≤ r.filetime.toNat ∧ r.filetime.toNat ≤ config.maxFiletime.toNat)
    (hs : r.encode.length ≤ config.maxRecordSize.toNat) (hlong : CHUNK_SIZE < r.encode.length) :
    ∃ c, extract config 0 (r.encode.drop 0) = .ok [c] ∧ c.kind = "evtx.record" ∧
      ¬∃ reg', (Registry.build [extractor config]).extractHit (rawSource r.encode) 0 1 = .ok ([c], reg') := by
  have hlt := config.maxRecordSize.toNat_lt
  have hlen : r.encode.length = recordLength r.body := length_buildRecord
  have hm : RECORD_MAGIC <+: r.encode ++ [] := Record.magic_encode
  have hsize : recordSize (r.encode ++ []) = recordLength r.body := recordSize_buildRecord (by omega)
  have hv : RecordValid config r.encode := Record.valid_encode hf hs
  have hreg : (Registry.build [extractor config]).Routes 1 (extractor config) :=
    Registry.routes_build_singleton (by change 1 < 3; decide)
  obtain ⟨reg', hhit⟩ := extractHit_eq_take hreg (rawSource_conforming (by omega)) (Nat.zero_le r.encode.length)
  rw [List.append_nil] at hm hsize
  rw [List.drop_zero] at hhit ⊢
  refine ⟨_, (extract_record hm).ok hv, rfl, ?_⟩
  rw [hhit, accepted_take hm hv, if_neg (by omega)]
  rintro ⟨_, h⟩
  cases h

theorem lookahead_loses_longRecord :
    ¬∀ (config : Config) (source : Source) (content : Bytes) (offset : ℕ) (c : Carved),
      source.Conforming content → extract config offset (content.drop offset) = .ok [c] →
      c.kind = "evtx.record" →
      ∃ reg', (Registry.build [extractor config]).extractHit source offset 1 = .ok ([c], reg') := by
  intro h
  have hbody : longRecord.body.length = 65516 := Bytes.length_zeros
  have hlen : longRecord.encode.length = 65544 := by
    rw [Record.encode, length_buildRecord, recordLength, hbody]
    rfl
  have hs : longRecord.encode.length ≤ longRecords.maxRecordSize.toNat := by rw [hlen]; decide
  obtain ⟨c, hx, hk, hn⟩ := Record.not_extractHit_encode (by decide) hs (by rw [hlen]; decide)
  have hc : (rawSource longRecord.encode).Conforming longRecord.encode :=
    rawSource_conforming (by rw [hlen]; decide)
  exact hn (h longRecords _ _ 0 c hc hx hk)

end
end Latent.Evtx
