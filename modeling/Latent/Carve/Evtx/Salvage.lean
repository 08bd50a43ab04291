import Latent.Carve.Evtx.Extractor

open Rust

namespace Latent.Evtx

-- A record of arbitrary contents, as it is laid out on disk.
structure Record where
  recordId : UInt64
  filetime : UInt64
  body     : Bytes

namespace Record

def encode (r : Record) : Bytes :=
  buildRecord r.recordId r.filetime r.body

-- The timestamp is plausible, and the size is bounded by the configuration and by a chunk.
structure Admissible (config : Config) (r : Record) : Prop where
  filetime : config.minFiletime.toNat ≤ r.filetime.toNat ∧ r.filetime.toNat ≤ config.maxFiletime.toNat
  size     : r.encode.length ≤ min config.maxRecordSize.toNat CHUNK_SIZE

variable {config : Config} {r : Record} {rest data suffix : Bytes} {records : List Record} {k : ℕ}

def layOut (records : List Record) : Bytes :=
  records.flatMap encode

theorem Admissible.size_lt (h : r.Admissible config) : recordLength r.body < 256 ^ 4 := by
  have hs := h.size
  rw [encode, length_buildRecord] at hs
  exact Nat.lt_of_le_of_lt (Nat.le_trans hs (Nat.min_le_right ..)) (by decide)

-- What is seen of a record's header through a window is its own, if all of it is seen.
theorem recordId_take (h : 16 ≤ k) : Evtx.recordId (data.take k) = Evtx.recordId data := by
  rw [Evtx.recordId, Bytes.leAt, ← subslice_zero, subslice_subslice h, Nat.zero_add]
  rfl

-- Whatever is seen behind a record, it is cut off, no record at all, or a record with a larger id.
theorem lt_of_framed (hr : ∀ r' ∈ records, r.recordId.toNat < r'.recordId.toNat)
    (hs : ¬RECORD_MAGIC <+: suffix) (h : Framed ((layOut records ++ suffix).take k)) :
    r.recordId.toNat < Evtx.recordId ((layOut records ++ suffix).take k) := by
  have hk : 28 ≤ k := by
    have hl := h.length
    rw [List.length_take] at hl
    omega
  cases records with
  | nil =>
    have hm := h.magic
    rw [layOut, List.flatMap_nil, List.nil_append, subslice_zero, List.take_take, Nat.min_eq_left (by omega)] at hm
    exact absurd (hm ▸ List.take_prefix ..) hs
  | cons r' records =>
    rw [recordId_take (by omega), layOut, List.flatMap_cons, List.append_assoc, encode, recordId_buildRecord]
    exact hr r' List.mem_cons_self

theorem valid_of_admissible (ha : r.Admissible config)
    (hr : ∀ r' ∈ records, r.recordId.toNat < r'.recordId.toNat) (hs : ¬RECORD_MAGIC <+: suffix) :
    RecordValid config (r.encode ++ (layOut records ++ suffix).take k) := by
  have hlt := ha.size_lt
  have hle := ha.size
  have hf : Framed (r.encode ++ (layOut records ++ suffix).take k) := framed_buildRecord hlt
  have hsize : recordSize (r.encode ++ (layOut records ++ suffix).take k) = recordLength r.body :=
    recordSize_buildRecord hlt
  have hlen : (buildRecord r.recordId r.filetime r.body).length = recordLength r.body := length_buildRecord
  refine ⟨hf.length, hf.magic, ⟨hf.size, ?bounds⟩, hf.aligned, hf.fits, hf.tail, ?filetime, ?monotone⟩
  case bounds =>
    rw [hsize]
    rw [encode, hlen] at hle
    omega
  case filetime =>
    rw [encode, filetime_buildRecord]
    exact ha.filetime
  case monotone =>
    rw [hsize, ← hlen, encode, List.drop_left, recordId_buildRecord]
    exact lt_of_framed hr hs

theorem magic_encode : RECORD_MAGIC <+: r.encode ++ rest :=
  ⟨_, by rw [encode, buildRecord, recordFront, List.append_assoc, List.append_assoc]⟩

-- The window at a record's offset shows all of the record, and what follows as far as it reaches.
theorem window_eq (front rest : Bytes) (h : r.encode.length ≤ CHUNK_SIZE) :
    subslice (front ++ (r.encode ++ rest)) front.length CHUNK_SIZE =
      r.encode ++ rest.take (CHUNK_SIZE - r.encode.length) := by
  have hskip : subslice (front ++ (r.encode ++ rest)) (front.length + 0) CHUNK_SIZE =
      subslice (r.encode ++ rest) 0 CHUNK_SIZE := subslice_append_right rfl
  rw [← Nat.add_zero front.length, hskip, subslice_zero, List.take_append, List.take_of_length_le h]

theorem layOut_split {before after : List Record} :
    layOut (before ++ r :: after) = layOut before ++ (r.encode ++ layOut after) := by
  simp [layOut]

end Record

section

variable [Sha256] [OverflowChecks] {config : Config} {reg : Registry} {source : Source} {content : Bytes}

theorem extract_encode {r : Record} {after : List Record} {suffix : Bytes} {k : ℕ}
    (ha : r.Admissible config) (hr : ∀ r' ∈ after, r.recordId.toNat < r'.recordId.toNat)
    (hs : ¬RECORD_MAGIC <+: suffix) (offset : ℕ) :
    extract config offset (r.encode ++ (Record.layOut after ++ suffix).take k) =
      .ok [.new offset "evtx.record" "carve.evtx.record" r.encode] := by
  have hm : RECORD_MAGIC <+: r.encode ++ (Record.layOut after ++ suffix).take k := Record.magic_encode
  have hlen : r.encode.length = recordLength r.body := length_buildRecord
  have hsize : recordSize (r.encode ++ (Record.layOut after ++ suffix).take k) = r.encode.length := by
    rw [hlen]
    exact recordSize_buildRecord ha.size_lt
  rw [(extract_record hm).ok (Record.valid_of_admissible ha hr hs), hsize, subslice_append_take rfl]

-- A candidate at the offset of any of the records gives that record.
theorem salvages_records {front suffix : Bytes} (before after : List Record) (r : Record)
    (hreg : reg.Routes 1 (extractor config))
    (hc : source.Conforming (front ++ Record.layOut (before ++ r :: after) ++ suffix))
    (ha : ∀ r' ∈ before ++ r :: after, r'.Admissible config)
    (hids : (before ++ r :: after).Pairwise fun r r' => r.recordId.toNat < r'.recordId.toNat)
    (hs : ¬RECORD_MAGIC <+: suffix) :
    ∃ c reg', reg.extractHit source (front.length + (Record.layOut before).length) 1 = .ok ([c], reg') ∧
      c.kind = "evtx.record" ∧ c.offset = front.length + (Record.layOut before).length ∧
      c.bytes = r.encode := by
  have ha := ha r (by simp)
  have hr := (List.pairwise_cons.mp (List.pairwise_append.mp hids).2.1).1
  have hoff : (front ++ Record.layOut before).length = front.length + (Record.layOut before).length :=
    List.length_append
  have hcontent : front ++ Record.layOut (before ++ r :: after) ++ suffix =
      (front ++ Record.layOut before) ++ (r.encode ++ (Record.layOut after ++ suffix)) := by
    simp [Record.layOut_split]
  rw [hcontent] at hc
  have hle : (front ++ Record.layOut before).length ≤
      ((front ++ Record.layOut before) ++ (r.encode ++ (Record.layOut after ++ suffix))).length := by
    simp
  have ⟨reg', hx, _⟩ := Registry.extractHit_eq hreg hc hle ((extractor_anchored config).total _)
  rw [← hoff]
  refine ⟨.new _ "evtx.record" "carve.evtx.record" r.encode, reg', ?_, rfl, rfl, rfl⟩
  have hw := Record.window_eq (front ++ Record.layOut before) (Record.layOut after ++ suffix)
    (Nat.le_trans ha.size (Nat.min_le_right ..))
  simp only [hx, Extractor.artefactsAt, extractor, hw, extract_encode ha hr hs, accepted]

end

section

attribute [local instance] OverflowChecks.on

local instance : Sha256 :=
  .standard

-- Two records behind three stray bytes. The body of the first one is the magic of a record.
def firstRecord : Record where
  recordId := 7
  filetime := 133000000000000000
  body     := RECORD_MAGIC

def lastRecord : Record where
  recordId := 8
  filetime := 133000000000000000
  body     := []

def strayRecords : Bytes :=
  [1, 2, 3] ++ Record.layOut ([] ++ firstRecord :: [lastRecord]) ++ [0xff]

theorem salvages_records_strayRecords :
    ∃ c reg', (Registry.build [extractor .default]).extractHit (rawSource strayRecords) 3 1 = .ok ([c], reg') ∧
      c.kind = "evtx.record" ∧ c.offset = 3 ∧ c.bytes = firstRecord.encode := by
  have hc : (rawSource strayRecords).Conforming strayRecords := rawSource_conforming (by decide)
  have ha : ∀ r' ∈ [] ++ firstRecord :: [lastRecord], r'.Admissible .default := by
    intro r hr
    simp only [List.nil_append, List.mem_cons, List.not_mem_nil, or_false] at hr
    rcases hr with rfl | rfl
    · exact ⟨by decide, by decide⟩
    · exact ⟨by decide, by decide⟩
  have hreg : (Registry.build [extractor .default]).Routes 1 (extractor .default) :=
    Registry.routes_build_singleton (by decide)
  exact salvages_records [] [lastRecord] firstRecord hreg hc ha (by decide) (by decide)

end
end Latent.Evtx
