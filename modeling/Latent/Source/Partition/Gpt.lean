import Latent.Source.Raw
import Latent.Source.Partition.Read

open Rust

namespace Latent.Partition

-- A GUID by the groups of its text. On the disk the bytes of the first three are in reverse order.
structure Guid where
  timeLow  : Bytes
  timeMid  : Bytes
  timeHigh : Bytes
  clockSeq : Bytes
  node     : Bytes
  lengths  : timeLow.length = 4 ∧ timeMid.length = 2 ∧ timeHigh.length = 2 ∧ clockSeq.length = 2 ∧
    node.length = 6

def Guid.text (g : Guid) : List Char :=
  Text.hex g.timeLow ++ '-' :: Text.hex g.timeMid ++ '-' :: Text.hex g.timeHigh ++
    '-' :: Text.hex g.clockSeq ++ '-' :: Text.hex g.node

def Guid.encode (g : Guid) : Bytes :=
  g.timeLow.reverse ++ (g.timeMid.reverse ++ (g.timeHigh.reverse ++ (g.clockSeq ++ g.node)))

structure GptEntry where
  typeGuid      : Guid
  uniqueGuid    : Bytes
  first         : UInt64
  last          : UInt64
  attributes    : Bytes
  name          : List Char
  used          : ∃ b ∈ typeGuid.encode, b ≠ 0
  uniqueGuid_eq : uniqueGuid.length = 16
  attributes_eq : attributes.length = 8
  name_le       : (Text.encodeUtf16 name).length ≤ 36
  name_noNul    : ∀ c ∈ name, c.toNat ≠ 0

-- The name in 36 code units, the rest of which are zero.
def encodeName (name : List Char) : Bytes :=
  (Text.encodeUtf16 name ++ List.replicate (36 - (Text.encodeUtf16 name).length) 0).flatMap (Bytes.toLE 2)

def GptEntry.encode (e : GptEntry) : Bytes :=
  e.typeGuid.encode ++ (e.uniqueGuid ++ (Bytes.toLE 8 e.first.toNat ++ (Bytes.toLE 8 e.last.toNat ++
    (e.attributes ++ encodeName e.name))))

-- The volume that a used entry stands for, if its byte range can be expressed.
def GptEntry.volume? (e : GptEntry) : Option Volume :=
  let start := e.first.toNat * 512
  let length := (e.last.toNat - e.first.toNat + 1) * 512
  if e.first ≤ e.last ∧ start < 2 ^ 64 ∧ length < 2 ^ 64 then
    some { kind := e.typeGuid.text, start, length, name := if e.name = [] then none else some e.name }
  else
    none

-- A slot of the array. What follows the type GUID of an unused one and the name of a used one is
-- anything at all.
inductive GptSlot
  | unused (rest : Bytes)
  | used (entry : GptEntry) (rest : Bytes)

namespace GptSlot

def encode : GptSlot → Bytes
  | unused rest     => Bytes.zeros 16 ++ rest
  | used entry rest => entry.encode ++ rest

def volume? : GptSlot → Option Volume
  | unused _     => none
  | used entry _ => entry.volume?

end GptSlot

-- A table to be written. The rest of the header is whatever the decoder does not look at.
structure GptLayout where
  revision    : Bytes
  reserved    : Bytes
  middle      : Bytes
  rest        : Bytes
  entryLba    : ℕ
  entrySize   : ℕ
  slots       : List GptSlot
  revision_eq : revision.length = 4
  reserved_eq : reserved.length = 4
  middle_eq   : middle.length = 48
  rest_le     : rest.length ≤ 420
  size_bounds : 128 ≤ entrySize ∧ entrySize ≤ 4096
  slots_pos   : slots ≠ []
  slots_le    : slots.length ≤ 4096
  slots_eq    : ∀ slot ∈ slots, slot.encode.length = entrySize

namespace GptLayout

def headerSize (g : GptLayout) : ℕ :=
  92 + g.rest.length

def array (g : GptLayout) : Bytes :=
  g.slots.flatMap GptSlot.encode

def front (g : GptLayout) : Bytes :=
  GPT_SIGNATURE ++ (g.revision ++ Bytes.toLE 4 g.headerSize)

def back (g : GptLayout) : Bytes :=
  g.reserved ++ (g.middle ++ (Bytes.toLE 8 g.entryLba ++ (Bytes.toLE 4 g.slots.length ++
    (Bytes.toLE 4 g.entrySize ++ (Bytes.toLE 4 (Crc32.hash g.array) ++ g.rest)))))

-- The header around its own checksum, which is computed with zeros in its place.
def header (g : GptLayout) : Bytes :=
  g.front ++ (Bytes.toLE 4 (Crc32.hash (g.front ++ (Bytes.zeros 4 ++ g.back))) ++ g.back)

def write (g : GptLayout) (disk : Bytes) : Bytes :=
  put (put disk (g.entryLba * 512) g.array) 512 g.header

-- The array lies inside the disk and apart from the header sector.
structure Fits (g : GptLayout) (disk : Bytes) : Prop where
  sector : 1024 ≤ disk.length
  array  : g.entryLba * 512 + g.array.length ≤ disk.length
  apart  : g.entryLba * 512 + g.array.length ≤ 512 ∨ 1024 ≤ g.entryLba * 512

end GptLayout

attribute [local simp] subslice_append_skip subslice_append_take subslice_all Bytes.leAt

theorem Guid.length_encode (g : Guid) : g.encode.length = 16 := by
  have ⟨h₁, h₂, h₃, h₄, h₅⟩ := g.lengths
  simp [encode, h₁, h₂, h₃, h₄, h₅]

theorem guidString_encode (g : Guid) : guidString g.encode = g.text := by
  have ⟨h₁, h₂, h₃, h₄, h₅⟩ := g.lengths
  have hl := Text.hexPad_fromLE g.timeLow.reverse
  have hm := Text.hexPad_fromLE g.timeMid.reverse
  have hh := Text.hexPad_fromLE g.timeHigh.reverse
  simp only [List.length_reverse, List.reverse_reverse, h₁, h₂, h₃, Nat.reduceMul] at hl hm hh
  simp [guidString, Guid.encode, Guid.text, h₁, h₂, h₃, h₄, h₅, hl, hm, hh]

theorem length_encodeName {name : List Char} (h : (Text.encodeUtf16 name).length ≤ 36) :
    (encodeName name).length = 72 := by
  rw [encodeName, length_flatMap_of_eq fun _ _ => Bytes.length_toLE]
  simp only [List.length_append, List.length_replicate]
  omega

-- The code units are read back up to the first zero, which is where the name ends.
theorem decodeName_encodeName {name : List Char} (hn : ∀ c ∈ name, c.toNat ≠ 0) :
    decodeName (encodeName name) = if name = [] then none else some name := by
  have hu : ∀ u ∈ Text.encodeUtf16 name, u < 0x10000 ∧ u ≠ 0 := by
    intro u hu
    have ⟨hl, h₀⟩ := Text.mem_encodeUtf16_bounds hu
    refine ⟨hl, fun hz => ?_⟩
    have ⟨c, hc, hcz⟩ := h₀ hz
    exact hn c hc hcz
  have hmap : (Text.encodeUtf16 name).map (Bytes.fromLE ∘ Bytes.toLE 2) = Text.encodeUtf16 name := by
    refine (List.map_congr_left fun u h => ?_).trans (List.map_id _)
    exact Bytes.fromLE_toLE (hu u h).1
  have hunits : ((chunksExact 2 (encodeName name)).map Bytes.fromLE).takeWhile (· ≠ 0) = Text.encodeUtf16 name := by
    rw [encodeName, chunksExact_flatMap (by decide) fun _ _ => Bytes.length_toLE, List.map_map,
      List.map_append, List.map_replicate, hmap, List.takeWhile_append_of_pos, List.takeWhile_replicate]
    · simp [Bytes.toLE, Bytes.fromLE]
    · exact fun u h => decide_eq_true (hu u h).2
  have hnil : Text.encodeUtf16 name = [] ↔ name = [] := Text.encodeUtf16_eq_nil_iff
  simp only [decodeName, hunits, hnil, Text.fromUtf16Lossy_encodeUtf16]

theorem GptEntry.length_encode (e : GptEntry) : e.encode.length = 128 := by
  simp [GptEntry.encode, Guid.length_encode, e.uniqueGuid_eq, e.attributes_eq, length_encodeName e.name_le]

theorem gptVolume_unused (rest : Bytes) : gptVolume (GptSlot.unused rest).encode = none := by
  have hz : subslice (GptSlot.unused rest).encode 0 16 = Bytes.zeros 16 := subslice_append_take (by simp)
  rw [gptVolume, hz]
  exact if_pos (by decide)

theorem gptVolume_used (e : GptEntry) (rest : Bytes) : gptVolume (GptSlot.used e rest).encode = e.volume? := by
  have hlen := Guid.length_encode
  have hn := length_encodeName e.name_le
  have hg : subslice (GptSlot.used e rest).encode 0 16 = e.typeGuid.encode := by
    simp [GptSlot.encode, GptEntry.encode, hlen]
  have hf : Bytes.leAt (GptSlot.used e rest).encode 32 8 = e.first.toNat := by
    simp [GptSlot.encode, GptEntry.encode, hlen, e.uniqueGuid_eq]
  have hl : Bytes.leAt (GptSlot.used e rest).encode 40 8 = e.last.toNat := by
    simp [GptSlot.encode, GptEntry.encode, hlen, e.uniqueGuid_eq]
  have hname : subslice (GptSlot.used e rest).encode 56 72 = encodeName e.name := by
    simp [GptSlot.encode, GptEntry.encode, hlen, e.uniqueGuid_eq, e.attributes_eq, hn]
  have hused : ¬e.typeGuid.encode.all (decide <| · = 0) := by
    have ⟨b, hb, h₀⟩ := e.used
    exact fun h => h₀ (of_decide_eq_true (List.all_eq_true.mp h b hb))
  rw [gptVolume, hg, hf, hl, hname, guidString_encode, decodeName_encodeName e.name_noNul, if_neg hused]
  rfl

theorem gptVolume_encode (slot : GptSlot) : gptVolume slot.encode = slot.volume? := by
  cases slot with
  | unused rest => exact gptVolume_unused rest
  | used e rest => exact gptVolume_used e rest

@[simp] theorem length_GPT_SIGNATURE : GPT_SIGNATURE.length = 8 :=
  by decide

namespace GptLayout

variable {g : GptLayout} {disk : Bytes} {off len : ℕ}

theorem length_front : g.front.length = 16 := by
  simp [front, g.revision_eq]

theorem length_header : g.header.length = g.headerSize := by
  simp [header, back, headerSize, length_front, g.reserved_eq, g.middle_eq]
  omega

theorem length_array : g.array.length = g.slots.length * g.entrySize :=
  (length_flatMap_of_eq g.slots_eq).trans (Nat.mul_comm ..)

theorem headerSize_le : g.headerSize ≤ 512 :=
  Nat.add_le_add_left g.rest_le 92

theorem header_front (h : off + len ≤ 16) : subslice g.header off len = subslice g.front off len :=
  subslice_append_left (by rwa [length_front])

-- Where the fields of the header are.
theorem header_signature : subslice g.header 0 8 = GPT_SIGNATURE := by
  rw [header_front (by decide), front, subslice_append_take length_GPT_SIGNATURE]

theorem header_headerSize : subslice g.header 12 4 = Bytes.toLE 4 g.headerSize := by
  rw [header_front (by decide)]
  simp [front, g.revision_eq]

theorem header_crc :
    subslice g.header 16 4 = Bytes.toLE 4 (Crc32.hash (g.front ++ (Bytes.zeros 4 ++ g.back))) := by
  simp [header, length_front]

theorem header_entryLba : subslice g.header 72 8 = Bytes.toLE 8 g.entryLba := by
  simp [header, length_front, back, g.reserved_eq, g.middle_eq]

theorem header_count : subslice g.header 80 4 = Bytes.toLE 4 g.slots.length := by
  simp [header, length_front, back, g.reserved_eq, g.middle_eq]

theorem header_entrySize : subslice g.header 84 4 = Bytes.toLE 4 g.entrySize := by
  simp [header, length_front, back, g.reserved_eq, g.middle_eq]

theorem header_arrayCrc : subslice g.header 88 4 = Bytes.toLE 4 (Crc32.hash g.array) := by
  simp [header, length_front, back, g.reserved_eq, g.middle_eq]

section

variable (h : g.Fits disk)

include h

theorem length_write : (g.write disk).length = disk.length := by
  have hs := h.sector
  have hl := headerSize_le (g := g)
  have ha := length_put h.array
  rw [write, length_put (by rw [ha, length_header]; omega), ha]

theorem subslice_write_header : subslice (g.write disk) 512 g.headerSize = g.header := by
  have hs := h.sector
  have hl := headerSize_le (g := g)
  rw [← length_header]
  exact subslice_put_self (by rw [length_put h.array, length_header]; omega)

theorem subslice_write_array : subslice (g.write disk) (g.entryLba * 512) g.array.length = g.array := by
  have hs := h.sector
  have hl := headerSize_le (g := g)
  have ha := h.apart
  rw [write, subslice_put_of_disjoint (by rw [length_put h.array, length_header]; omega)
    (by rw [length_header]; omega)]
  exact subslice_put_self h.array

theorem gptHeader_write (hk : off + len ≤ g.headerSize) :
    subslice (gptHeader (g.write disk)) off len = subslice g.header off len := by
  have hl := headerSize_le (g := g)
  rw [← subslice_write_header h, subslice_subslice hk, gptHeader]
  exact subslice_subslice (hk.trans hl)

theorem leAt_write {n : ℕ} (hk : off + len ≤ 92) (hf : subslice g.header off len = Bytes.toLE len n)
    (hn : n < 256 ^ len) : Bytes.leAt (gptHeader (g.write disk)) off len = n := by
  rw [Bytes.leAt, gptHeader_write h (hk.trans (Nat.le_add_right ..)), hf, Bytes.fromLE_toLE hn]

theorem checkedGptHeader_write :
    checkedGptHeader (g.write disk) = g.front ++ (Bytes.zeros 4 ++ g.back) := by
  have hl := headerSize_le (g := g)
  have hs : Bytes.leAt (gptHeader (g.write disk)) 12 4 = g.headerSize :=
    leAt_write h (by decide) header_headerSize (by omega)
  have ht : g.header.take 16 = g.front := List.take_left' length_front
  have hd : g.header.drop 20 = g.back := by
    rw [header, ← List.append_assoc]
    exact List.drop_left' (by simp [length_front])
  rw [checkedGptHeader, hs, gptHeader_write h (by omega), subslice_all (Nat.le_of_eq length_header), ht, hd,
    List.append_assoc]

theorem gptOffset_write (hd : disk.length < 2 ^ 64) : gptOffset (g.write disk) = g.entryLba * 512 := by
  have ha := h.array
  rw [gptOffset, leAt_write h (by decide) header_entryLba (by omega)]
  rfl

theorem gptCount_write : gptCount (g.write disk) = g.slots.length := by
  have hl := g.slots_le
  exact leAt_write h (by decide) header_count (by omega)

theorem gptEntrySize_write : gptEntrySize (g.write disk) = g.entrySize := by
  have hl := g.size_bounds
  exact leAt_write h (by decide) header_entrySize (by omega)

theorem gptArray_write (hd : disk.length < 2 ^ 64) : gptArray (g.write disk) = g.array := by
  rw [gptArray, gptOffset_write h hd, gptCount_write h, gptEntrySize_write h, ← length_array]
  exact subslice_write_array h

theorem gptUsable_write (hd : disk.length < 2 ^ 64) : GptUsable (g.write disk) := by
  have hl := headerSize_le (g := g)
  have hcrc (l : Bytes) : Crc32.hash l < 256 ^ 4 := Crc32.finalize_lt
  have hs : Bytes.leAt (gptHeader (g.write disk)) 12 4 = g.headerSize :=
    leAt_write h (by decide) header_headerSize (by omega)
  refine ⟨?sector, ?signature, ?headerSize, ?headerCrc, ?entries, ?arrayOffset, ?array, ?arrayCrc⟩
  case sector =>
    rw [length_write h]
    exact h.sector
  case signature =>
    rw [gptHeader_write h (Nat.le_add_right_of_le (by decide)), header_signature]
  case headerSize =>
    rw [hs]
    exact ⟨Nat.le_add_right .., hl⟩
  case headerCrc =>
    rw [checkedGptHeader_write h, leAt_write h (by decide) header_crc (hcrc _)]
  case entries =>
    rw [gptEntrySize_write h, gptCount_write h]
    exact ⟨g.size_bounds, mt List.length_eq_zero_iff.mp g.slots_pos, g.slots_le⟩
  case arrayOffset =>
    have ha := h.array
    rw [gptOffset_write h hd]
    omega
  case array =>
    rw [gptOffset_write h hd, gptCount_write h, gptEntrySize_write h, ← length_array, length_write h]
    exact h.array
  case arrayCrc =>
    rw [gptArray_write h hd, leAt_write h (by decide) header_arrayCrc (hcrc _)]

theorem gptVolumes_write (hd : disk.length < 2 ^ 64) :
    gptVolumes (g.write disk) = g.slots.filterMap GptSlot.volume? := by
  have hp : 0 < g.entrySize := Nat.lt_of_lt_of_le (by decide) g.size_bounds.1
  rw [gptVolumes, gptArray_write h hd, gptEntrySize_write h, array, chunksExact_flatMap hp g.slots_eq,
    List.filterMap_map]
  exact List.filterMap_congr fun slot _ => gptVolume_encode slot

end

end GptLayout

theorem read_gptDisk [OverflowChecks] {src : Source} {g : GptLayout} {disk : Bytes} (h : g.Fits disk)
    (hc : src.Conforming (g.write disk)) :
    read src = .ok { scheme := .gpt, partitions := number (g.slots.filterMap GptSlot.volume?) } := by
  have hd : disk.length < 2 ^ 64 := GptLayout.length_write h ▸ hc.size_lt
  rw [read_eq hc, table, if_pos (GptLayout.gptUsable_write h hd), GptLayout.gptVolumes_write h hd]

def linuxData : Guid where
  timeLow  := [0x0f, 0xc6, 0x3d, 0xaf]
  timeMid  := [0x84, 0x83]
  timeHigh := [0x47, 0x72]
  clockSeq := [0x8e, 0x79]
  node     := [0x3d, 0x69, 0xd8, 0x47, 0x7d, 0xe4]
  lengths  := by decide

def dataOne : GptEntry where
  typeGuid      := linuxData
  uniqueGuid    := List.replicate 16 1
  first         := 34
  last          := 39
  attributes    := Bytes.zeros 8
  name          := ['o', 'n', 'e']
  used          := by decide
  uniqueGuid_eq := by decide
  attributes_eq := by decide
  name_le       := by decide
  name_noNul    := by simp

-- Two entries behind one that is not used. The first of them ends before it starts.
def gptLayout : GptLayout where
  revision    := [0, 0, 1, 0]
  reserved    := Bytes.zeros 4
  middle      := Bytes.zeros 48
  rest        := []
  entryLba    := 2
  entrySize   := 128
  slots       := [.unused (Bytes.zeros 112), .used { dataOne with last := 33 } [], .used dataOne []]
  revision_eq := by decide
  reserved_eq := by decide
  middle_eq   := by decide
  rest_le     := by decide
  size_bounds := by decide
  slots_pos   := by decide
  slots_le    := by decide
  slots_eq    := by simp [GptSlot.encode, GptEntry.length_encode]

section

attribute [local instance] OverflowChecks.on

theorem read_gptDisk_gptLayout : read (rawSource (gptLayout.write (Bytes.zeros 2048))) = .ok {
    scheme     := .gpt
    partitions := [{
      index  := 0
      kind   := "0fc63daf-8483-4772-8e79-3d69d8477de4".toList
      start  := 34 * 512
      length := 6 * 512
      name   := some ['o', 'n', 'e']
    }]
  } := by
  have hf : gptLayout.Fits (Bytes.zeros 2048) := {
    sector := by simp
    array  := by simp [GptLayout.length_array, gptLayout]
    apart  := .inr (by decide)
  }
  have hl : (gptLayout.write (Bytes.zeros 2048)).length < 2 ^ 64 := by
    rw [GptLayout.length_write hf]
    simp
  rw [read_gptDisk hf (rawSource_conforming hl)]
  decide +kernel

end

end Latent.Partition
