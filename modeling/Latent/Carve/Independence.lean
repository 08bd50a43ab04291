import Latent.Carve.Registry
import Latent.Scan.Engine
import Latent.Source.Integrity
import Latent.Source.Partition.Read
import Latent.Source.Stack

open Rust

namespace Latent

section

variable [OverflowChecks] {s t : Source} (h : s.Agrees t)

include h

theorem Scanner.scan_congr {patterns : List Bytes} (rt : Runtime) (scanner : Scanner patterns) :
    scanner.scan rt s = scanner.scan rt t := by
  have hb : scanner.scanBlock s = scanner.scanBlock t := by
    funext plan block
    simp only [Scanner.scanBlock, h.readExactAt]
  simp only [Scanner.scan, h.size_eq, hb]

namespace Registry

theorem extractHit_congr (reg : Registry) (offset id : ℕ) :
    reg.extractHit s offset id = reg.extractHit t offset id := by
  simp only [extractHit, h.size_eq, h.readExactAt]

theorem extractHits_congr (reg : Registry) (hits : List (ℕ × ℕ)) :
    extractHits s reg hits = extractHits t reg hits := by
  induction hits generalizing reg with
  | nil => rfl
  | cons hit hits hi => simp only [extractHits, extractHit_congr h, hi]

end Registry

end

namespace Source

-- What everything that works on a source makes of two of them: the same.
structure Interchangeable [OverflowChecks] (s t : Source) (size : ℕ) : Prop where
  reads  : s.Agrees t
  digest : ∀ [Sha256] fuel, size < fuel → hashSource s fuel = hashSource t fuel
  table  : Partition.read s = Partition.read t
  scan   : ∀ {patterns : List Bytes} rt (scanner : Scanner patterns), scanner.scan rt s = scanner.scan rt t
  carve  : ∀ (reg : Registry) hits, reg.extractHits s hits = reg.extractHits t hits
  disk   : ∀ d : Disk, (d.withInner s).readAt = (d.withInner t).readAt
  qcow2  : s.identity.path = t.identity.path → Qcow2Source.open t = (do
    let q ← Qcow2Source.open s
    .ok { q with inner := t })
  vhdx   : s.identity.path = t.identity.path → VhdxSource.open t = (do
    let v ← VhdxSource.open s
    .ok { v with inner := t })

variable [OverflowChecks] {s t : Source} {content : Bytes}

theorem Conforming.interchangeable (hs : s.Conforming content) (ht : t.Conforming content) :
    s.Interchangeable t content.length where
  reads           := hs.agrees ht
  digest fuel hf  := by rw [hs.hashSource_eq hf, ht.hashSource_eq hf]
  table           := by rw [Partition.read_eq hs, Partition.read_eq ht]
  scan rt scanner := Scanner.scan_congr (hs.agrees ht) rt scanner
  carve reg hits  := reg.extractHits_congr (hs.agrees ht) hits
  disk d          := d.readAt_withInner (hs.agrees ht)
  qcow2 hp        := Qcow2Source.open_congr (hs.agrees ht) hp
  vhdx hp         := VhdxSource.open_congr (hs.agrees ht) hp

end Source

namespace Mounted

section

variable [OverflowChecks] {s t : Source} {content : Bytes}

-- What lies between a source and the evidence files makes no difference, be it a mapping, short reads,
-- libewf, the tables of a virtual disk or a window, as long as there is the same in the end. The same
-- goes for all windows that are then opened on it.
theorem indistinguishable (hs : Mounted s content) (ht : Mounted t content) :
    s.Conforming content ∧ s.Interchangeable t content.length ∧
    ∀ offset len w, Window.range s offset len = .ok w → ∃ w', Window.range t offset len = .ok w' ∧
      w.toSource.Interchangeable w'.toSource w.len := by
  have hc := hs.conforming
  have hc' := ht.conforming
  refine ⟨hc, hc.interchangeable hc', fun offset len w hw => ?_⟩
  have ho := Window.range_eq_ok_iff.mp ⟨w, hw⟩
  have hsize := (hc.agrees hc').size_eq
  have ⟨v, hv, _, ho₁, hl₁, _⟩ := Window.range_ok len ho
  cases hw.symm.trans hv
  obtain ⟨w', hw', _, ho₂, hl₂, _⟩ := Window.range_ok len (hsize ▸ ho)
  have hm : w.toSource.Conforming (subslice content w.offset w.len) := (hs.window hw).conforming
  have hm' : w'.toSource.Conforming (subslice content w'.offset w'.len) := (ht.window hw').conforming
  have ho' : w'.offset = w.offset := ho₂.trans ho₁.symm
  have hl' : w'.len = w.len := by rw [hl₁, hsize, hl₂]
  rw [ho', hl'] at hm'
  have hl : w.len = (subslice content w.offset w.len).length := hm.size_eq
  refine ⟨w', hw', ?_⟩
  rw [hl]
  exact hm.interchangeable hm'

end

attribute [local instance] Sha256.standard OverflowChecks.on

-- A file of zeros and a sparse image without any data.
theorem indistinguishable_sparse :
    ∃ d : Disk, d.Opened (rawSource (Disk.qcow2Image 0 [])) ∧
      Partition.read (rawSource (Bytes.zeros 512)) = Partition.read d.toSource ∧
      hashSource (rawSource (Bytes.zeros 512)) 513 = hashSource d.toSource 513 := by
  have h : (Qcow2Source.open (rawSource (Disk.qcow2Image 0 [])) >>= fun s =>
      .ok ((Disk.qcow2 s).flat (Disk.qcow2Image 0 []))) = .ok (some (Bytes.zeros 512)) := by decide +kernel
  have ⟨q, ho, hf⟩ := Exec.bind_eq_ok.mp h
  have file : ∀ {content : Bytes}, content.length < 2 ^ 64 → Mounted (rawSource content) content := fun hl =>
    .file {
      size_lt := hl
      pread   := fun _ len h₀ _ => ⟨len, h₀, Nat.le_refl _, rfl⟩
    }
  have hs : Mounted (rawSource (Bytes.zeros 512)) (Bytes.zeros 512) := file (by decide +kernel)
  have ht : Mounted (Disk.qcow2 q).toSource (Bytes.zeros 512) :=
    .disk (file (by decide +kernel)) (.qcow2 ho) (Exec.ok.inj hf)
  have ⟨_, hi, _⟩ := indistinguishable hs ht
  exact ⟨.qcow2 q, .qcow2 ho, hi.table, hi.digest 513 (by decide +kernel)⟩

end Mounted
end Latent
