import Latent.Carve.Converted
import Latent.Carve.Evtx.Extractor
import Latent.Source.Partition.Window

open Rust

namespace Latent.Extractor.Anchored

section

variable [OverflowChecks] {e : Extractor} {host : Host} {path : String} {fd : ℕ} {file : File}
variable {flat : Bytes} {format : Format} {rt : Runtime} {config : ScanConfig}
variable {s : Scanner (Registry.build [e]).patterns}

end

end Latent.Extractor.Anchored

namespace Latent.Evtx

section

attribute [local instance] Sha256.standard OverflowChecks.on

-- A disk whose one partition is nothing but a file header.
def evtxDisk : Bytes :=
  Partition.tableSector (Partition.mbrEntry 0x07 1 1) ++ (buildFileHeader ++ Bytes.zeros 384)

def evtxImage : Qcow2Image where
  bits := 10
  disk := .ofFlat evtxDisk (Nat.two_pow_pos 10)
  bits_mem := by decide
  unit_eq  := rfl

theorem length_evtxDisk : evtxDisk.length = 1024 := by
  simp [evtxDisk, Partition.tableSector, Partition.mbrEntry, buildFileHeader]

theorem size_evtxImage : evtxImage.size = 4096 := by
  rw [Qcow2Image.size, evtxImage.disk.length_stored]
  decide +kernel

theorem evtxImage_fits : evtxImage.Fits where
  size_lt   := by rw [size_evtxImage]; decide
  flat_lt   := by change evtxDisk.length < _; rw [length_evtxDisk]; decide
  tables_lt := by decide +kernel

end

end Latent.Evtx
