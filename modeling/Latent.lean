import Latent.Rust.Exec
import Latent.Rust.Failure
import Latent.Rust.Int
import Latent.Rust.Ensures
import Latent.Rust.Slice
import Latent.Rust.Pieces
import Latent.Rust.Refine
import Latent.Rust.Read
import Latent.Rust.Interleaving
import Latent.Rust.Resources
import Latent.Rust.Logged
import Latent.Rust.BufWriter
import Latent.Rust.Durable
import Latent.Bytes.Endian
import Latent.Bytes.Crc32
import Latent.Bytes.Sparse
import Latent.Text.Utf8
import Latent.Text.Lines
import Latent.Text.Hex
import Latent.Text.Utf16
import Latent.Text.Json
import Latent.Text.Entry
import Latent.Text.Accepts
import Latent.Text.Decimal
import Latent.Search.Occurrence
import Latent.Search.Blocks
import Latent.Search.Links
import Latent.Core.Hash
import Latent.Core.Sha256
import Latent.Core.Confidence
import Latent.Core.Timestamp
import Latent.Core.Record
import Latent.Core.Reconstructed
import Latent.Core.Rfc3339
import Latent.Core.Serialize
import Latent.Core.Reread
import Latent.Core.Audit
import Latent.Core.Trail
import Latent.Core.Closed
import Latent.Core.Crash
import Latent.Source.Basic
import Latent.Source.Raw
import Latent.Source.ReadExact
import Latent.Source.Integrity
import Latent.Source.Coverage
import Latent.Source.Ewf
import Latent.Source.Lifetimes
import Latent.Source.Window
import Latent.Source.Vdisk.Basic
import Latent.Source.Vdisk.Qcow2
import Latent.Source.Vdisk.Vmdk
import Latent.Source.Vdisk.Vhdx
import Latent.Source.Vdisk.Disk
import Latent.Source.Vdisk.ZeroMarker
import Latent.Source.Vdisk.Parent
import Latent.Source.Vdisk.Buffer
import Latent.Source.Vdisk.Arithmetic
import Latent.Source.Vdisk.Lookups
import Latent.Source.Vdisk.Tables
import Latent.Source.Vdisk.Flat
import Latent.Source.Vdisk.Opening
import Latent.Source.Vdisk.Written
import Latent.Source.Vdisk.Qcow2Image
import Latent.Source.Vdisk.VmdkImage
import Latent.Source.Vdisk.VhdxImage
import Latent.Source.Partition.Basic
import Latent.Source.Partition.Listing
import Latent.Source.Partition.Read
import Latent.Source.Partition.Gpt
import Latent.Source.Partition.Mbr
import Latent.Source.Partition.Loop
import Latent.Source.Partition.Window
import Latent.Source.Collection
import Latent.Source.Enumeration
import Latent.Source.Stack
import Latent.Source.Open
import Latent.Source.Opened
import Latent.Source.Sources
import Latent.Source.Session
import Latent.Scan.Plan
import Latent.Scan.Engine
import Latent.Scan.Tunables
import Latent.Scan.Layout
import Latent.Scan.Budget
import Latent.Scan.Schedule
import Latent.Scan.Within
import Latent.Carve.Extractor
import Latent.Carve.Registry
import Latent.Carve.Pipeline
import Latent.Carve.Diagnostics
import Latent.Carve.Accounting
import Latent.Carve.Snapshot
import Latent.Carve.Independence
import Latent.Carve.Isolation
import Latent.Carve.Converted
import Latent.Carve.Evtx.Format
import Latent.Carve.Evtx.Fixtures
import Latent.Carve.Evtx.Tamper
import Latent.Carve.Evtx.Extractor
import Latent.Carve.Evtx.Salvage
import Latent.Carve.Evtx.Truncation
import Latent.Carve.Evtx.Neighbour
import Latent.Carve.Evtx.Confined
import Latent.Carve.Partitioned
import Latent.Carve.FailSafe
import Latent.Source.Partition.Impaired
