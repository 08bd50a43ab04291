import Latent.Core.Hash
import Latent.Rust.Exec

open Rust

namespace Latent

inductive Platform
  | windows
  | linux
  | macOs
  | crossPlatform
  deriving DecidableEq, Repr

structure ExtractorMetadata where
  name     : String
  platform : Platform
  method   : String
  deriving DecidableEq, Repr

inductive Rejection
  | notThisFormat
  | truncated (needed available : ℕ)
  | lengthOutOfBounds (field : String) (value max : ℕ)
  | failedValidation (detail : String)
  deriving DecidableEq, Repr

structure Carved where
  offset    : ℕ
  kind      : String
  method    : String
  rawSha256 : List Char
  bytes     : Bytes
  deriving DecidableEq, Repr

def Carved.new [Sha256] (offset : ℕ) (kind method : String) (bytes : Bytes) : Carved where
  rawSha256 := sha256Reader bytes
  offset    := offset
  kind      := kind
  method    := method
  bytes     := bytes

-- The implementations of the trait. `extract` is given the absolute offset of a candidate and the
-- bytes from there on, at most `maxStructureSize` of them.
structure Extractor where
  metadata         : ExtractorMetadata
  signatures       : List Bytes
  maxStructureSize : ℕ
  extract          : ℕ → Bytes → Exec Rejection (List Carved)

end Latent
