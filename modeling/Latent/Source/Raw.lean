import Latent.Source.Basic

open Rust

namespace Latent

-- A file opened for positioned reads: what is in it, and what one `pread` of some length at some
-- offset returns, which may be less than the file still holds.
structure File where
  bytes : Bytes
  pread : (offset len : ℕ) → Exec String Bytes

-- A regular file on which no read fails: short reads are possible, but not empty ones before the end.
structure File.Readable (f : File) : Prop where
  size_lt : f.bytes.length < 2 ^ 64
  pread   : ∀ offset len, 0 < len → offset + len ≤ f.bytes.length →
    ∃ n, 0 < n ∧ n ≤ len ∧ f.pread offset len = .ok (subslice f.bytes offset n)

inductive Backing
  | mapped (map : Bytes)
  | positioned (file : File)
  | empty

structure RawSource where
  backing  : Backing
  size     : ℕ
  identity : Identity

namespace RawSource

-- The source over a file, which the operating system was able to map or not.
def «open» (path : String) (file : File) (mapped : Bool) : RawSource where
  backing  := if file.bytes.length = 0 then .empty
              else if mapped then .mapped file.bytes
              else .positioned file
  size     := file.bytes.length
  identity := { path, format := .raw }

def openPositioned (path : String) (file : File) : RawSource :=
  RawSource.open path file false

def readAt (s : RawSource) (offset len : ℕ) : Exec SourceError Bytes :=
  if s.size < offset then
    .err <| .outOfRange offset s.size
  else
    let n := min len (s.size - offset)
    if n = 0 then
      .ok []
    else match s.backing with
      | .mapped m     => slice m offset (offset + n)
      | .positioned f => (f.pread offset n).mapErr (.io s.identity.path)
      | .empty        => .ok []

def toSource (s : RawSource) : Source where
  size     := s.size
  identity := s.identity
  readAt   := s.readAt

variable {path : String} {file : File} {mapped : Bool}

-- Both backings conform, so everything proved about a conforming source holds of either.
theorem open_conforming (h : file.Readable) :
    (RawSource.open path file mapped).toSource.Conforming file.bytes where
  size_eq := rfl
  size_lt := h.size_lt
  outOfRange len ho := by
    simp only [toSource, readAt, RawSource.open]
    rw [if_pos ho]
  inRange := by
    intro offset len ho
    simp only [toSource, readAt, RawSource.open]
    rw [if_neg (by omega)]
    by_cases hn : min len (file.bytes.length - offset) = 0
    case pos => exact ⟨0, by simp [hn], by omega, by omega⟩
    case neg =>
      have h₀ : file.bytes.length ≠ 0 := by omega
      rw [if_neg hn, if_neg h₀]
      cases mapped
      case true =>
        refine ⟨_, ?_, Nat.le_refl _, id⟩
        simp only [if_true]
        rw [slice_eq (by omega) (by omega), Nat.add_sub_cancel_left]
      case false =>
        have ⟨n, hp, hle, hr⟩ :=
          h.pread offset (min len (file.bytes.length - offset)) (by omega) (by omega)
        exact ⟨n, by simp [hr], hle, fun _ => hp⟩

end RawSource

-- The mapped file of some content, which answers every read in full.
def rawSource (content : Bytes) : Source :=
  let file := { bytes := content, pread := fun offset len => .ok (subslice content offset len) }
  (RawSource.open "" file true).toSource

theorem rawSource_conforming {content : Bytes} (h : content.length < 2 ^ 64) :
    (rawSource content).Conforming content :=
  RawSource.open_conforming {
    size_lt := h
    pread   := fun _ len h₀ _ => ⟨len, h₀, Nat.le_refl _, rfl⟩
  }

end Latent
