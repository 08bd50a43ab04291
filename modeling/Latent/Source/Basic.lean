import Latent.Rust.Int
import Latent.Rust.Refine
import Latent.Bytes.Endian

open Rust

namespace Latent

inductive Format
  | raw
  | ewf
  | qcow2
  | vmdk
  | vhdx
  deriving DecidableEq, Repr

structure Identity where
  path   : String
  format : Format
  deriving DecidableEq, Repr

inductive SourceError
  | outOfRange (offset size : ℕ)
  | shortRead (offset wanted got : ℕ)
  | unrecognized (path : String)
  | notReadOnly (path : String)
  | malformed (path format detail : String)
  | unsupported (path format detail : String)
  | io (path source : String)
  deriving DecidableEq, Repr

-- A read fills the front of a buffer of the given length and returns the bytes it has put there,
-- so the returned count is the length of the list.
structure Source where
  size     : ℕ
  identity : Identity
  readAt   : (offset len : ℕ) → Exec SourceError Bytes

namespace Source

section

variable [OverflowChecks]

def readExactAt (s : Source) (offset len : ℕ) : Exec SourceError Bytes :=
  go len offset len
where
  -- The fuel bounds the number of reads. It never runs out when it starts at the buffer's length,
  -- as every read after which the loop goes on fills at least one byte.
  go : (fuel offset rest : ℕ) → Exec SourceError Bytes
    | _, _, 0           => .ok []
    | 0, _, _ + 1       => .panic
    | fuel + 1, offset, rest + 1 => do
      let bytes ← s.readAt offset (rest + 1)
      if bytes.length = 0 then
        .err <| .shortRead offset len (len - (rest + 1))
      else if rest + 1 < bytes.length then
        .panic
      else
        let offset ← U64.add offset bytes.length
        let tail ← go fuel offset (rest + 1 - bytes.length)
        .ok (bytes ++ tail)

end

-- A source whose reads all succeed with the right bytes: a read past the end is refused, any other
-- one returns as many bytes as it likes of those that fit, but at least one of them.
structure Conforming (s : Source) (content : Bytes) : Prop where
  size_eq    : s.size = content.length
  size_lt    : content.length < 2 ^ 64
  outOfRange : ∀ {offset} len, content.length < offset →
    s.readAt offset len = .err (.outOfRange offset content.length)
  inRange    : ∀ {offset} len, offset ≤ content.length →
    ∃ n, s.readAt offset len = .ok (subslice content offset n) ∧
      n ≤ min len (content.length - offset) ∧ (0 < min len (content.length - offset) → 0 < n)

namespace Conforming

variable [OverflowChecks] {s : Source} {content : Bytes} {offset len : ℕ}

-- What one turn of the loop does: it is at the end of the source, or it moves on by some `n`.
theorem go_step (hc : s.Conforming content) {fuel rest : ℕ} (h : offset ≤ content.length) :
    (offset = content.length ∧ readExactAt.go s len (fuel + 1) offset (rest + 1) =
      .err (.shortRead offset len (len - (rest + 1)))) ∨
    ∃ n, 0 < n ∧ n ≤ rest + 1 ∧ offset + n ≤ content.length ∧
      readExactAt.go s len (fuel + 1) offset (rest + 1) = (do
        let tail ← readExactAt.go s len fuel (offset + n) (rest + 1 - n)
        .ok (subslice content offset n ++ tail)) := by
  have ⟨n, hr, hn, hp⟩ := hc.inRange (rest + 1) h
  have hl : (subslice content offset n).length = n := length_subslice_of_le (by omega)
  by_cases h₀ : n = 0
  case pos =>
    left
    refine ⟨by omega, ?_⟩
    simp [readExactAt.go, hr, h₀]
  case neg =>
    right
    have ho : offset + n < 2 ^ 64 := by have := hc.size_lt; omega
    refine ⟨n, by omega, by omega, by omega, ?_⟩
    simp only [readExactAt.go, hr, Exec.ok_bind, hl]
    rw [if_neg h₀, if_neg (by omega), U64.add_eq ho, Exec.ok_bind]

theorem go_ok (hc : s.Conforming content) {fuel rest : ℕ} (hf : rest ≤ fuel)
    (h : offset + rest ≤ content.length) :
    readExactAt.go s len fuel offset rest = .ok (subslice content offset rest) := by
  induction fuel generalizing offset rest with
  | zero =>
    cases Nat.le_zero.mp hf
    simp [readExactAt.go]
  | succ fuel hi =>
    cases rest
    case zero => simp [readExactAt.go]
    case succ rest =>
      have ho : offset ≤ content.length := by omega
      rcases hc.go_step ho with ⟨_, _⟩ | ⟨n, h₀, hn, _, hg⟩
      · omega
      · rw [hg, hi (by omega) (by omega), Exec.ok_bind, subslice_append_subslice]
        congr 2
        omega

theorem go_shortRead (hc : s.Conforming content) {fuel rest : ℕ} (hf : rest ≤ fuel)
    (hl : rest ≤ len) (ho : offset ≤ content.length) (h : content.length < offset + rest) :
    readExactAt.go s len fuel offset rest =
      .err (.shortRead content.length len (len - (rest - (content.length - offset)))) := by
  induction fuel generalizing offset rest with
  | zero => omega
  | succ fuel hi =>
    cases rest
    case zero => omega
    case succ rest =>
      rcases hc.go_step ho with ⟨he, hg⟩ | ⟨n, h₀, hn, hb, hg⟩
      · rw [hg, he, Nat.sub_self, Nat.sub_zero]
      · rw [hg, hi (by omega) (by omega) (by omega) (by omega), Exec.err_bind]
        congr 2
        omega

-- The buffer is filled with the content at the offset, however short the single reads are.
theorem readExactAt_ok (hc : s.Conforming content) (h : offset + len ≤ content.length) :
    s.readExactAt offset len = .ok (subslice content offset len) :=
  hc.go_ok (Nat.le_refl _) h

theorem readExactAt_shortRead (hc : s.Conforming content) (ho : offset ≤ content.length)
    (h : content.length < offset + len) :
    s.readExactAt offset len =
      .err (.shortRead content.length len (content.length - offset)) := by
  rw [readExactAt, hc.go_shortRead (Nat.le_refl _) (Nat.le_refl _) ho h]
  congr 2
  omega

theorem readExactAt_outOfRange (hc : s.Conforming content) (ho : content.length < offset)
    (h : 0 < len) : s.readExactAt offset len = .err (.outOfRange offset content.length) := by
  obtain ⟨len, rfl⟩ := Nat.exists_eq_succ_of_ne_zero (Nat.pos_iff_ne_zero.mp h)
  simp [readExactAt, readExactAt.go, hc.outOfRange _ ho]

theorem readExactAt_err (hc : s.Conforming content) (h₀ : 0 < len)
    (h : content.length < offset + len) : ∃ e, s.readExactAt offset len = .err e := by
  by_cases ho : offset ≤ content.length
  case pos => exact ⟨_, hc.readExactAt_shortRead ho h⟩
  case neg => exact ⟨_, hc.readExactAt_outOfRange (by omega) h₀⟩

-- A read of at least one byte succeeds exactly when all of it lies inside the source.
theorem readExactAt_cases (hc : s.Conforming content) (offset : ℕ) (h₀ : 0 < len) :
    (offset + len ≤ content.length ∧ s.readExactAt offset len = .ok (subslice content offset len)) ∨
    (content.length < offset + len ∧ ∃ e, s.readExactAt offset len = .err e) := by
  by_cases h : offset + len ≤ content.length
  case pos => exact .inl ⟨h, hc.readExactAt_ok h⟩
  case neg => exact .inr ⟨by omega, hc.readExactAt_err h₀ (by omega)⟩

theorem readExactAt_decides (hc : s.Conforming content) (offset : ℕ) (h₀ : 0 < len) :
    (s.readExactAt offset len).Decides (offset + len ≤ content.length) (subslice content offset len) where
  ok h  := hc.readExactAt_ok h
  err h := hc.readExactAt_err h₀ (Nat.lt_of_not_le h)

end Conforming
end Source
end Latent
