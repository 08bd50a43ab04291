import Latent.Source.Impaired

open Rust

namespace Latent

-- A regular file some of whose reads fail, such as on a medium with bad sectors. The others are right.
structure File.Fallible (f : File) : Prop where
  size_lt : f.bytes.length < 2 ^ 64
  pread   : ∀ offset len, 0 < len → offset + len ≤ f.bytes.length →
    (∃ e, f.pread offset len = .err e) ∨
      ∃ n, 0 < n ∧ n ≤ len ∧ f.pread offset len = .ok (subslice f.bytes offset n)

-- The same for the media of an image, parts of which may be missing or corrupt.
structure EwfSource.Fallible (s : EwfSource) (lib : Libewf) (content : Bytes) : Prop where
  mediaSize : s.mediaSize.toNat = content.length
  read      : ∀ {offset n : ℕ}, 0 < n → offset + n ≤ content.length →
    lib.readRandom s.handle n offset = none ∨
      ∃ k, 0 < k ∧ k ≤ n ∧ lib.readRandom s.handle n offset = some (subslice content offset k)
  negative  : ∀ {offset : ℤ} n, offset < 0 → lib.readRandom s.handle n offset = none

-- What can be put on top of each other as in `Mounted`, over evidence files whose reads may fail. The
-- disks are the ones whose tables map all of their bytes, be they readable or not.
inductive Degraded [OverflowChecks] : Source → Bytes → Prop
  | file {path : String} {file : File} {mapped : Bool} : file.Fallible →
    Degraded (RawSource.open path file mapped).toSource file.bytes
  | ewf {s : EwfSource} {lib : Libewf} {content : Bytes} : s.Fallible lib content → content.length ≤ 2 ^ 63 →
    Degraded (s.toSource lib) content
  | disk {inner : Source} {content flat : Bytes} {d : Disk} : Degraded inner content → d.Opened inner →
    d.flat content = some flat → Degraded d.toSource flat
  | window {inner : Source} {content : Bytes} {offset : ℕ} {len : Option ℕ} {w : Window} : Degraded inner content →
    Window.range inner offset len = .ok w → Degraded w.toSource (subslice content w.offset w.len)

namespace File

-- The file as it would be if each read that fails gave all of its bytes instead.
def repaired (f : File) : File where
  bytes            := f.bytes
  pread offset len := match f.pread offset len with
    | .err _ => .ok (subslice f.bytes offset len)
    | read   => read

variable {f : File}

theorem pread_orFails (f : File) (offset len : ℕ) :
    (f.pread offset len).OrFails Eq (f.repaired.pread offset len) := by
  simp only [repaired]
  cases f.pread offset len with
  | ok bytes => exact .refl _
  | err e    => exact .err e _
  | panic    => exact .refl _

theorem repaired_readable (h : f.Fallible) : f.repaired.Readable where
  size_lt := h.size_lt
  pread offset len h₀ hl := by
    simp only [repaired]
    rcases h.pread offset len h₀ hl with ⟨e, hr⟩ | ⟨n, hn, hle, hr⟩
    · exact ⟨len, h₀, Nat.le_refl _, by rw [hr]⟩
    · exact ⟨n, hn, hle, by rw [hr]⟩

-- A file that cannot be read beyond some byte.
def failingFrom (bytes : Bytes) (n : ℕ) : File where
  bytes
  pread offset len := if n < offset + len then .err "Input/output error" else .ok (subslice bytes offset len)

theorem failingFrom_fallible {bytes : Bytes} (n : ℕ) (h : bytes.length < 2 ^ 64) :
    (failingFrom bytes n).Fallible where
  size_lt := h
  pread offset len h₀ _ := by
    by_cases hn : n < offset + len
    case pos => exact .inl ⟨_, if_pos hn⟩
    case neg => exact .inr ⟨len, h₀, Nat.le_refl _, if_neg hn⟩

end File

namespace Libewf

-- The library if all of the media were there.
def repaired (lib : Libewf) (content : Bytes) : Libewf :=
  { lib with
    readRandom := fun handle size offset =>
      (lib.readRandom handle size offset).or <|
        if offset < 0 then none else some (subslice content offset.toNat size) }

variable {s : EwfSource} {lib : Libewf} {content : Bytes}

theorem readRandom_repaired (n : ℕ) (offset : ℤ) : lib.readRandom s.handle n offset = none ∨
    lib.readRandom s.handle n offset = (lib.repaired content).readRandom s.handle n offset := by
  simp only [repaired]
  cases lib.readRandom s.handle n offset with
  | none   => exact .inl rfl
  | some _ => exact .inr rfl

theorem repaired_serves (h : s.Fallible lib content) : s.Serves (lib.repaired content) content where
  mediaSize := h.mediaSize
  read {offset n} h₀ hl := by
    simp only [repaired]
    rcases h.read h₀ hl with hr | ⟨k, hk, hle, hr⟩
    · have hn : ¬(offset : ℤ) < 0 := Int.not_lt.mpr (Int.natCast_nonneg offset)
      exact ⟨n, h₀, Nat.le_refl _, by rw [hr, Option.none_or, if_neg hn, Int.toNat_natCast]⟩
    · exact ⟨k, hk, hle, by rw [hr, Option.some_or]⟩
  negative n ho := by
    simp only [repaired]
    rw [h.negative n ho, if_pos ho, Option.none_or]

end Libewf

namespace Degraded

variable [OverflowChecks] {s : Source} {content : Bytes}

-- Whatever the sources are nested like, the topmost one is that over the repaired files but for reads
-- that fail.
theorem exists_mounted (h : Degraded s content) : ∃ t, Mounted t content ∧ s.Impaired t := by
  induction h with
  | @file path file mapped h =>
    have hm : Mounted (RawSource.open path file.repaired mapped).toSource file.bytes :=
      .file (File.repaired_readable h)
    have hb : file.bytes = file.repaired.bytes := rfl
    exact ⟨_, hm, RawSource.open_impaired hb file.pread_orFails path mapped⟩
  | ewf h hl =>
    exact ⟨_, .ewf (Libewf.repaired_serves h) hl, EwfSource.toSource_impaired _ Libewf.readRandom_repaired⟩
  | @disk inner _ flat d _ hd hf hi =>
    have ⟨t, ht, hs⟩ := hi
    have hm : Mounted (d.withInner t).toSource flat := .disk ht (hd.of_impaired hs) (by rwa [Disk.flat_withInner])
    have hdisk := d.toSource_impaired hs
    rw [← hd.inner_eq, Disk.withInner_inner] at hdisk
    exact ⟨_, hm, hdisk⟩
  | @window _ _ _ _ w _ hw hi =>
    have ⟨t, ht, hs⟩ := hi
    obtain ⟨w', hw', ho, hl, himp⟩ := Window.range_impaired hs hw
    exact ⟨_, ho ▸ hl ▸ ht.window hw', himp⟩

end Degraded
end Latent
