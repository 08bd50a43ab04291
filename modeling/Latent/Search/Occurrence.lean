import Latent.Rust.Slice
import Mathlib.Data.List.Nodup

open Rust

namespace Search

variable {α : Type} {text pat : List α} {patterns : List (List α)} {pos off len : ℕ}

def OccursAt (text pat : List α) (pos : ℕ) : Prop :=
  pos + pat.length ≤ text.length ∧ subslice text pos pat.length = pat

instance [DecidableEq α] : Decidable (OccursAt text pat pos) :=
  inferInstanceAs (Decidable (_ ∧ _))

-- What occurs in a part of the text occurs in the text, and the part shows all of it.
theorem occursAt_subslice (h : off + len ≤ text.length) :
    OccursAt (subslice text off len) pat pos ↔ OccursAt text pat (off + pos) ∧ pos + pat.length ≤ len := by
  simp only [OccursAt, length_subslice_of_le h]
  constructor
  case mp =>
    intro ⟨hl, ho⟩
    rw [subslice_subslice hl] at ho
    exact ⟨⟨by omega, ho⟩, hl⟩
  case mpr =>
    intro ⟨⟨_, ho⟩, hl⟩
    exact ⟨hl, by rw [subslice_subslice hl, ho]⟩

-- To occur somewhere is to begin what is there.
theorem occursAt_iff_isPrefix (h : pos ≤ text.length) : OccursAt text pat pos ↔ pat <+: text.drop pos := by
  rw [List.prefix_iff_eq_take, OccursAt, subslice]
  constructor
  case mp  => exact fun h => h.2.symm
  case mpr =>
    intro ho
    have hl := congrArg List.length ho
    simp only [List.length_take, List.length_drop] at hl
    exact ⟨by omega, ho.symm⟩

structure Match where
  pattern : ℕ
  start   : ℕ
  deriving DecidableEq, Repr

def IsMatch (patterns : List (List α)) (text : List α) (m : Match) : Prop :=
  ∃ pat, patterns[m.pattern]? = some pat ∧ OccursAt text pat m.start

-- An automaton for a list of patterns. Its overlapping search yields every match exactly once, in
-- an order of its own.
structure AhoCorasick (patterns : List (List α)) where
  findOverlapping : List α → List Match
  nodup           : ∀ text, (findOverlapping text).Nodup
  mem_iff         : ∀ text m, m ∈ findOverlapping text ↔ IsMatch patterns text m

namespace AhoCorasick

variable [DecidableEq α]

-- The same search without an automaton: by end position, the longest match first.
def naiveFind (patterns : List (List α)) (text : List α) : List Match :=
  (List.range (text.length + 1)).flatMap fun stop =>
    (List.range (stop + 1)).flatMap fun start =>
      ((List.range patterns.length).filter fun pattern =>
        patterns[pattern]?.any fun pat => start + pat.length = stop ∧ OccursAt text pat start).map
          fun pattern => { pattern, start }

theorem mem_naiveFind_inner {start stop : ℕ} {m : Match} :
    m ∈ ((List.range patterns.length).filter fun pattern =>
      patterns[pattern]?.any fun pat => start + pat.length = stop ∧ OccursAt text pat start).map
        (fun pattern => { pattern, start : Match }) ↔
    m.start = start ∧ ∃ pat, patterns[m.pattern]? = some pat ∧ start + pat.length = stop ∧
      OccursAt text pat start := by
  simp only [List.mem_map, List.mem_filter, List.mem_range, Option.any_eq_true, decide_eq_true_eq]
  constructor
  case mp =>
    rintro ⟨pattern, ⟨_, h⟩, rfl⟩
    exact ⟨rfl, h⟩
  case mpr =>
    intro ⟨hs, pat, hp, h⟩
    have ⟨hl, _⟩ := List.getElem?_eq_some_iff.mp hp
    exact ⟨m.pattern, ⟨hl, pat, hp, h⟩, by rw [← hs]⟩

theorem mem_naiveFind {m : Match} : m ∈ naiveFind patterns text ↔ IsMatch patterns text m := by
  simp only [naiveFind, List.mem_flatMap, List.mem_range, mem_naiveFind_inner]
  constructor
  case mp =>
    rintro ⟨stop, _, start, _, hs, pat, hp, _, h⟩
    exact ⟨pat, hp, hs ▸ h⟩
  case mpr =>
    intro ⟨pat, hp, h⟩
    have hl := h.1
    exact ⟨m.start + pat.length, by omega, m.start, by omega, rfl, pat, hp, rfl, h⟩

-- A match is found for one end only, and for one start only.
theorem nodup_naiveFind : (naiveFind patterns text).Nodup := by
  refine List.nodup_flatMap.mpr ⟨fun stop _ => List.nodup_flatMap.mpr ⟨fun start _ => ?_, ?_⟩, ?_⟩
  · refine (List.nodup_range.filter _).map fun a b h => ?_
    exact (Match.mk.inj h).1
  · refine List.nodup_range.imp fun hne m h₁ h₂ => hne ?_
    exact (mem_naiveFind_inner.mp h₁).1.symm.trans (mem_naiveFind_inner.mp h₂).1
  · refine List.nodup_range.imp fun hne m h₁ h₂ => hne ?_
    simp only [List.mem_flatMap, mem_naiveFind_inner] at h₁ h₂
    obtain ⟨_, _, rfl, pat₁, hp₁, hs₁, _⟩ := h₁
    obtain ⟨_, _, hs, pat₂, hp₂, hs₂, _⟩ := h₂
    cases hp₁.symm.trans hp₂
    omega

def naive (patterns : List (List α)) : AhoCorasick patterns where
  findOverlapping := naiveFind patterns
  nodup _         := nodup_naiveFind
  mem_iff _ _     := mem_naiveFind

end AhoCorasick
end Search
