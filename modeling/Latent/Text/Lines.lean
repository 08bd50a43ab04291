import Mathlib.Data.List.Basic
import Mathlib.Data.List.Induction

namespace Text

-- The `White_Space` property, which `char::is_whitespace` tests.
def isWhitespace (c : Char) : Bool :=
  let n := c.toNat
  (9 ≤ n && n ≤ 13) || n = 0x20 || n = 0x85 || n = 0xA0 || n = 0x1680 || (0x2000 ≤ n && n ≤ 0x200A) ||
    n = 0x2028 || n = 0x2029 || n = 0x202F || n = 0x205F || n = 0x3000

def trimStartMatches (p : Char → Bool) (s : List Char) : List Char :=
  s.dropWhile p

def trim (s : List Char) : List Char :=
  ((s.dropWhile isWhitespace).reverse.dropWhile isWhitespace).reverse

def stripPrefix (pre s : List Char) : Option (List Char) :=
  if pre.isPrefixOf s then some (s.drop pre.length) else none

def stripSuffix (suf s : List Char) : Option (List Char) :=
  if suf.isSuffixOf s then some (s.take (s.length - suf.length)) else none

-- `str::split_inclusive('\n')`: every piece but the last ends in a newline, and none is empty.
def splitInclusive : List Char → List (List Char)
  | []     => []
  | c :: s =>
    if c = '\n' then [c] :: splitInclusive s
    else match splitInclusive s with
      | []      => [[c]]
      | l :: ls => (c :: l) :: ls

-- The end of a line is dropped, be it `\n` or `\r\n`.
def chomp (line : List Char) : List Char :=
  match stripSuffix ['\n'] line with
  | none      => line
  | some body => (stripSuffix ['\r'] body).getD body

-- `str::lines`.
def lines (s : List Char) : List (List Char) :=
  (splitInclusive s).map chomp

def toAsciiLowercase (c : Char) : Char :=
  if 'A' ≤ c ∧ c ≤ 'Z' then Char.ofNat (c.toNat + 32) else c

def eqIgnoreAsciiCase (s t : List Char) : Bool :=
  s.map toAsciiLowercase = t.map toAsciiLowercase

-- A line ends at a line feed, at a carriage return, or at both together, between which there is an
-- empty line that nobody looks at.
def isBreak (c : Char) : Bool :=
  c = '\n' || c = '\r'

theorem not_isBreak_of_all {s : List Char} (h : (s.all fun c => !isBreak c) = true) : ∀ c ∈ s, isBreak c = false :=
  fun c hc => by simpa using List.all_eq_true.mp h c hc

-- Some line of the text, wherever it is and however long, is `Q`.
def SomeLine (Q : List Char → Prop) (s : List Char) : Prop :=
  ∃ l ∈ s.splitOnP isBreak, Q l

variable {Q : List Char → Prop} {s t a : List Char} {c : Char}

theorem someLine_append (h : isBreak c) (s t : List Char) :
    SomeLine Q (s ++ c :: t) ↔ SomeLine Q s ∨ SomeLine Q t := by
  simp only [SomeLine, List.splitOnP_append_cons s t h, List.mem_append, or_and_right, exists_or]

theorem someLine_of_no_break (h : ∀ c ∈ s, isBreak c = false) : SomeLine Q s ↔ Q s := by
  simp [SomeLine, List.splitOnP_eq_singleton h]

-- What has no break in it stands in one line, with some of what is behind it and in front of it.
theorem someLine_in_front (h : ∀ c ∈ s, isBreak c = false) (hQ : ∀ t', t' <+: t → Q (s ++ t')) :
    SomeLine Q (s ++ t) := by
  induction t generalizing s with
  | nil =>
    rw [List.append_nil, someLine_of_no_break h]
    simpa using hQ [] List.nil_prefix
  | cons c t hi =>
    by_cases hc : isBreak c
    case pos =>
      rw [someLine_append hc, someLine_of_no_break h]
      exact .inl (by simpa using hQ [] List.nil_prefix)
    case neg =>
      rw [List.append_cons]
      refine hi (fun d hd => ?_) fun t' ht => ?_
      · rcases List.mem_append.mp hd with hd | hd
        · exact h d hd
        · rw [List.mem_singleton.mp hd]
          simpa using hc
      · rw [← List.append_cons]
        exact hQ _ (List.cons_prefix_cons.mpr ⟨rfl, ht⟩)

theorem someLine_around (h : ∀ c ∈ s, isBreak c = false)
    (hQ : ∀ a' t', a' <:+ a → t' <+: t → Q (a' ++ (s ++ t'))) : SomeLine Q (a ++ (s ++ t)) := by
  induction a using List.reverseRecOn generalizing s with
  | nil =>
    rw [List.nil_append]
    exact someLine_in_front h fun t' ht => hQ [] t' List.nil_suffix ht
  | append_singleton a c hi =>
    rw [List.append_assoc, List.singleton_append]
    by_cases hc : isBreak c
    case pos =>
      rw [someLine_append hc]
      exact .inr (someLine_in_front h fun t' ht => hQ [] t' List.nil_suffix ht)
    case neg =>
      rw [← List.cons_append]
      refine hi (fun d hd => ?_) fun a' t' ha ht => ?_
      · rcases List.mem_cons.mp hd with rfl | hd
        · simpa using hc
        · exact h d hd
      · have := hQ (a' ++ [c]) t' (List.suffix_append_self_iff.mpr ha) ht
        simpa using this

section

variable (h₀ : ¬Q [])

include h₀

theorem not_someLine_nil : ¬SomeLine Q [] := by
  rwa [someLine_of_no_break (by simp)]

theorem someLine_concat (h : isBreak c) : SomeLine Q (s ++ [c]) ↔ SomeLine Q s := by
  rw [someLine_append h, or_iff_left (not_someLine_nil h₀)]

theorem someLine_chomp (l : List Char) : SomeLine Q (chomp l) ↔ SomeLine Q l := by
  have hstrip : ∀ (c : Char) (l body : List Char), isBreak c → stripSuffix [c] l = some body →
      (SomeLine Q body ↔ SomeLine Q l) := by
    intro c l body hc hs
    simp only [stripSuffix, Option.ite_none_right_eq_some, Option.some.injEq] at hs
    obtain ⟨front, rfl⟩ := List.isSuffixOf_iff_suffix.mp hs.1
    rw [someLine_concat h₀ hc, ← hs.2]
    simp
  cases hn : stripSuffix ['\n'] l with
  | none => simp only [chomp, hn]
  | some body =>
    rw [← hstrip '\n' l body (by decide) hn]
    cases hr : stripSuffix ['\r'] body with
    | none       => simp only [chomp, hn, hr, Option.getD_none]
    | some body' =>
      simp only [chomp, hn, hr, Option.getD_some]
      exact hstrip '\r' body body' (by decide) hr

end

theorem splitInclusive_line (h : '\n' ∉ a) : splitInclusive (a ++ '\n' :: t) = (a ++ ['\n']) :: splitInclusive t := by
  induction a with
  | nil => simp [splitInclusive]
  | cons c a hi =>
    have hc : c ≠ '\n' := fun he => h (he ▸ List.mem_cons_self)
    rw [List.cons_append, splitInclusive, if_neg hc, hi fun hm => h (List.mem_cons_of_mem _ hm)]
    rfl

theorem splitInclusive_last (h : '\n' ∉ a) (hne : a ≠ []) : splitInclusive a = [a] := by
  induction a with
  | nil => exact absurd rfl hne
  | cons c a hi =>
    have hc : c ≠ '\n' := fun he => h (he ▸ List.mem_cons_self)
    rw [splitInclusive, if_neg hc]
    cases a with
    | nil       => rfl
    | cons c' a => rw [hi (fun hm => h (List.mem_cons_of_mem _ hm)) (by simp)]

theorem lines_eq_singleton (h : '\n' ∉ a) (hne : a ≠ []) : lines a = [a] := by
  have hs : ¬['\n'] <:+ a := fun hs => h (hs.subset (List.mem_singleton_self _))
  rw [lines, splitInclusive_last h hne, List.map_singleton, chomp, stripSuffix,
    if_neg (mt List.isSuffixOf_iff_suffix.mp hs)]

-- A text is one line without an end, or a line with its end in front of the rest of the text.
@[elab_as_elim]
theorem line_induction {motive : List Char → Prop} (last : ∀ s, '\n' ∉ s → motive s)
    (line : ∀ a s, '\n' ∉ a → motive s → motive (a ++ '\n' :: s)) (s : List Char) : motive s := by
  induction hn : s.length using Nat.strongRecOn generalizing s with
  | ind n hi =>
    by_cases h : '\n' ∈ s
    case pos =>
      obtain ⟨a, b, rfl, ha⟩ := List.eq_append_cons_of_mem h
      exact line a b ha (hi b.length (by simp at hn; omega) b rfl)
    case neg => exact last s h

theorem lines_line (h : '\n' ∉ a) : lines (a ++ '\n' :: t) = chomp (a ++ ['\n']) :: lines t := by
  simp only [lines, splitInclusive_line h, List.map_cons]

-- Behind a line feed a text can be cut in two without cutting a line.
theorem lines_append (s t : List Char) : lines (s ++ '\n' :: t) = lines (s ++ ['\n']) ++ lines t := by
  induction s using line_induction with
  | last s h =>
    rw [lines_line h, lines_line h]
    rfl
  | line a s ha hi =>
    rw [List.append_assoc, List.append_assoc, List.cons_append, List.cons_append, lines_line ha, lines_line ha, hi]
    rfl

-- The lines that `lines` gives hold all the lines of the text.
theorem someLine_iff_lines (h₀ : ¬Q []) (s : List Char) : SomeLine Q s ↔ ∃ l ∈ lines s, SomeLine Q l := by
  induction s using line_induction with
  | last s h =>
    by_cases hs : s = []
    case pos => simp [hs, lines, splitInclusive, not_someLine_nil h₀]
    case neg => simp [lines, splitInclusive_last h hs, someLine_chomp h₀]
  | line a s ha hi =>
    rw [lines_line ha, List.exists_mem_cons_iff, someLine_chomp h₀, someLine_append (by decide),
      someLine_concat h₀ (by decide), hi]

end Text
