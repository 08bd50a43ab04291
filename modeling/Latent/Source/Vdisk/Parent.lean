import Latent.Source.Raw
import Latent.Source.Vdisk.Vmdk
import Mathlib.Data.List.DropRight

open Rust Text

namespace Latent.VmdkSource

section

variable {l : List Char} {p q : Char → Bool}

theorem dropWhile_dropWhile (h : ∀ c, p c → q c) (l : List Char) :
    (l.dropWhile p).dropWhile q = l.dropWhile q := by
  induction l with
  | nil => rfl
  | cons c l hi =>
    cases hp : p c with
    | true  => rw [List.dropWhile_cons_of_pos hp, hi, List.dropWhile_cons_of_pos (h c hp)]
    | false => rw [List.dropWhile_cons_of_neg (by simp [hp])]

-- What begins with no blank and with no equals sign is not stripped of either.
theorem dropWhile_eq_self {l : List Char} (hq : ∀ c, q c → p c ∨ c = '=')
    (h : (l.dropWhile p).head? ≠ some '=') : (l.dropWhile p).dropWhile q = l.dropWhile p := by
  cases hl : l.dropWhile p with
  | nil => rfl
  | cons c rest =>
    have hp : p c = false := by
      have := List.head_dropWhile_not p (l := l) (by simp [hl])
      simpa [hl] using this
    refine List.dropWhile_cons_of_neg fun hc => ?_
    cases hq c hc with
    | inl h' => simp [hp] at h'
    | inr he => simp [hl, he] at h

end

-- The value of a `parentCID` assignment, which may have white space on either side of its `=`.
def assigned? (line : List Char) : Option (List Char) :=
  match stripPrefix "parentCID".toList (trim line) with
  | none      => none
  | some rest =>
    match rest.dropWhile isWhitespace with
    | []         => none
    | c :: value => if c = '=' then some (trim value) else none

def NamesParent (line : List Char) : Prop :=
  ∃ value, assigned? line = some value ∧ eqIgnoreAsciiCase value "ffffffff".toList = false

def HasParent (text : List Char) : Prop :=
  SomeLine NamesParent text

-- The descriptor without what fills its last sector up.
def unpadded (area : Bytes) : Bytes :=
  area.rdropWhile (· == 0)

def BeginsKey (line : List Char) : Prop :=
  "parentCID".toList <+: line.dropWhile isWhitespace

-- A text in which there is no assignment, as none of its lines begins with the key.
def Keyless (text : List Char) : Prop :=
  ¬SomeLine BeginsKey text

-- One line, on which there are only blanks between the key and its one equals sign.
def Assignment (line : List Char) : Prop :=
  (∀ c ∈ line, isBreak c = false) ∧
  ∃ rest value, stripPrefix "parentCID".toList (trim line) = some rest ∧
    rest.dropWhile (· == ' ') = '=' :: value ∧ (value.dropWhile (· == ' ')).head? ≠ some '='

-- What the reader takes for a line may hold several, if none of them is an assignment.
def Plain (line : List Char) : Prop :=
  Keyless line ∨ Assignment line

theorem not_namesParent_nil : ¬NamesParent [] := by
  rintro ⟨value, h, _⟩
  cases h

theorem isWhitespace_of_blank (c : Char) (h : (c == ' ') = true) : isWhitespace c = true := by
  rw [beq_iff_eq.mp h]
  decide

theorem trim_dropWhile_blank (l : List Char) : trim (l.dropWhile (· == ' ')) = trim l := by
  rw [trim, dropWhile_dropWhile isWhitespace_of_blank, trim]

theorem dropWhile_key (t : List Char) :
    ("parentCID".toList ++ t).dropWhile isWhitespace = "parentCID".toList ++ t :=
  rfl

theorem stripPrefix_key (t : List Char) : stripPrefix "parentCID".toList ("parentCID".toList ++ t) = some t :=
  rfl

theorem not_beginsKey_nil : ¬BeginsKey [] := by
  simp [BeginsKey]

-- The key is not part of what is trimmed.
theorem beginsKey_iff_trim {l : List Char} : BeginsKey l ↔ "parentCID".toList <+: trim l := by
  constructor
  case mp =>
    intro ⟨t, h⟩
    rw [trim, ← h, List.reverse_append, List.dropWhile_append]
    split
    case isTrue  => exact ⟨[], rfl⟩
    case isFalse => simp
  case mpr => exact fun h => h.trans (List.rdropWhile_prefix ..)

theorem beginsKey_of_stripPrefix {l rest : List Char} (h : stripPrefix "parentCID".toList (trim l) = some rest) :
    BeginsKey l := by
  simp only [stripPrefix, Option.ite_none_right_eq_some] at h
  exact beginsKey_iff_trim.mpr (List.isPrefixOf_iff_prefix.mp h.1)

theorem beginsKey_of_namesParent {l : List Char} (h : NamesParent l) : BeginsKey l := by
  obtain ⟨value, h, _⟩ := h
  rw [assigned?] at h
  split at h
  case h_1 => cases h
  case h_2 hs => exact beginsKey_of_stripPrefix hs

theorem beginsKey_of_isParent {l : List Char} (h : isParent l = true) : BeginsKey l := by
  rw [isParent] at h
  split at h
  case h_1 hs => exact beginsKey_of_stripPrefix hs
  case h_2    => cases h

theorem BeginsKey.append {l : List Char} (h : BeginsKey l) (t : List Char) : BeginsKey (l ++ t) := by
  obtain ⟨rest, h⟩ := h
  rw [BeginsKey, List.dropWhile_append, ← h]
  exact ⟨rest ++ t, by simp⟩

-- A text that begins with the key has a line that does.
theorem someLine_of_beginsKey {l : List Char} (h : BeginsKey l) : SomeLine BeginsKey l := by
  obtain ⟨t, h⟩ := h
  rw [← List.takeWhile_append_dropWhile (p := isWhitespace) (l := l), ← h]
  refine someLine_around (not_isBreak_of_all rfl) fun a t' ha _ => ?_
  have hw : ∀ c ∈ a, isWhitespace c = true := fun c hc => List.mem_takeWhile_imp (ha.subset hc)
  rw [BeginsKey, List.dropWhile_append_of_pos hw, dropWhile_key]
  exact List.prefix_append ..

theorem Keyless.not_hasParent {l : List Char} (h : Keyless l) : ¬HasParent l :=
  fun ⟨line, hl, hp⟩ => h ⟨line, hl, beginsKey_of_namesParent hp⟩

theorem Keyless.not_isParent {l : List Char} (h : Keyless l) : isParent l = false :=
  Bool.eq_false_iff.mpr fun hp => h (someLine_of_beginsKey (beginsKey_of_isParent hp))

-- The reader judges a plain line as it is.
theorem isParent_iff_of_plain {line : List Char} (h : Plain line) : isParent line = true ↔ HasParent line := by
  cases h with
  | inl h => simp [h.not_isParent, h.not_hasParent]
  | inr h =>
    obtain ⟨hb, rest, value, hp, hv, hne⟩ := h
    have hs : ∀ c : Char, (c == ' ') = true → (decide (c = ' ') || decide (c = '=')) = true := by
      intro c hc
      simp [beq_iff_eq.mp hc]
    have hspec : rest.dropWhile isWhitespace = '=' :: value := by
      rw [← dropWhile_dropWhile isWhitespace_of_blank, hv]
      exact List.dropWhile_cons_of_neg (by decide)
    have hcode : trimStartMatches (fun c => decide (c = ' ') || decide (c = '=')) rest =
        value.dropWhile (· == ' ') := by
      rw [trimStartMatches, ← dropWhile_dropWhile hs, hv, List.dropWhile_cons_of_pos (by decide),
        ← dropWhile_dropWhile hs]
      exact dropWhile_eq_self (by simp) hne
    rw [HasParent, someLine_of_no_break hb, isParent, NamesParent, assigned?]
    simp only [hp, hspec, hcode, trim_dropWhile_blank]
    simp

theorem dropWhile_concat {p : Char → Bool} {c : Char} (h : p c = false) (l : List Char) :
    (l ++ [c]).dropWhile p = l.dropWhile p ++ [c] := by
  rw [List.dropWhile_append]
  split
  case isTrue he => rw [List.isEmpty_iff.mp he, List.dropWhile_cons_of_neg (by simp [h]), List.nil_append]
  case isFalse   => rfl

theorem trim_concat {c : Char} (h : isWhitespace c = false) (l : List Char) :
    trim (l ++ [c]) = l.dropWhile isWhitespace ++ [c] := by
  rw [trim, dropWhile_concat h, List.reverse_append]
  simp [h]

-- No value that ends in padding is the one that stands for no parent.
theorem isParent_padded {l : List Char} (h : BeginsKey l) : isParent (l ++ ['\u0000']) = true := by
  obtain ⟨rest, h⟩ := h
  rw [isParent, trim_concat (by decide), ← h, List.append_assoc, stripPrefix_key]
  simp only [trimStartMatches]
  rw [dropWhile_concat (by decide), trim_concat (by decide)]
  simp only [eqIgnoreAsciiCase, List.map_append, Bool.not_eq_true', decide_eq_false_iff_not]
  intro he
  have := congrArg List.getLast? he
  simp at this
  revert this
  decide

section

variable {read area rest : Bytes}

-- What was read up to its last line feed, and what comes after that.
def wholeLines (read : Bytes) : Bytes :=
  read.rdropWhile (· != 0x0A)

def brokenOff (read : Bytes) : Bytes :=
  read.rtakeWhile (· != 0x0A)

theorem wholeLines_cases (read : Bytes) :
    wholeLines read = [] ∨ ∃ front, wholeLines read = front ++ [0x0A] := by
  by_cases h : wholeLines read = []
  case pos => exact .inl h
  case neg =>
    have hlast : (wholeLines read).getLast h = 0x0A := by
      have hl := List.rdropWhile_last_not (· != 0x0A) read h
      rw [bne_iff_ne, not_not] at hl
      exact hl
    exact .inr ⟨_, by rw [← hlast, List.dropLast_append_getLast h]⟩

theorem wholeLines_append_brokenOff (read : Bytes) : wholeLines read ++ brokenOff read = read :=
  List.rdropWhile_append_rtakeWhile

theorem fromUtf8Lossy_wholeLines_append (read rest : Bytes) :
    fromUtf8Lossy (wholeLines read ++ rest) = fromUtf8Lossy (wholeLines read) ++ fromUtf8Lossy rest := by
  cases wholeLines_cases read with
  | inl h => simp [h, fromUtf8Lossy]
  | inr h =>
    obtain ⟨front, h⟩ := h
    rw [h, List.append_assoc, List.singleton_append, fromUtf8Lossy_append_ascii (by decide),
      fromUtf8Lossy_append_ascii (by decide)]
    simp [fromUtf8Lossy]

-- Decoded, it is empty or ends in a line feed.
theorem fromUtf8Lossy_wholeLines_cases (read : Bytes) :
    fromUtf8Lossy (wholeLines read) = [] ∨ ∃ front, fromUtf8Lossy (wholeLines read) = front ++ ['\n'] := by
  refine (wholeLines_cases read).imp (fun h => by simp [h, fromUtf8Lossy]) fun ⟨front, h⟩ => ?_
  exact ⟨fromUtf8Lossy front, by rw [h, fromUtf8Lossy_append_ascii (by decide), fromUtf8Lossy]; rfl⟩

theorem unpadded_wholeLines_append (read rest : Bytes) :
    unpadded (wholeLines read ++ rest) = wholeLines read ++ unpadded rest := by
  have hdrop : (wholeLines read).reverse.dropWhile (· == 0) = (wholeLines read).reverse := by
    cases wholeLines_cases read with
    | inl h => simp [h]
    | inr h =>
      have ⟨front, h⟩ := h
      simp [h]
  rw [unpadded, unpadded, List.rdropWhile, List.rdropWhile, List.reverse_append, List.dropWhile_append]
  split
  case isTrue h =>
    rw [List.isEmpty_iff.mp h, hdrop]
    simp
  case isFalse => simp

theorem lines_wholeLines_append (read : Bytes) (t : List Char) :
    lines (fromUtf8Lossy (wholeLines read) ++ t) = lines (fromUtf8Lossy (wholeLines read)) ++ lines t := by
  cases fromUtf8Lossy_wholeLines_cases read with
  | inl h => simp [h, lines, splitInclusive]
  | inr h =>
    obtain ⟨front, h⟩ := h
    rw [h, List.append_assoc, List.singleton_append, lines_append]

-- The lines that the reader goes through.
theorem lines_read (read : Bytes) : lines (fromUtf8Lossy read) =
    lines (fromUtf8Lossy (wholeLines read)) ++ lines (fromUtf8Lossy (brokenOff read)) := by
  conv_lhs => rw [← wholeLines_append_brokenOff read]
  rw [fromUtf8Lossy_wholeLines_append, lines_wholeLines_append]

-- The lines that there are.
theorem hasParent_area (h : area = wholeLines read ++ rest) : HasParent (fromUtf8Lossy (unpadded area)) ↔
    (∃ l ∈ lines (fromUtf8Lossy (wholeLines read)), HasParent l) ∨ HasParent (fromUtf8Lossy (unpadded rest)) := by
  rw [h, unpadded_wholeLines_append, fromUtf8Lossy_wholeLines_append]
  simp only [HasParent]
  rw [someLine_iff_lines not_namesParent_nil, lines_wholeLines_append]
  simp only [List.mem_append, or_and_right, exists_or]
  rw [← someLine_iff_lines not_namesParent_nil (fromUtf8Lossy (unpadded rest))]

theorem fromUtf8Lossy_zeros (n : ℕ) : fromUtf8Lossy (List.replicate n 0) = List.replicate n '\u0000' := by
  induction n with
  | zero => simp [fromUtf8Lossy]
  | succ n hi =>
    have h := fromUtf8Lossy_append_ascii (show (0 : UInt8) < 0x80 by decide) [] (List.replicate n 0)
    rw [hi, fromUtf8Lossy] at h
    exact h

-- Padding is no assignment.
theorem keyless_zeros (n : ℕ) : Keyless (fromUtf8Lossy (Bytes.zeros n)) := by
  have hb : ∀ c ∈ List.replicate n '\u0000', isBreak c = false := by
    intro c hc
    rw [(List.mem_replicate.mp hc).2]
    decide
  rw [Keyless, Bytes.zeros, fromUtf8Lossy_zeros, someLine_of_no_break hb]
  cases n with
  | zero   => exact not_beginsKey_nil
  | succ n =>
    rw [BeginsKey, List.replicate_succ, List.dropWhile_cons_of_neg (by decide), List.prefix_cons_iff]
    simp

-- The last line of the descriptor is this assignment, without an end, and what was read of it goes on into
-- the padding.
structure Unended (area read line : Bytes) : Prop where
  begins  : BeginsKey (fromUtf8Lossy line)
  oneLine : ∀ c ∈ fromUtf8Lossy line, isBreak c = false
  last    : line.getLast? ≠ some 0
  area_eq : ∃ n, area.drop (wholeLines read).length = line ++ Bytes.zeros n
  read_eq : ∃ n, brokenOff read = line ++ Bytes.zeros (n + 1)

-- All of the text was read and none of its padding, and its last line is plain, too.
structure InFull (area read : Bytes) : Prop where
  read_eq : read = unpadded area
  plain   : ∀ l ∈ lines (fromUtf8Lossy (brokenOff read)), Plain l

-- The descriptors for which it makes no difference to look at what was read only, and with its padding: a
-- plain line that was read to its end names a parent, or an unended last one does; or there is nothing to be
-- found, as all lines that were read to their end are plain, no assignment was broken off, and none of what
-- is behind them names a parent; or the text is plain lines and was read without any padding.
inductive Legible (area read : Bytes) : Prop
  | found {l} : l ∈ lines (fromUtf8Lossy (wholeLines read)) → Plain l → HasParent l → Legible area read
  | unended {line} : Unended area read line → HasParent (fromUtf8Lossy line) → Legible area read
  | nothing : (∀ l ∈ lines (fromUtf8Lossy (wholeLines read)), Plain l) → Keyless (fromUtf8Lossy (brokenOff read)) →
    ¬HasParent (fromUtf8Lossy (unpadded (area.drop (wholeLines read).length))) → Legible area read
  | inFull : (∀ l ∈ lines (fromUtf8Lossy (wholeLines read)), Plain l) → InFull area read → Legible area read

theorem Unended.unpadded_eq {line : Bytes} (h : Unended area read line) :
    unpadded (area.drop (wholeLines read).length) = line := by
  obtain ⟨n, hn⟩ := h.area_eq
  have hz : ∀ n, unpadded (line ++ Bytes.zeros n) = unpadded line := by
    intro n
    induction n with
    | zero => simp [Bytes.zeros]
    | succ n hi =>
      rw [Bytes.zeros, List.replicate_succ', ← List.append_assoc, unpadded, List.rdropWhile_concat_pos _ _ _ rfl]
      exact hi
  rw [hn, hz, unpadded, List.rdropWhile_eq_self_iff]
  intro hne h₀
  exact h.last (by rw [List.getLast?_eq_some_getLast hne, beq_iff_eq.mp h₀])

theorem Unended.isParent {line : Bytes} (h : Unended area read line) :
    ∃ l ∈ lines (fromUtf8Lossy (brokenOff read)), VmdkSource.isParent l = true := by
  obtain ⟨n, hn⟩ := h.read_eq
  have ht : fromUtf8Lossy (brokenOff read) = fromUtf8Lossy line ++ List.replicate n '\u0000' ++ ['\u0000'] := by
    rw [hn, Bytes.zeros, List.replicate_succ, fromUtf8Lossy_append_ascii (by decide), fromUtf8Lossy_zeros,
      List.append_assoc, ← List.replicate_succ', List.replicate_succ]
    rfl
  have hlf : '\n' ∉ fromUtf8Lossy (brokenOff read) := by
    intro hm
    rw [ht, List.append_assoc, ← List.replicate_succ', List.mem_append] at hm
    rcases hm with hm | hm
    · exact absurd (h.oneLine _ hm) (by decide)
    · exact absurd (List.mem_replicate.mp hm).2 (by decide)
  refine ⟨_, lines_eq_singleton hlf (by simp [ht]) ▸ List.mem_singleton_self _, ?_⟩
  rw [ht]
  exact isParent_padded (h.begins.append _)

theorem eq_wholeLines_append (h : read <+: area) :
    area = wholeLines read ++ area.drop (wholeLines read).length := by
  have hw : wholeLines read <+: area := (List.rdropWhile_prefix ..).trans h
  have ⟨rest, hr⟩ := hw
  rw [← hr, List.drop_left]

-- What the reader finds is a line that was read to its end, or what is behind these lines.
theorem exists_isParent_iff (read : Bytes) : (∃ l ∈ lines (fromUtf8Lossy read), isParent l = true) ↔
    (∃ l ∈ lines (fromUtf8Lossy (wholeLines read)), isParent l = true) ∨
    ∃ l ∈ lines (fromUtf8Lossy (brokenOff read)), isParent l = true := by
  rw [lines_read]
  simp only [List.mem_append, or_and_right, exists_or]

theorem exists_isParent_iff_of_plain (hplain : ∀ l ∈ lines (fromUtf8Lossy (wholeLines read)), Plain l) :
    (∃ l ∈ lines (fromUtf8Lossy (wholeLines read)), isParent l = true) ↔
      ∃ l ∈ lines (fromUtf8Lossy (wholeLines read)), HasParent l :=
  exists_congr fun l => and_congr_right fun hl => isParent_iff_of_plain (hplain l hl)

theorem Keyless.not_exists_isParent (h : Keyless (fromUtf8Lossy (brokenOff read))) :
    ¬∃ l ∈ lines (fromUtf8Lossy (brokenOff read)), isParent l = true := by
  rintro ⟨l, hl, hp⟩
  have hs := someLine_of_beginsKey (beginsKey_of_isParent hp)
  exact h ((someLine_iff_lines not_beginsKey_nil _).mpr ⟨l, hl, hs⟩)

theorem InFull.detected_iff (h : InFull area read)
    (hplain : ∀ l ∈ lines (fromUtf8Lossy (wholeLines read)), Plain l) :
    (∃ l ∈ lines (fromUtf8Lossy read), isParent l = true) ↔ HasParent (fromUtf8Lossy (unpadded area)) := by
  have hall : ∀ l ∈ lines (fromUtf8Lossy read), isParent l = true ↔ HasParent l := by
    intro l hl
    rw [lines_read, List.mem_append] at hl
    exact isParent_iff_of_plain (hl.elim (hplain l) (h.plain l))
  rw [← h.read_eq]
  exact (exists_congr fun l => and_congr_right (hall l)).trans (someLine_iff_lines not_namesParent_nil _).symm

-- Then the reader finds a parent exactly if there is one.
theorem Legible.detected_iff (h : read <+: area) (hl : Legible area read) :
    (∃ l ∈ lines (fromUtf8Lossy read), isParent l = true) ↔ HasParent (fromUtf8Lossy (unpadded area)) := by
  have hread := exists_isParent_iff read
  have harea := hasParent_area (eq_wholeLines_append h)
  cases hl with
  | found hl hp hn =>
    rw [hread, harea]
    exact iff_of_true (.inl ⟨_, hl, (isParent_iff_of_plain hp).mpr hn⟩) (.inl ⟨_, hl, hn⟩)
  | unended hu hn =>
    rw [hread, harea]
    exact iff_of_true (.inr hu.isParent) (.inr (hu.unpadded_eq ▸ hn))
  | nothing hplain hk hn =>
    rw [hread, harea, exists_isParent_iff_of_plain hplain, or_iff_left hk.not_exists_isParent, or_iff_left hn]
  | inFull hplain hf => exact hf.detected_iff hplain

-- There is no other way, apart from lines that are not plain and assignments that were broken off inside.
theorem legible_of_detected_iff (h : read <+: area)
    (hplain : ∀ l ∈ lines (fromUtf8Lossy (wholeLines read)), Plain l)
    (hend : Keyless (fromUtf8Lossy (brokenOff read)) ∨ (∃ line, Unended area read line) ∨ InFull area read)
    (hd : (∃ l ∈ lines (fromUtf8Lossy read), isParent l = true) ↔ HasParent (fromUtf8Lossy (unpadded area))) :
    Legible area read := by
  rw [exists_isParent_iff, exists_isParent_iff_of_plain hplain, hasParent_area (eq_wholeLines_append h)] at hd
  by_cases hw : ∃ l ∈ lines (fromUtf8Lossy (wholeLines read)), HasParent l
  case pos =>
    have ⟨l, hl, hn⟩ := hw
    exact .found hl (hplain l hl) hn
  case neg =>
    rw [or_iff_right hw, or_iff_right hw] at hd
    rcases hend with hk | ⟨line, hu⟩ | hf
    · exact .nothing hplain hk fun hn => hk.not_exists_isParent (hd.mpr hn)
    · exact .unended hu (hu.unpadded_eq ▸ hd.mp hu.isParent)
    · exact .inFull hplain hf

-- A descriptor of plain lines, each ended by a line feed, which has been read up to its padding.
theorem legible_of_plain (hplain : ∀ l ∈ lines (fromUtf8Lossy (wholeLines read)), Plain l) {k n : ℕ}
    (hread : brokenOff read = Bytes.zeros k) (harea : area.drop (wholeLines read).length = Bytes.zeros n) :
    Legible area read := by
  have hrest : unpadded (Bytes.zeros n) = [] := by
    simp [unpadded, Bytes.zeros, List.rdropWhile]
  refine .nothing hplain (hread ▸ keyless_zeros k) ?_
  rw [harea, hrest, fromUtf8Lossy]
  exact not_someLine_nil not_namesParent_nil

end

section

variable [OverflowChecks] {inner : Source} {content : Bytes} {offset size : UInt64}

def parentError (path : String) : SourceError :=
  .unsupported path "vmdk" "image references a parent; only standalone images are supported"

-- The image passes the checks of `open` that come before the descriptor, at the given place.
structure HeaderChecks (inner : Source) (offset size : UInt64) : Prop where
  magic     : inner.readExactAt 0 4 = .ok MAGIC
  flags     : ∃ flags, Vdisk.leU32 inner 8 = .ok flags ∧ flags &&& FLAG_COMPRESSED = 0
  capacity  : ∃ capacity, Vdisk.leU64 inner 12 = .ok capacity ∧ capacity.toNat * SECTOR < 2 ^ 64
  grainSize : ∃ sectors, Vdisk.leU64 inner 20 = .ok sectors ∧ sectors ≠ 0 ∧ sectors.toNat * SECTOR < 2 ^ 64
  offset    : Vdisk.leU64 inner 28 = .ok offset
  size      : Vdisk.leU64 inner 36 = .ok size
  gtesPerGt : ∃ gtes, Vdisk.leU32 inner 44 = .ok gtes ∧ gtes ≠ 0
  gdOffset  : ∃ gd, Vdisk.leU64 inner 56 = .ok gd ∧ gd ≠ 0

theorem HeaderChecks.open_eq (h : HeaderChecks inner offset size) : ∃ s, VmdkSource.open inner = (do
    rejectIfHasParent inner inner.identity.path offset.toNat size.toNat
    .ok s) := by
  have ⟨flags, hf, hf₀⟩ := h.flags
  have ⟨capacity, hc, hc₁⟩ := h.capacity
  have ⟨sectors, hg, hg₀, hg₁⟩ := h.grainSize
  have ⟨gtes, ht, ht₀⟩ := h.gtesPerGt
  have ⟨gd, hd, hd₀⟩ := h.gdOffset
  simp only [VmdkSource.open, h.magic, hf, hc, hg, h.offset, h.size, ht, hd, Exec.ok_bind]
  rw [Exec.errIf_neg (not_not.mpr rfl), Exec.errIf_neg (not_not.mpr hf₀), Exec.ok_bind, Exec.ok_bind,
    dif_pos ⟨hg₀, ht₀, hd₀⟩, if_pos hg₁, dif_pos hc₁]
  exact ⟨_, rfl⟩

-- The one read of the descriptor returns some of its first 64 KiB, and its lines decide.
theorem HeaderChecks.open_eq_parentError_iff (h : HeaderChecks inner offset size) (hc : inner.Conforming content)
    (ho : offset ≠ 0) (hs : size ≠ 0) (hin : offset.toNat * 512 + size.toNat * 512 ≤ content.length) :
    ∃ read, inner.readAt (offset.toNat * 512) (min (size.toNat * 512) 65536) = .ok read ∧
      read <+: subslice content (offset.toNat * 512) (size.toNat * 512) ∧
      (VmdkSource.open inner = .err (parentError inner.identity.path) ↔
        ∃ l ∈ lines (fromUtf8Lossy read), isParent l = true) := by
  have hlt := hc.size_lt
  have hle : offset.toNat * 512 ≤ content.length := Nat.le_trans (Nat.le_add_right ..) hin
  obtain ⟨n, hr, hn, _⟩ := hc.inRange (min (size.toNat * 512) 65536) hle
  have hread : subslice content (offset.toNat * 512) n <+:
      subslice content (offset.toNat * 512) (size.toNat * 512) := by
    rw [subslice, subslice]
    exact List.take_prefix_take_left (by omega)
  refine ⟨_, hr, hread, ?_⟩
  have ho₀ : offset.toNat ≠ 0 := fun he => ho (UInt64.toNat_inj.mp he)
  have hs₀ : size.toNat ≠ 0 := fun he => hs (UInt64.toNat_inj.mp he)
  have hos : U64.saturatingMul offset.toNat SECTOR = offset.toNat * 512 := by
    simp only [U64.saturatingMul, SECTOR]
    omega
  have hss : U64.saturatingMul size.toNat SECTOR = size.toNat * 512 := by
    simp only [U64.saturatingMul, SECTOR]
    omega
  obtain ⟨s, he⟩ := h.open_eq
  have hl : min (size.toNat * 512) (64 * 1024) = min (size.toNat * 512) 65536 := rfl
  rw [he, rejectIfHasParent, if_neg (not_or.mpr ⟨ho₀, hs₀⟩), hos, hss]
  simp only [hl, hr, Exec.ok_bind, List.any_eq_true]
  by_cases hp : ∃ l ∈ lines (fromUtf8Lossy (subslice content (offset.toNat * 512) n)), isParent l = true
  case pos => simp [parentError, hp]
  case neg => simp [hp]

-- The area that the header gives to the descriptor.
def descriptor (content : Bytes) (offset size : UInt64) : Bytes :=
  subslice content (offset.toNat * 512) (size.toNat * 512)

-- The image is refused for its parent exactly if some line of the descriptor names one.
def DetectionExact (inner : Source) (content : Bytes) (offset size : UInt64) : Prop :=
  VmdkSource.open inner = .err (parentError inner.identity.path) ↔
    HasParent (fromUtf8Lossy (unpadded (descriptor content offset size)))

-- Detection is exact where the descriptor is `Legible`, and only there if its lines are plain and the read
-- breaks off inside no assignment.
theorem detection_exact (h : HeaderChecks inner offset size) (hc : inner.Conforming content)
    (ho : offset ≠ 0) (hs : size ≠ 0) (hin : offset.toNat * 512 + size.toNat * 512 ≤ content.length) :
    ∃ read, inner.readAt (offset.toNat * 512) (min (size.toNat * 512) 65536) = .ok read ∧
      (Legible (descriptor content offset size) read → DetectionExact inner content offset size) ∧
      ((∀ l ∈ lines (fromUtf8Lossy (wholeLines read)), Plain l) →
        (Keyless (fromUtf8Lossy (brokenOff read)) ∨ (∃ line, Unended (descriptor content offset size) read line) ∨
          InFull (descriptor content offset size) read) →
          (DetectionExact inner content offset size ↔ Legible (descriptor content offset size) read)) := by
  have ⟨read, hr, hread, ho⟩ := h.open_eq_parentError_iff hc ho hs hin
  have hd : DetectionExact inner content offset size ↔
      ((∃ l ∈ lines (fromUtf8Lossy read), isParent l = true) ↔
        HasParent (fromUtf8Lossy (unpadded (descriptor content offset size)))) := by
    rw [DetectionExact, ho]
  refine ⟨read, hr, fun hl => hd.mpr (hl.detected_iff hread), fun hplain hend => ?_⟩
  exact hd.trans ⟨legible_of_detected_iff hread hplain hend, Legible.detected_iff hread⟩

end

attribute [local instance] OverflowChecks.on

-- The header of a sparse image with its descriptor in the second sector.
def sparseHeader : Bytes :=
  MAGIC ++ Bytes.toLE 4 1 ++ Bytes.toLE 4 0 ++ Bytes.toLE 8 8 ++ Bytes.toLE 8 8 ++ Bytes.toLE 8 1 ++
    Bytes.toLE 8 1 ++ Bytes.toLE 4 512 ++ Bytes.toLE 8 0 ++ Bytes.toLE 8 1 ++ Bytes.zeros 448

def sparseImage (descriptor : String) : Bytes :=
  sparseHeader ++ (descriptor.toList.map (fun c => .ofNat c.toNat) ++ Bytes.zeros (512 - descriptor.length))

theorem length_sparseImage (descriptor : String) (h : descriptor.length ≤ 512) :
    (sparseImage descriptor).length = 1024 := by
  have hl : sparseHeader.length = 512 := by decide +kernel
  simp only [sparseImage, List.length_append, hl, List.length_map, Bytes.length_zeros, String.length_toList]
  omega

theorem headerChecks_sparseImage (descriptor : String) (h : descriptor.length ≤ 512) :
    HeaderChecks (rawSource (sparseImage descriptor)) 1 1 := by
  have hl := length_sparseImage descriptor h
  have hc : (rawSource (sparseImage descriptor)).Conforming (sparseImage descriptor) :=
    rawSource_conforming (by rw [hl]; decide)
  have hread : ∀ offset len, offset + len ≤ 512 →
      (rawSource (sparseImage descriptor)).readExactAt offset len = .ok (subslice sparseHeader offset len) := by
    intro offset len hle
    have hh : sparseHeader.length = 512 := by decide +kernel
    rw [hc.readExactAt_ok (by omega), sparseImage, subslice_append_left (by omega)]
  have h32 : ∀ {offset}, offset + 4 ≤ 512 → Vdisk.leU32 (rawSource (sparseImage descriptor)) offset =
      .ok (.ofNat (Bytes.leAt sparseHeader offset 4)) := by
    intro offset hle
    rw [Vdisk.leU32, Vdisk.readField, hread _ _ hle]
    rfl
  have h64 : ∀ {offset}, offset + 8 ≤ 512 → Vdisk.leU64 (rawSource (sparseImage descriptor)) offset =
      .ok (.ofNat (Bytes.leAt sparseHeader offset 8)) := by
    intro offset hle
    rw [Vdisk.leU64, Vdisk.readField, hread _ _ hle]
    rfl
  constructor
  case magic     => exact (hread 0 4 (by decide)).trans (by decide +kernel)
  case flags     => exact ⟨_, h32 (by decide), by decide +kernel⟩
  case capacity  => exact ⟨_, h64 (by decide), by decide +kernel⟩
  case grainSize => exact ⟨_, h64 (by decide), by decide +kernel, by decide +kernel⟩
  case offset    => exact (h64 (by decide)).trans (by decide +kernel)
  case size      => exact (h64 (by decide)).trans (by decide +kernel)
  case gtesPerGt => exact ⟨_, h32 (by decide), by decide +kernel⟩
  case gdOffset  => exact ⟨_, h64 (by decide), by decide +kernel⟩

-- The line of a standalone image takes in the padding behind it.
theorem standalone_refused :
    HeaderChecks (rawSource (sparseImage "parentCID=ffffffff")) 1 1 ∧
    VmdkSource.open (rawSource (sparseImage "parentCID=ffffffff")) = .err (parentError "") ∧
    ¬HasParent (fromUtf8Lossy (unpadded (subslice (sparseImage "parentCID=ffffffff") 512 512))) := by
  refine ⟨headerChecks_sparseImage _ (by decide), ?_, ?_⟩
  · have h : (VmdkSource.open (rawSource (sparseImage "parentCID=ffffffff")) >>= fun _ => .ok ()) =
        .err (parentError "") := by decide +kernel
    cases ho : VmdkSource.open (rawSource (sparseImage "parentCID=ffffffff")) with
    | ok s    => simp [ho] at h
    | err e   => simpa [ho] using h
    | panic   => simp [ho] at h
  · have ht : fromUtf8Lossy (unpadded (subslice (sparseImage "parentCID=ffffffff") 512 512)) =
        "parentCID=ffffffff".toList := by decide +kernel
    have ha : assigned? "parentCID=ffffffff".toList = some "ffffffff".toList := by decide +kernel
    rw [ht, HasParent, someLine_of_no_break (not_isBreak_of_all rfl)]
    rintro ⟨value, hv, hne⟩
    cases ha.symm.trans hv
    exact absurd hne (by decide)

theorem assignment_standalone : Assignment "parentCID=ffffffff".toList :=
  ⟨not_isBreak_of_all rfl, "=ffffffff".toList, "ffffffff".toList, rfl, rfl, by decide⟩

theorem unended_standalone : Unended (descriptor (sparseImage "parentCID=ffffffff") 1 1)
    (descriptor (sparseImage "parentCID=ffffffff") 1 1) ("parentCID=ffffffff".toList.map (fun c => .ofNat c.toNat)) where
  begins  := ⟨"=ffffffff".toList, by decide +kernel⟩
  oneLine := not_isBreak_of_all (by decide +kernel)
  last    := by decide +kernel
  area_eq := ⟨494, by decide +kernel⟩
  read_eq := ⟨493, by decide +kernel⟩

-- With a line feed behind it, it does not.
theorem detection_exact_sparseImage :
    DetectionExact (rawSource (sparseImage "parentCID=ffffffff\n")) (sparseImage "parentCID=ffffffff\n") 1 1 ∧
    (DetectionExact (rawSource (sparseImage "parentCID=ffffffff")) (sparseImage "parentCID=ffffffff") 1 1 ↔
      Legible (descriptor (sparseImage "parentCID=ffffffff") 1 1)
        (descriptor (sparseImage "parentCID=ffffffff") 1 1)) := by
  have hlen := length_sparseImage "parentCID=ffffffff\n" (by decide)
  have hlen' := length_sparseImage "parentCID=ffffffff" (by decide)
  constructor
  case left =>
    have ⟨read, hr, hexact, _⟩ := detection_exact (headerChecks_sparseImage "parentCID=ffffffff\n" (by decide))
      (rawSource_conforming (by rw [hlen]; decide)) (by decide) (by decide) (by rw [hlen]; decide)
    have hread : (rawSource (sparseImage "parentCID=ffffffff\n")).readAt ((1 : UInt64).toNat * 512)
        (min ((1 : UInt64).toNat * 512) 65536) =
          .ok ("parentCID=ffffffff\n".toList.map (fun c => .ofNat c.toNat) ++ Bytes.zeros 493) := by
      decide +kernel
    cases hr.symm.trans hread
    refine hexact (legible_of_plain (k := 493) (n := 493) (fun l hl => .inr ?_) (by decide +kernel) (by decide +kernel))
    have hlines : lines (fromUtf8Lossy (wholeLines ("parentCID=ffffffff\n".toList.map (fun c => .ofNat c.toNat) ++
        Bytes.zeros 493))) = ["parentCID=ffffffff".toList] := by
      decide +kernel
    rw [hlines, List.mem_singleton] at hl
    exact hl ▸ assignment_standalone
  case right =>
    have ⟨read, hr, _, hiff⟩ := detection_exact (headerChecks_sparseImage "parentCID=ffffffff" (by decide))
      (rawSource_conforming (by rw [hlen']; decide)) (by decide) (by decide) (by rw [hlen']; decide)
    have hread : (rawSource (sparseImage "parentCID=ffffffff")).readAt ((1 : UInt64).toNat * 512)
        (min ((1 : UInt64).toNat * 512) 65536) = .ok (descriptor (sparseImage "parentCID=ffffffff") 1 1) := by
      decide +kernel
    rw [Exec.ok.inj (hr.symm.trans hread)] at hiff
    have hlines : lines (fromUtf8Lossy (wholeLines (descriptor (sparseImage "parentCID=ffffffff") 1 1))) = [] := by
      decide +kernel
    exact hiff (by simp [hlines]) (.inr (.inl ⟨_, unended_standalone⟩))

end Latent.VmdkSource
