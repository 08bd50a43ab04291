import Latent.Core.Timestamp
import Latent.Text.Decimal

open Text.Decimal

namespace Latent

-- The years that RFC 3339 can write.
def InYears (clock : ℤ) : Prop :=
  0 ≤ clock ∧ clock < yearStart 10000

instance (clock : ℤ) : Decidable (InYears clock) :=
  inferInstanceAs (Decidable (_ ∧ _))

theorem InYears.supported {clock : ℤ} (h : InYears clock) : SupportedDate clock :=
  ⟨Int.le_trans (by decide) h.1, h.2⟩

-- What is relied on of the `time` crate: a date in UTC is written exactly if its year is one of
-- 0 to 9999, and read back from its text to the nanosecond.
class Rfc3339.Lawful [Rfc3339] : Prop where
  isSome_format : ∀ {when : OffsetDateTime}, when.offset = 0 → ((format when).isSome ↔ InYears when.clock)
  parse_format  : ∀ {when : OffsetDateTime} {text}, when.offset = 0 → format when = some text →
    parse text = .ok when

namespace Calendar

def yearOf (day : ℤ) : ℤ :=
  let year := day * 400 / 146097
  if day < daysBefore year then year - 1
  else if daysBefore (year + 1) ≤ day then year + 1
  else year

theorem yearOf_spec (day : ℤ) : daysBefore (yearOf day) ≤ day ∧ day < daysBefore (yearOf day + 1) := by
  rw [yearOf]
  split
  case isTrue h =>
    refine ⟨?_, by rwa [Int.sub_add_cancel]⟩
    simp only [daysBefore] at h ⊢
    omega
  case isFalse h =>
    split
    case isTrue h' =>
      refine ⟨h', ?_⟩
      simp only [daysBefore] at h h' ⊢
      omega
    case isFalse h' => exact ⟨Int.not_lt.mp h, Int.not_le.mp h'⟩

def isLeap (year : ℤ) : Bool :=
  daysBefore (year + 1) - daysBefore year = 366

theorem yearLength (year : ℤ) : daysBefore (year + 1) - daysBefore year = 365 + (isLeap year).toNat := by
  have h : daysBefore (year + 1) - daysBefore year = 365 ∨ daysBefore (year + 1) - daysBefore year = 366 := by
    simp only [daysBefore]
    omega
  rcases h with h | h <;> simp [isLeap, h]

def monthLengths (leap : Bool) : List ℕ :=
  [31, if leap then 29 else 28, 31, 30, 31, 30, 31, 31, 30, 31, 30, 31]

-- The days of a year before one of its months, which are counted from 0 on.
def daysBeforeMonth (leap : Bool) (month : ℕ) : ℕ :=
  ((monthLengths leap).take month).sum

def monthOf (leap : Bool) (day : ℕ) : ℕ :=
  ((List.range 11).filter fun month => daysBeforeMonth leap (month + 1) ≤ day).length

theorem monthOf_spec : ∀ leap : Bool, ∀ day < 366, day < 365 + leap.toNat →
    monthOf leap day < 12 ∧ daysBeforeMonth leap (monthOf leap day) ≤ day ∧
      day - daysBeforeMonth leap (monthOf leap day) < (monthLengths leap).getD (monthOf leap day) 0 := by
  decide +kernel

theorem monthLength_le : ∀ leap, ∀ month < 12, (monthLengths leap).getD month 0 ≤ 31 := by
  decide

end Calendar

namespace Rfc3339

open Calendar

def dateText (day : ℤ) : List Char :=
  let year := yearOf day
  let leap := isLeap year
  let left := (day - daysBefore year).toNat
  let month := monthOf leap left
  pad 4 year.toNat ++ '-' :: (pad 2 (month + 1) ++ '-' :: pad 2 (left - daysBeforeMonth leap month + 1))

def readDate (cs : List Char) : Option (ℤ × List Char) := do
  let (year, cs) ← number 4 0 cs
  let cs ← expect ['-'] cs
  let (month, cs) ← number 2 0 cs
  let cs ← expect ['-'] cs
  let (day, cs) ← number 2 0 cs
  let leap := isLeap year
  if 1 ≤ month ∧ month ≤ 12 ∧ 1 ≤ day ∧ day ≤ (monthLengths leap).getD (month - 1) 0 then
    some (daysBefore year + (daysBeforeMonth leap (month - 1) + (day - 1) : ℕ), cs)
  else
    none

def fractionText (nanos : ℕ) : List Char :=
  if nanos = 0 then [] else '.' :: trim (pad 9 nanos)

-- Digits after the ninth one are passed over.
def readFraction (cs : List Char) : Option (ℕ × List Char) :=
  match expect ['.'] cs with
  | none    => some (0, cs)
  | some cs => do
    let digits := cs.takeWhile Char.isDigit
    if digits = [] then
      none
    else
      let (nanos, _) ← number 9 0 ((digits ++ List.replicate 9 '0').take 9)
      some (nanos, cs.dropWhile Char.isDigit)

def timeText (nanos : ℕ) : List Char :=
  let seconds := nanos / 10 ^ 9
  pad 2 (seconds / 3600) ++ ':' :: (pad 2 (seconds / 60 % 60) ++ ':' :: (pad 2 (seconds % 60) ++
    fractionText (nanos % 10 ^ 9)))

def readTime (cs : List Char) : Option (ℕ × List Char) := do
  let (hour, cs) ← number 2 0 cs
  let cs ← expect [':'] cs
  let (minute, cs) ← number 2 0 cs
  let cs ← expect [':'] cs
  let (second, cs) ← number 2 0 cs
  let (nanos, cs) ← readFraction cs
  if hour < 24 ∧ minute < 60 ∧ second < 60 then
    some ((hour * 3600 + minute * 60 + second) * 10 ^ 9 + nanos, cs)
  else
    none

-- An offset is written in full minutes.
def zoneText (offset : ℤ) : Option (List Char) :=
  if offset = 0 then
    some ['Z']
  else if offset % 60 = 0 then
    let sign := if offset < 0 then '-' else '+'
    some (sign :: (pad 2 (offset.natAbs / 3600) ++ ':' :: pad 2 (offset.natAbs / 60 % 60)))
  else
    none

def readZone (cs : List Char) : Option (ℤ × List Char) :=
  match expect ['Z', 'z'] cs with
  | some cs => some (0, cs)
  | none    => do
    let sign : ℤ := if (expect ['-'] cs).isSome then -1 else 1
    let cs ← expect ['+', '-'] cs
    let (hour, cs) ← number 2 0 cs
    let cs ← expect [':'] cs
    let (minute, cs) ← number 2 0 cs
    if hour < 24 ∧ minute < 60 then some (sign * (hour * 3600 + minute * 60), cs) else none

def dayNanos : ℤ :=
  86400 * 10 ^ 9

def formatText (when : OffsetDateTime) : Option String :=
  if InYears when.clock then do
    let zone ← zoneText when.offset
    let date := dateText (when.clock / dayNanos)
    let time := timeText (when.clock % dayNanos).toNat
    some (.ofList (date ++ 'T' :: (time ++ zone)))
  else
    none

def parseText (text : String) : Option OffsetDateTime := do
  let (day, cs) ← readDate text.toList
  let cs ← expect ['T', 't'] cs
  let (nanos, cs) ← readTime cs
  let (offset, cs) ← readZone cs
  let clock := day * dayNanos + nanos
  if h : SupportedDate clock ∧ cs = [] then
    some { clock, offset, supported := h.1 }
  else
    none

theorem readDate_dateText {day : ℤ} {rest : List Char} (h₀ : 0 ≤ day) (h : day < daysBefore 10000) :
    readDate (dateText day ++ rest) = some (day, rest) := by
  have ⟨hle, hlt⟩ := yearOf_spec day
  have hy₀ : 0 ≤ yearOf day := by
    simp only [daysBefore] at hlt
    omega
  have hy : (yearOf day).toNat < 10 ^ 4 := by
    simp only [daysBefore] at h hle
    omega
  have hl := yearLength (yearOf day)
  have hb := (isLeap (yearOf day)).toNat_le
  have ⟨hm, hmd, hd⟩ := monthOf_spec (isLeap (yearOf day)) (day - daysBefore (yearOf day)).toNat (by omega)
    (by omega)
  generalize hmonth : monthOf (isLeap (yearOf day)) (day - daysBefore (yearOf day)).toNat = month at hm hmd hd
  have hml := monthLength_le (isLeap (yearOf day)) month hm
  have hday : (day - daysBefore (yearOf day)).toNat - daysBeforeMonth (isLeap (yearOf day)) month + 1 <
      10 ^ 2 := by omega
  simp only [readDate, dateText, hmonth, List.append_assoc, List.cons_append, Option.bind_eq_bind,
    number_pad_of_lt hy, number_pad_of_lt (show month + 1 < 10 ^ 2 by omega), number_pad_of_lt hday,
    expect_cons List.mem_cons_self, Option.bind_some, Int.toNat_of_nonneg hy₀, Nat.add_sub_cancel]
  rw [if_pos (by omega)]
  congr 2
  omega

theorem readFraction_fractionText {nanos : ℕ} {rest : List Char} (h : nanos < 10 ^ 9) :
    readFraction (fractionText nanos ++ 'Z' :: rest) = some (nanos, 'Z' :: rest) := by
  rw [fractionText]
  split
  case isTrue h₀ =>
    rw [List.nil_append, readFraction, h₀]
    rfl
  case isFalse h₀ =>
    have hp : (trim (pad 9 nanos) ++ List.replicate 9 '0').take 9 = pad 9 nanos := take_trim length_pad
    have hn : number 9 0 (pad 9 nanos) = some (nanos, []) := by
      rw [← number_pad_of_lt h, List.append_nil]
    have hne : trim (pad 9 nanos) ≠ [] := by
      intro he
      rw [he] at hp
      rw [← hp] at hn
      cases hn
      exact h₀ rfl
    have hdigit : ∀ c ∈ trim (pad 9 nanos), c.isDigit := by
      have ⟨k, hk⟩ := exists_trim (pad 9 nanos)
      intro c hc
      have hm : c ∈ trim (pad 9 nanos) ++ List.replicate k '0' := List.mem_append_left _ hc
      exact isDigit_of_mem_pad (hk.symm ▸ hm)
    have hz : ('Z' :: rest).takeWhile Char.isDigit = [] := rfl
    have hw : (trim (pad 9 nanos) ++ 'Z' :: rest).takeWhile Char.isDigit = trim (pad 9 nanos) := by
      rw [List.takeWhile_append_of_pos hdigit, hz, List.append_nil]
    have hd : (trim (pad 9 nanos) ++ 'Z' :: rest).dropWhile Char.isDigit = 'Z' :: rest := by
      rw [List.dropWhile_append_of_pos hdigit]
      rfl
    rw [List.cons_append, readFraction, expect_cons List.mem_cons_self]
    simp only [hw, hd, if_neg hne, hp, hn, Option.bind_eq_bind, Option.bind_some]

theorem readTime_timeText {nanos : ℕ} {rest : List Char} (h : nanos < 86400 * 10 ^ 9) :
    readTime (timeText nanos ++ 'Z' :: rest) = some (nanos, 'Z' :: rest) := by
  have hh : nanos / 10 ^ 9 / 3600 < 24 := by omega
  have hm : nanos / 10 ^ 9 / 60 % 60 < 60 := Nat.mod_lt _ (by decide)
  have hs : nanos / 10 ^ 9 % 60 < 60 := Nat.mod_lt _ (by decide)
  have hn : nanos % 10 ^ 9 < 10 ^ 9 := Nat.mod_lt _ (by decide)
  simp only [readTime, timeText, List.append_assoc, List.cons_append, Option.bind_eq_bind,
    number_pad_of_lt (Nat.lt_trans hh (show 24 < 10 ^ 2 by decide)),
    number_pad_of_lt (Nat.lt_trans hm (show 60 < 10 ^ 2 by decide)),
    number_pad_of_lt (Nat.lt_trans hs (show 60 < 10 ^ 2 by decide)),
    expect_cons List.mem_cons_self, readFraction_fractionText hn, Option.bind_some]
  rw [if_pos ⟨hh, hm, hs⟩]
  congr 2
  omega

-- A date in UTC is read back from its text.
theorem parseText_formatText {when : OffsetDateTime} {text : String} (hu : when.offset = 0)
    (h : formatText when = some text) : parseText text = some when := by
  obtain ⟨clock, offset, hs⟩ := when
  cases hu
  rw [formatText] at h
  split at h
  case isFalse => cases h
  case isTrue hy =>
    cases h
    have hd₀ : 0 ≤ clock / dayNanos := Int.ediv_nonneg hy.1 (by decide)
    have hd : clock / dayNanos < daysBefore 10000 :=
      Int.ediv_lt_of_lt_mul (by decide) (by rw [dayNanos, ← Int.mul_assoc]; exact hy.2)
    have hm₀ : 0 ≤ clock % dayNanos := Int.emod_nonneg _ (by decide)
    have hm : clock % dayNanos < dayNanos := Int.emod_lt_of_pos _ (by decide)
    have hn : (clock % dayNanos).toNat < 86400 * 10 ^ 9 := by
      rw [dayNanos] at hm ⊢
      omega
    have hc : clock / dayNanos * dayNanos + ((clock % dayNanos).toNat : ℤ) = clock := by
      rw [Int.toNat_of_nonneg hm₀, Int.mul_comm]
      exact Int.mul_ediv_add_emod clock dayNanos
    simp only [parseText, String.toList_ofList, readDate_dateText hd₀ hd, Option.bind_eq_bind,
      Option.bind_some, expect_cons List.mem_cons_self, readTime_timeText hn, hc]
    have hz : readZone ['Z'] = some (0, []) := rfl
    rw [hz, Option.bind_some, dif_pos ⟨hs, rfl⟩]
    rfl

-- The format itself, for runs on given inputs. Of what the `time` crate reads, it refuses a leap second and
-- any other character than `T` and `t` between date and time.
@[reducible] def standard : Rfc3339 where
  parse text := (parseText text).elim (.error "not a date") .ok
  format     := formatText

instance : @Lawful standard :=
  letI := standard
  {
    isSome_format := by
      intro when hu
      show (formatText when).isSome ↔ _
      rw [formatText, hu]
      split
      case isTrue h  => simp [zoneText, h]
      case isFalse h => simp [h]
    parse_format := by
      intro when text hu h
      show (parseText text).elim _ _ = _
      rw [parseText_formatText hu h]
      rfl
  }

end Rfc3339
end Latent
