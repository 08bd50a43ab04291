import Latent.Text.Json

open Rust Text

namespace Latent

-- The days from the start of the year 0 to the start of another one, with a leap day in every fourth
-- year, except in those of the hundredth that are not of the four hundredth.
def daysBefore (year : ℤ) : ℤ :=
  365 * year + (year + 3) / 4 - (year + 99) / 100 + (year + 399) / 400

-- The same in nanoseconds.
def yearStart (year : ℤ) : ℤ :=
  daysBefore year * 86400 * 10 ^ 9

-- The dates that the `time` crate can express.
def SupportedDate (clock : ℤ) : Prop :=
  yearStart (-9999) ≤ clock ∧ clock < yearStart 10000

instance (clock : ℤ) : Decidable (SupportedDate clock) :=
  inferInstanceAs (Decidable (_ ∧ _))

-- A date and time, in nanoseconds on the local clock since the start of its year 0, and the seconds by
-- which that clock is ahead of UTC.
structure OffsetDateTime where
  clock     : ℤ
  offset    : ℤ
  supported : SupportedDate clock
  deriving DecidableEq, Repr

-- The text format of RFC 3339, as the `time` crate reads and writes it.
class Rfc3339 where
  parse  : String → Except String OffsetDateTime
  format : OffsetDateTime → Option String

-- A date and time whose clock shows UTC.
structure Timestamp where
  when : OffsetDateTime
  utc  : when.offset = 0
  deriving DecidableEq, Repr

namespace Timestamp

variable {ε : Type}

-- `to_offset` panics if the date on the other clock cannot be expressed.
def new (when : OffsetDateTime) : Exec ε Timestamp :=
  let clock := when.clock - when.offset * 10 ^ 9
  if h : SupportedDate clock then
    .ok { when := { clock, offset := 0, supported := h }, utc := rfl }
  else
    .panic

def deserialize [Rfc3339] (json : Json) : Exec DeError Timestamp := do
  match Rfc3339.parse (← json.toStr) with
  | .ok when   => new when
  | .error msg => .err (.custom msg)

end Timestamp
end Latent
