import Latent.Core.Serialize
import Latent.Text.Accepts

open Rust Text Text.Json

namespace Latent

-- What the clock of a date shows when it is set to UTC.
def OffsetDateTime.utc (when : OffsetDateTime) : ℤ :=
  when.clock - when.offset * 10 ^ 9

namespace Timestamp

variable {ε : Type} {when : OffsetDateTime} {t : Timestamp}

theorem eq_iff_clock {t' : Timestamp} : t = t' ↔ t.when.clock = t'.when.clock := by
  obtain ⟨⟨clock, offset, hs⟩, hu⟩ := t
  obtain ⟨⟨clock', offset', hs'⟩, hu'⟩ := t'
  cases hu
  cases hu'
  simp

theorem new_of_supported (h : SupportedDate when.utc) : (new when : Exec ε Timestamp) =
    .ok { when := { clock := when.utc, offset := 0, supported := h }, utc := rfl } :=
  dif_pos h

theorem new_of_not_supported (h : ¬SupportedDate when.utc) : (new when : Exec ε Timestamp) = .panic :=
  dif_neg h

theorem new_eq_ok_iff :
    (new when : Exec ε Timestamp) = .ok t ↔ SupportedDate when.utc ∧ t.when.clock = when.utc := by
  by_cases h : SupportedDate when.utc
  case pos => rw [new_of_supported h, Exec.ok.injEq, eq_iff_clock, and_iff_right h, eq_comm]
  case neg => simp [new_of_not_supported h, h]

theorem new_eq_panic_iff : (new when : Exec ε Timestamp) = .panic ↔ ¬SupportedDate when.utc := by
  by_cases h : SupportedDate when.utc
  case pos => simp [new_of_supported h, h]
  case neg => simp [new_of_not_supported h, h]

variable [Rfc3339] {json : Json}

theorem deserialize_of_parse {text : String} (h : Rfc3339.parse text = .ok when) :
    deserialize (.str text) = new when := by
  simp only [deserialize, toStr, Exec.ok_bind, h]

-- Anything but the text of a date is refused.
theorem deserialize_cases (json : Json) :
    (∃ text when, json = .str text ∧ Rfc3339.parse text = .ok when ∧ deserialize json = new when) ∨
    ∃ e, deserialize json = .err e := by
  cases json with
  | str text =>
    cases hp : Rfc3339.parse text with
    | ok when   => exact .inl ⟨text, when, rfl, hp, deserialize_of_parse hp⟩
    | error msg => exact .inr ⟨.custom msg, by simp only [deserialize, toStr, Exec.ok_bind, hp]⟩
  | null | bool | num | arr | obj => exact .inr ⟨.invalidType, rfl⟩

-- Where it does not fail, reading a date does what is done with the date.
theorem deserialize_eq_iff {x : Exec DeError Timestamp} (hx : ∀ e, x ≠ .err e) : deserialize json = x ↔
    ∃ text when, json = .str text ∧ Rfc3339.parse text = .ok when ∧ new when = x := by
  constructor
  case mp =>
    intro h
    rcases deserialize_cases json with ⟨text, when, hj, hp, hd⟩ | ⟨e, hd⟩
    · exact ⟨text, when, hj, hp, hd.symm.trans h⟩
    · exact absurd (h.symm.trans hd) (hx e)
  case mpr =>
    rintro ⟨text, when, rfl, hp, hn⟩
    exact (deserialize_of_parse hp).trans hn

theorem deserialize_eq_ok_iff : deserialize json = .ok t ↔
    ∃ text when, json = .str text ∧ Rfc3339.parse text = .ok when ∧ SupportedDate when.utc ∧
      t.when.clock = when.utc := by
  simp only [deserialize_eq_iff (x := .ok t) nofun, new_eq_ok_iff]

theorem deserialize_eq_panic_iff : deserialize json = .panic ↔
    ∃ text when, json = .str text ∧ Rfc3339.parse text = .ok when ∧ ¬SupportedDate when.utc := by
  simp only [deserialize_eq_iff (x := .panic) nofun, new_eq_panic_iff]

end Timestamp

theorem Confidence.deserialize_ne_panic (json : Json) : deserialize json ≠ .panic :=
  toVariant_ne_panic json

theorem Method.deserialize_ne_panic (json : Json) : deserialize json ≠ .panic :=
  toVariant_ne_panic json

theorem Provenance.deserialize_ne_panic (json : Json) : deserialize json ≠ .panic := by
  refine toStruct_ne_panic ?_ json
  simp only [fields, List.forall_mem_cons]
  exact ⟨.plain Confidence.deserialize_ne_panic, .plain Method.deserialize_ne_panic,
    .plain toU64_ne_panic, .optional toStr_ne_panic,
    .optional toStr_ne_panic, .optional toStr_ne_panic,
    .optional toU64_ne_panic, .optional toStr_ne_panic,
    .plain toBool_ne_panic, nofun⟩

namespace Record

theorem Event.deserialize_ne_panic (json : Json) : deserialize json ≠ .panic := by
  refine toStruct_ne_panic ?_ json
  simp only [List.forall_mem_cons]
  exact ⟨.optional toStr_ne_panic, .optional toStr_ne_panic,
    .optional toStr_ne_panic, .optional toStr_ne_panic,
    .optional toStr_ne_panic, nofun⟩

theorem Host.deserialize_ne_panic (json : Json) : deserialize json ≠ .panic := by
  refine toStruct_ne_panic ?_ json
  simp only [List.forall_mem_cons]
  exact ⟨.optional toStr_ne_panic, .optional toStr_ne_panic,
    nofun⟩

theorem User.deserialize_ne_panic (json : Json) : deserialize json ≠ .panic := by
  refine toStruct_ne_panic ?_ json
  simp only [List.forall_mem_cons]
  exact ⟨.optional toStr_ne_panic, .optional toStr_ne_panic,
    .optional toStr_ne_panic, nofun⟩

theorem Process.deserialize_ne_panic (json : Json) : deserialize json ≠ .panic := by
  refine toStruct_ne_panic ?_ json
  simp only [List.forall_mem_cons]
  exact ⟨.optional toI64_ne_panic, .optional toStr_ne_panic,
    .optional toStr_ne_panic, nofun⟩

theorem Source.deserialize_ne_panic (json : Json) : deserialize json ≠ .panic := by
  refine toStruct_ne_panic ?_ json
  simp only [List.forall_mem_cons]
  exact ⟨.optional toStr_ne_panic, .optional toU16_ne_panic,
    .optional toStr_ne_panic, nofun⟩

section

variable [Rfc3339] {json : Json} {r : Record}

theorem fields_uniform : ∀ field ∈ fields, field.Uniform := by
  simp only [fields, List.forall_mem_cons]
  exact ⟨.withDefault, .withDefault, .withDefault, .withDefault, .withDefault, .withDefault, .plain, nofun⟩

-- The field whose reader may panic.
def timestampField : Json.Field Record :=
  .withDefault "@timestamp" (toOption Timestamp.deserialize) fun timestamp r => { r with timestamp }

theorem eq_timestampField_or_total : ∀ field ∈ fields, field = timestampField ∨ field.Total := by
  simp only [fields, List.forall_mem_cons]
  exact ⟨.inl rfl, .inr (.withDefault Event.deserialize_ne_panic), .inr (.withDefault Host.deserialize_ne_panic),
    .inr (.withDefault User.deserialize_ne_panic), .inr (.withDefault Process.deserialize_ne_panic),
    .inr (.withDefault Source.deserialize_ne_panic), .inr (.plain Provenance.deserialize_ne_panic), nofun⟩

theorem timestampField_mem : timestampField ∈ fields :=
  List.mem_cons_self

theorem timestampField_set_eq_panic_iff {value : Json} : timestampField.set value r = .panic ↔
    ∃ text when, value = .str text ∧ Rfc3339.parse text = .ok when ∧ ¬SupportedDate when.utc := by
  have hs : timestampField.set value r = .panic ↔ toOption Timestamp.deserialize value = .panic := by
    cases h : toOption Timestamp.deserialize value <;> simp [timestampField, Json.Field.withDefault, h]
  rw [hs, toOption_eq_panic_iff, Timestamp.deserialize_eq_panic_iff]
  constructor
  case mp => exact And.right
  case mpr =>
    rintro ⟨text, when, rfl, h⟩
    exact ⟨by simp, text, when, rfl, h⟩

-- The date in the first `@timestamp` of a JSON value, with the members that stand before it.
def DatedAt (json : Json) (before : List (String × Json)) (when : OffsetDateTime) : Prop :=
  ∃ text after, json.membersOf (fields.map (·.name)) = before ++ ("@timestamp", .str text) :: after ∧
    "@timestamp" ∉ before.map Prod.fst ∧ Rfc3339.parse text = .ok when

theorem deserialize_eq_panic_iff : deserialize json = .panic ↔
    ∃ before when, DatedAt json before when ∧ Accepts fields before ∧ ¬SupportedDate when.utc := by
  rw [deserialize, toStruct_eq_panic_iff nodup_fields fields_uniform]
  constructor
  case mp =>
    rintro ⟨before, ⟨key, value⟩, after, hm, ha, hk, field, hf, rfl, hp⟩
    let r : Record := new (.new .l0Intact .localTemplate 0)
    rcases eq_timestampField_or_total field hf with rfl | ht
    case inr => exact absurd (hp r) (ht value r)
    case inl =>
      obtain ⟨text, when, rfl, hw, hs⟩ := timestampField_set_eq_panic_iff.mp (hp r)
      exact ⟨before, when, ⟨text, after, hm, hk, hw⟩, ha, hs⟩
  case mpr =>
    rintro ⟨before, when, ⟨text, after, hm, hk, hw⟩, ha, hs⟩
    exact ⟨before, ("@timestamp", .str text), after, hm, ha, hk, timestampField, timestampField_mem, rfl,
      fun _ => timestampField_set_eq_panic_iff.mpr ⟨text, when, rfl, hw, hs⟩⟩

theorem keeps_timestamp : ∀ other ∈ fields, other.name ≠ "@timestamp" → other.Keeps timestamp := by
  simp only [fields, List.forall_mem_cons]
  exact ⟨fun h => absurd rfl h, fun _ => .withDefault fun _ _ => rfl, fun _ => .withDefault fun _ _ => rfl,
    fun _ => .withDefault fun _ _ => rfl, fun _ => .withDefault fun _ _ => rfl,
    fun _ => .withDefault fun _ _ => rfl, fun _ => .plain fun _ _ => rfl, nofun⟩

-- Where the date of a record comes from.
theorem timestamp_of_deserialize (h : deserialize json = .ok r) :
    (∃ value, (json.membersOf (fields.map (·.name))).lookup "@timestamp" = some value ∧
      toOption Timestamp.deserialize value = .ok r.timestamp) ∨
    ("@timestamp" ∉ (json.membersOf (fields.map (·.name))).map Prod.fst ∧ r.timestamp = none) :=
  get_of_withDefault timestamp rfl (fun _ _ => rfl) keeps_timestamp h

theorem exists_timestamp_iff {t : Timestamp} (h : deserialize json = .ok r) : r.timestamp = some t ↔
    ∃ before when, DatedAt json before when ∧ SupportedDate when.utc ∧ t.when.clock = when.utc := by
  constructor
  case mp =>
    intro ht
    rcases timestamp_of_deserialize h with ⟨value, hl, hv⟩ | ⟨_, hn⟩
    case inr => cases hn.symm.trans ht
    case inl =>
      rw [ht, toOption_eq_some_iff, Timestamp.deserialize_eq_ok_iff] at hv
      obtain ⟨_, text, when, rfl, hp, hs, hc⟩ := hv
      have ⟨before, after, hm, hk⟩ := lookup_members.mp hl
      exact ⟨before, when, ⟨text, after, hm, hk, hp⟩, hs, hc⟩
  case mpr =>
    rintro ⟨before, when, ⟨text, after, hm, hk, hp⟩, hs, hc⟩
    have hl := lookup_members.mpr ⟨before, after, hm, hk⟩
    have hv : toOption Timestamp.deserialize (.str text) = .ok (some t) :=
      toOption_eq_some_iff.mpr ⟨nofun, Timestamp.deserialize_eq_ok_iff.mpr ⟨text, when, rfl, hp, hs, hc⟩⟩
    rcases timestamp_of_deserialize h with ⟨value, hl', hv'⟩ | ⟨hn, _⟩
    case inl =>
      cases hl.symm.trans hl'
      exact (Exec.ok.inj (hv.symm.trans hv')).symm
    case inr => exact absurd (hm ▸ List.mem_map_of_mem (List.mem_append_right before List.mem_cons_self)) hn

-- A record that can be written and that is read back as it is.
def Rereads (r : Record) : Prop :=
  ∃ json, serialize r = some json ∧ deserialize json = .ok r

theorem rereads_iff [Rfc3339.Lawful] : Rereads r ↔ ∀ t ∈ r.timestamp, InYears t.when.clock := by
  constructor
  case mp =>
    rintro ⟨json, hs, _⟩ t ht
    obtain ⟨ms, hm, _⟩ := Option.bind_eq_some_iff.mp hs
    obtain ⟨written, hw⟩ := exists_write_of_members hm List.mem_cons_self
    simp only [Entry.skipIf, Option.mem_def.mp ht, Option.isNone_some, ofOption, Timestamp.serialize] at hw
    rw [← Rfc3339.Lawful.isSome_format t.utc]
    cases hf : Rfc3339.format t.when with
    | none => simp [hf] at hw
    | some text => rfl
  case mpr =>
    intro h
    obtain ⟨ms, hm, hd⟩ := (restores h).exists_members nodup_fields
    refine ⟨.obj ms, ?_, hd⟩
    rw [serialize, ofStruct, hm]
    rfl

-- What is asked of reading a JSON value.
def Rereadable (x : Exec DeError Record) : Prop :=
  x ≠ .panic ∧ ∀ r, x = .ok r → Rereads r

-- Every date is one that RFC 3339 can write in UTC too, unless the value is refused for something else. This
-- has to stand before the date if the `time` crate cannot express the date in UTC.
def DatesFit (json : Json) : Prop :=
  ∀ before when, DatedAt json before when → InYears when.utc ∨
    (SupportedDate when.utc ∧ ¬Accepted fields json) ∨ (¬SupportedDate when.utc ∧ ¬Accepts fields before)

theorem datesFit_of_rereadable [Rfc3339.Lawful] (h : Rereadable (deserialize json)) : DatesFit json := by
  intro before when hd
  by_cases hs : SupportedDate when.utc
  case pos =>
    refine Classical.or_iff_not_imp_left.mpr fun hy => .inl ⟨hs, fun ha => hy ?_⟩
    have hok : ∃ r, deserialize json = .ok r := (toStruct_isOk nodup_fields fields_uniform).mpr ha
    have ⟨r, hr⟩ := hok
    let t : Timestamp := { when := { clock := when.utc, offset := 0, supported := hs }, utc := rfl }
    exact rereads_iff.mp (h.2 r hr) t ((exists_timestamp_iff hr).mpr ⟨before, when, hd, hs, rfl⟩)
  case neg =>
    exact .inr <| .inr ⟨hs, fun ha => h.1 (deserialize_eq_panic_iff.mpr ⟨before, when, hd, ha, hs⟩)⟩

theorem rereadable_of_datesFit [Rfc3339.Lawful] (h : DatesFit json) : Rereadable (deserialize json) := by
  constructor
  case left =>
    intro hp
    have ⟨before, when, hd, ha, hs⟩ := deserialize_eq_panic_iff.mp hp
    rcases h before when hd with hy | ⟨hs', _⟩ | ⟨_, hn⟩
    · exact hs hy.supported
    · exact hs hs'
    · exact hn ha
  case right =>
    refine fun r hr => rereads_iff.mpr fun t ht => ?_
    have ⟨before, when, hd, hs, hc⟩ := (exists_timestamp_iff hr).mp ht
    rcases h before when hd with hy | ⟨_, hn⟩ | ⟨hs', _⟩
    · exact hc ▸ hy
    · exact absurd ((toStruct_isOk nodup_fields fields_uniform).mp ⟨r, hr⟩) hn
    · exact absurd hs hs'

-- Reading a JSON text comes out without a panic and with a record that can be written and read again, exactly
-- if the dates in the text fit.
theorem rereadable_fromStr_iff [Rfc3339.Lawful] (parse : String → Except String Json) (text : String)
    (json : Json) (h : parse text = .ok json) : Rereadable (fromStr parse text) ↔ DatesFit json := by
  rw [fromStr, h]
  exact ⟨datesFit_of_rereadable, rereadable_of_datesFit⟩

end

-- A text that holds nothing but a date and the provenance, and a reader that knows this text.
def dated (date : String) : Json :=
  .obj [("@timestamp", .str date), ("latent", .obj [
    ("confidence", .str "L4Raw"),
    ("method", .str "RawOnly"),
    ("source_offset", .num (.u64 0)),
    ("reconstructed", .bool true)
  ])]

def datedText (date : String) : String :=
  "\x7b\"@timestamp\":\"" ++ date ++ "\",\"latent\":\x7b\"confidence\":\"L4Raw\",\"method\":\"RawOnly\"," ++
    "\"source_offset\":0,\"reconstructed\":true\x7d\x7d"

def readDated (date text : String) : Except String Json :=
  if text = datedText date then .ok (dated date) else .error "unknown text"

attribute [local instance] Rfc3339.standard

theorem fromStr_dated (date : String) :
    fromStr (readDated date) (datedText date) = deserialize (dated date) := by
  rw [fromStr, readDated, if_pos rfl]

-- An hour before the year 0.
def lastHour : Timestamp where
  when := { clock := -3600 * 10 ^ 9, offset := 0, supported := by decide }
  utc  := rfl

theorem deserialize_yearZero : deserialize (dated "0000-01-01T00:00:00+01:00") =
    .ok { new (.new .l4Raw .rawOnly 0) with timestamp := some lastHour } := by
  decide +kernel

theorem deserialize_year9999 : deserialize (dated "9999-12-31T23:59:59-01:00") = .panic := by
  decide +kernel

-- The first hour of the year 0 on a clock that is ahead of UTC is read, but cannot be written. The last
-- one of the year 9999 on a clock that is behind UTC cannot even be read.
theorem not_rereadable_dated :
    ¬Rereadable (fromStr (readDated "0000-01-01T00:00:00+01:00") (datedText "0000-01-01T00:00:00+01:00")) ∧
    ¬Rereadable (fromStr (readDated "9999-12-31T23:59:59-01:00") (datedText "9999-12-31T23:59:59-01:00")) := by
  rw [fromStr_dated, fromStr_dated]
  constructor
  case left =>
    intro h
    have hy := rereads_iff.mp (h.2 _ deserialize_yearZero) lastHour rfl
    exact absurd hy (by decide)
  case right => exact fun h => h.1 deserialize_year9999

theorem parse_plusTwo : Rfc3339.parse "2024-03-01T14:30:00+02:00" =
    .ok { clock := 63876522600 * 10 ^ 9, offset := 7200, supported := by decide } := by
  decide +kernel

theorem rereadable_fromStr_plusTwo :
    Rereadable (fromStr (readDated "2024-03-01T14:30:00+02:00") (datedText "2024-03-01T14:30:00+02:00")) := by
  refine (rereadable_fromStr_iff _ _ (dated "2024-03-01T14:30:00+02:00") (if_pos rfl)).mpr ?_
  intro before when ⟨text, after, hm, hk, hp⟩
  have hl := lookup_members.mpr ⟨before, after, hm, hk⟩
  have ht : Json.str "2024-03-01T14:30:00+02:00" = .str text := Option.some.inj hl
  cases ht
  have hw : when = { clock := 63876522600 * 10 ^ 9, offset := 7200, supported := by decide } := by
    rw [parse_plusTwo] at hp
    exact (Except.ok.inj hp).symm
  subst hw
  exact .inl (by decide)

end Record
end Latent
