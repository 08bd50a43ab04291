import Latent.Carve.Evtx.Truncation

open Rust

namespace Latent.Evtx

-- The part of a sound record that the check of a neighbour leaves out.
def Plausible (config : Config) (data : Bytes) : Prop :=
  recordSize data ≤ config.maxRecordSize.toNat ∧
  config.minFiletime.toNat ≤ Bytes.leAt data 16 8 ∧ Bytes.leAt data 16 8 ≤ config.maxFiletime.toNat

variable {config : Config} {data other : Bytes}

theorem recordSound_iff_framed : RecordSound config data ↔ Framed data ∧ Plausible config data := by
  constructor
  case mp =>
    intro h
    exact ⟨⟨h.length, h.magic, h.bounds.1, h.aligned, h.fits, h.tail⟩, h.bounds.2, h.filetime⟩
  case mpr =>
    intro ⟨h, hs, hf⟩
    exact ⟨h.length, h.magic, ⟨h.size, hs⟩, h.aligned, h.fits, h.tail, hf⟩

-- The bytes behind the record that `data` begins with.
def next (data : Bytes) : Bytes :=
  data.drop (recordSize data)

-- The bytes behind the record begin with a frame whose identifier is not above the record's own.
def Condemned (data : Bytes) : Prop :=
  Framed (next data) ∧ recordId (next data) ≤ recordId data

instance : Decidable (Condemned data) :=
  inferInstanceAs (Decidable (_ ∧ _))

-- A record is condemned only by something that would pass for a record itself.
def NeighbourHarmless (config : Config) (data : Bytes) : Prop :=
  RecordSound config data → Condemned data → Plausible config (next data)

-- Behind a sound record, what is no record itself is harmless exactly when it does not condemn.
theorem harmless_iff_of_not_sound (hs : RecordSound config data) (hn : ¬RecordSound config (next data)) :
    NeighbourHarmless config data ↔ ¬Condemned data := by
  rw [recordSound_iff_framed] at hn
  exact ⟨fun h hc => hn ⟨hc.1, h hs hc⟩, fun hc _ h => absurd h hc⟩

section

variable [OverflowChecks]

-- The neighbour is only looked at when everything else has passed, and nothing else fails this way.
theorem validateAlone_ne_notMonotone : validateAlone data config ≠ .err notMonotone := by
  unfold validateAlone
  simp only [RECORD_HEADER_SIZE]
  refine Exec.errIf_bind_ne (by simp [notMonotone]) fun hl => ?_
  have hl : 28 ≤ data.length := Nat.not_lt.mp hl
  simp (disch := omega) only [slice_eq, readU32_eq, readU64_eq, Exec.unwrap_some, Exec.ok_bind]
  refine Exec.errIf_bind_ne (by simp [notMonotone]) fun _ => ?_
  refine Exec.errIf_bind_ne (by simp [notMonotone]) fun hb => ?_
  refine Exec.errIf_bind_ne (by simp [notMonotone]) fun _ => ?_
  refine Exec.errIf_bind_ne (by simp [notMonotone]) fun hf => ?_
  rw [U64.sub_eq (by omega), Exec.ok_bind, readU32_eq (by omega), Exec.unwrap_some, Exec.ok_bind]
  refine Exec.errIf_bind_ne (by simp [notMonotone]) fun _ => ?_
  exact Exec.errIf_bind_ne (by simp [notMonotone]) fun _ => by simp

theorem validateRecord_of_sound (h : RecordSound config data) : validateRecord data config =
    if Condemned data then .err notMonotone else .ok { size := recordSize data, recordId := recordId data } := by
  rw [validateRecord_eq_alone, validateAlone_decides.ok h]
  simp only [Exec.ok_bind, neighbourId_eq]
  by_cases hf : Framed (next data)
  case pos =>
    by_cases hid : recordId (next data) ≤ recordId data
    case pos =>
      rw [if_pos (show Condemned data from ⟨hf, hid⟩), if_pos (show Framed (data.drop _) from hf)]
      rw [Exec.errIf_pos ⟨_, rfl, hid⟩, Exec.err_bind]
    case neg =>
      rw [if_neg fun hc : Condemned data => hid hc.2, if_pos (show Framed (data.drop _) from hf)]
      rw [Exec.errIf_neg, Exec.ok_bind]
      rintro ⟨_, hm, hle⟩
      cases hm
      exact hid hle
  case neg =>
    rw [if_neg fun hc : Condemned data => hf hc.1, if_neg (show ¬Framed (data.drop _) from hf)]
    rw [Exec.errIf_neg (by simp), Exec.ok_bind]

theorem validateRecord_of_not_sound (h : ¬RecordSound config data) :
    ∃ e, e ≠ notMonotone ∧ validateAlone data config = .err e ∧ validateRecord data config = .err e := by
  have ⟨e, he⟩ := validateAlone_decides.err h
  refine ⟨e, ?_, he, by rw [validateRecord_eq_alone, he, Exec.err_bind]⟩
  rintro rfl
  exact validateAlone_ne_notMonotone he

theorem validateRecord_eq_notMonotone_iff :
    validateRecord data config = .err notMonotone ↔ RecordSound config data ∧ Condemned data := by
  by_cases h : RecordSound config data
  case pos =>
    rw [validateRecord_of_sound h]
    split <;> simp [*]
  case neg =>
    have ⟨e, hne, _, he⟩ := validateRecord_of_not_sound h
    simp [he, h, hne]

end

-- The record with other bytes behind it.
def replaceNext (data other : Bytes) : Bytes :=
  data.take (recordSize data) ++ other

section

variable (h₁ : 28 ≤ recordSize data) (h₂ : recordSize data ≤ data.length)

include h₂

theorem subslice_replaceNext {pos k : ℕ} (h : pos + k ≤ recordSize data) :
    subslice (replaceNext data other) pos k = subslice data pos k := by
  have hl : (data.take (recordSize data)).length = recordSize data := List.length_take_of_le h₂
  rw [replaceNext, subslice_append_left (by omega), subslice_take h]

theorem leAt_replaceNext {pos k : ℕ} (h : pos + k ≤ recordSize data) :
    Bytes.leAt (replaceNext data other) pos k = Bytes.leAt data pos k := by
  rw [Bytes.leAt, subslice_replaceNext h₂ h, Bytes.leAt]

theorem le_length_replaceNext : recordSize data ≤ (replaceNext data other).length := by
  rw [replaceNext, List.length_append, List.length_take_of_le h₂]
  exact Nat.le_add_right ..

include h₁

theorem recordSize_replaceNext : recordSize (replaceNext data other) = recordSize data :=
  leAt_replaceNext h₂ (by omega)

theorem recordId_replaceNext : recordId (replaceNext data other) = recordId data :=
  leAt_replaceNext h₂ (by omega)

theorem next_replaceNext : next (replaceNext data other) = other := by
  have hl : (data.take (recordSize data)).length = recordSize data := List.length_take_of_le h₂
  rw [next, recordSize_replaceNext h₁ h₂, replaceNext, List.drop_append, List.drop_eq_nil_of_le (by omega), hl,
    Nat.sub_self]
  rfl

-- What a record is checked for alone does not depend on what is behind it.
theorem validateAlone_replaceNext [OverflowChecks] :
    validateAlone (replaceNext data other) config = validateAlone data config := by
  have hle : recordSize data ≤ (replaceNext data other).length := le_length_replaceNext h₂
  have hsize : recordSize (replaceNext data other) = recordSize data := recordSize_replaceNext h₁ h₂
  have hlong : ∀ {l : Bytes}, recordSize data ≤ l.length → ¬l.length < RECORD_HEADER_SIZE + 4 := by
    intro l hl
    simp only [RECORD_HEADER_SIZE]
    omega
  have hsub : U64.sub (recordSize data) 4 = (.ok (recordSize data - 4) : Exec Rejection ℕ) :=
    U64.sub_eq (by omega)
  have htail : Bytes.leAt (replaceNext data other) (recordSize data - 4) 4 =
      Bytes.leAt data (recordSize data - 4) 4 := leAt_replaceNext h₂ (by omega)
  have hfits : ¬data.length < recordSize data := Nat.not_lt.mpr h₂
  have hfits' : ¬(replaceNext data other).length < recordSize data := Nat.not_lt.mpr hle
  simp only [recordSize] at hsize hsub htail hfits hfits'
  unfold validateAlone
  simp only [Exec.errIf_neg (hlong h₂), Exec.errIf_neg (hlong hle), Exec.ok_bind]
  simp (disch := omega) only [slice_eq, readU32_eq, readU64_eq, Exec.unwrap_some, Exec.ok_bind, hsize, hsub,
    htail, subslice_replaceNext h₂, leAt_replaceNext h₂, Exec.errIf_neg hfits, Exec.errIf_neg hfits']

theorem recordSound_replaceNext : RecordSound config (replaceNext data other) ↔ RecordSound config data := by
  let := OverflowChecks.on
  have hd : validateAlone (replaceNext data other) config = validateAlone data config :=
    validateAlone_replaceNext h₁ h₂
  by_cases h : RecordSound config data
  case pos => exact iff_of_true (validateAlone_decides.ok_iff.mp (hd.trans (validateAlone_decides.ok h))).1 h
  case neg =>
    refine iff_of_false (fun hs => ?_) h
    have ⟨e, he⟩ := validateAlone_decides.err h
    cases (validateAlone_decides.ok hs).symm.trans (hd.trans he)

end

section

variable [OverflowChecks]

-- The bytes behind a record condemn it only if they are a record themselves, unless they are a frame that
-- is too long or of another time. So much of them as is no record can be replaced by anything that is none.
theorem neighbour_condemns_iff (config : Config) (data : Bytes) :
    ((validateRecord data config = .err notMonotone → RecordSound config (next data)) ↔
      NeighbourHarmless config data) ∧
    ∀ other, 28 ≤ recordSize data → recordSize data ≤ data.length →
      ¬RecordSound config (next data) → ¬RecordSound config other →
      (validateRecord (replaceNext data other) config = validateRecord data config ↔
        (NeighbourHarmless config (replaceNext data other) ↔ NeighbourHarmless config data)) := by
  constructor
  case left =>
    have hsplit : RecordSound config (next data) ↔ Framed (next data) ∧ Plausible config (next data) :=
      recordSound_iff_framed
    rw [validateRecord_eq_notMonotone_iff, hsplit]
    constructor
    case mp  => exact fun h hs hc => (h ⟨hs, hc⟩).2
    case mpr => exact fun h hc => ⟨hc.2.1, h hc.1 hc.2⟩
  case right =>
    intro other h₁ h₂ hn ho
    by_cases hs : RecordSound config data
    case pos =>
      have hs' : RecordSound config (replaceNext data other) := (recordSound_replaceNext h₁ h₂).mpr hs
      have hharm : NeighbourHarmless config data ↔ ¬Condemned data := harmless_iff_of_not_sound hs hn
      have hharm' : NeighbourHarmless config (replaceNext data other) ↔ ¬Condemned (replaceNext data other) :=
        harmless_iff_of_not_sound hs' (by rwa [next_replaceNext h₁ h₂])
      rw [validateRecord_of_sound hs, validateRecord_of_sound hs', hharm, hharm', recordSize_replaceNext h₁ h₂,
        recordId_replaceNext h₁ h₂]
      by_cases hc : Condemned data <;> by_cases hc' : Condemned (replaceNext data other) <;> simp [hc, hc']
    case neg =>
      have hs' : ¬RecordSound config (replaceNext data other) := mt (recordSound_replaceNext h₁ h₂).mp hs
      have ⟨e, _, he, hx⟩ := validateRecord_of_not_sound hs
      refine iff_of_true ?_ (iff_of_true (fun h => absurd h hs') fun h => absurd h hs)
      rw [hx, validateRecord_eq_alone, validateAlone_replaceNext h₁ h₂, he, Exec.err_bind]

end

section

attribute [local instance] OverflowChecks.on

-- Slack behind a record: what is left of an older record, whose timestamp is not even plausible.
def slack : Bytes :=
  buildRecord 3 0 []

theorem slack_condemns :
    ¬∀ (config : Config) (data : Bytes), validateRecord data config = .err notMonotone →
      RecordSound config (next data) := by
  intro h
  exact absurd (h .default (firstRecord.encode ++ slack) (by decide)) (by decide)

-- The slack against an empty rest, which is no record either.
theorem neighbour_condemns_iff_slack :
    ¬RecordSound .default (next (firstRecord.encode ++ slack)) ∧
    (validateRecord (replaceNext (firstRecord.encode ++ slack) []) .default =
        validateRecord (firstRecord.encode ++ slack) .default ↔
      (NeighbourHarmless .default (replaceNext (firstRecord.encode ++ slack) []) ↔
        NeighbourHarmless .default (firstRecord.encode ++ slack))) :=
  ⟨by decide, (neighbour_condemns_iff .default (firstRecord.encode ++ slack)).2 [] (by decide) (by decide)
    (by decide) (by decide)⟩

end
end Latent.Evtx
