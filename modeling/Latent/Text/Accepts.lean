import Latent.Rust.Failure
import Latent.Text.Entry

open Rust

namespace Text
namespace Json

variable {α β σ : Type}

theorem lookup_members {members : List (String × Json)} {key : String} {value : Json} :
    members.lookup key = some value ↔
      ∃ before after, members = before ++ (key, value) :: after ∧ key ∉ before.map Prod.fst := by
  have hk : ∀ before : List (String × Json),
      (∀ member ∈ before, (key != member.1) = true) ↔ key ∉ before.map Prod.fst := by
    intro before
    simp only [bne_iff_ne, List.mem_map, not_exists, not_and, ne_comm, Ne]
  simp only [List.lookup_eq_some_iff, hk]

section

variable {f : Json → Exec DeError α} {a : α}

theorem toBool_ne_panic (json : Json) : json.toBool ≠ .panic := by
  cases json <;> nofun

theorem toStr_ne_panic (json : Json) : json.toStr ≠ .panic := by
  cases json <;> nofun

theorem toU64_ne_panic (json : Json) : json.toU64 ≠ .panic := by
  rw [toU64.eq_def]
  split
  case h_2 => split <;> nofun
  all_goals nofun

theorem toI64_ne_panic (json : Json) : json.toI64 ≠ .panic := by
  rw [toI64.eq_def]
  split
  case h_1 => split <;> nofun
  all_goals nofun

theorem toU16_ne_panic (json : Json) : json.toU16 ≠ .panic := by
  rw [toU16.eq_def]
  split
  case h_3 => nofun
  all_goals split <;> nofun

theorem toVariant_ne_panic {variants : List (String × α)} (json : Json) : toVariant variants json ≠ .panic := by
  rw [toVariant.eq_def]
  split
  case h_1 name => cases variants.lookup name <;> nofun
  case h_2 name value => cases variants.lookup name <;> cases value <;> nofun
  case h_3 => nofun

theorem toOption_eq_panic_iff {json : Json} : toOption f json = .panic ↔ json ≠ null ∧ f json = .panic := by
  rw [toOption.eq_def]
  split
  case h_1 => simp
  case h_2 hn =>
    have hn : json ≠ null := hn
    cases f json <;> simp [hn]

theorem toOption_ne_panic (h : ∀ json, f json ≠ .panic) (json : Json) : toOption f json ≠ .panic :=
  fun hp => h json (toOption_eq_panic_iff.mp hp).2

theorem toOption_eq_some_iff {json : Json} : toOption f json = .ok (some a) ↔ json ≠ null ∧ f json = .ok a := by
  rw [toOption.eq_def]
  split
  case h_1 => simp
  case h_2 hn =>
    have hn : json ≠ null := hn
    cases f json <;> simp [hn]

end

namespace Field

-- A field whose reader comes out the same whatever is read already.
def Uniform (field : Field σ) : Prop :=
  ∀ json s t, (field.set json s >>= fun _ => .ok ()) = (field.set json t >>= fun _ => .ok ())

def Takes (field : Field σ) (json : Json) : Prop :=
  ∀ s, ∃ s', field.set json s = .ok s'

def Total (field : Field σ) : Prop :=
  ∀ json s, field.set json s ≠ .panic

variable {name : String} {f : Json → Exec DeError α} {put : α → σ → σ}
variable {field : Field σ} {json : Json} {s t : σ}

theorem Uniform.plain : (Field.plain name f put).Uniform := by
  intro json s t
  simp only [Field.plain, bind_assoc, Exec.ok_bind]

theorem Uniform.withDefault : (Field.withDefault name f put).Uniform := by
  intro json s t
  simp only [Field.withDefault, bind_assoc, Exec.ok_bind]

theorem Total.plain (h : ∀ json, f json ≠ .panic) : (Field.plain name f put).Total := by
  intro json s hp
  cases hf : f json <;> simp [Field.plain, hf] at hp
  exact h json hf

theorem Total.withDefault (h : ∀ json, f json ≠ .panic) : (Field.withDefault name f put).Total := by
  intro json s hp
  cases hf : f json <;> simp [Field.withDefault, hf] at hp
  exact h json hf

theorem Total.optional {put : Option α → σ → σ} (h : ∀ json, f json ≠ .panic) :
    (Field.withDefault name (toOption f) put).Total :=
  .withDefault (toOption_ne_panic h)

theorem Uniform.takes (hu : field.Uniform) {s' : σ} (h : field.set json s = .ok s') : field.Takes json := by
  intro t
  have he := hu json s t
  rw [h, Exec.ok_bind] at he
  have ⟨t', ht, _⟩ := Exec.bind_eq_ok.mp he.symm
  exact ⟨t', ht⟩

theorem Uniform.panic (hu : field.Uniform) (h : field.set json s = .panic) (t : σ) :
    field.set json t = .panic := by
  have he := hu json s t
  rw [h, Exec.panic_bind] at he
  cases ht : field.set json t <;> simp [ht] at he
  rfl

end Field

-- The names of fields, in the order in which the members give them.
def knownKeys (fields : List (Field σ)) (members : List (String × Json)) : List String :=
  (members.map Prod.fst).filter (· ∈ fields.map (·.name))

-- No field is given twice, and each one that is given takes its value.
structure Accepts (fields : List (Field σ)) (members : List (String × Json)) : Prop where
  once  : (knownKeys fields members).Nodup
  takes : ∀ member ∈ members, ∀ field ∈ fields, field.name = member.1 → field.Takes member.2

-- What a derived `Deserialize` of a structure asks of a JSON value.
structure Accepted (fields : List (Field σ)) (json : Json) : Prop where
  shape    : (∃ members, json = obj members) ∨
    ∃ elements, json = arr elements ∧ elements.length ≤ fields.length
  accepts  : Accepts fields (json.membersOf (fields.map (·.name)))
  required : ∀ field ∈ fields, field.required →
    field.name ∈ (json.membersOf (fields.map (·.name))).map Prod.fst

section

variable {fields : List (Field σ)} {member : String × Json} {members : List (String × Json)}

theorem mem_knownKeys {key : String} :
    key ∈ knownKeys fields members ↔ key ∈ members.map Prod.fst ∧ key ∈ fields.map (·.name) := by
  rw [knownKeys, List.mem_filter, decide_eq_true_eq]

theorem knownKeys_cons_of_none (h : fields.find? (·.name = member.1) = none) :
    knownKeys fields (member :: members) = knownKeys fields members := by
  have hn : member.1 ∉ fields.map (·.name) := by
    simpa using List.find?_eq_none.mp h
  rw [knownKeys, List.map_cons, List.filter_cons_of_neg (by simpa using hn), knownKeys]

theorem knownKeys_cons_of_some {field : Field σ} (h : fields.find? (·.name = member.1) = some field) :
    knownKeys fields (member :: members) = member.1 :: knownKeys fields members := by
  have hn := name_of_find? h
  have hm : member.1 ∈ fields.map (·.name) := hn ▸ List.mem_map_of_mem (List.mem_of_find?_eq_some h)
  rw [knownKeys, List.map_cons, List.filter_cons_of_pos (by simpa using hm), knownKeys]

theorem accepts_cons_of_none (h : fields.find? (·.name = member.1) = none) :
    Accepts fields (member :: members) ↔ Accepts fields members where
  mp ha := {
    once    := knownKeys_cons_of_none h ▸ ha.once
    takes m hm := ha.takes m (List.mem_cons_of_mem _ hm)
  }
  mpr ha := {
    once  := (knownKeys_cons_of_none h).symm ▸ ha.once
    takes := by
      refine List.forall_mem_cons.mpr ⟨fun field hf hn => ?_, ha.takes⟩
      exact absurd hn (by simpa using List.find?_eq_none.mp h field hf)
  }

-- The fields that are seen after the members are those that were seen before, and those that are given.
theorem mem_seen {seen seen' : List String} {s s' : σ} {key : String}
    (h : members.foldlM (visit fields) (seen, s) = .ok (seen', s')) :
    key ∈ seen' ↔ key ∈ seen ∨ key ∈ knownKeys fields members := by
  induction members generalizing seen s with
  | nil =>
    cases h
    simp [knownKeys]
  | cons member members hi =>
    rw [List.foldlM_cons] at h
    have ⟨⟨seen₁, s₁⟩, hv, hr⟩ := Exec.bind_eq_ok.mp h
    rcases visit_cases hv with ⟨hf, rfl, rfl⟩ | ⟨field, hf, _, rfl, _⟩
    · rw [hi hr, knownKeys_cons_of_none hf]
    · rw [hi hr, knownKeys_cons_of_some hf, List.mem_cons, List.mem_cons, or_assoc, or_left_comm]

-- A part of the value stays as it is if the field that sets it is not given.
theorem get_of_not_mem {name : String} {get : σ → β} {seen seen' : List String} {s s' : σ}
    (hkeep : ∀ other ∈ fields, other.name ≠ name → other.Keeps get)
    (h : members.foldlM (visit fields) (seen, s) = .ok (seen', s')) (hn : name ∉ seen') : get s' = get s := by
  induction members generalizing seen s with
  | nil =>
    cases h
    rfl
  | cons member members hi =>
    rw [List.foldlM_cons] at h
    have ⟨⟨seen₁, s₁⟩, hv, hr⟩ := Exec.bind_eq_ok.mp h
    rcases visit_cases hv with ⟨_, rfl, rfl⟩ | ⟨other, hf, _, rfl, hx⟩
    · exact hi hr
    · have hne : other.name ≠ name := by
        rintro rfl
        exact hn ((mem_seen hr).mpr (.inl (name_of_find? hf ▸ List.mem_cons_self)))
      rw [hi hr, hkeep other (List.mem_of_find?_eq_some hf) hne _ _ _ hx]

-- Only the visit of a member panics.
theorem toStruct_eq_panic {init : σ} {json : Json} : toStruct fields init json = .panic ↔
    (json.membersOf (fields.map (·.name))).foldlM (visit fields) ([], init) = .panic := by
  cases json with
  | obj members =>
    simp only [toStruct, membersOf]
    cases members.foldlM (visit fields) ([], init) with
    | ok acc => cases hm : missing? fields acc.1 <;> simp [hm]
    | err e => simp
    | panic => simp
  | arr elements =>
    simp only [toStruct, membersOf]
    cases ((fields.map (·.name)).zip elements).foldlM (visit fields) ([], init) with
    | ok acc =>
      by_cases hl : fields.length < elements.length <;> cases hm : missing? fields acc.1 <;> simp [hl, hm]
    | err e => simp
    | panic => simp
  | null | bool | num | str => simp [toStruct, membersOf]

theorem visit_eq_panic_iff {seen : List String} {s : σ} : visit fields (seen, s) member = .panic ↔
    ∃ field, fields.find? (·.name = member.1) = some field ∧ member.1 ∉ seen ∧
      field.set member.2 s = .panic := by
  simp only [visit]
  cases hf : fields.find? (·.name = member.1) with
  | none => simp
  | some field =>
    by_cases hs : member.1 ∈ seen
    case pos => simp [hs]
    case neg => cases hx : field.set member.2 s <;> simp [hs, hx]

theorem toStruct_ne_panic {init : σ} (ht : ∀ field ∈ fields, field.Total) (json : Json) :
    toStruct fields init json ≠ .panic := by
  rw [Ne, toStruct_eq_panic, Exec.foldlM_eq_panic_iff]
  rintro ⟨_, member, _, ⟨_, s⟩, _, _, hp⟩
  have ⟨field, hf, _, hx⟩ := visit_eq_panic_iff.mp hp
  exact ht field (List.mem_of_find?_eq_some hf) _ _ hx

theorem missing?_eq_none_iff {seen : List String} :
    missing? fields seen = none ↔ ∀ field ∈ fields, field.required → field.name ∈ seen := by
  simp [missing?, List.find?_eq_none]

-- What an optional field is read as is what it is given as, or what it was to start with.
theorem get_of_withDefault {name : String} {f : Json → Exec DeError α} {put : α → σ → σ} {init v : σ}
    {json : Json} (get : σ → α) (hfind : fields.find? (·.name = name) = some (.withDefault name f put))
    (hget : ∀ a s, get (put a s) = a) (hkeep : ∀ other ∈ fields, other.name ≠ name → other.Keeps get)
    (h : toStruct fields init json = .ok v) :
    (∃ value, (json.membersOf (fields.map (·.name))).lookup name = some value ∧ f value = .ok (get v)) ∨
    (name ∉ (json.membersOf (fields.map (·.name))).map Prod.fst ∧ get v = get init) := by
  let field := Field.withDefault name f put
  have hfind : fields.find? (·.name = field.name) = some field := hfind
  obtain ⟨⟨seen, s⟩, hv, _, rfl, _⟩ := exists_acc_of_toStruct h
  have hname : name ∈ fields.map (·.name) := List.mem_map_of_mem (List.mem_of_find?_eq_some hfind)
  by_cases hs : name ∈ seen
  case pos => exact .inl ((foldlM_visit hfind (Field.withDefault_sets hget) hkeep hv).2 List.not_mem_nil hs)
  case neg =>
    refine .inr ⟨fun hm => hs ((mem_seen hv).mpr (.inr (mem_knownKeys.mpr ⟨hm, hname⟩))), ?_⟩
    exact get_of_not_mem hkeep hv hs

variable (hnd : (fields.map (·.name)).Nodup)

include hnd

theorem accepts_cons_of_some {field : Field σ} (h : fields.find? (·.name = member.1) = some field) :
    Accepts fields (member :: members) ↔
      member.1 ∉ knownKeys fields members ∧ field.Takes member.2 ∧ Accepts fields members := by
  have hn := name_of_find? h
  constructor
  case mp =>
    intro ⟨ho, ht⟩
    rw [knownKeys_cons_of_some h, List.nodup_cons] at ho
    rw [List.forall_mem_cons] at ht
    exact ⟨ho.1, ht.1 field (List.mem_of_find?_eq_some h) hn, ho.2, ht.2⟩
  case mpr =>
    intro ⟨hm, ht, ho, hts⟩
    refine ⟨?_, List.forall_mem_cons.mpr ⟨fun other hf hn' => ?_, hts⟩⟩
    · rw [knownKeys_cons_of_some h]
      exact List.nodup_cons.mpr ⟨hm, ho⟩
    · have he : some other = some field := by
        rw [← h, ← hn', find?_name hnd other hf]
      cases he
      exact ht

variable (hu : ∀ field ∈ fields, field.Uniform)

include hu

-- The members are all visited if each of them is accepted and none comes again.
theorem foldlM_visit_isOk {seen : List String} {s : σ} :
    (∃ acc, members.foldlM (visit fields) (seen, s) = .ok acc) ↔
      Accepts fields members ∧ ∀ key ∈ knownKeys fields members, key ∉ seen := by
  induction members generalizing seen s with
  | nil => exact ⟨fun _ => ⟨⟨List.nodup_nil, by simp⟩, by simp [knownKeys]⟩, fun _ => ⟨_, rfl⟩⟩
  | cons member members hi =>
    cases hf : fields.find? (·.name = member.1) with
    | none =>
      have hv : visit fields (seen, s) member = .ok (seen, s) := by
        simp only [visit, hf]
      rw [List.foldlM_cons, hv, Exec.ok_bind, hi, accepts_cons_of_none hf, knownKeys_cons_of_none hf]
    | some field =>
      rw [accepts_cons_of_some hnd hf, knownKeys_cons_of_some hf, List.forall_mem_cons]
      constructor
      case mp =>
        rintro ⟨acc, h⟩
        rw [List.foldlM_cons] at h
        obtain ⟨⟨seen', s'⟩, hv, hr⟩ := Exec.bind_eq_ok.mp h
        rcases visit_cases hv with ⟨hn, _, _⟩ | ⟨other, ho, hs, rfl, hx⟩
        · cases hf.symm.trans hn
        · cases hf.symm.trans ho
          obtain ⟨ha, hk⟩ := hi.mp ⟨acc, hr⟩
          have ht := (hu field (List.mem_of_find?_eq_some hf)).takes hx
          exact ⟨⟨fun hm => hk _ hm List.mem_cons_self, ht, ha⟩, hs,
            fun key hm hk' => hk key hm (List.mem_cons_of_mem _ hk')⟩
      case mpr =>
        rintro ⟨⟨hm, ht, ha⟩, hs, hk⟩
        obtain ⟨s', hx⟩ := ht s
        have hv : visit fields (seen, s) member = .ok (member.1 :: seen, s') := by
          simp only [visit, hf, Exec.errIf_neg hs, hx, Exec.ok_bind]
        rw [List.foldlM_cons, hv, Exec.ok_bind]
        refine hi.mpr ⟨ha, fun key hkm => ?_⟩
        exact List.not_mem_cons_of_ne_of_not_mem (fun he => hm (he ▸ hkm)) (hk key hkm)

theorem exists_visited (ha : Accepts fields members) (init : σ) :
    ∃ acc, members.foldlM (visit fields) ([], init) = .ok acc :=
  (foldlM_visit_isOk hnd hu).mpr ⟨ha, fun _ _ => List.not_mem_nil⟩

-- The members are visited and no field is missing.
theorem exists_foldlM_iff {init : σ} :
    (∃ acc, members.foldlM (visit fields) ([], init) = .ok acc ∧ missing? fields acc.1 = none) ↔
      Accepts fields members ∧ ∀ field ∈ fields, field.required → field.name ∈ members.map Prod.fst := by
  have hk : ∀ {seen s}, members.foldlM (visit fields) ([], init) = .ok (seen, s) → ∀ field ∈ fields,
      (field.name ∈ seen ↔ field.name ∈ members.map Prod.fst) := by
    intro seen s h field hf
    rw [mem_seen h, mem_knownKeys, and_iff_left (List.mem_map_of_mem hf)]
    exact or_iff_right List.not_mem_nil
  constructor
  case mp =>
    intro ⟨⟨seen, s⟩, h, hm⟩
    have ⟨ha, _⟩ := (foldlM_visit_isOk hnd hu).mp ⟨_, h⟩
    exact ⟨ha, fun field hf hr => (hk h field hf).mp (missing?_eq_none_iff.mp hm field hf hr)⟩
  case mpr =>
    intro ⟨ha, hr⟩
    have ⟨⟨seen, s⟩, h⟩ := exists_visited hnd hu ha init
    exact ⟨_, h, missing?_eq_none_iff.mpr fun field hf hq => (hk h field hf).mpr (hr field hf hq)⟩

-- A derived `Deserialize` of a structure gives a value exactly if the JSON value is accepted.
theorem toStruct_isOk {init : σ} {json : Json} :
    (∃ s, toStruct fields init json = .ok s) ↔ Accepted fields json := by
  constructor
  case mp =>
    intro ⟨s, h⟩
    obtain ⟨acc, hf, hm, _, hs⟩ := exists_acc_of_toStruct h
    have ⟨ha, hr⟩ := (exists_foldlM_iff hnd hu).mp ⟨acc, hf, hm⟩
    exact ⟨hs, ha, hr⟩
  case mpr =>
    intro ⟨hs, ha, hr⟩
    have hv : ∃ acc, (json.membersOf (fields.map (·.name))).foldlM (visit fields) ([], init) = .ok acc ∧
        missing? fields acc.1 = none := (exists_foldlM_iff hnd hu).mpr ⟨ha, hr⟩
    have ⟨acc, hf, hm⟩ := hv
    rcases hs with ⟨members, rfl⟩ | ⟨elements, rfl, hl⟩
    · refine ⟨acc.2, ?_⟩
      rw [toStruct, show members.foldlM (visit fields) ([], init) = .ok acc from hf, Exec.ok_bind, hm]
    · refine ⟨acc.2, ?_⟩
      rw [toStruct, show ((fields.map (·.name)).zip elements).foldlM (visit fields) ([], init) = .ok acc from hf,
        Exec.ok_bind, hm, Exec.errIf_neg (Nat.not_lt.mpr hl)]
      rfl

-- It panics exactly if the reader of a field does, on the first value for this field, after everything
-- that comes before it is accepted.
theorem toStruct_eq_panic_iff {init : σ} {json : Json} : toStruct fields init json = .panic ↔
    ∃ before member after, json.membersOf (fields.map (·.name)) = before ++ member :: after ∧
      Accepts fields before ∧ member.1 ∉ before.map Prod.fst ∧
      ∃ field ∈ fields, field.name = member.1 ∧ ∀ s, field.set member.2 s = .panic := by
  rw [toStruct_eq_panic, Exec.foldlM_eq_panic_iff]
  constructor
  case mp =>
    intro ⟨before, member, after, ⟨seen, s⟩, hm, hv, hp⟩
    have ⟨field, hf, hs, hx⟩ := visit_eq_panic_iff.mp hp
    have hmem := List.mem_of_find?_eq_some hf
    have hn := name_of_find? hf
    have ⟨ha, _⟩ := (foldlM_visit_isOk hnd hu).mp ⟨_, hv⟩
    refine ⟨before, member, after, hm, ha, fun hk => hs ?_, field, hmem, hn, (hu field hmem).panic hx⟩
    exact (mem_seen hv).mpr (.inr (mem_knownKeys.mpr ⟨hk, hn ▸ List.mem_map_of_mem hmem⟩))
  case mpr =>
    intro ⟨before, member, after, hm, ha, hk, field, hmem, hn, hp⟩
    have ⟨⟨seen, s⟩, hv⟩ := exists_visited hnd hu ha init
    refine ⟨before, member, after, (seen, s), hm, hv, visit_eq_panic_iff.mpr ⟨field, ?_, ?_, hp s⟩⟩
    · rw [← hn]
      exact find?_name hnd field hmem
    · intro hs
      rcases (mem_seen hv).mp hs with hs | hs
      · cases hs
      · exact hk (mem_knownKeys.mp hs).1

end

end Json
end Text
