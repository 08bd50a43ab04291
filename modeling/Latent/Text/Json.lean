import Latent.Rust.Exec
import Mathlib.Data.List.Basic

open Rust

namespace Text

-- A number as it is handed to a visitor: a float is what has a fraction or an exponent, or fits neither
-- of the two integer types.
inductive Number
  | u64 (n : UInt64)
  | i64 (n : Int64)
  | f64 (literal : String)
  deriving DecidableEq, Repr

-- A JSON text as a tree. An object is the list of its members as they come, repeated keys included.
inductive Json
  | null
  | bool (b : Bool)
  | num (n : Number)
  | str (s : String)
  | arr (elements : List Json)
  | obj (members : List (String × Json))
  deriving Repr

inductive DeError
  | invalidType
  | invalidValue
  | unknownVariant (name : String)
  | duplicateField (name : String)
  | missingField (name : String)
  | invalidLength
  | trailing
  | custom (message : String)
  deriving DecidableEq, Repr

namespace Json

variable {α β σ : Type}

def toBool : Json → Exec DeError Bool
  | bool b => .ok b
  | _      => .err .invalidType

def toStr : Json → Exec DeError String
  | str s => .ok s
  | _     => .err .invalidType

-- The visitors of the integer types take every integer that fits.
def toU64 : Json → Exec DeError UInt64
  | num (.u64 n) => .ok n
  | num (.i64 n) => if 0 ≤ n then .ok n.toUInt64 else .err .invalidValue
  | _            => .err .invalidType

def toI64 : Json → Exec DeError Int64
  | num (.u64 n) => if n.toNat < 2 ^ 63 then .ok n.toInt64 else .err .invalidValue
  | num (.i64 n) => .ok n
  | _            => .err .invalidType

def toU16 : Json → Exec DeError UInt16
  | num (.u64 n) => if n.toNat < 2 ^ 16 then .ok n.toUInt16 else .err .invalidValue
  | num (.i64 n) => if 0 ≤ n ∧ n.toInt < 2 ^ 16 then .ok n.toUInt64.toUInt16 else .err .invalidValue
  | _            => .err .invalidType

def toOption (f : Json → Exec DeError α) : Json → Exec DeError (Option α)
  | null => .ok none
  | json => do .ok (some (← f json))

-- An enumeration without data is the name of its variant, or an object with that name and `null`.
def toVariant (variants : List (String × α)) : Json → Exec DeError α
  | str name           => Exec.okOr (.unknownVariant name) (variants.lookup name)
  | obj [(name, json)] => do
    let variant ← Exec.okOr (.unknownVariant name) (variants.lookup name)
    match json with
    | null => .ok variant
    | _    => .err .invalidType
  | _                  => .err .invalidType

theorem exists_name_of_toVariant {variants : List (String × α)} {json : Json} {a : α}
    (h : toVariant variants json = .ok a) :
    ∃ name, variants.lookup name = some a ∧ (json = str name ∨ json = obj [(name, null)]) := by
  simp only [toVariant] at h
  split at h
  case h_1 name => exact ⟨name, (Exec.okOr_eq_ok.mp h), .inl rfl⟩
  case h_2 name json =>
    have ⟨b, hb, h⟩ := Exec.bind_eq_ok.mp h
    split at h
    case h_1 =>
      cases h
      exact ⟨name, Exec.okOr_eq_ok.mp hb, .inr rfl⟩
    case h_2 => cases h
  case h_3 => cases h

-- A field of a derived `Deserialize`: what it makes of its value and where it puts the result.
structure Field (σ : Type) where
  name     : String
  required : Bool
  set      : Json → σ → Exec DeError σ

namespace Field

def plain (name : String) (f : Json → Exec DeError α) (put : α → σ → σ) : Field σ where
  name     := name
  required := true
  set json s := do .ok (put (← f json) s)

-- A field with the attribute `default`.
def withDefault (name : String) (f : Json → Exec DeError α) (put : α → σ → σ) : Field σ where
  name     := name
  required := false
  set json s := do .ok (put (← f json) s)

variable {f : Json → Exec DeError α} {put : α → σ → σ} {name : String} {json : Json} {s s' : σ}

theorem plain_set_eq_ok (h : (plain name f put).set json s = .ok s') : ∃ a, f json = .ok a ∧ put a s = s' := by
  have ⟨a, ha, he⟩ := Exec.bind_eq_ok.mp h
  exact ⟨a, ha, Exec.ok.inj he⟩

-- A field that has no part in what is taken of the value.
def Keeps (get : σ → β) (field : Field σ) : Prop :=
  ∀ json s s', field.set json s = .ok s' → get s' = get s

theorem Keeps.plain {get : σ → β} (h : ∀ a s, get (put a s) = get s) : (Field.plain name f put).Keeps get := by
  intro _ _ _ hs
  have ⟨a, _, he⟩ := plain_set_eq_ok hs
  rw [← he, h]

theorem Keeps.withDefault {get : σ → β} (h : ∀ a s, get (put a s) = get s) :
    (Field.withDefault name f put).Keeps get := by
  have hk : (Field.plain name f put).Keeps get := .plain h
  exact hk

-- The part of the value that a field sets, however it is declared.
theorem plain_sets {get : σ → α} (hget : ∀ a s, get (put a s) = a)
    (h : (plain name f put).set json s = .ok s') : f json = .ok (get s') := by
  have ⟨a, ha, he⟩ := plain_set_eq_ok h
  rw [ha, ← he, hget]

theorem withDefault_sets {get : σ → α} (hget : ∀ a s, get (put a s) = a)
    (h : (withDefault name f put).set json s = .ok s') : f json = .ok (get s') := by
  have hp : (plain name f put).set json s = .ok s' := h
  exact plain_sets hget hp

end Field

-- The members come one after the other. Those that no field is named after are passed over, and none
-- may come twice.
def visit (fields : List (Field σ)) (acc : List String × σ) (member : String × Json) :
    Exec DeError (List String × σ) :=
  match fields.find? (·.name = member.1) with
  | none       => .ok acc
  | some field => do
    Exec.errIf (member.1 ∈ acc.1) (.duplicateField member.1)
    .ok (member.1 :: acc.1, ← field.set member.2 acc.2)

def missing? (fields : List (Field σ)) (seen : List String) : Option (Field σ) :=
  fields.find? fun field => field.required ∧ field.name ∉ seen

-- A derived `Deserialize` of a structure takes an object, or an array with the fields in their order.
-- It fills in a value to start from, of which no required field is left.
def toStruct (fields : List (Field σ)) (init : σ) : Json → Exec DeError σ
  | obj members  => do
    let acc ← members.foldlM (visit fields) ([], init)
    match missing? fields acc.1 with
    | some field => .err (.missingField field.name)
    | none       => .ok acc.2
  | arr elements => do
    let acc ← ((fields.map (·.name)).zip elements).foldlM (visit fields) ([], init)
    match missing? fields acc.1 with
    | some _ => .err .invalidLength
    | none   =>
      Exec.errIf (fields.length < elements.length) .trailing
      .ok acc.2
  | _            => .err .invalidType

-- The members in which a structure looks for its fields: those of an object, or the elements of an array
-- under the names of the fields.
def membersOf (names : List String) : Json → List (String × Json)
  | obj members  => members
  | arr elements => names.zip elements
  | _            => []

-- What a structure finds under the name of a field.
def member (names : List String) (name : String) : Json → Option Json
  | obj members  => members.lookup name
  | arr elements => (names.zip elements).lookup name
  | _            => none

theorem member_eq_lookup (names : List String) (name : String) (json : Json) :
    json.member names name = (json.membersOf names).lookup name := by
  cases json <;> rfl

section

variable {fields : List (Field σ)} {seen seen' : List String} {s s' : σ}

theorem name_of_find? {key : String} {field : Field σ} (h : fields.find? (·.name = key) = some field) :
    field.name = key := by
  simpa using List.find?_some h

-- Where the value comes from that a structure is read as.
theorem exists_acc_of_toStruct {init s : σ} {json : Json} (h : toStruct fields init json = .ok s) :
    ∃ acc, (json.membersOf (fields.map (·.name))).foldlM (visit fields) ([], init) = .ok acc ∧
      missing? fields acc.1 = none ∧ acc.2 = s ∧ ((∃ members, json = obj members) ∨
        ∃ elements, json = arr elements ∧ elements.length ≤ fields.length) := by
  cases json with
  | obj members =>
    have ⟨acc, ha, h⟩ := Exec.bind_eq_ok.mp h
    split at h
    case h_1 => cases h
    case h_2 hm =>
      cases h
      exact ⟨acc, ha, hm, rfl, .inl ⟨members, rfl⟩⟩
  | arr elements =>
    have ⟨acc, ha, h⟩ := Exec.bind_eq_ok.mp h
    split at h
    case h_1 => cases h
    case h_2 hm =>
      have ⟨_, he, h⟩ := Exec.bind_eq_ok.mp h
      cases h
      exact ⟨acc, ha, hm, rfl, .inr ⟨elements, rfl, Nat.le_of_not_lt (Exec.errIf_eq_ok.mp he)⟩⟩
  | null | bool | num | str => cases h

-- What one member does.
theorem visit_cases {member : String × Json} (h : visit fields (seen, s) member = .ok (seen', s')) :
    (fields.find? (·.name = member.1) = none ∧ seen' = seen ∧ s' = s) ∨
    ∃ field, fields.find? (·.name = member.1) = some field ∧ member.1 ∉ seen ∧
      seen' = member.1 :: seen ∧ field.set member.2 s = .ok s' := by
  simp only [visit] at h
  split at h
  case h_1 hf =>
    cases h
    exact .inl ⟨hf, rfl, rfl⟩
  case h_2 field hf =>
    obtain ⟨_, he, h⟩ := Exec.bind_eq_ok.mp h
    obtain ⟨v, hv, h⟩ := Exec.bind_eq_ok.mp h
    cases h
    exact .inr ⟨field, hf, Exec.errIf_eq_ok.mp he, rfl, hv⟩

-- A field of the structure, and the part of the value that this field sets and no other one.
variable {field : Field σ} {get : σ → α} {f : Json → Exec DeError α}
variable (hfind : fields.find? (·.name = field.name) = some field)

include hfind

theorem mem_of_missing? (hr : field.required) (h : missing? fields seen = none) : field.name ∈ seen := by
  have hm := List.find?_eq_none.mp h field (List.mem_of_find?_eq_some hfind)
  simpa [hr] using hm

variable (hset : ∀ {json s s'}, field.set json s = .ok s' → f json = .ok (get s'))
variable (hkeep : ∀ other ∈ fields, other.name ≠ field.name → other.Keeps get)

include hset hkeep

-- The part comes from the one member with the field's name.
theorem foldlM_visit {members : List (String × Json)}
    (h : members.foldlM (visit fields) (seen, s) = .ok (seen', s')) :
    (field.name ∈ seen → field.name ∈ seen' ∧ get s' = get s) ∧
    (field.name ∉ seen → field.name ∈ seen' →
      ∃ json, members.lookup field.name = some json ∧ f json = .ok (get s')) := by
  induction members generalizing seen s with
  | nil =>
    cases h
    exact ⟨fun hm => ⟨hm, rfl⟩, fun hn hm => absurd hm hn⟩
  | cons member members hi =>
    rw [List.foldlM_cons] at h
    have ⟨⟨seen₁, s₁⟩, hv, hr⟩ := Exec.bind_eq_ok.mp h
    have ⟨h₁, h₂⟩ := hi hr
    rcases visit_cases hv with ⟨hf, rfl, rfl⟩ | ⟨other, hf, hn, rfl, hx⟩
    · have hne : field.name ≠ member.1 := fun he => by simp [← he, hfind] at hf
      refine ⟨h₁, fun hn hm => ?_⟩
      rw [List.lookup_cons, beq_false_of_ne hne]
      exact h₂ hn hm
    · by_cases he : member.1 = field.name
      case pos =>
        rw [he, hfind] at hf
        cases hf
        have ⟨hm, hg⟩ := h₁ (he ▸ List.mem_cons_self)
        refine ⟨fun hs => absurd hs (he ▸ hn), fun _ _ => ⟨member.2, ?_, hg ▸ hset hx⟩⟩
        rw [List.lookup_cons, he, beq_self_eq_true]
      case neg =>
        have hg := hkeep other (List.mem_of_find?_eq_some hf) (name_of_find? hf ▸ he) _ _ _ hx
        rw [List.lookup_cons, beq_false_of_ne (Ne.symm he)]
        refine ⟨fun hs => ?_, fun hs hm => h₂ (by simp [Ne.symm he, hs]) hm⟩
        have ⟨hm, hg'⟩ := h₁ (List.mem_cons_of_mem _ hs)
        exact ⟨hm, hg'.trans hg⟩

-- A required field is there, and says what its part of the structure is.
theorem exists_member_of_toStruct {init v : σ} {json : Json} (hr : field.required)
    (h : toStruct fields init json = .ok v) :
    ∃ value, json.member (fields.map (·.name)) field.name = some value ∧ f value = .ok (get v) := by
  obtain ⟨acc, ha, hn, rfl, _⟩ := exists_acc_of_toStruct h
  rw [member_eq_lookup]
  exact (foldlM_visit hfind hset hkeep ha).2 List.not_mem_nil (mem_of_missing? hfind hr hn)

omit hfind hset hkeep in
theorem exists_member_of_plain (get : σ → α) {name : String} {put : α → σ → σ} {init v : σ} {json : Json}
    (hfind : fields.find? (·.name = name) = some (.plain name f put)) (hget : ∀ a s, get (put a s) = a)
    (hkeep : ∀ other ∈ fields, other.name ≠ name → other.Keeps get) (h : toStruct fields init json = .ok v) :
    ∃ value, json.member (fields.map (·.name)) name = some value ∧ f value = .ok (get v) := by
  let field := Field.plain name f put
  have hfind : fields.find? (·.name = field.name) = some field := hfind
  exact exists_member_of_toStruct hfind (Field.plain_sets hget) hkeep rfl h

end

end Json
end Text
