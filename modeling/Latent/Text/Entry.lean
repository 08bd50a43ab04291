import Latent.Text.Json
import Mathlib.Data.List.Nodup

open Rust

namespace Text
namespace Json

variable {α β σ : Type}

def ofBool (b : Bool) : Option Json :=
  some (bool b)

def ofStr (s : String) : Option Json :=
  some (str s)

def ofU64 (n : UInt64) : Option Json :=
  some (num (.u64 n))

-- An integer that is not negative is kept as an unsigned one.
def ofI64 (n : Int64) : Option Json :=
  some (num (if 0 ≤ n then .u64 n.toUInt64 else .i64 n))

def ofU16 (n : UInt16) : Option Json :=
  some (num (.u64 n.toUInt64))

def ofOption (f : α → Option Json) : Option α → Option Json
  | none   => some null
  | some a => f a

-- A value that is written, as something else than `null`, and is what the reader makes of that.
def RoundTrips (read : Json → Exec DeError α) (write : α → Option Json) (a : α) : Prop :=
  ∃ json, write a = some json ∧ json ≠ null ∧ read json = .ok a

namespace RoundTrips

theorem bool (b : Bool) : RoundTrips toBool ofBool b :=
  ⟨_, rfl, nofun, rfl⟩

theorem str (s : String) : RoundTrips toStr ofStr s :=
  ⟨_, rfl, nofun, rfl⟩

theorem u64 (n : UInt64) : RoundTrips toU64 ofU64 n :=
  ⟨_, rfl, nofun, rfl⟩

theorem i64 (n : Int64) : RoundTrips toI64 ofI64 n := by
  refine ⟨_, rfl, nofun, ?_⟩
  by_cases h : 0 ≤ n
  case pos =>
    have hn : n.toUInt64.toNat < 2 ^ 63 := by
      have := n.toInt_lt
      rw [Int64.toNat_toUInt64_of_le h, Int64.toNatClampNeg]
      omega
    rw [if_pos h, toI64, if_pos hn, Int64.toInt64_toUInt64]
  case neg => rw [if_neg h, toI64]

theorem u16 (n : UInt16) : RoundTrips toU16 ofU16 n := by
  refine ⟨_, rfl, nofun, ?_⟩
  have h : n.toUInt64.toNat < 2 ^ 16 := by
    rw [UInt16.toNat_toUInt64]
    exact n.toNat_lt
  rw [toU16, if_pos h, UInt16.toUInt16_toUInt64]

theorem option {read : Json → Exec DeError α} {write : α → Option Json} {a : α} (h : RoundTrips read write a) :
    RoundTrips (toOption read) (ofOption write) (some a) := by
  have ⟨json, hw, hn, hr⟩ := h
  refine ⟨json, hw, hn, ?_⟩
  rw [toOption.eq_def]
  split
  case h_1 => exact absurd rfl hn
  case h_2 => rw [hr, Exec.ok_bind]

end RoundTrips

-- A field of a derived `Serialize`: what its value is written as, or `some none` if
-- `skip_serializing_if` passes over it.
structure Entry (σ : Type) where
  name  : String
  write : σ → Option (Option Json)

namespace Entry

def plain (name : String) (f : α → Option Json) (get : σ → α) : Entry σ where
  name    := name
  write s := (f (get s)).map some

def skipIf (skip : α → Bool) (name : String) (f : α → Option Json) (get : σ → α) : Entry σ where
  name    := name
  write s := if skip (get s) then some none else (f (get s)).map some

variable {name : String} {f : α → Option Json} {get : σ → α} {skip : α → Bool} {s : σ}

theorem plain_write_ne : (plain name f get).write s ≠ some none := by
  cases h : f (get s) <;> simp [plain, h]

theorem skipIf_write_eq : (skipIf skip name f get).write s = some none ↔ skip (get s) = true := by
  cases hs : skip (get s)
  case true  => simp [skipIf, hs]
  case false => cases h : f (get s) <;> simp [skipIf, hs, h]

end Entry

def members (s : σ) : List (Entry σ) → Option (List (String × Json))
  | []               => some []
  | entry :: entries => do
    match ← entry.write s with
    | some json => some ((entry.name, json) :: (← members s entries))
    | none      => members s entries

-- A derived `Serialize` of a structure writes an object with the fields in their order.
def ofStruct (entries : List (Entry σ)) (s : σ) : Option Json := do
  some (obj (← members s entries))

-- What the fields read of what the entries write of a value leads from another value to that value.
inductive Restores (s : σ) : List (Field σ) → List (Entry σ) → σ → Prop
  | nil : Restores s [] [] s
  | skipped {field entry fields entries t} (hw : entry.write s = some none) (hr : ¬field.required)
    (h : Restores s fields entries t) : Restores s (field :: fields) (entry :: entries) t
  | written {field entry fields entries t json t'} (hn : entry.name = field.name)
    (hw : entry.write s = some (some json)) (hs : field.set json t = .ok t')
    (h : Restores s fields entries t') : Restores s (field :: fields) (entry :: entries) t

section

variable {fields all : List (Field σ)} {entry : Entry σ} {entries : List (Entry σ)} {s t : σ}

theorem members_skipped (h : entry.write s = some none) :
    members s (entry :: entries) = members s entries := by
  rw [members, h]
  rfl

theorem members_written {json : Json} {ms : List (String × Json)} (h : entry.write s = some (some json))
    (hm : members s entries = some ms) : members s (entry :: entries) = some ((entry.name, json) :: ms) := by
  rw [members, h]
  simp [hm]

theorem exists_write_of_members {ms : List (String × Json)} (h : members s entries = some ms)
    (he : entry ∈ entries) : ∃ written, entry.write s = some written := by
  induction entries generalizing ms with
  | nil => cases he
  | cons other entries hi =>
    rw [members] at h
    obtain ⟨written, hw, h⟩ := Option.bind_eq_some_iff.mp h
    rcases List.mem_cons.mp he with rfl | he
    · exact ⟨written, hw⟩
    · cases written with
      | none => exact hi h he
      | some json =>
        obtain ⟨rest, hr, _⟩ := Option.bind_eq_some_iff.mp h
        exact hi hr he

-- The keys of the object are the names of the fields that are not passed over.
theorem mem_keys {ms : List (String × Json)} (h : members s entries = some ms) {key : String} :
    key ∈ ms.map Prod.fst ↔ ∃ entry ∈ entries, entry.name = key ∧ entry.write s ≠ some none := by
  induction entries generalizing ms with
  | nil =>
    cases h
    simp
  | cons entry entries hi =>
    rw [members] at h
    obtain ⟨written, hw, h⟩ := Option.bind_eq_some_iff.mp h
    cases written with
    | none =>
      rw [hi h]
      simp [hw]
    | some json =>
      obtain ⟨rest, hr, h⟩ := Option.bind_eq_some_iff.mp h
      cases h
      rw [List.map_cons, List.mem_cons, hi hr]
      simp [hw, eq_comm]

theorem name_mem_keys {ms : List (String × Json)} (h : members s entries = some ms)
    (hnd : (entries.map (·.name)).Nodup) (he : entry ∈ entries) :
    entry.name ∈ ms.map Prod.fst ↔ entry.write s ≠ some none := by
  rw [mem_keys h]
  constructor
  case mp =>
    rintro ⟨other, ho, hn, hw⟩
    cases List.inj_on_of_nodup_map hnd ho he hn
    exact hw
  case mpr => exact fun hw => ⟨entry, he, rfl, hw⟩

theorem find?_name (hnd : (fields.map (·.name)).Nodup) :
    ∀ field ∈ fields, fields.find? (·.name = field.name) = some field := by
  induction fields with
  | nil => nofun
  | cons field fields hi =>
    rw [List.map_cons, List.nodup_cons] at hnd
    refine List.forall_mem_cons.mpr ⟨List.find?_cons_of_pos (by simp), fun other ho => ?_⟩
    have hne : field.name ≠ other.name := fun he => hnd.1 (he ▸ List.mem_map_of_mem ho)
    rw [List.find?_cons_of_neg (by simpa using hne)]
    exact hi hnd.2 other ho

namespace Restores

-- The members come in the order of the fields, each of them for the first time.
theorem foldlM_visit (h : Restores s fields entries t) {seen : List String}
    (hfind : ∀ field ∈ fields, all.find? (·.name = field.name) = some field)
    (hnd : (fields.map (·.name)).Nodup) (hseen : ∀ field ∈ fields, field.name ∉ seen) :
    ∃ ms seen', members s entries = some ms ∧ ms.foldlM (visit all) (seen, t) = .ok (seen', s) ∧
      seen ⊆ seen' ∧ ∀ field ∈ fields, field.required → field.name ∈ seen' := by
  induction h generalizing seen with
  | nil => exact ⟨[], seen, rfl, rfl, List.Subset.refl _, nofun⟩
  | skipped hw hr _ hi =>
    rw [List.map_cons, List.nodup_cons] at hnd
    rw [List.forall_mem_cons] at hfind hseen
    have ⟨ms, seen', hm, hv, hsub, hreq⟩ := hi hfind.2 hnd.2 hseen.2
    refine ⟨ms, seen', (members_skipped hw).trans hm, hv, hsub, List.forall_mem_cons.mpr ⟨?_, hreq⟩⟩
    exact fun h => absurd h hr
  | @written field entry fields entries t json t' hn hw hs _ hi =>
    rw [List.map_cons, List.nodup_cons] at hnd
    rw [List.forall_mem_cons] at hfind hseen
    have hseen' : ∀ other ∈ fields, other.name ∉ field.name :: seen := by
      intro other ho
      have hne : other.name ≠ field.name := fun he => hnd.1 (he ▸ List.mem_map_of_mem ho)
      simp [hne, hseen.2 other ho]
    have ⟨ms, seen', hm, hv, hsub, hreq⟩ := hi hfind.2 hnd.2 hseen'
    have hvisit : visit all (seen, t) (field.name, json) = .ok (field.name :: seen, t') := by
      simp only [visit, hfind.1, Exec.errIf_neg hseen.1, hs, Exec.ok_bind]
    refine ⟨_, seen', members_written hw hm, ?_, ?_, List.forall_mem_cons.mpr ⟨fun _ => ?_, hreq⟩⟩
    · rw [List.foldlM_cons, hn, hvisit]
      exact hv
    · exact fun name h => hsub (List.mem_cons_of_mem _ h)
    · exact hsub List.mem_cons_self

theorem exists_members (h : Restores s fields entries t) (hnd : (fields.map (·.name)).Nodup) :
    ∃ ms, members s entries = some ms ∧ toStruct fields t (obj ms) = .ok s := by
  have ⟨ms, seen, hm, hv, _, hreq⟩ := h.foldlM_visit (find?_name hnd) hnd fun _ _ => List.not_mem_nil
  have hmiss : missing? fields seen = none := by
    refine List.find?_eq_none.mpr fun field hf => ?_
    simpa using hreq field hf
  refine ⟨ms, hm, ?_⟩
  rw [toStruct, hv, Exec.ok_bind, hmiss]

theorem roundTrips (h : Restores s fields entries t) (hnd : (fields.map (·.name)).Nodup) :
    RoundTrips (toStruct fields t) (ofStruct entries) s := by
  have ⟨ms, hm, hs⟩ := h.exists_members hnd
  refine ⟨obj ms, ?_, nofun, hs⟩
  rw [ofStruct, hm]
  rfl

variable {name : String} {read : Json → Exec DeError α} {write : α → Option Json}
variable {get : σ → α} {put : α → σ → σ}

theorem plain (h : RoundTrips read write (get s)) (hr : Restores s fields entries (put (get s) t)) :
    Restores s (.plain name read put :: fields) (.plain name write get :: entries) t := by
  have ⟨json, hw, _, hd⟩ := h
  refine .written rfl (show Option.map some (write (get s)) = some (some json) by rw [hw]; rfl) ?_ hr
  simp only [Field.plain, hd, Exec.ok_bind]

-- A field that is passed over is the one of the value to start from.
theorem skipIf {skip : α → Bool} (h : skip (get s) = false → RoundTrips read write (get s))
    (he : skip (get s) = true → get s = get t) (hp : put (get t) t = t)
    (hr : Restores s fields entries (put (get s) t)) :
    Restores s (.withDefault name read put :: fields) (.skipIf skip name write get :: entries) t := by
  cases hs : skip (get s) with
  | true =>
    rw [he hs, hp] at hr
    exact .skipped (if_pos hs) Bool.false_ne_true hr
  | false =>
    have ⟨json, hw, _, hd⟩ := h hs
    refine .written rfl (show (if skip (get s) then _ else _) = some (some json) by rw [hs, hw]; rfl) ?_ hr
    simp only [Field.withDefault, hd, Exec.ok_bind]

theorem optional {get : σ → Option α} {put : Option α → σ → σ}
    (h : ∀ a ∈ get s, RoundTrips read write a) (hn : get t = none) (hp : put (get t) t = t)
    (hr : Restores s fields entries (put (get s) t)) :
    Restores s (.withDefault name (toOption read) put :: fields)
      (.skipIf Option.isNone name (ofOption write) get :: entries) t := by
  refine skipIf (fun hs => ?_) (fun hs => ?_) hp hr
  · obtain ⟨a, ha⟩ := Option.isSome_iff_exists.mp (by simpa using hs)
    rw [ha]
    exact (h a ha).option
  · rw [hn, Option.isNone_iff_eq_none.mp hs]

end Restores

end

end Json
end Text
