import Latent.Core.Record

open Rust Text Text.Json

namespace Latent

section

variable {value : Json} {c : Confidence} {p : Provenance}

-- The two ways in which a JSON value names the level of intact records.
def NamesIntact (value : Json) : Prop :=
  value = .str "L0Intact" ∨ value = .obj [("L0Intact", .null)]

theorem Confidence.eq_l0Intact_iff (h : deserialize value = .ok c) : c = l0Intact ↔ NamesIntact value := by
  have ⟨name, hn, hv⟩ := exists_name_of_toVariant h
  have hc : c = l0Intact ↔ name = "L0Intact" := by
    simp only [List.lookup_cons, List.lookup_nil] at hn
    split at hn <;> grind
  rw [hc]
  constructor
  case mp =>
    rintro rfl
    exact hv
  case mpr => rintro (rfl | rfl) <;> simpa [eq_comm] using hv

end

namespace Provenance

variable {value : Json} {p : Provenance}

theorem exists_confidence (h : deserialize value = .ok p) :
    ∃ level, value.member (fields.map (·.name)) "confidence" = some level ∧
      Confidence.deserialize level = .ok p.confidence := by
  refine exists_member_of_plain confidence rfl (fun _ _ => rfl) ?_ h
  simp only [fields, List.forall_mem_cons]
  exact ⟨fun h => absurd rfl h, fun _ => .plain fun _ _ => rfl, fun _ => .plain fun _ _ => rfl,
    fun _ => .withDefault fun _ _ => rfl, fun _ => .withDefault fun _ _ => rfl,
    fun _ => .withDefault fun _ _ => rfl, fun _ => .withDefault fun _ _ => rfl,
    fun _ => .withDefault fun _ _ => rfl, fun _ => .plain fun _ _ => rfl, nofun⟩

theorem exists_reconstructed (h : deserialize value = .ok p) :
    ∃ flag, value.member (fields.map (·.name)) "reconstructed" = some flag ∧
      toBool flag = .ok p.reconstructed := by
  refine exists_member_of_plain reconstructed rfl (fun _ _ => rfl) ?_ h
  simp only [fields, List.forall_mem_cons]
  exact ⟨fun _ => .plain fun _ _ => rfl, fun _ => .plain fun _ _ => rfl, fun _ => .plain fun _ _ => rfl,
    fun _ => .withDefault fun _ _ => rfl, fun _ => .withDefault fun _ _ => rfl,
    fun _ => .withDefault fun _ _ => rfl, fun _ => .withDefault fun _ _ => rfl,
    fun _ => .withDefault fun _ _ => rfl, fun h => absurd rfl h, nofun⟩

end Provenance

namespace Record

section

variable [Rfc3339] {json : Json} {r : Record}

theorem exists_latent (h : deserialize json = .ok r) :
    ∃ latent, json.member (fields.map (·.name)) "latent" = some latent ∧
      Provenance.deserialize latent = .ok r.latent := by
  refine exists_member_of_plain latent rfl (fun _ _ => rfl) ?_ h
  simp only [fields, List.forall_mem_cons]
  exact ⟨fun _ => .withDefault fun _ _ => rfl, fun _ => .withDefault fun _ _ => rfl,
    fun _ => .withDefault fun _ _ => rfl, fun _ => .withDefault fun _ _ => rfl,
    fun _ => .withDefault fun _ _ => rfl, fun _ => .withDefault fun _ _ => rfl, fun h => absurd rfl h, nofun⟩

-- What a JSON value gives under `latent.name`.
def latentMember (json : Json) (name : String) : Option Json :=
  (json.member (fields.map (·.name)) "latent").bind (·.member (Provenance.fields.map (·.name)) name)

-- The flag is `true` exactly if the level is another one than that of intact records.
def FlagAgrees (json : Json) : Prop :=
  latentMember json "reconstructed" = some (.bool true) ↔
    ∀ level ∈ latentMember json "confidence", ¬NamesIntact level

theorem latentMember_eq {latent : Json} (h : json.member (fields.map (·.name)) "latent" = some latent)
    (name : String) : latentMember json name = latent.member (Provenance.fields.map (·.name)) name := by
  rw [latentMember, h, Option.bind_some]

theorem agrees_iff (h : deserialize json = .ok r) :
    (r.isReconstructed ↔ r.latent.confidence ≠ .l0Intact) ↔ FlagAgrees json := by
  have ⟨latent, hl, hd⟩ := exists_latent h
  have ⟨flag, hf, hb⟩ := Provenance.exists_reconstructed hd
  have ⟨level, hv, hc⟩ := Provenance.exists_confidence hd
  have hflag : flag = .bool r.latent.reconstructed := by
    cases flag with
    | bool b =>
      cases hb
      rfl
    | null | num | str | arr | obj => cases hb
  rw [FlagAgrees, latentMember_eq hl, latentMember_eq hl, hf, hv, hflag, isReconstructed, Ne,
    Confidence.eq_l0Intact_iff hc]
  simp

-- Records that are made by the constructors are flagged right. A record that is read back has the flag
-- that its text has, which need not be that of its level.
theorem reconstructed_iff :
    (∀ confidence method offset, (new (.new confidence method offset)).isReconstructed ↔
      (new (.new confidence method offset)).latent.confidence ≠ .l0Intact) ∧
    ∀ (parse : String → Except String Json) (text : String) (json : Json) (r : Record),
      parse text = .ok json → fromStr parse text = .ok r →
        ((r.isReconstructed ↔ r.latent.confidence ≠ .l0Intact) ↔ FlagAgrees json) := by
  refine ⟨fun confidence method offset => ?_, fun parse text json r hp h => ?_⟩
  · simp [isReconstructed, new, Provenance.new, Confidence.isReconstructed]
  · rw [fromStr, hp] at h
    exact agrees_iff h

end

-- A reader that knows one text: an L3 record whose flag says that it is intact.
def structuralText : String :=
  "\x7b\"latent\":\x7b\"confidence\":\"L3Structural\",\"method\":\"StructuralInference\"," ++
    "\"source_offset\":0,\"reconstructed\":false\x7d\x7d"

def structuralJson : Json :=
  .obj [("latent", .obj [
    ("confidence", .str "L3Structural"),
    ("method", .str "StructuralInference"),
    ("source_offset", .num (.u64 0)),
    ("reconstructed", .bool false)
  ])]

def readStructural (text : String) : Except String Json :=
  if text = structuralText then .ok structuralJson else .error "unknown text"

def structural : Record :=
  new { Provenance.new .l3Structural .structuralInference 0 with reconstructed := false }

@[reducible] def noDates : Rfc3339 where
  parse _  := .error "no date"
  format _ := none

attribute [local instance] noDates

theorem fromStr_structural : fromStr readStructural structuralText = .ok structural := by
  decide +kernel

theorem not_reconstructed_structural : fromStr readStructural structuralText = .ok structural ∧
    structural.latent.confidence = .l3Structural ∧ structural.isReconstructed = false ∧
      ¬(structural.isReconstructed ↔ structural.latent.confidence ≠ .l0Intact) := by
  exact ⟨fromStr_structural, rfl, rfl, by decide⟩

theorem reconstructed_iff_structural : ¬FlagAgrees structuralJson := by
  have h := reconstructed_iff.2 readStructural structuralText structuralJson structural (if_pos rfl)
    fromStr_structural
  rw [← h]
  decide

end Record
end Latent
