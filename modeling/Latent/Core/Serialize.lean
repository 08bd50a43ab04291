import Latent.Core.Record
import Latent.Core.Rfc3339
import Latent.Text.Entry

open Rust Text Text.Json

namespace Latent

def Confidence.serialize : Confidence → Option Json
  | l0Intact         => ofStr "L0Intact"
  | l1LocalTemplate  => ofStr "L1LocalTemplate"
  | l2ExternalCorpus => ofStr "L2ExternalCorpus"
  | l3Structural     => ofStr "L3Structural"
  | l4Raw            => ofStr "L4Raw"

theorem Confidence.roundTrips (c : Confidence) : RoundTrips deserialize serialize c := by
  cases c <;> exact ⟨_, rfl, nofun, by decide⟩

def Method.serialize : Method → Option Json
  | localTemplate       => ofStr "LocalTemplate"
  | sameSource          => ofStr "SameSource"
  | externalCorpus      => ofStr "ExternalCorpus"
  | structuralInference => ofStr "StructuralInference"
  | rawOnly             => ofStr "RawOnly"

theorem Method.roundTrips (m : Method) : RoundTrips deserialize serialize m := by
  cases m <;> exact ⟨_, rfl, nofun, by decide⟩

namespace Timestamp

-- A clock that shows UTC is not shifted.
theorem new_when {ε : Type} (t : Timestamp) : (new t.when : Exec ε Timestamp) = .ok t := by
  obtain ⟨⟨clock, offset, hs⟩, hu⟩ := t
  cases hu
  simp [new, hs]

variable [Rfc3339]

def serialize (t : Timestamp) : Option Json :=
  (Rfc3339.format t.when).map .str

theorem roundTrips [Rfc3339.Lawful] {t : Timestamp} (h : InYears t.when.clock) :
    RoundTrips deserialize serialize t := by
  obtain ⟨text, ht⟩ := Option.isSome_iff_exists.mp ((Rfc3339.Lawful.isSome_format t.utc).mpr h)
  refine ⟨.str text, ?_, nofun, ?_⟩
  · rw [serialize, ht]
    rfl
  · simp only [deserialize, toStr, Exec.ok_bind, Rfc3339.Lawful.parse_format t.utc ht, new_when]

end Timestamp

def Provenance.serialize : Provenance → Option Json :=
  ofStruct [
    .plain "confidence" Confidence.serialize confidence,
    .plain "method" Method.serialize method,
    .plain "source_offset" ofU64 sourceOffset,
    .skipIf Option.isNone "source_hash" (ofOption ofStr) sourceHash,
    .skipIf Option.isNone "template_id" (ofOption ofStr) templateId,
    .skipIf Option.isNone "raw_sha256" (ofOption ofStr) rawSha256,
    .skipIf Option.isNone "record_id" (ofOption ofU64) recordId,
    .skipIf Option.isNone "channel" (ofOption ofStr) channel,
    .plain "reconstructed" ofBool reconstructed
  ]

theorem Provenance.roundTrips (p : Provenance) : RoundTrips deserialize serialize p := by
  refine Restores.roundTrips ?_ (by decide)
  exact .plain p.confidence.roundTrips <| .plain p.method.roundTrips <| .plain (.u64 _) <|
    .optional (fun _ _ => .str _) rfl rfl <| .optional (fun _ _ => .str _) rfl rfl <|
    .optional (fun _ _ => .str _) rfl rfl <| .optional (fun _ _ => .u64 _) rfl rfl <|
    .optional (fun _ _ => .str _) rfl rfl <| .plain (.bool _) .nil

namespace Record

instance : Inhabited Event   := ⟨{}⟩
instance : Inhabited Host    := ⟨{}⟩
instance : Inhabited User    := ⟨{}⟩
instance : Inhabited Process := ⟨{}⟩
instance : Inhabited Source  := ⟨{}⟩

def isDefault {α : Type} [Inhabited α] [DecidableEq α] (value : α) : Bool :=
  value = default

def Event.serialize : Event → Option Json :=
  ofStruct [
    .skipIf Option.isNone "code" (ofOption ofStr) code,
    .skipIf Option.isNone "provider" (ofOption ofStr) provider,
    .skipIf Option.isNone "action" (ofOption ofStr) action,
    .skipIf Option.isNone "category" (ofOption ofStr) category,
    .skipIf Option.isNone "outcome" (ofOption ofStr) outcome
  ]

def Host.serialize : Host → Option Json :=
  ofStruct [
    .skipIf Option.isNone "name" (ofOption ofStr) name,
    .skipIf Option.isNone "id" (ofOption ofStr) id
  ]

def User.serialize : User → Option Json :=
  ofStruct [
    .skipIf Option.isNone "name" (ofOption ofStr) name,
    .skipIf Option.isNone "id" (ofOption ofStr) id,
    .skipIf Option.isNone "domain" (ofOption ofStr) domain
  ]

def Process.serialize : Process → Option Json :=
  ofStruct [
    .skipIf Option.isNone "pid" (ofOption ofI64) pid,
    .skipIf Option.isNone "name" (ofOption ofStr) name,
    .skipIf Option.isNone "executable" (ofOption ofStr) executable
  ]

def Source.serialize : Source → Option Json :=
  ofStruct [
    .skipIf Option.isNone "ip" (ofOption ofStr) ip,
    .skipIf Option.isNone "port" (ofOption ofU16) port,
    .skipIf Option.isNone "user" (ofOption ofStr) user
  ]

theorem Event.roundTrips (e : Event) : RoundTrips deserialize serialize e := by
  refine Restores.roundTrips ?_ (by decide)
  exact .optional (fun _ _ => .str _) rfl rfl <| .optional (fun _ _ => .str _) rfl rfl <|
    .optional (fun _ _ => .str _) rfl rfl <| .optional (fun _ _ => .str _) rfl rfl <|
    .optional (fun _ _ => .str _) rfl rfl .nil

theorem Host.roundTrips (h : Host) : RoundTrips deserialize serialize h := by
  refine Restores.roundTrips ?_ (by decide)
  exact .optional (fun _ _ => .str _) rfl rfl <| .optional (fun _ _ => .str _) rfl rfl .nil

theorem User.roundTrips (u : User) : RoundTrips deserialize serialize u := by
  refine Restores.roundTrips ?_ (by decide)
  exact .optional (fun _ _ => .str _) rfl rfl <| .optional (fun _ _ => .str _) rfl rfl <|
    .optional (fun _ _ => .str _) rfl rfl .nil

theorem Process.roundTrips (p : Process) : RoundTrips deserialize serialize p := by
  refine Restores.roundTrips ?_ (by decide)
  exact .optional (fun _ _ => .i64 _) rfl rfl <| .optional (fun _ _ => .str _) rfl rfl <|
    .optional (fun _ _ => .str _) rfl rfl .nil

theorem Source.roundTrips (s : Source) : RoundTrips deserialize serialize s := by
  refine Restores.roundTrips ?_ (by decide)
  exact .optional (fun _ _ => .str _) rfl rfl <| .optional (fun _ _ => .u16 _) rfl rfl <|
    .optional (fun _ _ => .str _) rfl rfl .nil

section

variable [Rfc3339]

def entries : List (Entry Record) := [
  .skipIf Option.isNone "@timestamp" (ofOption Timestamp.serialize) timestamp,
  .skipIf isDefault "event" Event.serialize event,
  .skipIf isDefault "host" Host.serialize host,
  .skipIf isDefault "user" User.serialize user,
  .skipIf isDefault "process" Process.serialize process,
  .skipIf isDefault "source" Source.serialize source,
  .plain "latent" Provenance.serialize latent
]

def serialize : Record → Option Json :=
  ofStruct entries

theorem map_name_fields : fields.map (·.name) =
    ["@timestamp", "event", "host", "user", "process", "source", "latent"] :=
  rfl

theorem nodup_fields : (fields.map (·.name)).Nodup := by
  rw [map_name_fields]
  decide

theorem map_name_entries : entries.map (·.name) = fields.map (·.name) :=
  rfl

theorem restores [Rfc3339.Lawful] {r : Record} (h : ∀ t ∈ r.timestamp, InYears t.when.clock) :
    Restores r fields entries (new (.new .l0Intact .localTemplate 0)) := by
  have hd : ∀ {α : Type} [Inhabited α] [DecidableEq α] {value : α}, isDefault value = true → value = default :=
    of_decide_eq_true
  exact .optional (fun t ht => t.roundTrips (h t ht)) rfl rfl <|
    .skipIf (fun _ => r.event.roundTrips) hd rfl <| .skipIf (fun _ => r.host.roundTrips) hd rfl <|
    .skipIf (fun _ => r.user.roundTrips) hd rfl <| .skipIf (fun _ => r.process.roundTrips) hd rfl <|
    .skipIf (fun _ => r.source.roundTrips) hd rfl <| .plain r.latent.roundTrips .nil

-- A group is missing in the object exactly if `skip_serializing_if` passes over it.
theorem group_not_mem_keys {α : Type} [Inhabited α] [DecidableEq α] {name : String} {get : Record → α}
    (write : α → Option Json) {r : Record} {ms : List (String × Json)} (hm : members r entries = some ms)
    (he : .skipIf isDefault name write get ∈ entries) : name ∉ ms.map Prod.fst ↔ get r = default := by
  have hn : name ∈ ms.map Prod.fst ↔ _ := name_mem_keys hm (map_name_entries ▸ nodup_fields) he
  rw [hn, Ne, Entry.skipIf_write_eq, Classical.not_not, isDefault, decide_eq_true_iff]

-- Writing a record and reading it back gives the record, whichever of its fields are there.
theorem deserialize_serialize [Rfc3339.Lawful] (r : Record) (h : ∀ t ∈ r.timestamp, InYears t.when.clock) :
    ∃ ms, serialize r = some (.obj ms) ∧ deserialize (.obj ms) = .ok r ∧
      ("event" ∉ ms.map Prod.fst ↔
        r.event = { code := none, provider := none, action := none, category := none, outcome := none }) ∧
      ("host" ∉ ms.map Prod.fst ↔ r.host = { name := none, id := none }) ∧
      ("user" ∉ ms.map Prod.fst ↔ r.user = { name := none, id := none, domain := none }) ∧
      ("process" ∉ ms.map Prod.fst ↔ r.process = { pid := none, name := none, executable := none }) ∧
      ("source" ∉ ms.map Prod.fst ↔ r.source = { ip := none, port := none, user := none }) ∧
      "latent" ∈ ms.map Prod.fst := by
  have ⟨ms, hm, hd⟩ := (restores h).exists_members nodup_fields
  have hs : serialize r = some (.obj ms) := by
    rw [serialize, ofStruct, hm]
    rfl
  have he : .plain "latent" Provenance.serialize latent ∈ entries := by simp [entries]
  have hl : "latent" ∈ ms.map Prod.fst ↔ _ := name_mem_keys hm (map_name_entries ▸ nodup_fields) he
  exact ⟨ms, hs, hd, group_not_mem_keys Event.serialize hm (by simp [entries]),
    group_not_mem_keys Host.serialize hm (by simp [entries]),
    group_not_mem_keys User.serialize hm (by simp [entries]),
    group_not_mem_keys Process.serialize hm (by simp [entries]),
    group_not_mem_keys Source.serialize hm (by simp [entries]), hl.mpr Entry.plain_write_ne⟩

end

attribute [local instance] Rfc3339.standard

-- Half past noon of the first of March 2024.
def springNoon : Timestamp where
  when := { clock := 63876515400 * 10 ^ 9, offset := 0, supported := by decide }
  utc  := rfl

example : Rfc3339.format springNoon.when = some "2024-03-01T12:30:00Z" := by
  decide +kernel

-- A record with fields in some of its groups, one of which is there but empty.
def logon : Record where
  timestamp := some springNoon
  event     := { code := some "4624", provider := some "Microsoft-Windows-Security-Auditing" }
  host      := { name := some "dc01" }
  user      := { name := some "" }
  process   := { pid := some (-1) }
  source    := {}
  latent    := { Provenance.new .l1LocalTemplate .sameSource 4096 with recordId := some 918273 }

theorem deserialize_serialize_logon : ∃ ms,
    serialize logon = some (.obj ms) ∧ deserialize (.obj ms) = .ok logon ∧
    "user" ∈ ms.map Prod.fst ∧ "source" ∉ ms.map Prod.fst := by
  have hy : ∀ t ∈ logon.timestamp, InYears t.when.clock := by
    rintro _ ⟨⟩
    decide
  obtain ⟨ms, hs, hd, _, _, hu, _, hsrc, _⟩ := deserialize_serialize logon hy
  have hne : logon.user ≠ { name := none, id := none, domain := none } := by decide
  exact ⟨ms, hs, hd, Classical.not_not.mp fun hn => hne (hu.mp hn), hsrc.mpr rfl⟩

end Record
end Latent
