import Latent.Core.Confidence
import Latent.Core.Timestamp

open Rust Text Text.Json

namespace Latent

structure Provenance where
  confidence    : Confidence
  method        : Method
  sourceOffset  : UInt64
  sourceHash    : Option String
  templateId    : Option String
  rawSha256     : Option String
  recordId      : Option UInt64
  channel       : Option String
  reconstructed : Bool
  deriving DecidableEq, Repr

namespace Provenance

def new (confidence : Confidence) (method : Method) (sourceOffset : UInt64) : Provenance where
  confidence    := confidence
  method        := method
  sourceOffset  := sourceOffset
  sourceHash    := none
  templateId    := none
  rawSha256     := none
  recordId      := none
  channel       := none
  reconstructed := confidence.isReconstructed

def fields : List (Json.Field Provenance) := [
  .plain "confidence" Confidence.deserialize fun confidence p => { p with confidence },
  .plain "method" Method.deserialize fun method p => { p with method },
  .plain "source_offset" toU64 fun sourceOffset p => { p with sourceOffset },
  .withDefault "source_hash" (toOption toStr) fun sourceHash p => { p with sourceHash },
  .withDefault "template_id" (toOption toStr) fun templateId p => { p with templateId },
  .withDefault "raw_sha256" (toOption toStr) fun rawSha256 p => { p with rawSha256 },
  .withDefault "record_id" (toOption toU64) fun recordId p => { p with recordId },
  .withDefault "channel" (toOption toStr) fun channel p => { p with channel },
  .plain "reconstructed" toBool fun reconstructed p => { p with reconstructed }
]

-- The value to start from has nothing left of it but the absent optional fields.
def deserialize : Json → Exec DeError Provenance :=
  toStruct fields (new .l0Intact .localTemplate 0)

end Provenance

structure Record.Event where
  code     : Option String := none
  provider : Option String := none
  action   : Option String := none
  category : Option String := none
  outcome  : Option String := none
  deriving DecidableEq, Repr

structure Record.Host where
  name : Option String := none
  id   : Option String := none
  deriving DecidableEq, Repr

structure Record.User where
  name   : Option String := none
  id     : Option String := none
  domain : Option String := none
  deriving DecidableEq, Repr

structure Record.Process where
  pid        : Option Int64 := none
  name       : Option String := none
  executable : Option String := none
  deriving DecidableEq, Repr

structure Record.Source where
  ip   : Option String := none
  port : Option UInt16 := none
  user : Option String := none
  deriving DecidableEq, Repr

structure Record where
  timestamp : Option Timestamp
  event     : Record.Event
  host      : Record.Host
  user      : Record.User
  process   : Record.Process
  source    : Record.Source
  latent    : Provenance
  deriving DecidableEq, Repr

namespace Record

def Event.deserialize : Json → Exec DeError Event :=
  toStruct [
    .withDefault "code" (toOption toStr) fun code e => { e with code },
    .withDefault "provider" (toOption toStr) fun provider e => { e with provider },
    .withDefault "action" (toOption toStr) fun action e => { e with action },
    .withDefault "category" (toOption toStr) fun category e => { e with category },
    .withDefault "outcome" (toOption toStr) fun outcome e => { e with outcome }
  ] {}

def Host.deserialize : Json → Exec DeError Host :=
  toStruct [
    .withDefault "name" (toOption toStr) fun name h => { h with name },
    .withDefault "id" (toOption toStr) fun id h => { h with id }
  ] {}

def User.deserialize : Json → Exec DeError User :=
  toStruct [
    .withDefault "name" (toOption toStr) fun name u => { u with name },
    .withDefault "id" (toOption toStr) fun id u => { u with id },
    .withDefault "domain" (toOption toStr) fun domain u => { u with domain }
  ] {}

def Process.deserialize : Json → Exec DeError Process :=
  toStruct [
    .withDefault "pid" (toOption toI64) fun pid p => { p with pid },
    .withDefault "name" (toOption toStr) fun name p => { p with name },
    .withDefault "executable" (toOption toStr) fun executable p => { p with executable }
  ] {}

def Source.deserialize : Json → Exec DeError Source :=
  toStruct [
    .withDefault "ip" (toOption toStr) fun ip s => { s with ip },
    .withDefault "port" (toOption toU16) fun port s => { s with port },
    .withDefault "user" (toOption toStr) fun user s => { s with user }
  ] {}

def new (latent : Provenance) : Record where
  timestamp := none
  event     := {}
  host      := {}
  user      := {}
  process   := {}
  source    := {}
  latent    := latent

def isReconstructed (r : Record) : Bool :=
  r.latent.reconstructed

section

variable [Rfc3339]

def fields : List (Json.Field Record) := [
  .withDefault "@timestamp" (toOption Timestamp.deserialize) fun timestamp r => { r with timestamp },
  .withDefault "event" Event.deserialize fun event r => { r with event },
  .withDefault "host" Host.deserialize fun host r => { r with host },
  .withDefault "user" User.deserialize fun user r => { r with user },
  .withDefault "process" Process.deserialize fun process r => { r with process },
  .withDefault "source" Source.deserialize fun source r => { r with source },
  .plain "latent" Provenance.deserialize fun latent r => { r with latent }
]

def deserialize : Json → Exec DeError Record :=
  toStruct fields (new (.new .l0Intact .localTemplate 0))

-- `serde_json::from_str`, over a reader of JSON texts.
def fromStr (parse : String → Except String Json) (text : String) : Exec DeError Record :=
  match parse text with
  | .ok json   => deserialize json
  | .error msg => .err (.custom msg)

end

end Record
end Latent
