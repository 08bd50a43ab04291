import Latent.Core.Hash
import Latent.Rust.BufWriter
import Latent.Rust.Interleaving
import Latent.Text.Json

open Rust Text

namespace Latent

-- The fields of a line, in the order of their names.
abbrev Fields := List (String × Json)

def Fields.insert (key : String) (value : Json) : Fields → Fields
  | []                 => [(key, value)]
  | (k, v) :: fields =>
    if key < k then (key, value) :: (k, v) :: fields
    else if key = k then (key, value) :: fields
    else (k, v) :: Fields.insert key value fields

def Fields.of (fields : Fields) : Fields :=
  fields.foldl (fun v (name, value) => Fields.insert name value v) []

-- `serde_json::to_string` of an object, which escapes control characters.
class SerdeJson where
  toBytes   : Fields → Option Bytes
  noNewline : ∀ fields bytes, toBytes fields = some bytes → 0x0A ∉ bytes

def AUDIT_TARGET : String :=
  "latent::audit"

def AUDIT_FILE_NAME : String :=
  "audit.jsonl"

inductive AuditError (ε : Type)
  | «open» (path : String) (source : ε)
  | write (source : ε)
  | alreadyInstalled
  deriving DecidableEq, Repr

structure AuditDigest where
  sha256 : List Char
  bytes  : ℕ
  deriving DecidableEq, Repr

-- What is behind the mutex of the writer and all of its clones.
structure AuditWriter (ε : Type) where
  file : BufWriter UInt8
  err  : Option ε := none

-- An event with what it records, and the time at which its line is made, if that can be written.
structure Event where
  target : String
  fields : Fields
  now    : Option String

structure AuditLog (ε : Type) where
  writer : AuditWriter ε
  path   : String

def Fields.stamp (now : Option String) (fields : Fields) : Fields :=
  match now with
  | some ts => Fields.insert "ts" (.str ts) fields
  | none    => fields

-- The text of a line.
def line [SerdeJson] (now : Option String) (fields : Fields) : Bytes :=
  (SerdeJson.toBytes (fields.stamp now)).getD [0x7B, 0x7D]

-- What the visitor makes of an event, as a line.
def Event.line [SerdeJson] (event : Event) : Bytes :=
  Latent.line event.now (Fields.of event.fields)

inductive HashPhase
  | «open»
  | close
  deriving DecidableEq, Repr

def HashPhase.asStr : HashPhase → String
  | «open» => "open"
  | close  => "close"

namespace Audit

def sourceOpen (path : String) (size : UInt64) (now : Option String) : Event where
  target := AUDIT_TARGET
  fields := [("kind", .str "source_open"), ("path", .str path), ("size", .num (.u64 size))]
  now

def sourceHash (phase : HashPhase) (algorithm digest : String) (now : Option String) : Event where
  target := AUDIT_TARGET
  fields := [("kind", .str "source_hash"), ("phase", .str phase.asStr), ("algorithm", .str algorithm),
    ("digest", .str digest)]
  now

def phase (name : String) (now : Option String) : Event where
  target := AUDIT_TARGET
  fields := [("kind", .str "phase"), ("name", .str name)]
  now

def sourceClose (path : String) (now : Option String) : Event where
  target := AUDIT_TARGET
  fields := [("kind", .str "source_close"), ("path", .str path)]
  now

end Audit

namespace AuditWriter

variable {ε : Type}

def create (path : String) (opened : Except ε Bytes) : Exec (AuditError ε) (AuditWriter ε) :=
  match opened with
  | .error source => .err (.open path source)
  | .ok bytes     => .ok { file := { inner := { bytes } } }

def line (dev : Device ε) (g : AuditWriter ε) (line : Bytes) : AuditWriter ε :=
  if g.err.isSome then
    g
  else
    match g.file.writeAll dev line with
    | (file, .error e) => { file, err := some e }
    | (file, .ok ())   =>
      match file.writeAll dev [0x0A] with
      | (file, .error e) => { file, err := some e }
      | (file, .ok ())   => { g with file }

def flush (dev : Device ε) (g : AuditWriter ε) : AuditWriter ε × Except ε Unit :=
  let (file, r) := g.file.flush dev
  ({ g with file }, r)

def takeErr (g : AuditWriter ε) : AuditWriter ε × Option ε :=
  ({ g with err := none }, g.err)

variable [SerdeJson]

def onEvent (dev : Device ε) (g : AuditWriter ε) (event : Event) : AuditWriter ε :=
  g.line dev event.line

-- The layer has a filter on the target.
def deliver (dev : Device ε) (g : AuditWriter ε) (event : Event) : AuditWriter ε :=
  if event.target = AUDIT_TARGET then g.onEvent dev event else g

end AuditWriter

-- A file that is opened for reading. Nobody else writes to it, so its reads go through the bytes that
-- are in it, and the first one that returns nothing is at their end.
structure Reopened (ε : Type) (content : Bytes) where
  State  : Type
  reader : Reader State ε UInt8
  opened : Except ε State
  len    : Except ε ℕ
  len_eq : ∀ n, len = .ok n → n = content.length
  reads  : ∀ s l s', opened = .ok s → reader.Steps (64 * 1024) s l s' →
    l <+: content ∧ (reader.Ends (64 * 1024) s' → l = content)

namespace AuditLog

variable {ε : Type} [SerdeJson]

def runStart (now : Option String) (version command : String) : Bytes :=
  line now <| Fields.of [("kind", .str "run_start"), ("version", .str version), ("command", .str command)]

def runEnd (now : Option String) : Bytes :=
  line now <| Fields.of [("kind", .str "run_end")]

def build (dev : Device ε) (outputDir : String) (created : Except ε Unit) (opened : Except ε Bytes)
    (now : Option String) (version command : String) : Exec (AuditError ε) (AuditLog ε) :=
  match created with
  | .error source => .err (.open outputDir source)
  | .ok ()        => do
    let path := s!"{outputDir}/{AUDIT_FILE_NAME}"
    let writer ← AuditWriter.create path opened
    let writer := writer.line dev (runStart now version command)
    .ok { writer, path }

variable [Sha256]

def digest {content : Bytes} (path : String) (file : Reopened ε content) (fuel : ℕ) :
    Option (Exec (AuditError ε) AuditDigest) :=
  match file.opened, file.len with
  | .error source, _        => some (.err (.open path source))
  | _, .error source        => some (.err (.open path source))
  | .ok reader, .ok bytes => (sha256ReaderOf file.reader fuel reader).map fun r => do
    let sha256 ← r.mapErr (.open path)
    .ok { sha256, bytes }

-- The writer lives on in its clones.
def close (dev : Device ε) (reopen : (content : Bytes) → Reopened ε content) (fuel : ℕ) (now : Option String)
    (log : AuditLog ε) : AuditWriter ε × Option (Exec (AuditError ε) AuditDigest) :=
  match (log.writer.line dev (runEnd now)).flush dev with
  | (g, .error e) => (g, some (.err (.write e)))
  | (g, .ok ())   =>
    match g.takeErr with
    | (g, some e) => (g, some (.err (.write e)))
    | (g, none)   => (g, digest log.path (reopen g.file.inner.bytes) fuel)

end AuditLog
end Latent
