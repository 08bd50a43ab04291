import Latent.Text.Json

open Rust Text

namespace Latent

inductive Confidence
  | l0Intact
  | l1LocalTemplate
  | l2ExternalCorpus
  | l3Structural
  | l4Raw
  deriving DecidableEq, Repr

inductive Method
  | localTemplate
  | sameSource
  | externalCorpus
  | structuralInference
  | rawOnly
  deriving DecidableEq, Repr

namespace Confidence

def isReconstructed (c : Confidence) : Bool :=
  c ≠ l0Intact

def deserialize : Json → Exec DeError Confidence :=
  Json.toVariant [
    ("L0Intact", l0Intact),
    ("L1LocalTemplate", l1LocalTemplate),
    ("L2ExternalCorpus", l2ExternalCorpus),
    ("L3Structural", l3Structural),
    ("L4Raw", l4Raw)
  ]

end Confidence

def Method.deserialize : Json → Exec DeError Method :=
  Json.toVariant [
    ("LocalTemplate", localTemplate),
    ("SameSource", sameSource),
    ("ExternalCorpus", externalCorpus),
    ("StructuralInference", structuralInference),
    ("RawOnly", rawOnly)
  ]

end Latent
