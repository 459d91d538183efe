import StagedScript.Service.Worker

/-!
# Problems in source texts

A failed request is described by a diagnostic, which has the parts of an error as texts.
-/

namespace StagedScript

structure Diagnostic where
  category : Category
  message : Bytes
  position : Position
  trace : List Position

def WorkFailure.diagnostic : WorkFailure → Diagnostic
  | .source e => ⟨e.category, e.message, e.position, e.trace⟩
  | f => ⟨.internal, f.message, ⟨[], 0⟩, []⟩

end StagedScript
