import QueryAlgebra.Json.Parser
import QueryAlgebra.Json.Printer
import QueryAlgebra.Error

/-!
# Settings

How trees are built and how far the optimizer goes, with the JSON document that sets both. Every
field of the document may be left out.
-/

namespace QueryAlgebra

/-- How query trees are built. -/
structure BuildSettings where
  /-- Every node is checked as soon as it is built. -/
  testMode : Bool := false
deriving DecidableEq, Inhabited

namespace BuildSettings

/-- Settings under which every node is checked. -/
def testing : BuildSettings := ⟨true⟩

def withTestMode (_ : BuildSettings) (enable : Bool) : BuildSettings := ⟨enable⟩

end BuildSettings

/-- How far the optimizer goes and what it records. -/
structure OptimizationSettings where
  /-- The number of passes at which the optimizer stops. -/
  maxIterations : Nat := 100
  /-- Whether every change is recorded. -/
  enableTrace : Bool := false
deriving DecidableEq, Inhabited

namespace OptimizationSettings

def withMaxIterations (s : OptimizationSettings) (max : Nat) : OptimizationSettings :=
  { s with maxIterations := max }

def withTrace (s : OptimizationSettings) (enable : Bool) : OptimizationSettings :=
  { s with enableTrace := enable }

end OptimizationSettings

/-- The settings of the whole engine. -/
structure Settings where
  build : BuildSettings := {}
  optimization : OptimizationSettings := {}
deriving DecidableEq, Inhabited

-- ---------------------------------------------------------------------------
-- The document
-- ---------------------------------------------------------------------------

namespace BuildSettings

def ofJson? (j : Json) : Option BuildSettings := do
  match ← j.fields? ["test_mode"] with
  | [testMode] => some ⟨← Json.optional? false Json.bool? testMode⟩
  | _ => none

def toJson (s : BuildSettings) : Json := .ofMembers [("test_mode", .bool s.testMode)]

end BuildSettings

namespace OptimizationSettings

def ofJson? (j : Json) : Option OptimizationSettings := do
  match ← j.fields? ["max_iterations", "enable_trace"] with
  | [max, trace] =>
    let absent : OptimizationSettings := {}
    some ⟨← Json.optional? absent.maxIterations Json.word? max,
      ← Json.optional? absent.enableTrace Json.bool? trace⟩
  | _ => none

def toJson (s : OptimizationSettings) : Json :=
  .ofMembers [("max_iterations", .ofNat s.maxIterations), ("enable_trace", .bool s.enableTrace)]

end OptimizationSettings

namespace Settings

def ofJson? (j : Json) : Option Settings := do
  match ← j.fields? ["iq", "optimization"] with
  | [build, optimization] =>
    some ⟨← Json.optional? {} BuildSettings.ofJson? build,
      ← Json.optional? {} OptimizationSettings.ofJson? optimization⟩
  | _ => none

def toJson (s : Settings) : Json :=
  .ofMembers [("iq", s.build.toJson), ("optimization", s.optimization.toJson)]

/-- The settings that a document describes. -/
def ofDocument (document : String) : Except Error Settings :=
  match (Json.parse? document).bind ofJson? with
  | some s => .ok s
  | none => .error .unreadableDocument

/-- The document of the settings, with every field. -/
def toDocument (s : Settings) : String := s.toJson.pretty

end Settings

end QueryAlgebra
