/-!
# Settings

The choices that lowering and the canonical passes depend on, with the presets.
-/

namespace ScriptLowering

/-- The settings of a run. -/
structure Settings where
  /-- Whether values are cast to the types that their consumers expect. -/
  autoCast : Bool
  /-- Whether 64-bit arithmetic goes through the runtime library. -/
  emulateInt64 : Bool
  /-- Whether calls are replaced by intrinsics while they are lowered. -/
  earlyIntrinsics : Bool
  /-- The greatest depth of an expression. -/
  maxRecursionDepth : Nat
  /-- How often a pass may replace one place. -/
  maxReductionsPerNode : Nat
  /-- The greatest number of rounds over the passes. -/
  maxPassIterations : Nat
  /-- Whether a batch may be worked on in any order. -/
  parallel : Bool
  /-- What the stub of a method throws. -/
  stubMessage : String

namespace Settings

/-- The usual settings. -/
def standard : Settings where
  autoCast := true
  emulateInt64 := true
  earlyIntrinsics := true
  maxRecursionDepth := 512
  maxReductionsPerNode := 64
  maxPassIterations := 4
  parallel := true
  stubMessage := "Method could not be translated"

/-- For runtimes with 64-bit integers of their own. -/
def nativeInt64 : Settings :=
  { standard with emulateInt64 := false }

/-- For a look at lowering without corrections. -/
def raw : Settings :=
  { standard with autoCast := false, earlyIntrinsics := false, parallel := false }

/-- The presets by name. -/
def preset? : String → Option Settings
  | "default" | "new" => some standard
  | "native_int64" => some nativeInt64
  | "raw" => some raw
  | _ => none

end Settings

end ScriptLowering
