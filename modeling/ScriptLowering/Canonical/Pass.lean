import ScriptLowering.Canonical.CastExpansion
import ScriptLowering.Canonical.Declaration
import ScriptLowering.Canonical.PropertyUpdate

/-!
# Passes and pipelines

A pass brings one aspect of a lowered method to canonical form. A pipeline repeats passes until none
of them changes the method, and then runs its cleanup passes once.
-/

namespace ScriptLowering.Canonical

open Script Lowering

/-- The passes. -/
inductive Pass where
  | intrinsics
  | propertyUpdates
  | castExpansion
  | declarations
  deriving DecidableEq

/-- A method at work, with what its run shares. -/
structure Work where
  method : Lowered
  session : Session

/-- A computation on a method, whose work so far stays when it fails. -/
abbrev Refine :=
  ExceptT Error (StateM Work)

namespace Pass

/-- The name of a pass. -/
def name : Pass → String
  | intrinsics => "intrinsics"
  | propertyUpdates => "property compound"
  | castExpansion => "expand casts"
  | declarations => "declare variables"

/-- What a pass does. -/
def description : Pass → String
  | intrinsics =>
    "Lowers object identity, delegate, array initializer, string concatenation and nullable calls"
  | propertyUpdates =>
    "Rewrites compound assignments to properties as explicit get and set sequences"
  | castExpansion => "Lowers casts to numeric conversions, boolean coercions and enum wrapping"
  | declarations => "Declares the locals and temporaries referenced by the body"

/-- Whether a pass has something to do on a method. -/
def appliesTo (p : Pass) (m : Lowered) : Bool :=
  match p with
  | declarations => !m.variablesDeclared
  | _ => true

/-- The reducer that gives calls the forms of their own. -/
def intrinsicForms (h : Hierarchy) (r : Retyping) : Reducer Unit where
  name := "intrinsics"
  reduct? n s := (.ok (replaceCall? h r n), s)

/-- The effect of a pass on a method: whether it changed something, and the work afterwards. -/
def step (p : Pass) (env : Env) (work : Work) : Except Error Bool × Work :=
  let limit := env.settings.maxReductionsPerNode
  let m := work.method
  match p with
  | intrinsics =>
    let (answer, body, _) := (intrinsicForms env.types m.scope.retyping).run limit m.body ()
    (answer, { work with method := { m with body } })
  | propertyUpdates =>
    let (answer, body, scope) := (propertyUpdate env.core).run limit m.body m.scope
    (answer, { work with method := { m with body, scope } })
  | castExpansion =>
    let reducer := Canonical.castExpansion env.types m.scope.retyping env.settings.emulateInt64
    let (answer, body, assignable) := reducer.run limit m.body work.session.assignable
    (answer, { method := { m with body }, session := { work.session with assignable } })
  | declarations =>
    let (changed, m) := declareVariables m
    (.ok changed, { work with method := m })

/-- Runs a pass, and tells whether it changed the method. -/
def run (p : Pass) (env : Env) : Refine Bool :=
  fun work => p.step env work

end Pass

/-- Writes a line to the log. -/
def note (message : String) : Refine Unit :=
  modify fun work => { work with session := work.session.write .debug message }

/-- Runs passes in order, those that have something to do, and tells whether one changed the
method. -/
def runOnce (env : Env) : List Pass → Refine Bool
  | [] => return false
  | p :: rest => do
    let m := (← get).method
    if p.appliesTo m then
      let changed ← p.run env
      if changed then
        note (p.name ++ " changed " ++ m.method.fullName)
      let others ← runOnce env rest
      return changed || others
    else
      runOnce env rest

/-- Which passes run, and how often. -/
structure Pipeline where
  /-- The greatest number of rounds. -/
  iterations : Nat
  /-- The passes of a round. -/
  passes : List Pass
  /-- The passes after the last round. -/
  cleanup : List Pass

namespace Pipeline

/-- The usual pipeline. -/
def standard (settings : Settings) : Pipeline where
  iterations := settings.maxPassIterations
  passes := [.intrinsics, .propertyUpdates, .castExpansion]
  cleanup := [.declarations]

/-- Runs rounds until one changes nothing, at most `left` more after `done`, and tells whether one
changed the method. -/
def rounds (env : Env) (passes : List Pass) : Nat → Nat → Refine Bool
  | 0, _ => return false
  | left + 1, done => do
    let changed ← runOnce env passes
    if changed then
      let name := (← get).method.method.fullName
      note (name ++ ": pass round " ++ toString (done + 1) ++ " changed the method")
      let _ ← rounds env passes left (done + 1)
    return changed

/-- Runs a pipeline, and tells whether it changed the method. -/
def run (pipeline : Pipeline) (env : Env) : Refine Bool := do
  let changed ← rounds env pipeline.passes pipeline.iterations 0
  let cleaned ← runOnce env pipeline.cleanup
  return changed || cleaned

end Pipeline

end ScriptLowering.Canonical
