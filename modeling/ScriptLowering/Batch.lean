import ScriptLowering.Canonical.Pass
import ScriptLowering.Lowering.Worker

/-!
# Methods and batches of methods

A method is lowered and brought to canonical form. If either fails it becomes a stub, and the other
methods of the batch are not affected. The methods of a batch share a session. They are worked on in
order, or in parallel: then every method has a worker, and the workers take turns in some order.
-/

namespace ScriptLowering

open Lowering Canonical

/-- Brings a lowered method to canonical form, or replaces it by a stub. -/
def canonicalOrStub (env : Env) (pipeline : Pipeline) (body : Cil.MethodBody) (m : Lowered)
    (session : Session) : Outcome × Session :=
  match (pipeline.run env).run ⟨m, session⟩ with
  | (.ok _, work) => (.lowered work.method, work.session)
  | (.error e, work) =>
    let name := body.method.fullName
    let lead := "Rewrite passes failed on " ++ name ++ ", replacing it with a stub: "
    (.stubbed (stub env.settings body) e, recordFailure work.session .pass lead name e)

/-- Lowers a method and brings it to canonical form, or replaces it by a stub. -/
def lowerMethod (env : Env) (pipeline : Pipeline) (body : Cil.MethodBody) (session : Session) :
    Outcome × Session :=
  match lowerOrStub env body session with
  | (.lowered m, session) => canonicalOrStub env pipeline body m session
  | (.stubbed m e, session) => (.stubbed m e, session)

/-- Works on the methods of a batch in order, which share what the session remembers. -/
def eachMethod {α : Type} (work : Cil.MethodBody → Session → α × Session) :
    List Cil.MethodBody → Session → List α × Session
  | [], session => ([], session)
  | body :: rest, session =>
    let (result, session) := work body session
    let (results, session) := eachMethod work rest session
    (result :: results, session)

/-- Lowers the methods of a batch and brings them to canonical form. -/
def lowerAll (env : Env) (pipeline : Pipeline) :
    List Cil.MethodBody → Session → List Outcome × Session :=
  eachMethod (lowerMethod env pipeline)

/-- The outcomes of a batch, and the session afterwards. In parallel, there is one for every order in
which workers that do what lowering the methods does take turns. -/
inductive BatchRun (env : Env) (pipeline : Pipeline) (bodies : List Cil.MethodBody) :
    List Outcome → Session → Prop where
  | sequential : env.settings.parallel = false →
    BatchRun env pipeline bodies (lowerAll env pipeline bodies .start).1
      (lowerAll env pipeline bodies .start).2
  | parallel {workers : List (Worker Outcome)} {outcomes : List Outcome} {session : Session} :
    env.settings.parallel = true →
      workers.map (·.run env) = bodies.map (lowerMethod env pipeline) →
      Interleaved env workers .start outcomes session →
      BatchRun env pipeline bodies outcomes session

end ScriptLowering
