import ScriptLowering.Lowering.Monad

/-!
# Work on a shared session

A `Worker` can do three things with a session: ask what is remembered, record a diagnostic and write
to the log. It may have the session to itself (`Worker.run`), or share it with other workers. Then it
is open which of them takes the next step (`Turn`), and a step is one access to the session, which no
other worker can get into.
-/

namespace ScriptLowering.Lowering

/-- Work on a session that comes to a result. -/
inductive Worker (α : Type) where
  | done (result : α)
  | ask (q : Query) (rest : q.Answer → Worker α)
  | record (d : Diagnostic) (rest : Worker α)
  | write (level : LogLevel) (message : String) (rest : Worker α)

/-- Answers a query in a session. -/
def Session.ask (s : Session) (env : Env) (q : Query) : q.Answer × Session :=
  let (answer, memory) := s.toMemory.ask env.types env.directives q
  (answer, { s with toMemory := memory })

namespace Worker

variable {α : Type} (env : Env)

/-- The next access to the session, and what is left to do. -/
def step? : Worker α → Session → Option (Worker α × Session)
  | done _, _ => none
  | ask q rest, s => some (rest (s.ask env q).1, (s.ask env q).2)
  | record d rest, s => some (rest, s.record d)
  | write level message rest, s => some (rest, s.write level message)

/-- The result of a worker that has the session to itself. -/
def run : Worker α → Session → α × Session
  | done result, s => (result, s)
  | ask q rest, s => run (rest (s.ask env q).1) (s.ask env q).2
  | record d rest, s => run rest (s.record d)
  | write level message rest, s => run rest (s.write level message)

end Worker

section

variable (env : Env) {α : Type}

/-- One of several workers takes a step. -/
inductive Turn : List (Worker α) → Session → List (Worker α) → Session → Prop where
  | here {w w' : Worker α} {rest : List (Worker α)} {s s' : Session} :
    w.step? env s = some (w', s') → Turn (w :: rest) s (w' :: rest) s'
  | there {w : Worker α} {rest rest' : List (Worker α)} {s s' : Session} :
    Turn rest s rest' s' → Turn (w :: rest) s (w :: rest') s'

/-- Workers take turns until all of them are done. -/
inductive Interleaved : List (Worker α) → Session → List α → Session → Prop where
  | done (results : List α) {s : Session} : Interleaved (results.map .done) s results s
  | turn {workers workers' : List (Worker α)} {s s' s'' : Session} {results : List α} :
    Turn env workers s workers' s' → Interleaved workers' s' results s'' →
      Interleaved workers s results s''

end

end ScriptLowering.Lowering
