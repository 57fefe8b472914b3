import ScriptLowering.Proofs.Lowering.TruthValue

/-!
# Which handler runs

The handlers of a protected region become one handler, a chain of type tests on the caught
exception. A `Machine` runs such chains: it runs blocks statement by statement, chooses between the
branches of a conditional whose condition is a type test, assigns variables, and throws the handled
exception again. What values are of what types is up to the machine, and so is everything else that
a handler may do.
-/

namespace ScriptLowering

open Script

namespace Script

/-! ### Running statements -/

/-- How a run ends. -/
inductive Completion (A : Type) where
  | normal
  /-- The exception that is handled is thrown again. -/
  | rethrown
  /-- Any other exit: a jump, a return, another exception. -/
  | left (exit : A)

/-- The variables, by number, and all else. -/
structure Memory (V W : Type) where
  locals : Nat → V
  world : W

/-- Assigns a variable. -/
def Memory.assign {V W : Type} (m : Memory V W) (v : Variable) (x : V) : Memory V W :=
  { m with locals := fun i => if i = v.id then x else m.locals i }

/-- What runs depend on. -/
structure Machine (V W A : Type) where
  /-- Whether a value is of a type. -/
  isOf : V → Ty → Bool
  /-- What any other statement does. -/
  perform : Node → Memory V W → Completion A × Memory V W

namespace Machine

variable {V W A : Type} (machine : Machine V W A)

/-- The value of a variable, also as one of another type. -/
def value? (m : Memory V W) : Node → Option V
  | ⟨.var v, _⟩ => some (m.locals v.id)
  | ⟨.changeType _, [n]⟩ => value? m n
  | _ => none

/-- The outcome of a type test. -/
def test? (m : Memory V W) : Node → Option Bool
  | ⟨.typeTest type, [n]⟩ => (value? m n).map (machine.isOf · type)
  | _ => none

/-- The assignment of a value to a variable. -/
def assigned? (m : Memory V W) : Node → Option (Memory V W)
  | ⟨.binary .assign _, [⟨.var v, _⟩, n]⟩ => (value? m n).map (m.assign v)
  | _ => none

mutual

/-- Runs a statement. -/
def exec : Node → Memory V W → Completion A × Memory V W
  | ⟨form, operands⟩, m =>
    match form, operands with
    | .empty, _ => (.normal, m)
    | .block none, statements => execAll statements m
    | .ifElse, [condition, yes, no] =>
      match machine.test? m condition with
      | some true => exec yes m
      | some false => exec no m
      | none => machine.perform ⟨.ifElse, [condition, yes, no]⟩ m
    | .expressionStatement, [⟨.rethrow, _⟩] => (.rethrown, m)
    | .expressionStatement, [expression] =>
      match assigned? m expression with
      | some m => (.normal, m)
      | none => machine.perform ⟨.expressionStatement, [expression]⟩ m
    | form, operands => machine.perform ⟨form, operands⟩ m

/-- Runs statements one after another, as long as they end normally. -/
def execAll : List Node → Memory V W → Completion A × Memory V W
  | [], m => (.normal, m)
  | n :: rest, m =>
    match exec n m with
    | (.normal, m) => execAll rest m
    | ended => ended

end

end Machine

end Script

namespace Lowering

/-! ### Clauses -/

/-- A handler of a type, with the variable that it is assigned to and its statements. -/
structure Clause where
  type : Ty
  var? : Option Variable
  body : List Node

section

variable {V W A : Type} (machine : Machine V W A) (h : Hierarchy) (caught : Variable)

/-- Assigns the caught exception to the variable of a clause. -/
def Clause.bind (c : Clause) (m : Script.Memory V W) : Script.Memory V W :=
  match c.var? with
  | some v => m.assign v (m.locals caught.id)
  | none => m

/-- Whether a clause takes the caught exception. -/
def Clause.takes (c : Clause) (m : Script.Memory V W) : Bool :=
  catchesEverything h c.type || machine.isOf (m.locals caught.id) c.type

/-- Runs the first clause that takes the caught exception, with its variable assigned, and throws
the exception again if there is none. -/
def runFirst (clauses : List Clause) (m : Script.Memory V W) : Completion A × Script.Memory V W :=
  match clauses.find? (·.takes machine h caught m) with
  | some c => machine.execAll c.body (c.bind caught m)
  | none => (.rethrown, m)

end

/-- The block of a clause: the assignment of its variable, and then its statements. -/
inductive Clause.Block (caught : Variable) : Clause → Node → Prop where
  | plain {type : Ty} {body : List Node} : Block caught ⟨type, none, body⟩ (.block body)
  | binding {type : Ty} {v : Variable} {body : List Node} {t t' : Ty} :
    Block caught ⟨type, some v, body⟩
      (.block (.expressionStatement (.binary .assign (.ofVariable v)
        (.changeType (.ofVariable caught) t) t') :: body))

section

variable {V W A : Type} (machine : Machine V W A) {h : Hierarchy} {caught : Variable}

theorem exec_block {c : Clause} {n : Node} (hblock : c.Block caught n) (m : Script.Memory V W) :
    machine.exec n m = machine.execAll c.body (c.bind caught m) := by
  cases hblock with
  | plain =>
    rw [Node.block, Machine.exec]
    rfl
  | binding =>
    rw [Node.block, Machine.exec]
    simp only
    rw [Machine.execAll]
    rfl

/-- Running a block of one statement. -/
theorem exec_block_singleton (n : Node) (m : Script.Memory V W) :
    machine.exec (.block [n]) m = machine.exec n m := by
  rw [Node.block, Machine.exec, Machine.execAll]
  split
  · next m' hnormal =>
    rw [hnormal, Machine.execAll]
  · rfl

/-- Running the block that throws again. -/
theorem exec_rethrowBlock (m : Script.Memory V W) : machine.exec rethrowBlock m = (.rethrown, m) := by
  rw [rethrowBlock, Node.block, Machine.exec]
  rfl

theorem runFirst_cons (c : Clause) (rest : List Clause) (m : Script.Memory V W) :
    runFirst machine h caught (c :: rest) m
      = if c.takes machine h caught m then machine.execAll c.body (c.bind caught m)
        else runFirst machine h caught rest m := by
  rw [runFirst, List.find?_cons]
  cases c.takes machine h caught m <;> rfl

/-- Running a type test and its branches. -/
theorem exec_ifElse_typeTest (type : Ty) (yes no : Node) (m : Script.Memory V W) :
    machine.exec ⟨.ifElse, [⟨.typeTest type, [.ofVariable caught]⟩, yes, no]⟩ m
      = if machine.isOf (m.locals caught.id) type then machine.exec yes m
        else machine.exec no m := by
  rw [Machine.exec]
  simp only [Machine.test?, Node.ofVariable, Machine.value?, Option.map_some]
  cases machine.isOf (m.locals caught.id) type <;> rfl

theorem exec_catchChain {clauses : List Clause} {handlers : List (Ty × Node)}
    (hhandlers : List.Forall₂ (fun c p => p.1 = c.type ∧ c.Block caught p.2) clauses handlers)
    (m : Script.Memory V W) :
    machine.exec (catchChain h (.ofVariable caught) handlers) m
      = runFirst machine h caught clauses m := by
  induction hhandlers with
  | nil => exact exec_rethrowBlock machine m
  | @cons c p clauses handlers hfirst _ ih =>
    obtain ⟨htype, hblock⟩ := hfirst
    rw [catchChain, List.foldr_cons, runFirst_cons, Clause.takes, htype,
      ← exec_block machine hblock m]
    cases catchesEverything h c.type with
    | true => rfl
    | false =>
      -- The rest of the chain runs if the test fails.
      rw [catchChain] at ih
      simp only [Bool.false_eq_true, if_false, Bool.false_or]
      rw [exec_ifElse_typeTest, ih]

end

/-! ### Lowered handlers -/

/-- The variable of a handler, resolved. -/
inductive ResolvesTo (g : Lowerer) : State → Option Cil.Variable → Option Variable → State → Prop
    where
  | none {s : State} : ResolvesTo g s none none s
  | some {s s' : State} {v : Cil.Variable} {w : Variable} :
    ((g.resolve v).run s : Except Error Variable × State) = (.ok w, s') →
    ResolvesTo g s (some v) (some w) s'

/-- Handlers that are lowered to clauses one after another, each from the state that the one before
it left: first the variable is resolved, then the statements are lowered. -/
inductive ClausesInOrder (g : Lowerer) : State → List Cil.Handler → List Clause → State → Prop where
  | nil {s : State} : ClausesInOrder g s [] [] s
  | cons {s s₁ s₂ s' : State} {type : Ty} {var? : Option Cil.Variable} {w? : Option Variable}
      {body : List Cil.Stmt} {items : List Item} {rest : List Cil.Handler}
      {clauses : List Clause} :
    ResolvesTo g s var? w? s₁ →
    ((g.items body).run s₁ : Except Error (List Item) × State) = (.ok items, s₂) →
    ClausesInOrder g s₂ rest clauses s' →
    ClausesInOrder g s (.mk type var? body :: rest) (⟨type, w?, assemble items⟩ :: clauses) s'

variable {g : Lowerer} {caught : Variable} {s s' : State}

theorem eq_of_run_ofExcept {α : Type} {answer : Except Error α} {a : α}
    (hrun : (Lower.ofExcept answer).run s = (.ok a, s')) :
    answer = .ok a ∧ s' = s := by
  cases answer with
  | ok b =>
    cases hrun
    exact ⟨rfl, rfl⟩
  | error e => cases hrun

theorem resolvesTo_of_bindCaught {var? : Option Cil.Variable} {binding : List Node}
    (hrun : (g.bindCaught caught var?).run s = (.ok binding, s')) :
    ∃ w?, ResolvesTo g s var? w? s'
      ∧ ∀ type body, Clause.Block caught ⟨type, w?, body⟩ (.block (binding ++ body)) := by
  cases var? with
  | none =>
    cases hrun
    exact ⟨none, .none, fun _ _ => .plain⟩
  | some v =>
    unfold Lowerer.bindCaught at hrun
    obtain ⟨w, s₁, hresolve, hrun⟩ := exists_run_of_bind hrun
    obtain ⟨type, s₂, htype, hrun⟩ := exists_run_of_bind hrun
    cases htype
    obtain ⟨assignment, s₃, hassign, hrun⟩ := exists_run_of_bind hrun
    cases hrun
    unfold Lowerer.assign at hassign
    obtain ⟨context, s₄, hcontext, hassign⟩ := exists_run_of_bind hassign
    cases hcontext
    obtain ⟨hassign, rfl⟩ := eq_of_run_ofExcept hassign
    obtain ⟨-, rfl⟩ := Node.eq_of_compoundAssign hassign
    exact ⟨some w, .some hresolve, fun _ _ => .binding⟩

theorem clausesInOrder_of_handlers {hs : List Cil.Handler} {pairs : List (Ty × Node)}
    (hrun : ((g.handlers caught hs).run s : Except Error (List (Ty × Node)) × State) = (.ok pairs, s')) :
    ∃ clauses, ClausesInOrder g s hs clauses s'
      ∧ List.Forall₂ (fun c p => p.1 = c.type ∧ c.Block caught p.2) clauses pairs := by
  induction hs generalizing s pairs with
  | nil =>
    unfold Lowerer.handlers at hrun
    cases hrun
    exact ⟨[], .nil, .nil⟩
  | cons first rest ih =>
    obtain ⟨type, var?, body⟩ := first
    unfold Lowerer.handlers at hrun
    obtain ⟨binding, s₁, hbinding, hrun⟩ := exists_run_of_bind hrun
    obtain ⟨items, s₂, hitems, hrun⟩ := exists_run_of_bind hrun
    obtain ⟨others, s₃, hothers, hrun⟩ := exists_run_of_bind hrun
    cases hrun
    obtain ⟨w?, hresolves, hblock⟩ := resolvesTo_of_bindCaught hbinding
    obtain ⟨clauses, hclauses, hpairs⟩ := ih hothers
    exact ⟨⟨type, w?, assemble items⟩ :: clauses, .cons hresolves hitems hclauses,
      .cons ⟨rfl, hblock type _⟩ hpairs⟩

/-- A node that runs the first of the clauses that some handlers are lowered to. -/
def RunsFirstOf (g : Lowerer) (hs : List Cil.Handler) (caught : Variable) (n : Node) : Prop :=
  ∃ clauses s s', ClausesInOrder g s hs clauses s'
    ∧ ∀ {V W A : Type} (machine : Machine V W A) (m : Script.Memory V W),
      machine.exec n m = runFirst machine g.env.types caught clauses m

theorem yields_handler (hs : List Cil.Handler) :
    Yields (g.handler hs.isEmpty fun caught => g.handlers caught hs) fun r =>
      hs = [] ∧ r.1 = none ∧ r.2 = .empty
        ∨ ∃ caught, r.1 = some caught ∧ RunsFirstOf g hs caught r.2 := by
  refine .ite (fun hmissing => .pure (.inl ⟨List.isEmpty_iff.mp hmissing, rfl, rfl⟩)) fun _ => ?_
  refine .after fun caught => Yields.ran.bind ?_
  rintro pairs ⟨s, s', hrun⟩
  obtain ⟨clauses, hclauses, hpairs⟩ := clausesInOrder_of_handlers hrun
  refine .pure (.inr ⟨caught, rfl, clauses, s, s', hclauses, fun machine m => ?_⟩)
  rw [exec_block_singleton, exec_catchChain machine hpairs m]

/-- A protected region that is lowered has no handler if it had none. Otherwise it has one handler:
running it runs the first clause whose type takes everything or is a type of the caught exception,
after the exception is assigned to the variable of the clause, and throws the exception again if
there is no such clause. -/
theorem first_match_runs (g : Lowerer) (body : List Cil.Stmt) (hs : List Cil.Handler)
    (finally? fault? : Option (List Cil.Stmt)) {s s' : State} {item : Item}
    (hrun : ((g.item (.guarded body hs finally? fault?)).run s : Except Error Item × State)
      = (.ok item, s')) :
    ∃ var? region handler finalizer fault,
      item = .statement (guardedRegion var? region handler finalizer fault)
      ∧ (hs = [] ∧ var? = none ∧ handler = .empty
        ∨ ∃ caught, var? = some caught ∧ RunsFirstOf g hs caught handler) := by
  have hyields : Yields (g.item (.guarded body hs finally? fault?)) fun item =>
      ∃ var? region handler finalizer fault,
        item = .statement (guardedRegion var? region handler finalizer fault)
        ∧ (hs = [] ∧ var? = none ∧ handler = .empty
          ∨ ∃ caught, var? = some caught ∧ RunsFirstOf g hs caught handler) := by
    unfold Lowerer.item
    refine .withTarget (.after fun items => (yields_handler hs).bind fun r hr => ?_)
    exact .after fun finalizer => .after fun fault => .pure ⟨_, _, _, _, _, rfl, hr⟩
  exact (hyields s).done_of_run hrun

/-! ### A handler between two others -/

/-- A handler of one type with a variable, one that takes everything, and one after it. -/
def threeHandlers : List Cil.Handler :=
  let failure : Ty := .named (.plain 40 "App" "Failure" (.ofFile "One") .classType)
  let answer (value : Int32) : List Cil.Stmt := [.expression (.plain .ldcI4 (.int32 value) [])]
  [.mk failure (some ⟨"e", failure, .localSlot 0, false⟩) (answer 1),
    .mk Core.standard.exception none (answer 2), .mk Core.standard.object none (answer 3)]

/-- A region with three handlers, lowered in a plain run. -/
def threeHandlersRun : Except Error Item × State :=
  ((plainLowerer (.plain .nop .none [])).item (.guarded [] threeHandlers none none)).run
    ⟨.start true 512, .start⟩

/-- The three handlers are one handler that runs the first match. -/
theorem threeHandlers_first_match :
    ∃ item s', threeHandlersRun = (.ok item, s')
      ∧ ∃ caught region handler finalizer fault,
        item = .statement (guardedRegion (some caught) region handler finalizer fault)
        ∧ RunsFirstOf (plainLowerer (.plain .nop .none [])) threeHandlers caught handler := by
  have hlowered : threeHandlersRun.1.toOption.isSome = true := by decide +kernel
  rcases hrun : threeHandlersRun with ⟨_ | item, s'⟩ <;> rw [hrun] at hlowered
  · cases hlowered
  · obtain ⟨var?, region, handler, finalizer, fault, hitem, ⟨hnone, -⟩ | ⟨caught, rfl, hfirst⟩⟩ :=
      first_match_runs _ _ _ _ _ hrun
    · cases hnone
    · exact ⟨item, s', rfl, caught, region, handler, finalizer, fault, hitem, hfirst⟩

end Lowering

end ScriptLowering
