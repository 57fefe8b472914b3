import ScriptLowering.Lowering.Method
import ScriptLowering.Lowering.Worker
import ScriptLowering.Proofs.Lowering.Layout
import ScriptLowering.Proofs.Lowering.Lifting
import ScriptLowering.Proofs.Lowering.Rule
import ScriptLowering.Proofs.Lowering.Run

/-!
# Lowering a method is the work of a worker

A computation is `Workable` when a worker can do it: it asks the memory, records and writes, and
does nothing else with the session. This is a criterion in which all trees are welcome
(`Lowerer.workable`), so that only the steps that touch the session need a proof of their own. All
that a method goes through is workable (`exists_worker_lowerOrStub`).
-/

namespace ScriptLowering.Lowering

open Script

/-! ### Workers in sequence -/

namespace Worker

variable {α β : Type}

/-- All results that a worker may come to satisfy a condition. -/
def Ends (P : α → Prop) : Worker α → Prop
  | done result => P result
  | ask _ rest => ∀ answer, (rest answer).Ends P
  | record _ rest => rest.Ends P
  | write _ _ rest => rest.Ends P

theorem ends_of_forall {P : α → Prop} (h : ∀ a, P a) (w : Worker α) : w.Ends P := by
  induction w with
  | done result => exact h result
  | ask q rest ih => exact ih
  | record d rest ih => exact ih
  | write level message rest ih => exact ih

theorem exists_bind (env : Env) {P : α → Prop} {Q : β → Prop} {R : α → Session → β × Session → Prop}
    {w : Worker α} (hw : w.Ends P)
    (hnext : ∀ a, P a → ∃ v : Worker β, v.Ends Q ∧ ∀ s, R a s (v.run env s)) :
    ∃ v : Worker β, v.Ends Q ∧ ∀ s, R (w.run env s).1 (w.run env s).2 (v.run env s) := by
  induction w with
  | done result => exact hnext result hw
  | ask q rest ih =>
    choose v hv hrun using fun answer => ih answer (hw answer)
    exact ⟨.ask q v, hv, fun s => hrun _ _⟩
  | record d rest ih =>
    obtain ⟨v, hv, hrun⟩ := ih hw
    exact ⟨.record d v, hv, fun s => hrun _⟩
  | write level message rest ih =>
    obtain ⟨v, hv, hrun⟩ := ih hw
    exact ⟨.write level message v, hv, fun s => hrun _⟩

theorem exists_next (env : Env) {R : α → Session → β × Session → Prop} (w : Worker α)
    (hnext : ∀ a, ∃ v : Worker β, ∀ s, R a s (v.run env s)) :
    ∃ v : Worker β, ∀ s, R (w.run env s).1 (w.run env s).2 (v.run env s) := by
  obtain ⟨v, -, hv⟩ := exists_bind env (P := fun _ => True) (Q := fun _ => True)
    (w.ends_of_forall fun _ => trivial) fun a _ => by
      obtain ⟨v, hv⟩ := hnext a
      exact ⟨v, v.ends_of_forall fun _ => trivial, hv⟩
  exact ⟨v, hv⟩

end Worker

/-! ### Workable computations -/

/-- A computation on states that a part `ρ` and the session make up, which a worker can do. -/
structure Workable {ρ σ α : Type} (env : Env) (frame : ρ → Session → σ)
    (x : ExceptT Error (StateM σ) α) (r : ρ) (post : ρ → α → Prop) : Prop where
  exists_worker : ∃ w : Worker (Except Error α × ρ),
    w.Ends (fun e => ∀ a, e.1 = .ok a → post e.2 a)
      ∧ ∀ s, (x.run (frame r s) : Except Error α × σ)
        = ((w.run env s).1.1, frame (w.run env s).1.2 (w.run env s).2)

namespace Workable

variable {ρ σ α β : Type} {env : Env} {frame : ρ → Session → σ} {x : ExceptT Error (StateM σ) α}
  {r : ρ} {post : ρ → α → Prop}

theorem of_part (answer : Except Error α) (r' : ρ)
    (hrun : ∀ s, (x.run (frame r s) : Except Error α × σ) = (answer, frame r' s))
    (hpost : ∀ a, answer = .ok a → post r' a) : Workable env frame x r post :=
  ⟨.done (answer, r'), hpost, hrun⟩

theorem pure {a : α} (h : post r a) : Workable env frame (Pure.pure a) r post :=
  of_part (.ok a) r (fun _ => rfl) fun _ ha => Except.ok.inj ha ▸ h

theorem throw {e : Error} :
    Workable env frame (MonadExcept.throw e : ExceptT Error (StateM σ) α) r post :=
  of_part (.error e) r (fun _ => rfl) nofun

/-- One computation after another. -/
theorem bind {f : α → ExceptT Error (StateM σ) β} {post' : ρ → β → Prop}
    (hx : Workable env frame x r post)
    (hf : ∀ r' a, post r' a → Workable env frame (f a) r' post') :
    Workable env frame (x >>= f) r post' := by
  obtain ⟨w, hw, hrun⟩ := hx
  -- From every result of the first, a worker does what follows.
  obtain ⟨v, hv, hboth⟩ := Worker.exists_bind env
    (Q := fun e : Except Error β × ρ => ∀ b, e.1 = .ok b → post' e.2 b)
    (R := fun e s result =>
      (∀ a, e.1 = .ok a → ((f a).run (frame e.2 s) : Except Error β × σ)
        = (result.1.1, frame result.1.2 result.2))
      ∧ ∀ e', e.1 = .error e' → result = ((.error e', e.2), s))
    hw fun e he => by
      obtain ⟨answer, r'⟩ := e
      cases answer with
      | ok a =>
        obtain ⟨v, hv, hrun⟩ := hf r' a (he a rfl)
        refine ⟨v, hv, fun s => ⟨fun _ ha => ?_, fun _ he => by cases he⟩⟩
        cases ha
        exact hrun s
      | error e =>
        refine ⟨.done (.error e, r'), (fun _ hb => by cases hb),
          fun s => ⟨(fun _ ha => by cases ha), fun _ he => ?_⟩⟩
        cases he
        rfl
  refine ⟨v, hv, fun s => ?_⟩
  rw [run_bind_eq, hrun s]
  cases hanswer : (w.run env s).1.1 with
  | ok a => exact (hboth s).1 a hanswer
  | error e => rw [(hboth s).2 e hanswer]

/-- A computation that answers at once. -/
theorem reading {f : α → ExceptT Error (StateM σ) β} {post' : ρ → β → Prop} (a : α)
    (hx : ∀ s, (x.run (frame r s) : Except Error α × σ) = (.ok a, frame r s))
    (hf : Workable env frame (f a) r post') : Workable env frame (x >>= f) r post' := by
  obtain ⟨w, hw, hrun⟩ := hf
  refine ⟨w, hw, fun s => ?_⟩
  rw [run_bind_eq, hx s]
  exact hrun s

/-- A weaker condition on the answer. -/
theorem mono {post' : ρ → α → Prop} (hx : Workable env frame x r post)
    (h : ∀ r' a, post r' a → post' r' a) : Workable env frame x r post' := by
  have hbind := hx.bind fun r' a ha => pure (h r' a ha)
  rwa [bind_pure] at hbind

theorem of_context {x : Lower α} {c : Context}
    (h : ∀ s, (x.run ⟨c, s⟩ : Except Error α × State)
      = ((x.run ⟨c, .start⟩ : Except Error α × State).1,
        ⟨(x.run ⟨c, .start⟩ : Except Error α × State).2.context, s⟩)) :
    Workable env State.mk x c fun _ _ => True :=
  of_part _ _ h fun _ _ => trivial

theorem ofExcept {answer : Except Error α} {c : Context} :
    Workable env State.mk (Lower.ofExcept answer) c fun _ _ => True := by
  cases answer with
  | ok a => exact pure trivial
  | error e => exact throw

theorem thenRestore {x : Lower α} {c : Context} {restore : Context → Context} {p : α → Prop}
    (hx : Workable env State.mk x c fun _ a => p a) :
    Workable env State.mk (Lower.thenRestore x restore) c fun _ a => p a := by
  obtain ⟨w, hw, hrun⟩ := hx
  obtain ⟨v, hv, hboth⟩ := Worker.exists_bind env
    (Q := fun e : Except Error α × Context => ∀ a, e.1 = .ok a → p a)
    (R := fun e s result => result = ((e.1, restore e.2), s))
    hw fun e he => ⟨.done (e.1, restore e.2), he, fun _ => rfl⟩
  refine ⟨v, hv, fun s => ?_⟩
  rw [run_thenRestore, hrun s, hboth s]

theorem modifying {x : Lower α} {c : Context} {f : Context → Context} {post : Context → α → Prop}
    (hx : Workable env State.mk x (f c) post) :
    Workable env State.mk (Lower.modifyContext f >>= fun _ => x) c post :=
  ⟨hx.exists_worker⟩

/-- A question about directives. -/
theorem askMembers {ask : MemberMemo → α × MemberMemo} {answer : α} {c : Context}
    (h : MemberMemo.Asks env.directives ask answer) :
    Workable env State.mk (Lower.askMembers ask) c fun _ _ => True := by
  cases h with
  | method m =>
    exact ⟨.ask (.method m) fun a => .done (.ok a, c), fun _ _ _ => trivial, fun _ => rfl⟩
  | field f => exact ⟨.ask (.field f) fun a => .done (.ok a, c), fun _ _ _ => trivial, fun _ => rfl⟩
  | type t => exact ⟨.ask (.type t) fun a => .done (.ok a, c), fun _ _ _ => trivial, fun _ => rfl⟩
  | ignores m =>
    -- The type is asked only if the method is not ignored itself.
    refine ⟨.ask (.method m) fun directive? =>
      if directive?.any (·.isIgnored) then .done (.ok true, c)
      else .ask (.type m.declaringType) fun directive? =>
        .done (.ok (directive?.any (·.isIgnored)), c), fun a => ?_, fun s => ?_⟩
    · dsimp only
      split
      · exact fun _ _ => trivial
      · exact fun _ _ _ => trivial
    · change (Except.ok (s.members.ignores env.directives m).1, State.mk c
        { s with members := (s.members.ignores env.directives m).2 }) = _
      by_cases hmethod : (s.members.method? env.directives m).1.any (·.isIgnored) = true <;>
        simp [Worker.run, Session.ask, Memory.ask, Memory.askMembers, MemberMemo.ignores, hmethod]

end Workable

namespace Lowerer

variable {g : Lowerer}

/-- A warning is written and recorded. -/
theorem workable_warn {e : Cil.Expr} {concern : Concern} {message : String} {c : Context} :
    Workable g.env State.mk (g.warn e concern message) c fun _ _ => True :=
  ⟨.write .warn (g.method.fullName ++ ": " ++ message) (.record _ (.done (.ok (), c))),
    fun _ _ => trivial, fun _ => rfl⟩

/-- The property of an accessor is asked. -/
theorem workable_propertyOf? {m : Method} {c : Context} :
    Workable g.env State.mk (g.propertyOf? m) c fun _ _ => True :=
  ⟨.ask (.property m) fun a => .done (.ok a, c), fun _ _ _ => trivial, fun _ => rfl⟩

/-- Computations are workable, and all trees are welcome. -/
def workable (g : Lowerer) : Criterion g where
  lexicon := .all g.env
  Meets x s post := Workable g.env State.mk x s.context fun c a => ∃ session, post ⟨c, session⟩ a
  Later _ _ := True
  Fits _ := True
  Lowers _ := True
  Applies _ := True
  Value _ _ _ := True
  Part _ _ _ := True
  Passed _ _ := True
  Own _ _ := True
  Temporary _ _ := True
  Accessed _ := True
  Strict := False

theorem workable_meets {α : Type} {x : Lower α} {s : State} {post : State → α → Prop}
    (hx : Workable g.env State.mk x s.context fun _ _ => True) (hpost : ∀ s a, post s a) :
    g.workable.Meets x s post :=
  hx.mono fun _ _ _ => ⟨s.session, hpost _ _⟩

theorem composes_workable : g.workable.Composes where
  refl _ := trivial
  trans _ _ := trivial
  pure {_ _ s _} h := .pure ⟨s.session, h⟩
  throw _ := .throw
  bind hx hf := hx.bind fun c a ⟨session, ha⟩ => hf ⟨c, session⟩ a trivial ha
  fitting h := h trivial
  reading := .reading
  withAutoCast {enabled _ s} hx :=
    workable_meets (s := s) ((hx ⟨s.context.pushAutoCast enabled, s.session⟩).mono
      fun _ _ _ => trivial).thenRestore.modifying fun _ _ => trivial

theorem lasts_workable : g.workable.Lasts := by
  constructor <;> intros <;> trivial

theorem makes_workable : g.workable.Makes := by
  constructor <;> intros <;> first | trivial | exact ⟨fun _ _ => trivial, fun _ _ => trivial⟩

theorem calls_workable : g.workable.Calls := by
  constructor <;> intros <;> trivial

theorem workable_newTemporary {t : Ty} {s : State} :
    g.workable.Meets (Lower.newTemporary t) s fun _ n => ∃ v, True ∧ n = .ofVariable v :=
  Workable.of_part (.ok (.ofVariable (s.context.table.newTemporary t).1))
    { s.context with table := (s.context.table.newTemporary t).2 } (fun _ => rfl)
    fun _ hn => ⟨s.session, _, trivial, (Except.ok.inj hn).symm⟩

theorem lifting_workable : g.workable.Lifting fun _ _ _ => True where
  toComposes := composes_workable
  toLasts := lasts_workable
  toMakes := makes_workable
  newTemporary _ := workable_newTemporary
  computedType _ _ := trivial
  flat _ := trivial
  like_later _ _ := trivial
  operand _ _ _ := trivial
  congr _ _ := trivial
  unwrapped _ := trivial
  unwrap _ _ := trivial
  ofValue _ := trivial
  toValue _ _ := trivial

/-- A variable is resolved in the context. -/
theorem workable_resolve {v : Cil.Variable} {c : Context} :
    Workable g.env State.mk (g.resolve v) c fun _ _ => True := by
  refine (Workable.of_context fun _ => rfl).bind fun _ _ _ => ?_
  refine Workable.ofExcept.bind fun _ _ _ => ?_
  exact (Workable.of_context fun _ => rfl).bind fun _ _ _ => .pure trivial

theorem workable_earlyForm? {n : Node} {c : Context} :
    Workable g.env State.mk (g.earlyForm? n) c fun _ _ => True := by
  refine .of_context fun s => ?_
  unfold earlyForm?
  split <;> rfl

theorem closed_workable (hg : ∀ e s, g.workable.Gives (g.raw e) s) : g.workable.Closed where
  toComposes := composes_workable
  toLasts := lasts_workable
  toMakes := makes_workable
  toCalls := calls_workable
  raw _ := hg _ _
  lowers _ _ := trivial
  applies _ := trivial
  covers _ := Lexicon.covers_all
  returns := trivial
  resolve _ _ := workable_meets workable_resolve fun _ _ => trivial
  retype _ _ _ _ := workable_meets (.of_context fun _ => rfl) fun _ _ => trivial
  newTemporary _ := workable_newTemporary
  variableType _ _ := trivial
  computedType _ _ := trivial
  methodDirective? _ := workable_meets (.askMembers (.method _)) fun _ _ => trivial
  asks hask := workable_meets (.askMembers hask) fun _ _ => trivial
  propertyOf? _ := workable_meets workable_propertyOf? fun _ _ _ _ => trivial
  earlyForm? _ := workable_meets workable_earlyForm? fun _ _ _ _ => trivial
  liftIn hn ht := lifting_workable.gives hn ht
  unsupported _ := workable_meets (workable_warn.bind fun _ _ _ => .pure trivial)
    fun _ _ => trivial

/-- All statements are welcome. -/
def workableStatements (g : Lowerer) : Layout g.workable :=
  .ofNodes _ (fun _ _ => True) fun _ _ _ => True

theorem layout_workable (hg : ∀ e s, g.workable.Gives (g.raw e) s) :
    g.workableStatements.Closed := by
  refine Layout.OnNodes.closed ?nodes (closed_workable hg) ?descends ?provides
  case nodes =>
    exact {
      inside := fun {_ _ s _ _} hx => workable_meets (s := s)
        (hx.mono fun _ _ _ => trivial).thenRestore.modifying fun _ _ _ _ => trivial
      later := fun _ _ => trivial
      weaken := fun _ => trivial
      value := fun _ => trivial
      construct := fun _ _ => trivial
      guardedRegion := fun _ _ => trivial }
  case descends =>
    exact {
      split := fun _ => ⟨trivial, trivial⟩
      member := fun _ _ => trivial
      expression := fun _ => trivial
      resolve := fun _ => workable_meets workable_resolve fun _ _ => trivial
      caughtType := fun _ => ⟨trivial, trivial⟩ }
  case provides =>
    exact {
      newLoop := workable_meets (.of_context fun _ => rfl) fun _ _ => trivial
      newCaught := workable_meets (.of_context fun _ => rfl) fun _ _ => trivial
      pinned := fun _ _ _ => trivial
      released := fun _ => trivial }

end Lowerer

/-! ### Methods -/

theorem workable_lowerUpTo (env : Env) (method : Method) : ∀ (levels : Nat) (e : Cil.Expr)
    (c : Context), Workable env State.mk (lowerUpTo env method levels e) c fun _ _ => True
  | 0, _, _ => .throw
  | levels + 1, e, c => by
    have hg := Lowerer.closed_workable (g := ⟨env, method, lowerUpTo env method levels⟩)
      fun e s => Lowerer.workable_meets (workable_lowerUpTo env method levels e _) fun _ _ => trivial
    refine (Workable.of_context fun _ => rfl).bind fun _ _ _ => ?_
    refine Workable.ofExcept.bind fun _ _ _ => ?_
    refine .modifying (.thenRestore ?_)
    exact (hg.apply_ruleOf (s := ⟨_, .start⟩) (e := e) trivial).mono fun _ _ _ => trivial

/-- Lowering a body is workable. -/
theorem workable_lowerBody (env : Env) (body : Cil.MethodBody) (c : Context) :
    Workable env State.mk (lowerBody env body) c fun _ _ => True := by
  have hraw (e : Cil.Expr) (s : State) :
      (Lowerer.ofMethod env body.method).workable.Gives
        ((Lowerer.ofMethod env body.method).raw e) s :=
    Lowerer.workable_meets (workable_lowerUpTo env body.method _ e _) fun _ _ => trivial
  have hg := Lowerer.closed_workable hraw
  have hresolve : ∀ v ∈ declaredVariables body, ∀ s,
      (Lowerer.ofMethod env body.method).workable.Meets
        ((Lowerer.ofMethod env body.method).resolve v) s fun _ _ => True :=
    fun _ _ _ => Lowerer.workable_meets Lowerer.workable_resolve fun _ _ => trivial
  refine (hg.each (s := ⟨c, .start⟩) (fun _ _ _ _ h => h) hresolve).bind fun c _ _ => ?_
  refine (Layout.Closed.statements (s := ⟨c, .start⟩) hg (Lowerer.layout_workable hraw)
    trivial).bind fun c _ _ => ?_
  exact (Workable.of_context fun _ => rfl).bind fun _ _ _ => .pure trivial

theorem Worker.exists_orStub {ρ α β : Type} (env : Env) (w : Worker (Except Error α × ρ))
    (result : α → ρ → β) (stub : Error → β) (concern : Concern) (lead name : String) :
    ∃ v : Worker β, ∀ s, (∀ a, (w.run env s).1.1 = .ok a →
        v.run env s = (result a (w.run env s).1.2, (w.run env s).2))
      ∧ ∀ e, (w.run env s).1.1 = .error e →
        v.run env s = (stub e, recordFailure (w.run env s).2 concern lead name e) := by
  refine w.exists_next env (R := fun r s after => (∀ a, r.1 = .ok a → after = (result a r.2, s))
    ∧ ∀ e, r.1 = .error e → after = (stub e, recordFailure s concern lead name e)) ?_
  rintro ⟨answer, r⟩
  cases answer with
  | ok a =>
    refine ⟨.done (result a r), fun s => ⟨fun a' h => ?_, fun e h => ?_⟩⟩
    · obtain rfl := Except.ok.inj h
      rfl
    · cases h
  | error e =>
    refine ⟨.write .warn (lead ++ e.message)
      (.record ⟨.error, concern, e.message, some name, none⟩ (.done (stub e))),
      fun s => ⟨fun a h => ?_, fun e' h => ?_⟩⟩
    · cases h
    · obtain rfl := Except.error.inj h
      rfl

theorem exists_worker_lowerOrStub (env : Env) (body : Cil.MethodBody) :
    ∃ w : Worker Outcome, ∀ s, w.run env s = lowerOrStub env body s := by
  obtain ⟨w, -, hrun⟩ := workable_lowerBody env body
    (.start env.settings.autoCast env.settings.maxRecursionDepth)
  obtain ⟨v, hv⟩ := w.exists_orStub env (fun m _ => Outcome.lowered m)
    (.stubbed (stub env.settings body)) .method
    ("Replacing " ++ body.method.fullName ++ " with a stub: ") body.method.fullName
  refine ⟨v, fun s => ?_⟩
  simp only [lowerOrStub, lower, hrun s]
  cases h : (w.run env s).1.1 with
  | ok m => exact (hv s).1 m h
  | error e => exact (hv s).2 e h

end ScriptLowering.Lowering
