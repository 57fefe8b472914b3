import ScriptLowering.Proofs.Canonical.Declaration
import ScriptLowering.Proofs.Lowering.AbidingMethod

/-!
# Losses are recorded

What a method loses on its way to canonical form is recorded (`Accounts`). A method that becomes a
stub, because lowering or a pass failed, leaves one error that names it; no other method leaves an
error, since everything else that is recorded is a warning. A part that has no script form was
warned of when it was lowered, and passes neither introduce such parts nor take warnings back.
-/

namespace ScriptLowering

open Script Lowering Canonical

/-- What is recorded about a method and its outcome. -/
structure Accounts (m : Method) (outcome : Outcome) (recorded : List Diagnostic) : Prop where
  method : outcome.method.method = m
  errors : (recorded.filter (·.severity == .error)).map (·.method?)
    = if outcome.isStub then [some m.fullName] else []
  warned : outcome.isStub = false → ¬outcome.method.body.Supported → ∃ d ∈ recorded, d.Warns m

/-! ### One method -/

variable {warnings : List Diagnostic}

/-- Warnings are no errors. -/
theorem filter_error_of_warns {m : Method} (h : ∀ d ∈ warnings, d.Warns m) :
    warnings.filter (·.severity == .error) = [] := by
  refine List.filter_eq_nil_iff.mpr fun d hd => ?_
  rw [(h d hd).1]
  decide

theorem accounts_recordFailure {env : Env} {body : Cil.MethodBody} {session session' : Session}
    (hentries : session'.diagnostics.entries = session.diagnostics.entries ++ warnings)
    (hwarns : ∀ d ∈ warnings, d.Warns body.method) (concern : Concern) (lead : String) (e : Error) :
    ∃ recorded,
      (recordFailure session' concern lead body.method.fullName e).diagnostics.entries
          = session.diagnostics.entries ++ recorded
        ∧ Accounts body.method (.stubbed (stub env.settings body) e) recorded := by
  refine ⟨warnings ++ [⟨.error, concern, e.message, some body.method.fullName, none⟩], ?_, rfl, ?_,
    nofun⟩
  · change session'.diagnostics.entries ++ [_] = _
    rw [hentries, List.append_assoc]
  · rw [List.filter_append, filter_error_of_warns hwarns]
    rfl

theorem Canonical.pipeline_supported {env : Env} {pipeline : Pipeline} {w w' : Work}
    {answer : Except Error Bool} (h : (pipeline.run env).run w = (answer, w')) :
    w'.method.method = w.method.method
      ∧ (w.method.body.Supported → w'.method.body.Supported)
      ∧ w'.session.diagnostics = w.session.diagnostics := by
  have hmethod : ∀ (p : Pass) (w : Work), (p.step env w).2.method.method = w.method.method := by
    intro p w
    cases p with
    | declarations =>
      change (declareVariables w.method).2.method = _
      unfold declareVariables
      split <;> rfl
    | _ => rfl
  have hkeeps : Leads (pipeline.run env) w _ _ :=
    pipeline_keeps
      (I := fun w' => w'.method.method = w.method.method
        ∧ (w.method.body.Supported → w'.method.body.Supported)
        ∧ w'.session.diagnostics = w.session.diagnostics)
      (fun _ _ h => h)
      (fun p w' hw' => ⟨(hmethod p w').trans hw'.1, fun hw => p.supported_step (hw'.2.1 hw),
        (p.diagnostics_step w').trans hw'.2.2⟩)
      ⟨rfl, id, rfl⟩
  rcases hkeeps.of_run h with ⟨_, _, h⟩ | ⟨_, h⟩ <;> exact h

theorem lowerMethod_accounts (env : Env) (pipeline : Pipeline) (body : Cil.MethodBody)
    (session : Session) :
    ∃ recorded, (lowerMethod env pipeline body session).2.diagnostics.entries
        = session.diagnostics.entries ++ recorded
      ∧ Accounts body.method (lowerMethod env pipeline body session).1 recorded := by
  unfold lowerMethod lowerOrStub
  rcases hlower : lower env body session with ⟨e | m, session'⟩
  · -- Lowering failed, after some warnings.
    obtain ⟨warnings, hentries, hwarns, -⟩ := lower_conforms hlower
    exact accounts_recordFailure hentries hwarns ..
  · obtain ⟨warnings, hentries, hwarns, hm⟩ := lower_conforms hlower
    obtain ⟨hmethod, hconforms⟩ := hm m rfl
    simp only [canonicalOrStub]
    rcases hrun : (pipeline.run env).run ⟨m, session'⟩ with ⟨e | changed, w⟩
    · -- A pass failed, and passes record nothing themselves.
      obtain ⟨-, -, hdiagnostics⟩ := pipeline_supported hrun
      rw [← hdiagnostics] at hentries
      exact accounts_recordFailure hentries hwarns ..
    · obtain ⟨hkept, hsupported, hdiagnostics⟩ := pipeline_supported hrun
      refine ⟨warnings, by rw [hdiagnostics, hentries], hkept.trans hmethod, ?_, ?_⟩
      · rw [filter_error_of_warns hwarns]
        rfl
      · -- What has no script form now had none before the passes.
        intro _ hunsupported
        obtain ⟨n, hn, hform⟩ := Node.not_supported_iff.mp fun h => hunsupported (hsupported h)
        obtain ⟨d, hd⟩ := List.exists_mem_of_ne_nil _ ((hconforms n hn).1 hform)
        exact ⟨d, hd, hwarns d hd⟩

/-! ### Batches -/

theorem lowerAll_accounts (env : Env) (pipeline : Pipeline) :
    ∀ (bodies : List Cil.MethodBody) (session : Session), ∃ recorded : List (List Diagnostic),
      (lowerAll env pipeline bodies session).2.diagnostics.entries
          = session.diagnostics.entries ++ recorded.flatten
        ∧ List.Forall₂ (fun outcome records =>
            Accounts outcome.method.method outcome records)
          (lowerAll env pipeline bodies session).1 recorded
        ∧ (lowerAll env pipeline bodies session).1.map (·.method.method) = bodies.map (·.method)
  | [], session => ⟨[], (List.append_nil _).symm, .nil, rfl⟩
  | body :: rest, session => by
    obtain ⟨first, hfirst, haccounts⟩ := lowerMethod_accounts env pipeline body session
    obtain ⟨others, hothers, hall, hmethods⟩ :=
      lowerAll_accounts env pipeline rest (lowerMethod env pipeline body session).2
    have hown : Accounts (lowerMethod env pipeline body session).1.method.method
        (lowerMethod env pipeline body session).1 first := by
      rw [haccounts.method]
      exact haccounts
    refine ⟨first :: others, ?_, .cons hown hall, congrArg₂ List.cons haccounts.method hmethods⟩
    rw [List.flatten_cons, ← List.append_assoc, ← hfirst]
    exact hothers

variable {outcomes : List Outcome} {recorded : List (List Diagnostic)}

theorem errors_of_accounts
    (h : List.Forall₂ (fun outcome records => Accounts outcome.method.method outcome records)
      outcomes recorded) :
    (recorded.flatten.filter (·.severity == .error)).map (·.method?)
      = (outcomes.filter (·.isStub)).map (fun o => some o.method.method.fullName) := by
  induction h with
  | nil => rfl
  | @cons outcome _ _ _ haccounts _ ih =>
    rw [List.flatten_cons, List.filter_append, List.map_append, haccounts.errors, ih,
      List.filter_cons]
    cases outcome.isStub <;> rfl

theorem exists_accounts
    (h : List.Forall₂ (fun outcome records => Accounts outcome.method.method outcome records)
      outcomes recorded)
    {outcome : Outcome} (houtcome : outcome ∈ outcomes) :
    ∃ records ∈ recorded, Accounts outcome.method.method outcome records := by
  induction h with
  | nil => cases houtcome
  | cons haccounts _ ih =>
    rcases List.mem_cons.mp houtcome with rfl | hrest
    · exact ⟨_, List.mem_cons_self, haccounts⟩
    · obtain ⟨records, hrecords, haccounts⟩ := ih hrest
      exact ⟨records, List.mem_cons_of_mem _ hrecords, haccounts⟩

/-- A method of one instruction without an operand. -/
def bareMethod (name : String) (code : Cil.Opcode) : Cil.MethodBody where
  method :=
    { loopingMethod.method with
      name := name
      parameters := [] }
  this? := none
  parameters := []
  locals := []
  statements := [.block [.expression (.plain code .none [])]]

/-- A method that reads no variable, and one that reads variable arguments. -/
def bareBatch : List Cil.MethodBody :=
  [bareMethod "Read" .ldloc, bareMethod "List" .arglist]

end ScriptLowering
