import ScriptLowering.Proofs.Canonical.Declaration
import ScriptLowering.Proofs.Canonical.TidyPass
import ScriptLowering.Proofs.Lowering.TidyMethod
import ScriptLowering.Proofs.Script.Use

/-!
# Temporaries are assigned before they are read

Lowering and the passes put values into temporaries: indices of elements, operands of lifted
operations, old values of increments, receivers of properties and caught exceptions. Where no
variable of a method body has the name of a temporary, the first use of a temporary after the
declaration is as the target of an assignment or as the variable of a handler
(`temporaries_assigned_first`).
-/

namespace ScriptLowering

open Script Lowering Canonical

/-- A body without the declaration at its start. -/
def Script.Node.withoutDeclaration : Node → Node
  | ⟨form, ⟨.variableDeclaration, _⟩ :: statements⟩ => ⟨form, statements⟩
  | n => n

theorem withoutDeclaration_declareVariables {derived : Prop} {m : Lowered}
    (hm : m.Formed derived) : (declareVariables m).2.body.withoutDeclaration = m.body := by
  rw [body_declareVariables hm, declarations]
  split
  · rw [List.nil_append, ← hm.body_eq]
    unfold Node.withoutDeclaration
    split
    · next form vs statements hbody =>
      refine absurd rfl (hm.not_declaration ⟨.variableDeclaration, vs⟩ ?_)
      simp [hbody, Node.selfAndDescendants_mk]
    · rfl
  · exact hm.body_eq.symm

/-- Variables that are named like temporaries are assigned before they are read. -/
def temporariesFirst : Discipline where
  allows _ := True
  tracks v := ∃ k, v.name = Scope.temporaryName k
  canonical _ := trivial
  decoded _ := trivial

theorem admits_temporariesFirst {c : Core} {parts : List Cil.Part}
    (hnames : ∀ u, .variable u ∈ parts → ∀ k, u.name ≠ Scope.temporaryName k) :
    Admits temporariesFirst c parts where
  untracked := by
    rintro u hu w hname ⟨k, hk⟩
    exact hnames u hu k (hname.symm.trans hk)
  amounts _ _ _ _ _ _ _ _ _ := trivial

/-- Where no variable of a method body is named like a temporary, temporaries are assigned or catch
an exception in the lowered body before they are read. -/
theorem temporaries_assigned_first {env : Env} {settings : Settings} {body : Cil.MethodBody}
    {session session' : Session} {m : Lowered}
    (hnames : ∀ u, .variable u ∈ body.parts → ∀ k, u.name ≠ Scope.temporaryName k)
    (h : lowerMethod env (.standard settings) body session = (.lowered m, session'))
    {v : Variable} {k : Nat} (hv : v.name = Scope.temporaryName k) :
    AssignedFirst v (m.body.withoutDeclaration.uses .read) := by
  obtain ⟨m₀, ⟨hm₀, htidy⟩, rfl⟩ := ends_of_lowerMethod
    (P := fun m => m.Formed False ∧ Tidy temporariesFirst false [] m.body)
    (fun _ hm => hm.1.undeclared)
    (fun _ _ hlower =>
      ⟨formed_of_lower hlower, tidy_lower (admits_temporariesFirst hnames) hlower⟩)
    (fun _ hp _ hw => ⟨Pass.formed_step hp hw.1, Pass.tidy_step hp hw.2⟩) h
  rw [withoutDeclaration_declareVariables hm₀]
  exact Tidy.assignedFirst (d := temporariesFirst) ⟨k, hv⟩ htidy
    fun hmem => absurd hmem List.not_mem_nil

/-- A method that adds two to a local in a protected region, and keeps a caught exception. -/
def guardedMethod : Cil.MethodBody :=
  let count : Cil.Variable := ⟨"count", Core.standard.int32, .localSlot 0, false⟩
  let error : Cil.Variable := ⟨"error", Core.standard.exception, .localSlot 1, false⟩
  let address : Cil.Expr := .plain .ldloca (.var count) []
  { loopingMethod with
    parameters := []
    locals := [count, error]
    statements :=
      [.guarded [.expression (.plain .postIncrement (.int32 2) [address])]
        [.mk Core.standard.exception (some error) []] none none] }

/-- Both temporaries of the guarded method, for the old value and for the exception, are used after
the declaration, and neither is read first. -/
theorem guardedMethod_assigns_first :
    (∀ u, .variable u ∈ guardedMethod.parts → ∀ k, u.name ≠ Scope.temporaryName k)
      ∧ ∃ m session', lowerMethod plainEnv (.standard .standard) guardedMethod .start
          = (.lowered m, session')
        ∧ ∀ k < 2, ∃ u ∈ m.body.withoutDeclaration.uses .read,
            u.var.name = Scope.temporaryName k
              ∧ AssignedFirst u.var (m.body.withoutDeclaration.uses .read) := by
  have hnames : ∀ u, .variable u ∈ guardedMethod.parts → ∀ k, u.name ≠ Scope.temporaryName k := by
    intro u hu k
    refine Scope.ne_temporaryName ?_ k
    have hall : (guardedMethod.parts.filterMap Cil.Part.variable?).all
        (·.name.toList.head? != some '$') = true := by
      decide +kernel
    exact bne_iff_ne.mp (List.all_eq_true.mp hall u (List.mem_filterMap.mpr ⟨_, hu, rfl⟩))
  have hchecks : let outcome := (lowerMethod plainEnv (.standard .standard) guardedMethod .start).1
      outcome.isStub = false
        ∧ ∀ k < 2, (outcome.method.body.withoutDeclaration.uses .read).any
            (·.var.name == Scope.temporaryName k) = true := by
    decide +kernel
  refine ⟨hnames, ?_⟩
  rcases h : lowerMethod plainEnv (.standard .standard) guardedMethod .start
    with ⟨m | ⟨m, e⟩, session'⟩ <;> rw [h] at hchecks <;> obtain ⟨hstub, huses⟩ := hchecks
  · refine ⟨m, session', rfl, fun k hk => ?_⟩
    obtain ⟨u, hu, hname⟩ := List.any_eq_true.mp (huses k hk)
    have hname : u.var.name = Scope.temporaryName k := eq_of_beq hname
    exact ⟨u, hu, hname, temporaries_assigned_first hnames h hname⟩
  · cases hstub

end ScriptLowering
