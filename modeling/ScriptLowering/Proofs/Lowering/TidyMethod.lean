import ScriptLowering.Lowering.Method
import ScriptLowering.Proofs.Lowering.Layout
import ScriptLowering.Proofs.Lowering.Tidying

/-!
# Lowering a method is tidy

Lowering an expression yields a tree that relies on nothing around it. So do statements: a handler
relies on the exception that it catches, and nothing else relies on anything. The body of a lowered
method is tidy (`tidy_lower`).
-/

namespace ScriptLowering.Lowering

open Script

/-! ### Statements -/

theorem tidy_construct {d : Discipline} {defined : List Variable} {form : Form} {ns : List Node}
    (hform : form.isConstruct = true) :
    Tidy d false defined ⟨form, ns⟩ ↔ ∀ n ∈ ns, Tidy d false defined n :=
  tidy_ordinary (by cases form <;> first | rfl | cases hform)

namespace Lowerer

variable {g : Lowerer} {d : Discipline}

/-- Statements are tidy. -/
def tidyStatements (g : Lowerer) (d : Discipline) : Layout (g.tidyTrees d) :=
  .ofNodes _ (fun _ parts => Admits d g.core parts) fun _ vs n => Tidy d false vs n

theorem Tidies.layout (hg : g.Tidies d) : (g.tidyStatements d).Closed := by
  refine Layout.OnNodes.closed ?nodes hg.closed ?descends ?provides
  case nodes =>
    exact {
      inside := fun h => Leads.bind (leads_thenRestore h)
      later := fun _ hn => hn
      weaken := fun hn => hn.anywhere
      value := fun hn => hn.settled
      construct := fun hform => (tidy_construct hform).mpr
      guardedRegion := fun _ h => tidy_tryCatch.mpr (by simpa using h) }
  case descends =>
    exact {
      split := fun h => ⟨h.left, h.right⟩
      member := fun h ha => h.member ha
      expression := id
      resolve := fun h =>
        tidyTrees_meets (yields_resolve (h.untracked _ (List.mem_singleton_self _))) fun _ _ hw => hw
      caughtType := fun h => ⟨trivial, h⟩ }
  case provides =>
    exact {
      newLoop := tidyTrees_meets .any fun _ _ h => h
      newCaught := tidyTrees_meets .any fun _ _ h => h
      pinned := fun hv hn _ => hg.closed.assignment hv ((tidy_ordinary_singleton rfl).mpr hn) rfl
        trivial
      released := fun hv => (tidy_ordinary_singleton rfl).mpr hv }

theorem Tidies.statements (hg : g.Tidies d) {body : List Cil.Stmt}
    (h : Admits d g.core (Cil.Stmt.partsList body)) :
    Yields (g.statements body) fun ns => ∀ n ∈ ns, Tidy d false [] n :=
  fun _ => Layout.Closed.statements hg.closed hg.layout h

end Lowerer

/-! ### Methods -/

/-- The body of a lowered method is tidy. -/
theorem tidy_lower {d : Discipline} {env : Env} {body : Cil.MethodBody} {m : Lowered}
    {session session' : Session} (hadmits : Admits d env.core body.parts)
    (h : lower env body session = (.ok m, session')) : Tidy d false [] m.body := by
  have hbody : Yields (lowerBody env body) fun m => Tidy d false [] m.body := by
    refine .after fun _ => ?_
    refine (tidies_ofMethod.statements hadmits.right).bind fun ns hns => ?_
    exact .after fun c => .pure ((tidy_construct rfl).mpr hns)
  unfold lower at h
  simp only at h
  rcases hrun : (lowerBody env body).run
    ⟨.start env.settings.autoCast env.settings.maxRecursionDepth, session⟩ with ⟨result, state⟩
  rw [hrun] at h
  cases h
  rcases (hbody _).of_run hrun with ⟨a, ha, htidy⟩ | ⟨⟨e, he⟩, -⟩
  · cases ha
    exact htidy
  · cases he

end ScriptLowering.Lowering
