import ScriptLowering.Proofs.Lowering.Abiding
import ScriptLowering.Proofs.Lowering.Method

/-!
# Methods abide

Statements take no depth: what is lowered after or inside of them starts at the level at which they
started. So for a whole body only the heights of its expressions matter (`abides_lowerBody`).
-/

namespace ScriptLowering.Lowering

open Script

variable {j : Job} {g : Lowerer} {k : Nat} {r : Reach} {s : State}

/-! ### Statements -/

theorem proper_construct {form : Form} {ns : List Node} (hform : form.isConstruct = true)
    (h : ∀ n ∈ ns, Proper j s n) : Proper j s ⟨form, ns⟩ :=
  .common (by cases form <;> first | rfl | cases hform) h

namespace Lowerer

/-- Statements are proper trees. Of a body, only the heights of its expressions matter. -/
def properStatements (g : Lowerer) (k : Nat) (r : Reach) : Layout (g.properTrees k r) :=
  .ofNodes _ (fun _ parts => Cil.Part.Within r.height parts) fun s _ n => Proper (g.job k) s n

theorem Abiding.layout (hg : g.Abiding k r) : (g.properStatements k r).Closed := by
  refine Layout.OnNodes.closed ?nodes hg.closed ?descends ?provides
  case nodes =>
    exact {
      inside := .withTarget fun _ _ _ hscope hsession h n hn => (h n hn).of_eq hscope hsession
      later := fun h hn => hn.later h
      weaken := id
      value := id
      construct := proper_construct
      guardedRegion := fun _ h => .common rfl h }
  case descends =>
    exact {
      split := Cil.Part.within_append.mp
      member := fun h ha => Cil.Part.within_flatMap.mp h _ ha
      expression := fun h => h.expression
      resolve := fun _ => Abides.resolve
      caughtType := fun h => ⟨trivial, h⟩ }
  case provides =>
    exact {
      newLoop := .step rfl fun _ =>
        ⟨⟨⟨rfl, .refl _, Nat.le_succ _⟩, .refl _, id, [], by simp⟩, trivial⟩
      newCaught := (Abides.declaring (f := id)).mono fun _ _ _ ⟨_, hw, hv⟩ => hv ▸ hw
      pinned := fun hv hn _ =>
        (proper_ofVariable hv).orderly.assign (orderly_simple rfl (List.forall_mem_singleton.mpr hn))
      released := fun hv => (proper_ofVariable hv).around rfl }

theorem Abiding.statements (hg : g.Abiding k r) {body : List Cil.Stmt}
    (h : Cil.Part.Within r.height (Cil.Stmt.partsList body)) :
    Abides (g.job k) r (g.statements body) s (fun s' ns => ∀ n ∈ ns, Proper (g.job k) s' n) :=
  Layout.Closed.statements hg.closed hg.layout h

end Lowerer

/-! ### Methods -/

/-- The job of lowering a method from a session on. -/
def Job.ofBody (env : Env) (body : Cil.MethodBody) (session : Session) : Job :=
  ⟨env, body.method, session.diagnostics.entries.length⟩

theorem Job.fits_initial (env : Env) (body : Cil.MethodBody) (session : Session) :
    (Job.ofBody env body session).Fits (.initial env session) :=
  ⟨Scope.typed_empty, Nat.le_refl _⟩

variable {body : Cil.MethodBody} {session : Session}

theorem abides_lowerBody {env : Env} {height : Nat}
    (hbody : Cil.Part.Within height (Cil.Stmt.partsList body.statements)) :
    Abides (.ofBody env body session) ⟨env.settings.maxRecursionDepth + 1, height⟩
      (lowerBody env body) (.initial env session) (fun s' m =>
        m.method = body.method ∧ m.scope = s'.context.scope
          ∧ Proper (.ofBody env body session) s' m.body) := by
  have hresolve : ∀ v ∈ declaredVariables body, ∀ s, Abides (.ofBody env body session)
      ⟨env.settings.maxRecursionDepth + 1, height⟩
      ((Lowerer.ofMethod env body.method).resolve v) s fun _ _ => True :=
    fun v _ s => Abides.resolve.mono fun _ _ _ _ => trivial
  have hg : (Lowerer.ofMethod env body.method).Abiding session.diagnostics.entries.length
      ⟨env.settings.maxRecursionDepth + 1, height⟩ := abiding_ofMethod env body.method height
  refine (hg.closed.each (fun _ _ _ _ h => h) hresolve).bind fun s₁ _ _ _ => ?_
  refine (hg.statements hbody).bind fun s₂ statements _ hstatements => ?_
  exact .reading _ rfl (.pure ⟨rfl, rfl, proper_construct rfl hstatements⟩)

theorem lower_conforms {env : Env} {session' : Session} {result : Except Error Lowered}
    (h : lower env body session = (result, session')) :
    ∃ warnings, session'.diagnostics.entries = session.diagnostics.entries ++ warnings
      ∧ (∀ d ∈ warnings, d.Warns body.method)
      ∧ ∀ m, result = .ok m → m.method = body.method
        ∧ ∀ n ∈ m.body.selfAndDescendants, (n.form.isUnsupported = true → warnings ≠ [])
          ∧ (env.settings.earlyIntrinsics = false → Regular env.core m.scope n) := by
  obtain ⟨s', hrun, rfl⟩ := exists_run_of_lower h
  obtain ⟨height, hbody⟩ := Cil.Part.exists_within (Cil.Stmt.partsList body.statements)
  obtain ⟨⟨-, hproceeds⟩, hend⟩ :=
    (abides_lowerBody hbody).of_run (Job.fits_initial env body session) hrun
  obtain ⟨warnings, hentries, hwarns⟩ := hproceeds.records
  refine ⟨warnings, hentries, hwarns, ?_⟩
  rcases hend with ⟨m, rfl, hmethod, hscope, hm⟩ | ⟨e, rfl, -⟩
  · rintro _ ⟨⟩
    refine ⟨hmethod, fun n hn => ⟨fun hunsupported hnone => ?_, fun hkeeps => ?_⟩⟩
    · -- Without new records there is no warning.
      obtain ⟨d, hd, -⟩ := (hm.orderly n hn).supported hunsupported
      rw [hentries, hnone, List.append_nil] at hd
      simp [Job.ofBody, State.initial] at hd
    · rw [hscope]
      exact (hm.orderly n hn).regular hkeeps
  · simp

theorem isLocation_of_lower {env : Env} {session' : Session} {m : Lowered}
    (h : lower env body session = (.ok m, session')) {n o : Node}
    (hn : n ∈ m.body.selfAndDescendants) (hform : n.form.isUpdate = true)
    (ho : n.operands.head? = some o) : o.isLocation = true := by
  obtain ⟨s', hrun, -⟩ := exists_run_of_lower h
  obtain ⟨height, hbody⟩ := Cil.Part.exists_within (Cil.Stmt.partsList body.statements)
  rcases (abides_lowerBody hbody).of_run (Job.fits_initial env body session) hrun
    with ⟨-, ⟨_, ⟨⟩, -, -, hm⟩ | ⟨_, ⟨⟩, -⟩⟩
  exact (hm.orderly n hn).updated hform o ho

theorem lower_spares {env : Env}
    (hbody : Cil.Part.Within env.settings.maxRecursionDepth (Cil.Stmt.partsList body.statements))
    {e : Error} (h : (lower env body session).1 = .error e) : e.exceedsDepth = false := by
  rcases hlower : lower env body session with ⟨result, session'⟩
  rw [hlower] at h
  obtain rfl : result = .error e := h
  obtain ⟨s', hrun, -⟩ := exists_run_of_lower hlower
  rcases (abides_lowerBody hbody).of_run (Job.fits_initial env body session) hrun
    with ⟨-, ⟨_, ⟨⟩, -⟩ | ⟨_, ⟨⟩, hspares⟩⟩
  refine hspares ⟨?_, ?_⟩
  · exact Nat.le_of_eq (Nat.zero_add _)
  · change env.settings.maxRecursionDepth < 0 + (env.settings.maxRecursionDepth + 1)
    omega

end ScriptLowering.Lowering
