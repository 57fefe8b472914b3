import ScriptLowering.Proofs.Canonical.Declaration
import ScriptLowering.Proofs.Canonical.TidyPass
import ScriptLowering.Proofs.Lowering.TidyMethod

/-!
# The constants of lowered bodies

The integer and enumeration constants of a lowered body are canonical, with two exceptions
(`Literal.Accounted`): the amount of an increment is written as it stands, and so are the elements
of a blob whose type is an enumeration and also of another primitive kind. Whatever passes run
afterwards add no others (`literals_accounted`).
-/

namespace ScriptLowering

open Script Lowering Canonical

/-- A constant that lowering a method body accounts for. -/
inductive Script.Literal.Accounted (c : Core) (body : Cil.MethodBody) : Literal → Prop where
  | canonical {l : Literal} (h : l.isCanonical = true) : Accounted c body l
  /-- The amount of an increment, which is neither one nor minus one. -/
  | amount {e : Cil.Expr} {delta : Int64} {kind : Primitive} (he : .expression e ∈ body.parts)
      (hcode : e.code = .postIncrement) (hdelta : incrementDelta? e.operand = some delta)
      (hone : delta ≠ 1) (hminus : delta ≠ -1) (hkind : kind.isIntegral = true) :
      Accounted c body (.ofKind c kind delta)
  /-- An element of a blob, as the primitive kind that its type is also of has it. -/
  | decoded {t : Ty} {k : Primitive} {v : Int64} (h : t.IsAlso k) :
      Accounted c body (.ofEnum t (k.wrap v))

/-- The constants of a method body, whatever its variables are. -/
def constantsOf (c : Core) (body : Cil.MethodBody) : Discipline where
  allows := Literal.Accounted c body
  tracks _ := False
  canonical := .canonical
  decoded := .decoded

theorem admits_constantsOf (c : Core) (body : Cil.MethodBody) :
    Admits (constantsOf c body) c body.parts where
  untracked _ _ _ _ := id
  amounts _ he hcode _ hdelta hone hminus _ hkind := .amount he hcode hdelta hone hminus hkind

theorem tidy_declareVariables {d : Discipline} (hfree : ∀ v, ¬d.tracks v) {m : Lowered}
    (hm : Tidy d false [] m.body) : Tidy d false [] (declareVariables m).2.body := by
  have hdeclaration : ∀ vs : List Variable,
      Tidy d false [] ⟨.variableDeclaration, vs.map .ofVariable⟩ := by
    refine fun vs => (tidy_ordinary rfl).mpr fun o ho => ?_
    obtain ⟨v, -, rfl⟩ := List.mem_map.mp ho
    exact tidy_ofVariable.mpr fun htracked => absurd htracked (hfree v)
  unfold declareVariables
  split
  · exact hm
  · show Tidy d false [] (prepend _ m.body)
    unfold prepend
    split
    · next hbody =>
      rw [hbody] at hm
      refine (tidy_construct rfl).mpr (List.forall_mem_cons.mpr ⟨hdeclaration _, ?_⟩)
      exact (tidy_construct rfl).mp hm
    · refine (tidy_construct rfl).mpr (List.forall_mem_cons.mpr ⟨hdeclaration _, ?_⟩)
      exact List.forall_mem_singleton.mpr hm

theorem Canonical.Pass.tidy_step_of_free {d : Discipline} (hfree : ∀ v, ¬d.tracks v)
    {env : Env} (p : Pass) {w : Work} (hw : Tidy d false [] w.method.body) :
    Tidy d false [] (p.step env w).2.method.body := by
  by_cases hp : p = .declarations
  · rw [hp]
    exact tidy_declareVariables hfree hw
  · exact Pass.tidy_step hp hw

/-- The constants of a lowered body are canonical, apart from amounts of increments and elements of
blobs, and so are those of the body after passes, however these end. -/
theorem literals_accounted {env : Env} {session session' : Session} {body : Cil.MethodBody}
    {m : Lowered} (hlower : lower env body session = (.ok m, session')) :
    (∀ n ∈ m.body.selfAndDescendants, ∀ l, n.form = .literal l → l.Accounted env.core body)
    ∧ ∀ (passEnv : Env) (pipeline : Pipeline) (passSession : Session)
        (answer : Except Error Bool) (w : Work),
        (pipeline.run passEnv).run ⟨m, passSession⟩ = (answer, w) →
        ∀ n ∈ w.method.body.selfAndDescendants, ∀ l, n.form = .literal l →
          l.Accounted env.core body := by
  have hm : Tidy (constantsOf env.core body) false [] m.body :=
    tidy_lower (admits_constantsOf env.core body) hlower
  refine ⟨hm.allows, ?_⟩
  intro passEnv pipeline passSession answer w hrun
  have hkeeps : Leads (pipeline.run passEnv) ⟨m, passSession⟩ _ _ :=
    pipeline_keeps (I := fun w => Tidy (constantsOf env.core body) false [] w.method.body)
      (fun _ _ hw => hw) (fun p _ hw => Pass.tidy_step_of_free (fun _ => id) p hw) hm
  rcases hkeeps.of_run hrun with ⟨_, _, hw⟩ | ⟨_, hw⟩
  · exact hw.allows
  · exact hw.allows

/-- A method that increments a local of one byte by 300. -/
def steppingMethod : Cil.MethodBody :=
  let byte : Cil.Variable := ⟨"byte", Core.standard.primitive .u1, .localSlot 0, false⟩
  let address : Cil.Expr := .plain .ldloca (.var byte) []
  { loopingMethod with
    parameters := []
    locals := [byte]
    statements := [.expression (.plain .postIncrement (.int32 300) [address])] }

/-- The constants of the stepping method are accounted for before and after the usual passes. -/
theorem steppingMethod_literals :
    ∃ m session' changed w, lower plainEnv steppingMethod .start = (.ok m, session')
      ∧ ((Pipeline.standard .standard).run plainEnv).run ⟨m, session'⟩ = (.ok changed, w)
      ∧ (∀ n ∈ m.body.selfAndDescendants, ∀ l, n.form = .literal l →
          l.Accounted plainEnv.core steppingMethod)
      ∧ ∀ n ∈ w.method.body.selfAndDescendants, ∀ l, n.form = .literal l →
          l.Accounted plainEnv.core steppingMethod := by
  have hstub : (lowerMethod plainEnv (.standard .standard) steppingMethod .start).1.isStub
      = false := by
    decide +kernel
  obtain ⟨m, session', changed, w, hlower, hrun⟩ := exists_lower_of_not_isStub hstub
  obtain ⟨hbefore, hafter⟩ := literals_accounted hlower
  exact ⟨m, session', changed, w, hlower, hrun, hbefore, hafter _ _ _ _ _ hrun⟩

/-- The stepping method is lowered to a body with a constant that is not canonical. -/
theorem stepping_amount_not_canonical :
    ∃ m session', lower plainEnv steppingMethod .start = (.ok m, session')
      ∧ ∃ n ∈ m.body.selfAndDescendants, ∃ l, n.form = .literal l ∧ l.isCanonical = false := by
  have hfound : (lower plainEnv steppingMethod .start).1.toOption.any (fun m =>
      m.body.selfAndDescendants.any fun n => n.literal?.any fun l => !l.isCanonical) = true := by
    decide +kernel
  rcases hlower : lower plainEnv steppingMethod .start with ⟨e | m, session'⟩
    <;> rw [hlower] at hfound
  · cases hfound
  · obtain ⟨n, hn, hliteral⟩ := List.any_eq_true.mp hfound
    unfold Node.literal? at hliteral
    split at hliteral
    · next l hform => exact ⟨m, session', rfl, n, hn, l, hform, by simpa using hliteral⟩
    · cases hliteral

end ScriptLowering
