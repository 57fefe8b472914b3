import ScriptLowering.Batch
import ScriptLowering.Proofs.Canonical.Pass

/-!
# The declaration at the start of a body

A variable occurs in a body as a node of its own or as the variable of a handler (`Mentions`). In a
formed method variables are told apart by their numbers, so the declaration, which is made from
numbers, names exactly the locals and temporaries that occur (`mem_declaredIn`). Nothing else
declares variables.
-/

namespace ScriptLowering

open Script Lowering Canonical

/-- A variable occurs in a tree, as a node of its own or as the variable of a handler. -/
def Script.Node.Mentions (n : Node) (v : Variable) : Prop :=
  ∃ m ∈ n.selfAndDescendants, mentioned? m = some v

namespace Canonical

/-! ### Occurrences -/

variable {v : Variable}

theorem mentions_mk {form : Form} {operands : List Node}
    (hform : mentioned? ⟨form, operands⟩ = none) :
    Node.Mentions ⟨form, operands⟩ v ↔ ∃ o ∈ operands, o.Mentions v := by
  unfold Node.Mentions
  rw [Node.selfAndDescendants_mk]
  constructor
  · rintro ⟨m, hm, hv⟩
    rcases List.mem_cons.mp hm with rfl | hm
    · rw [hform] at hv
      cases hv
    · obtain ⟨o, ho, hm⟩ := List.mem_flatMap.mp hm
      exact ⟨o, ho, m, hm, hv⟩
  · rintro ⟨o, ho, m, hm, hv⟩
    exact ⟨m, List.mem_cons_of_mem _ (List.mem_flatMap.mpr ⟨o, ho, hm⟩), hv⟩

/-- In a variable, that variable occurs. -/
@[simp] theorem mentions_ofVariable {w : Variable} : (Node.ofVariable w).Mentions v ↔ v = w := by
  simp [Node.Mentions, Node.ofVariable, Node.selfAndDescendants_mk, mentioned?, eq_comm]

/-- The numbers of the variables that occur. -/
theorem mem_mentionedIds {body : Node} {id : Nat} :
    id ∈ mentionedIds body ↔ ∃ v, body.Mentions v ∧ v.id = id := by
  simp only [mentionedIds, List.mem_map, List.mem_filterMap, Node.Mentions]

/-! ### The declared variables -/

variable {derived : Prop} {m : Lowered}

theorem mem_allVariables_of_mentions (hm : m.Formed derived) (hv : m.body.Mentions v) :
    v ∈ m.scope.allVariables := by
  obtain ⟨n, hn, hv⟩ := hv
  exact hm.body.forall_descendants (fun _ n hn v hv => hn.mentions v hv) n hn v hv

theorem mentions_body (hm : m.Formed derived) :
    m.body.Mentions v ↔ ∃ n ∈ m.body.operands, n.Mentions v := by
  rw [hm.body_eq, mentions_mk rfl]

theorem mem_declaredIn (hm : m.Formed derived) :
    v ∈ declaredIn m
      ↔ (v ∈ m.scope.locals ∨ v ∈ m.scope.temporaries) ∧ m.body.Mentions v := by
  have hall : v ∈ m.scope.locals ++ m.scope.temporaries → v ∈ m.scope.allVariables := by
    simp only [Scope.allVariables, List.append_assoc]
    exact fun h => List.mem_append_right _ h
  simp only [declaredIn, List.mem_filter, Bool.and_eq_true, List.contains_iff_mem,
    mem_mentionedIds, ← List.mem_append]
  refine and_congr_right fun hv => ?_
  rw [hm.scope.others v hv, Bool.not_false, eq_self, true_and]
  constructor
  · rintro ⟨w, hw, hid⟩
    -- The number tells the variable, because both are variables of the method.
    exact hm.scope.eq_of_id_eq (mem_allVariables_of_mentions hm hw) (hall hv) hid ▸ hw
  · exact fun h => ⟨v, h, rfl⟩

/-- No number is declared twice. -/
theorem nodup_declaredIn (hm : m.Formed derived) : ((declaredIn m).map (·.id)).Nodup := by
  have hsublist : (declaredIn m).Sublist m.scope.allVariables := by
    rw [Scope.allVariables, List.append_assoc]
    exact List.filter_sublist.trans (List.sublist_append_right _ _)
  exact hm.scope.distinct.sublist (hsublist.map _)

/-! ### The declaration -/

/-- The declaration of the variables of a method, if there are any to declare. -/
def declarations (m : Lowered) : List Node :=
  if declaredIn m = [] then [] else [⟨.variableDeclaration, (declaredIn m).map .ofVariable⟩]

theorem body_declareVariables (hm : m.Formed derived) :
    (declareVariables m).2.body = ⟨.block none, declarations m ++ m.body.operands⟩ := by
  have hprepend : ∀ declaration, prepend declaration m.body
      = ⟨.block none, declaration :: m.body.operands⟩ := by
    intro declaration
    rw [hm.body_eq]
    rfl
  unfold declareVariables declarations
  cases declaredIn m with
  | nil => simpa using hm.body_eq
  | cons v vs => simpa using hprepend _

theorem scope_declareVariables : (declareVariables m).2.scope = m.scope := by
  unfold declareVariables
  split <;> rfl

theorem mentions_declareVariables (hm : m.Formed derived) :
    (declareVariables m).2.body.Mentions v ↔ m.body.Mentions v := by
  have hdeclarations : (∃ o ∈ declarations m, o.Mentions v) → v ∈ declaredIn m := by
    unfold declarations
    split
    · simp
    · rintro ⟨o, ho, hv⟩
      obtain rfl := List.mem_singleton.mp ho
      rw [mentions_mk rfl] at hv
      simpa using hv
  rw [body_declareVariables hm, mentions_mk rfl]
  simp only [List.mem_append, or_and_right, exists_or, ← mentions_body hm]
  exact ⟨fun h => h.elim (fun h => ((mem_declaredIn hm).mp (hdeclarations h)).2) id, .inr⟩

theorem loopIndices_declareVariables (hm : m.Formed derived) :
    (declareVariables m).2.body.loopIndices = m.body.loopIndices := by
  have hdeclarations : (declarations m).flatMap Node.loopIndices = [] := by
    unfold declarations
    split
    · rfl
    · simp [Node.loopIndices_mk, Form.loopIndex?, Node.ofVariable]
  rw [body_declareVariables hm, Node.loopIndices_mk, List.flatMap_append, hdeclarations,
    List.nil_append, ← Node.loopIndices_mk, ← hm.body_eq]

theorem holdsIn_declareVariables {p : List Enclosure → Node → Prop} (hm : m.Formed derived)
    (hbody : m.body.HoldsIn p []) (hblock : ∀ operands, p [] ⟨.block none, operands⟩)
    (hdeclaration : p [] ⟨.variableDeclaration, (declaredIn m).map .ofVariable⟩)
    (hvariable : ∀ v ∈ declaredIn m, p [] (.ofVariable v)) :
    (declareVariables m).2.body.HoldsIn p [] := by
  rw [hm.body_eq, Node.holdsIn_mk, Node.holdsFrom_of_isOpen rfl] at hbody
  rw [body_declareVariables hm, Node.holdsIn_mk, Node.holdsFrom_of_isOpen rfl]
  refine ⟨hblock _, fun n hn => ?_⟩
  rcases List.mem_append.mp hn with hn | hn
  · unfold declarations at hn
    split at hn
    · cases hn
    · obtain rfl := List.mem_singleton.mp hn
      refine Node.holdsIn_mk.mpr ⟨hdeclaration, ?_⟩
      rw [Node.holdsFrom_of_isOpen rfl]
      intro o ho
      obtain ⟨v, hv, rfl⟩ := List.mem_map.mp ho
      exact Node.holdsIn_mk.mpr ⟨hvariable v hv, Node.holdsFrom_nil⟩
  · exact hbody.2 n hn

end Canonical

/-! ### Methods in canonical form -/

variable {m : Lowered} {env : Env} {body : Cil.MethodBody} {session session' : Session}

theorem exists_run_of_lowerMethod {pipeline : Pipeline}
    (h : lowerMethod env pipeline body session = (.lowered m, session')) :
    ∃ m₀ session₀ changed, lower env body session = (.ok m₀, session₀)
      ∧ (pipeline.run env).run ⟨m₀, session₀⟩ = (.ok changed, ⟨m, session'⟩) := by
  unfold lowerMethod lowerOrStub at h
  rcases hlower : lower env body session with ⟨e | m₀, session₀⟩ <;> rw [hlower] at h
  · cases h
  · simp only [canonicalOrStub] at h
    split at h
    · next changed w hrun =>
      cases h
      exact ⟨m₀, session₀, changed, rfl, hrun⟩
    · cases h

theorem ends_of_lowerMethod {P : Lowered → Prop} {settings : Settings}
    (hundeclared : ∀ m, P m → m.variablesDeclared = false)
    (hlowered : ∀ m session', lower env body session = (.ok m, session') → P m)
    (hstep : ∀ p, p ≠ Pass.declarations → ∀ w, P w.method → P (p.step env w).2.method)
    (h : lowerMethod env (.standard settings) body session = (.lowered m, session')) :
    ∃ m₀ : Lowered, P m₀ ∧ m = (declareVariables m₀).2 := by
  obtain ⟨m₁, session₁, changed, hlower, hrun⟩ := exists_run_of_lowerMethod h
  exact standard_ends hundeclared hstep (hlowered m₁ session₁ hlower) hrun

/-- Lowering gives formed methods. -/
theorem formed_of_lower (h : lower env body session = (.ok m, session')) : m.Formed False :=
  (lower_spec False.elim body False.elim).1 m (by rw [h])

theorem declares_of_lowerMethod {settings : Settings}
    (h : lowerMethod env (.standard settings) body session = (.lowered m, session')) :
    ∃ m₀ : Lowered, m₀.Formed False ∧ m = (declareVariables m₀).2 :=
  ends_of_lowerMethod (fun _ hm => hm.undeclared) (fun _ _ => formed_of_lower)
    (fun _ hp _ => Pass.formed_step hp) h

/-- A declaration that names exactly the locals and temporaries that occur in the statements after
it, each once; the statements declare nothing themselves. -/
structure Lowering.Lowered.Declares (m : Lowered) (vs : List Variable) (statements : List Node) :
    Prop where
  once : (vs.map (·.id)).Nodup
  occurring : ∀ v, v ∈ vs
    ↔ (v ∈ m.scope.locals ∨ v ∈ m.scope.temporaries) ∧ ∃ n ∈ statements, n.Mentions v
  noParameter : ∀ v ∈ vs, v ∉ m.scope.parameters
  only : ∀ n ∈ statements, ∀ o ∈ n.selfAndDescendants, o.form ≠ .variableDeclaration

theorem Lowering.Lowered.Formed.not_mem_parameters {derived : Prop} (hm : m.Formed derived)
    {v : Variable} (hv : v ∈ m.scope.locals ∨ v ∈ m.scope.temporaries) :
    v ∉ m.scope.parameters := by
  intro hparameter
  have hothers := hm.scope.others v (List.mem_append.mpr hv)
  rw [hm.scope.parameters v hparameter] at hothers
  cases hothers

theorem Lowering.Lowered.Formed.not_declaration {derived : Prop} (hm : m.Formed derived) :
    ∀ n ∈ m.body.selfAndDescendants, n.form ≠ .variableDeclaration :=
  hm.body.forall_descendants fun _ _ hn => hn.undeclared

theorem declares_declaredIn {derived : Prop} (hm : m.Formed derived) :
    (declareVariables m).2.Declares (declaredIn m) m.body.operands where
  once := nodup_declaredIn hm
  occurring v := by
    rw [scope_declareVariables, mem_declaredIn hm, mentions_body hm]
  noParameter v hv := by
    rw [scope_declareVariables]
    exact hm.not_mem_parameters ((mem_declaredIn hm).mp hv).1
  only n hn o ho := by
    refine hm.not_declaration o ?_
    rw [hm.body_eq, Node.selfAndDescendants_mk]
    exact List.mem_cons_of_mem _ (List.mem_flatMap.mpr ⟨n, hn, ho⟩)

/-- In a method that is lowered and in canonical form, every variable that occurs is one of the
method. If one of them is no parameter, the body starts with the declaration of the locals and
temporaries that occur; else nothing is declared. -/
theorem declaration_names_occurring {env : Env} {settings : Settings} {body : Cil.MethodBody}
    {session session' : Session} {m : Lowered}
    (h : lowerMethod env (.standard settings) body session = (.lowered m, session')) :
    (∀ v, m.body.Mentions v →
        v ∈ m.scope.parameters ∨ v ∈ m.scope.locals ∨ v ∈ m.scope.temporaries)
    ∧ ((∃ v, m.body.Mentions v ∧ v ∉ m.scope.parameters) →
        ∃ vs statements,
          m.body = .block (⟨.variableDeclaration, vs.map .ofVariable⟩ :: statements)
          ∧ m.Declares vs statements)
    ∧ ((∀ v, m.body.Mentions v → v ∈ m.scope.parameters) →
        ∀ n ∈ m.body.selfAndDescendants, n.form ≠ .variableDeclaration) := by
  obtain ⟨m₀, hm₀, rfl⟩ := declares_of_lowerMethod h
  have hscope : ∀ v, (declareVariables m₀).2.body.Mentions v →
      v ∈ m₀.scope.parameters ∨ v ∈ m₀.scope.locals ∨ v ∈ m₀.scope.temporaries := by
    intro v hv
    have hall := mem_allVariables_of_mentions hm₀ ((mentions_declareVariables hm₀).mp hv)
    simpa only [Scope.allVariables, List.mem_append, or_assoc] using hall
  rw [scope_declareVariables]
  refine ⟨hscope, ?_, ?_⟩
  · rintro ⟨v, hv, hparameter⟩
    have hmem : v ∈ declaredIn m₀ :=
      (mem_declaredIn hm₀).mpr ⟨(hscope v hv).resolve_left hparameter,
        (mentions_declareVariables hm₀).mp hv⟩
    refine ⟨declaredIn m₀, m₀.body.operands, ?_, declares_declaredIn hm₀⟩
    rw [body_declareVariables hm₀, declarations, if_neg (List.ne_nil_of_mem hmem)]
    rfl
  · -- Nothing but parameters is left to declare, and lowering itself declares nothing.
    intro hparameters
    have hnone : declaredIn m₀ = [] := by
      refine List.eq_nil_iff_forall_not_mem.mpr fun v hv => ?_
      obtain ⟨hv, hmentions⟩ := (mem_declaredIn hm₀).mp hv
      exact hm₀.not_mem_parameters hv
        (hparameters v ((mentions_declareVariables hm₀).mpr hmentions))
    rw [body_declareVariables hm₀, declarations, if_pos hnone, List.nil_append, ← hm₀.body_eq]
    exact hm₀.not_declaration

theorem exists_lower_of_not_isStub {pipeline : Pipeline}
    (h : (lowerMethod env pipeline body session).1.isStub = false) :
    ∃ m session' changed w, lower env body session = (.ok m, session')
      ∧ (pipeline.run env).run ⟨m, session'⟩ = (.ok changed, w) := by
  rcases houtcome : lowerMethod env pipeline body session with ⟨m | e, session'⟩ <;>
    rw [houtcome] at h
  · obtain ⟨m₀, session₀, changed, hlower, hrun⟩ := exists_run_of_lowerMethod houtcome
    exact ⟨m₀, session₀, changed, _, hlower, hrun⟩
  · cases h

/-- A run with the core types only, and without directives. -/
def plainEnv : Env :=
  ⟨.ofCore .standard, .empty, .standard⟩

/-- A method that copies its parameter to a local, and loops while the local is not zero. In the
loop stands a switch: one case leaves the switch, the other starts the next round, and after the
switch the loop is left. -/
def loopingMethod : Cil.MethodBody :=
  let int := Core.standard.int32
  let start : Cil.Variable := ⟨"start", int, .parameter 0, false⟩
  let copy : Cil.Variable := ⟨"copy", int, .localSlot 0, false⟩
  let read (v : Cil.Variable) : Cil.Expr := .plain .ldloc (.var v) []
  let jump (code : Cil.Opcode) : Cil.Stmt := .expression (.plain code .none [])
  { method :=
      { name := "Loop"
        declaringType := .named (.plain 40 "App" "P" (.ofFile "One") .classType)
        returnType := Core.standard.void
        parameters := [⟨"start", int⟩]
        genericArguments := []
        flags := { MethodFlags.empty with isStatic := true } }
    this? := none
    parameters := [start]
    locals := [copy]
    statements :=
      [.expression (.plain .stloc (.var copy) [read start]),
        .loop (some (read copy))
          [.switch (read copy)
              [.mk [1] [jump .loopOrSwitchBreak], .mk [] [jump .loopContinue]],
            jump .loopOrSwitchBreak]] }

/-- A method that copies its parameter to a local declares the local. -/
theorem loopingMethod_declares :
    ∃ m session', lowerMethod plainEnv (.standard .standard) loopingMethod .start
        = (.lowered m, session')
      ∧ ∃ vs statements,
          m.body = .block (⟨.variableDeclaration, vs.map .ofVariable⟩ :: statements)
          ∧ m.Declares vs statements := by
  have hchecks : let outcome := (lowerMethod plainEnv (.standard .standard) loopingMethod .start).1
      outcome.isStub = false
        ∧ (outcome.method.body.selfAndDescendants.filterMap mentioned?).any (!·.isParameter) = true
        ∧ outcome.method.scope.parameters.all (·.isParameter) = true := by
    decide +kernel
  rcases h : lowerMethod plainEnv (.standard .standard) loopingMethod .start
    with ⟨m | ⟨m, e⟩, session'⟩ <;> rw [h] at hchecks <;> obtain ⟨hstub, hoccurs, hall⟩ := hchecks
  · refine ⟨m, session', rfl, (declaration_names_occurring h).2.1 ?_⟩
    obtain ⟨v, hv, hlocal⟩ := List.any_eq_true.mp hoccurs
    refine ⟨v, List.mem_filterMap.mp hv, fun hparameter => ?_⟩
    simp [List.all_eq_true.mp hall v hparameter] at hlocal
  · cases hstub

end ScriptLowering
