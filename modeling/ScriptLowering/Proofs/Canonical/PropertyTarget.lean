import ScriptLowering.Proofs.Canonical.Declaration
import ScriptLowering.Proofs.Canonical.PropertyMeaning
import ScriptLowering.Proofs.Canonical.Settling
import ScriptLowering.Proofs.Lowering.AbidingMethod

/-!
# Which updates of properties are left

A property has no storage, so an update of one has to be split into a read and a write. The splitting
pass settles only when no compound assignment of a property is left (`law_propertyUpdate`). Later
passes bring none back: an update is put in no place by a pass, and what is updated becomes a property
only where a cast in front of it is left out, but lowering updates locations, and casts are none
(`UpdatesWithin`).
-/

namespace ScriptLowering

open Script Lowering

namespace Script.Form

/-- The forms of compound assignments. -/
def isCompound : Form → Bool
  | binary op _ => op.compoundBase?.isSome
  | _ => false

/-- The property that a form accesses. -/
def accessed? : Form → Option Property
  | propertyAccess property => some property
  | _ => none

/-- How the form of an operand may change: only a cast becomes another cast or an access. -/
def Turns (f g : Form) : Prop :=
  f.isCast = false → g = f ∨ g.isCast = false ∧ g.accessed? = none

/-- A location is no cast. -/
theorem isCast_of_isLocation {form : Form} (h : form.isLocation = true) : form.isCast = false := by
  cases form with
  | cast => cases h
  | _ => rfl

theorem Turns.refl (f : Form) : f.Turns f :=
  fun _ => .inl rfl

theorem Turns.trans {f g k : Form} (h : f.Turns g) (h' : g.Turns k) : f.Turns k := by
  intro hf
  rcases h hf with rfl | ⟨hg, haccess⟩
  · exact h' hf
  · rcases h' hg with rfl | hk
    · exact .inr ⟨hg, haccess⟩
    · exact .inr hk

end Script.Form

namespace Script.Node

/-- The property that a node updates: by a compound assignment, an increment or a decrement. -/
def updatedProperty? : Node → Option Property
  | ⟨.unary op _, [target]⟩ => if op.isMutating then target.form.accessed? else none
  | ⟨.binary op _, [target, _]⟩ => if op.compoundBase?.isSome then target.form.accessed? else none
  | _ => none

variable {form : Form} {ns ms : List Node} {property : Property}

theorem exists_of_updatedProperty? (h : updatedProperty? ⟨form, ms⟩ = some property) :
    form.isUpdate = true ∧ ∃ target rest, ms = target :: rest
      ∧ target.form.accessed? = some property
      ∧ ∀ target' rest', target'.form = target.form → rest'.length = rest.length →
        updatedProperty? ⟨form, target' :: rest'⟩ = some property := by
  unfold updatedProperty? at h
  split at h
  · next op type target heq =>
    cases heq
    split at h
    · next hop =>
      refine ⟨hop, target, [], rfl, h, fun target' rest' hform hlength => ?_⟩
      obtain rfl := List.eq_nil_of_length_eq_zero hlength
      simp only [updatedProperty?, hop, if_true, hform, h]
    · cases h
  · next op type target value heq =>
    cases heq
    split at h
    · next hop =>
      refine ⟨hop, target, [value], rfl, h, fun target' rest' hform hlength => ?_⟩
      obtain ⟨value', rfl⟩ := List.length_eq_one_iff.mp hlength
      simp only [updatedProperty?, hop, if_true, hform, h]
    · cases h
  · cases h

/-- A node that updates no cast, and only the properties that are allowed for its form. -/
structure UpdatesWithin (allowed : Form → Property → Prop) (n : Node) : Prop where
  target : n.form.isUpdate = true → ∀ o, n.operands.head? = some o → o.form.isCast = false
  property : ∀ property, n.updatedProperty? = some property → allowed n.form property

variable {allowed allowed' : Form → Property → Prop}

theorem isRoutine_updatesWithin : IsRoutine (UpdatesWithin allowed) := by
  intro form operands hform
  have hupdate : form.isUpdate = false := Bool.not_eq_true' _ ▸ (Bool.and_eq_true_iff.mp hform).2
  refine ⟨fun h => ?_, fun property h => ?_⟩
  · exact absurd (hupdate.symm.trans h) Bool.false_ne_true
  · exact absurd (hupdate.symm.trans (exists_of_updatedProperty? h).1) Bool.false_ne_true

theorem UpdatesWithin.turn (hturn : List.Forall₂ (fun n m => n.form.Turns m.form) ns ms)
    (h : UpdatesWithin allowed ⟨form, ns⟩) : UpdatesWithin allowed ⟨form, ms⟩ := by
  refine ⟨fun hform o ho => ?_, fun property hproperty => ?_⟩
  · cases hturn with
    | nil => cases ho
    | cons hfirst _ =>
      cases ho
      have hcast := h.target hform _ rfl
      rcases hfirst hcast with hsame | ⟨hother, -⟩
      · rw [hsame]
        exact hcast
      · exact hother
  · obtain ⟨hform, target, rest, rfl, haccess, hupdated⟩ := exists_of_updatedProperty? hproperty
    cases hturn with
    | @cons target' _ rest' _ hfirst hrest =>
      rcases hfirst (h.target hform _ rfl) with hsame | ⟨-, hnone⟩
      · exact h.property _ (hupdated target' rest' hsame.symm hrest.length_eq)
      · rw [hnone] at haccess
        cases haccess

end Script.Node

variable {env : Env}

namespace Canonical

open Node

variable {allowed : Form → Property → Prop} {n m : Node}

/-! ### Single replacements -/

/-- An update is split into a sequence. -/
theorem form_of_propertyUpdate {c : Core} {scope : Scope}
    (h : ((propertyUpdate c).reduct? n scope).1 = .ok (some m)) : m.form = .comma := by
  obtain ⟨op, type, property, operands, value, base, -, -, hsequence⟩ := exists_of_propertyUpdate h
  simp only [updateSequence] at hsequence
  split at hsequence <;> cases hsequence
  exact comma_form (by simp)

theorem turns_replaceCall? {h : Hierarchy} {r : Retyping} (hm : replaceCall? h r n = some m) :
    n.form.Turns m.form := by
  have hresult := (replaced_of_replaceCall? hm).isResult
  refine fun _ => .inr ?_
  cases hform : m.form <;> rw [hform] at hresult <;> first | exact ⟨rfl, rfl⟩ | cases hresult

/-! ### Passes -/

variable {w : Work}

/-- A pass introduces no updates. -/
theorem Pass.updatesWithin_step (p : Pass) (hw : w.method.body.Everywhere (UpdatesWithin allowed)) :
    (p.step env w).2.method.body.Everywhere (UpdatesWithin allowed) := by
  have hroutine : IsRoutine (UpdatesWithin allowed) := isRoutine_updatesWithin
  have hfollows {σ : Type} {w : Reducer σ}
      (hstep : ∀ {n m : Node} {s : σ}, (w.reduct? n s).1 = .ok (some m) → n.form.Turns m.form
        ∧ (n.Everywhere (UpdatesWithin allowed) → m.Everywhere (UpdatesWithin allowed))) :
      w.Follows fun n m => n.form.Turns m.form
        ∧ (n.Everywhere (UpdatesWithin allowed) → m.Everywhere (UpdatesWithin allowed)) :=
    follows_everywhere Form.Turns.refl Form.Turns.trans UpdatesWithin.turn hstep
  cases p with
  | intrinsics =>
    have hforms := hfollows (w := Pass.intrinsicForms env.types w.method.scope.retyping)
      fun hm => ⟨turns_replaceCall? (Except.ok.inj hm),
        fun hn => everywhere_replaceCall? hroutine hn (Except.ok.inj hm)⟩
    exact (hforms.run _ _ _).2 hw
  | propertyUpdates =>
    have hupdates := hfollows (w := propertyUpdate env.core)
      fun {n m s} hm => ⟨fun _ => .inr (by simp [form_of_propertyUpdate hm, Form.isCast,
        Form.accessed?]), fun hn => everywhere_propertyUpdate hroutine hn hm⟩
    exact (hupdates.run _ _ _).2 hw
  | castExpansion =>
    have hcasts := hfollows (w := Canonical.castExpansion env.types w.method.scope.retyping
      env.settings.emulateInt64) fun {n m s} hm => by
        refine ⟨fun hcast => ?_, fun hn => everywhere_castExpansion hroutine hn hm⟩
        -- Only casts are replaced.
        simp only [Canonical.castExpansion] at hm
        split at hm
        · cases hcast
        · cases Except.ok.inj hm
    exact (hcasts.run _ _ _).2 hw
  | declarations => exact everywhere_declareVariables hroutine hw

theorem law_propertyUpdate (c : Core) :
    (propertyUpdate c).Law (fun _ => True) (fun n m => m.form = n.form ∨ m.form = .comma)
      fun n => ∀ property, n.updatedProperty? = some property → n.form.isCompound = false where
  refl _ := .inl rfl
  trans h h' := by
    rcases h' with h' | h'
    · rw [h']
      exact h
    · exact .inr h'
  step _ hm := ⟨trivial, .inr (form_of_propertyUpdate (congrArg Prod.fst hm))⟩
  operand _ _ _ := trivial
  congr _ _ := ⟨trivial, .inl rfl⟩
  finish := by
    intro form operands operands' scope scope' _ hnone hoperands property hproperty
    obtain ⟨-, target, rest, rfl, haccess, hupdated⟩ := exists_of_updatedProperty? hproperty
    cases hoperands with
    | @cons target' _ rest' _ hfirst hrest =>
      rcases hfirst.related with hsame | hcomma
      · -- The node updated the property before its operands were looked at.
        have hbefore := hupdated target' rest' hsame.symm hrest.length_eq
        rw [Bool.eq_false_iff]
        intro hcompound
        cases form with
        | binary op type =>
          obtain ⟨base, hbase⟩ := Option.isSome_iff_exists.mp hcompound
          rw [hsame] at haccess
          obtain ⟨form', operands⟩ := target'
          cases form' <;> cases haccess
          match rest', hbefore with
          | [value], _ =>
            simp only [propertyUpdate, hbase] at hnone
            split at hnone <;> cases hnone
        | _ => cases hcompound
      · rw [hcomma] at haccess
        cases haccess

/-! ### Rounds -/

/-- A method that updates no cast, and only the properties that are allowed. -/
def Work.UpdatesWithin (allowed : Form → Property → Prop) (w : Work) : Prop :=
  w.method.body.Everywhere (Node.UpdatesWithin allowed)

/-- Of the updates of properties that are allowed, those that are no compound assignments. -/
def SplitUpdates (allowed : Form → Property → Prop) (form : Form) (property : Property) : Prop :=
  allowed form property ∧ form.isCompound = false

theorem leads_propertyUpdates (hw : w.UpdatesWithin allowed) :
    Leads (Pass.run .propertyUpdates env) w
      (fun _ w' => w'.UpdatesWithin (SplitUpdates allowed))
      fun _ => True := by
  refine Leads.running.mono (fun changed w' hrun => ?_) fun _ h => h
  have hstep : Pass.step .propertyUpdates env w = (.ok changed, w') := hrun
  have hkept : (Pass.step .propertyUpdates env w).2.UpdatesWithin allowed :=
    Pass.updatesWithin_step .propertyUpdates hw
  rw [hstep] at hkept
  simp only [Pass.step] at hstep
  rcases hreduced : (propertyUpdate env.core).run env.settings.maxReductionsPerNode w.method.body
    w.method.scope with ⟨answer, body, scope⟩
  rw [hreduced] at hstep
  cases hstep
  have hsettled := (law_propertyUpdate env.core).run trivial hreduced
  intro n hn
  refine ⟨(hkept n hn).target, fun property hproperty => ?_⟩
  exact ⟨(hkept n hn).property property hproperty, hsettled.nodes n hn property hproperty⟩

theorem leads_round {settings : Settings} (hw : w.UpdatesWithin allowed) :
    Leads (runOnce env (Pipeline.standard settings).passes) w
      (fun _ w' => w'.UpdatesWithin (SplitUpdates allowed))
      fun _ => True := by
  have hintrinsics : Leads (Pass.run .intrinsics env) w _ _ :=
    leads_passRun (I := Work.UpdatesWithin allowed)
      (Pass.updatesWithin_step .intrinsics hw)
  refine runOnce_cons (I := Work.UpdatesWithin allowed)
    (fun _ _ h => h) (hintrinsics.mono (fun _ _ h => h) fun _ _ => trivial) (fun _ => hw) ?_
  intro w hw
  refine runOnce_cons (I := Work.UpdatesWithin (SplitUpdates allowed))
    (fun _ _ h => h) (leads_propertyUpdates hw) (fun h => ?_) fun hw => ?_
  · -- The splitting pass applies to every method.
    cases h
  · have hkeeps : Leads (runOnce env [.castExpansion]) _ _ _ :=
      runOnce_keeps (I := Work.UpdatesWithin (SplitUpdates allowed)) (fun _ _ h => h)
        (fun p _ _ h => Pass.updatesWithin_step p h) hw
    exact hkeeps.mono (fun _ _ h => h) fun _ _ => trivial

theorem leads_standard {settings : Settings} (hrounds : 0 < settings.maxPassIterations)
    (hw : w.UpdatesWithin allowed) :
    Leads ((Pipeline.standard settings).run env) w
      (fun _ w' => w'.UpdatesWithin (SplitUpdates allowed))
      fun _ => True := by
  have hkeep (p : Pass) (w : Work) (h : w.UpdatesWithin (SplitUpdates allowed)) :
      (p.step env w).2.UpdatesWithin (SplitUpdates allowed) :=
    Pass.updatesWithin_step p h
  obtain ⟨left, hleft⟩ := Nat.exists_eq_succ_of_ne_zero hrounds.ne'
  have hiterations : (Pipeline.standard settings).iterations = left + 1 := hleft
  have hall : Leads (Pipeline.rounds env (Pipeline.standard settings).passes (left + 1) 0) w
      (fun _ w' => w'.UpdatesWithin (SplitUpdates allowed))
      fun _ => True := by
    refine rounds_succ (fun _ _ h => h) (leads_round hw) fun hw => ?_
    exact (rounds_keep (fun _ _ h => h) (fun p _ => hkeep p) left 1 hw).mono (fun _ _ h => h)
      fun _ _ => trivial
  unfold Pipeline.run
  rw [hiterations]
  refine .bind (hall.mono (fun _ w' hw' => ?_) fun _ h => h)
  refine .bind ((runOnce_keeps (fun _ _ h => h) (fun p _ => hkeep p) hw').mono
    (fun _ _ h => .pure h) fun _ _ => trivial)

end Canonical

open Canonical

/-! ### Methods -/

theorem updatesWithin_of_lower {body : Cil.MethodBody} {session session' : Session} {m : Lowered}
    (h : lower env body session = (.ok m, session')) :
    m.body.Everywhere (Node.UpdatesWithin fun form property =>
      ∃ n ∈ m.body.selfAndDescendants, n.form = form ∧ n.updatedProperty? = some property) := by
  intro n hn
  refine ⟨fun hform o ho => ?_, fun property hproperty => ⟨n, hn, rfl, hproperty⟩⟩
  exact Form.isCast_of_isLocation (isLocation_of_lower h hn hform ho)

/-- Where the usual pipeline with at least one round ends, what still updates a property is an
increment or a decrement that lowering made; the compound assignments of properties are split. -/
theorem left_updates_are_increments {env : Env} {settings : Settings} {body : Cil.MethodBody}
    {session session' : Session} {m : Lowered} (hrounds : 0 < settings.maxPassIterations)
    (h : lowerMethod env (.standard settings) body session = (.lowered m, session')) :
    ∃ m₀ session₀, lower env body session = (.ok m₀, session₀)
      ∧ ∀ n ∈ m.body.selfAndDescendants, ∀ property, n.updatedProperty? = some property →
        n.form.isCompound = false
        ∧ ∃ n₀ ∈ m₀.body.selfAndDescendants,
            n₀.form = n.form ∧ n₀.updatedProperty? = some property := by
  obtain ⟨m₀, session₀, changed, hlower, hrun⟩ := exists_run_of_lowerMethod h
  refine ⟨m₀, session₀, hlower, fun n hn property hproperty => ?_⟩
  have hends : Leads ((Pipeline.standard settings).run env) ⟨m₀, session₀⟩ _ _ :=
    leads_standard hrounds (updatesWithin_of_lower hlower)
  rcases hends.of_run hrun with ⟨_, _, hm⟩ | ⟨⟨_, hfailed⟩, _⟩
  · obtain ⟨hmade, hcompound⟩ := (hm n hn).property property hproperty
    exact ⟨hcompound, hmade⟩
  · cases hfailed

/-- A run in which the getter of the count is known as its accessor. -/
def countEnv : Env :=
  ⟨.ofCore .standard,
    { Directives.empty with
      properties := count.getter?.toList.map fun getter => (getter.fullName, count) },
    .standard⟩

/-- A method that updates the count of a local, given how to do so. -/
def countUpdates (updates : Cil.Expr → List Cil.Expr) : Cil.MethodBody :=
  let w : Cil.Variable := ⟨"w", widget, .localSlot 0, false⟩
  let read (getter : Method) : Cil.Expr :=
    .plain .callvirtGetter (.method getter) [.plain .ldloc (.var w) []]
  { loopingMethod with
    parameters := []
    locals := [w]
    statements := (count.getter?.toList.flatMap fun getter => updates (read getter)).map
      .expression }

/-- The count is increased by three, and then by one. -/
def increasedTwice : Cil.MethodBody :=
  countUpdates fun read =>
    [.plain .compoundAssignment .none [.plain .add .none [read, .plain .ldcI4 (.int32 3) []]],
      .plain .postIncrement (.int32 1) [read]]

/-- Lowering makes two updates of the count, and the one that is left is an increment. -/
theorem increasedTwice_left_increment :
    0 < Settings.standard.maxPassIterations
    ∧ ((lower countEnv increasedTwice .start).1.toOption.map fun m =>
        (m.body.selfAndDescendants.filter (·.updatedProperty?.isSome)).map (·.form.isCompound))
      = some [true, false]
    ∧ ∃ m session', lowerMethod countEnv (.standard .standard) increasedTwice .start
        = (.lowered m, session')
      ∧ ∃ m₀ session₀, lower countEnv increasedTwice .start = (.ok m₀, session₀)
        ∧ ∀ n ∈ m.body.selfAndDescendants, ∀ property, n.updatedProperty? = some property →
          n.form.isCompound = false
          ∧ ∃ n₀ ∈ m₀.body.selfAndDescendants,
              n₀.form = n.form ∧ n₀.updatedProperty? = some property := by
  have hstub : (lowerMethod countEnv (.standard .standard) increasedTwice .start).1.isStub
      = false := by
    decide +kernel
  refine ⟨by decide, by decide +kernel, ?_⟩
  rcases h : lowerMethod countEnv (.standard .standard) increasedTwice .start
    with ⟨m | ⟨m, e⟩, session'⟩ <;> rw [h] at hstub
  · exact ⟨m, session', rfl, left_updates_are_increments (by decide) h⟩
  · cases hstub

/-- A property that is increased by one is updated in the canonical form still. -/
theorem increment_of_property_left :
    ∃ m session', lowerMethod countEnv (.standard .standard)
        (countUpdates fun read => [.plain .postIncrement (.int32 1) [read]]) .start
        = (.lowered m, session')
      ∧ ∃ n ∈ m.body.selfAndDescendants, n.updatedProperty?.isSome = true := by
  have hchecks : let outcome := (lowerMethod countEnv (.standard .standard)
        (countUpdates fun read => [.plain .postIncrement (.int32 1) [read]]) .start).1
      outcome.isStub = false
        ∧ outcome.method.body.selfAndDescendants.any (·.updatedProperty?.isSome) = true := by
    decide +kernel
  rcases h : lowerMethod countEnv (.standard .standard)
    (countUpdates fun read => [.plain .postIncrement (.int32 1) [read]]) .start
    with ⟨m | ⟨m, e⟩, session'⟩ <;> rw [h] at hchecks <;> obtain ⟨hstub, hleft⟩ := hchecks
  · exact ⟨m, session', rfl, List.any_eq_true.mp hleft⟩
  · cases hstub

end ScriptLowering
