import ScriptLowering.Proofs.Canonical.TidyIntrinsic
import ScriptLowering.Proofs.Lowering.Rule
import ScriptLowering.Proofs.Lowering.Yields

/-!
# Lowering of expressions is tidy

Every rule yields a tree that relies on nothing around it (`Standalone`), provided the lowering of
subexpressions does (`Lowerer.Tidies`): the criterion `Lowerer.tidyTrees` is closed. By induction on
the levels, lowering an expression is tidy (`yields_lowerUpTo`). The amount of an increment is
written as it stands, so that a discipline has to allow it (`Admits`).
-/

namespace ScriptLowering

open Script

/-- A tidy tree that may be lifted and relies on nothing around it. -/
abbrev Script.Standalone (d : Discipline) (n : Node) : Prop :=
  Tidy d true [] n

namespace Lowering

/-- A variable of a method body whose name no tracked variable has. -/
def Untracked (d : Discipline) (v : Cil.Variable) : Prop :=
  ∀ w : Variable, w.name = v.name → ¬d.tracks w

/-- Parts of a method body whose variables are not tracked, and whose increments are by allowed
amounts. Increments by one and by minus one have forms of their own. -/
structure Admits (d : Discipline) (c : Core) (parts : List Cil.Part) : Prop where
  untracked : ∀ v, .variable v ∈ parts → Untracked d v
  amounts : ∀ e, .expression e ∈ parts → e.code = .postIncrement →
    ∀ delta, incrementDelta? e.operand = some delta → delta ≠ 1 → delta ≠ -1 →
      ∀ kind, kind.isIntegral = true → d.allows (.ofKind c kind delta)

variable {d : Discipline} {c : Core}

theorem Admits.mono {parts parts' : List Cil.Part} (h : Admits d c parts)
    (hsubset : ∀ x ∈ parts', x ∈ parts) : Admits d c parts' where
  untracked v hv := h.untracked v (hsubset _ hv)
  amounts e he := h.amounts e (hsubset _ he)

variable {xs ys : List Cil.Part}

theorem Admits.left (h : Admits d c (xs ++ ys)) : Admits d c xs :=
  h.mono fun _ => List.mem_append_left _

theorem Admits.right (h : Admits d c (xs ++ ys)) : Admits d c ys :=
  h.mono fun _ => List.mem_append_right _

theorem Admits.member {α : Type} {f : α → List Cil.Part} {as : List α}
    (h : Admits d c (as.flatMap f)) {a : α} (ha : a ∈ as) : Admits d c (f a) :=
  h.mono fun _ hx => List.mem_flatMap.mpr ⟨a, ha, hx⟩

theorem Admits.argument {e a : Cil.Expr} (h : Admits d c e.parts) (ha : a ∈ e.arguments) :
    Admits d c a.parts :=
  h.mono fun _ => Cil.Expr.mem_parts_argument ha

variable {form : Form}

section

variable {d : Discipline} {lifting : Bool} {defined : List Variable} {n : Node}

/-! ### Trees -/

theorem tidy_general {operands : List Node} (hform : form.isGeneral = true)
    (hslots : form.Takes operands.length) (h : ∀ o ∈ operands, Tidy d true defined o) :
    Tidy d true defined ⟨form, operands⟩ := by
  cases form with
  | ternary t => exact tidy_ternary.mpr fun o ho => (h o ho).settled
  | nullableWrap t =>
    obtain ⟨o, rfl⟩ := List.length_eq_one_iff.mp hslots
    exact tidy_nullableWrap.mpr (h o List.mem_cons_self).settled
  | binary op t => cases op <;> first | exact (tidy_ordinary rfl).mpr h | cases hform
  | _ => first | exact (tidy_ordinary rfl).mpr h | cases hform

theorem isOrdinary_of_isLoose (h : form.isLoose = true) : form.isOrdinary = true := by
  cases form with
  | binary op t => cases op <;> first | rfl | cases h
  | _ => first | rfl | cases h

section

variable (hn : Tidy d lifting defined n)
include hn

theorem tidy_firstOperand (hform : n.form.isOrdinary = true) :
    Tidy d lifting defined (firstOperand n) :=
  tidy_getD (hn.forall_operands hform) fun _ ho => List.mem_of_head? ho

theorem tidy_located {r : Retyping} {location : Node} (h : Located c r n location) :
    Tidy d lifting defined location := by
  cases h with
  | taken => exact tidy_firstOperand hn rfl
  | member => exact (tidy_ordinary_singleton rfl).mpr (tidy_firstOperand hn rfl)
  | element =>
    refine (tidy_ordinary rfl).mpr (List.forall_mem_cons.mpr ⟨tidy_firstOperand hn rfl, ?_⟩)
    exact fun i hi => hn.forall_operands rfl i (List.mem_of_mem_tail hi)
  | declared | result | referent => exact (tidy_ordinary_singleton rfl).mpr hn
  | slot | itself => exact hn

theorem tidy_uncopied : Tidy d lifting defined (Lowerer.uncopied n) := by
  unfold Lowerer.uncopied
  split
  · next hform => exact tidy_firstOperand hn (by rw [hform]; rfl)
  · exact hn

/-- A negation, or what stands under one. -/
theorem tidy_logicalNot : Tidy d lifting defined (.logicalNot c n) := by
  unfold Node.logicalNot
  split
  · exact hn.forall_operands rfl _ List.mem_cons_self
  · exact tidy_canonical rfl
  · exact (tidy_ordinary_singleton rfl).mpr hn

end

theorem standalone_afterPrelude {prelude : List Node} (hprelude : ∀ p ∈ prelude, Standalone d p)
    (hn : Tidy d true (assignedVariables prelude) n) : Standalone d (afterPrelude prelude n) :=
  tidy_comma_concat hprelude (hn.weaken (List.subset_append_left _ _) id)

end

/-! ### Lifting -/

/-- What an operation needs before it: assignments that rely on nothing, tests that rely on the
assignments, and no assignment without a test. -/
structure Lifts.Tidy (d : Discipline) (lifts : Lifts) : Prop where
  prelude : ∀ p ∈ lifts.prelude, Standalone d p
  checks : ∀ c ∈ lifts.checks, Script.Tidy d false (assignedVariables lifts.prelude) c
  guarded : lifts.checks = [] → lifts.prelude = []

/-- A node of which the unwrapped operands were taken out. It relies on the assignments before it,
and has the form that it had. -/
structure Prepared (d : Discipline) (defined : List Variable) (n : Node) (r : Node × Lifts) :
    Prop where
  lifts : r.2.Tidy d
  node : Tidy d false (assignedVariables r.2.prelude ++ defined) r.1
  var? : r.1.var? = n.var?
  assigned? : r.1.assigned? = n.assigned?

/-- Operands of a form of which the unwrapped operands were taken out. -/
structure PreparedAll (d : Discipline) (form : Form) (slot : Nat) (defined : List Variable)
    (ns : List Node) (r : List Node × Lifts) : Prop where
  lifts : r.2.Tidy d
  nodes : TidyFrom d false form slot (assignedVariables r.2.prelude ++ defined) r.1
  vars : r.1.map Node.var? = ns.map Node.var?

section

variable {d : Discipline} {defined : List Variable} {n : Node} {lifts : Lifts}

theorem assignedVariables_append (ns ms : List Node) :
    assignedVariables (ns ++ ms) = assignedVariables ns ++ assignedVariables ms :=
  List.filterMap_append

theorem Lifts.tidy_empty : Lifts.empty.Tidy d where
  prelude := List.forall_mem_nil _
  checks := List.forall_mem_nil _
  guarded _ := rfl

theorem Lifts.Tidy.append {a b : Lifts} (ha : a.Tidy d) (hb : b.Tidy d) : (a.append b).Tidy d where
  prelude := List.forall_mem_append.mpr ⟨ha.prelude, hb.prelude⟩
  checks := by
    simp only [Lifts.append, assignedVariables_append]
    refine List.forall_mem_append.mpr ⟨fun c hc => ?_, fun c hc => ?_⟩
    · exact (ha.checks c hc).weaken (List.subset_append_left _ _) id
    · exact (hb.checks c hc).weaken (List.subset_append_right _ _) id
  guarded h := by
    obtain ⟨hfirst, hsecond⟩ := List.append_eq_nil_iff.mp h
    exact List.append_eq_nil_iff.mpr ⟨ha.guarded hfirst, hb.guarded hsecond⟩

theorem Prepared.untouched (h : Tidy d true defined n) : Prepared d defined n (n, .empty) where
  lifts := Lifts.tidy_empty
  node := h.settled
  var? := rfl
  assigned? := rfl

theorem append_within_subset {lifting : Bool} {before : List Variable} :
    before ++ form.within lifting defined ⊆ form.within false (before ++ defined) := by
  unfold Form.within
  split
  · intro x hx
    simp only [List.mem_append, List.mem_cons] at hx ⊢
    tauto
  · split
    · simp
    · exact List.Subset.refl _
  · exact List.Subset.refl _

theorem assigned?_congr {ns ms : List Node} (h : ns.map Node.var? = ms.map Node.var?) :
    Node.assigned? ⟨form, ns⟩ = Node.assigned? ⟨form, ms⟩ := by
  cases ns with
  | nil =>
    cases ms with
    | nil => rfl
    | cons m ms => cases h
  | cons n ns =>
    cases ms with
    | nil => cases h
    | cons m ms =>
      have hfirst : n.var? = m.var? := (List.cons.inj h).1
      unfold Node.assigned?
      split
      · next heq =>
        cases heq
        exact hfirst
      · next hne =>
        split
        · next heq =>
          cases heq
          exact absurd rfl (hne _ _ _)
        · rfl

/-- A disjunction of tests. -/
theorem tidy_anyOf? {checks : List Node} {absent : Node}
    (hchecks : ∀ m ∈ checks, Tidy d false defined m) (h : anyOf? c checks = some absent) :
    Tidy d false defined absent := by
  unfold anyOf? at h
  split at h
  · cases h
  · cases h
    obtain ⟨hfirst, hrest⟩ := List.forall_mem_cons.mp hchecks
    exact tidy_foldl_binary hfirst hrest

/-- A lifted operation relies on nothing. -/
theorem standalone_lifted {m : Node} {result : Ty} (h : Prepared d [] m (n, lifts)) :
    Standalone d (lifted c n lifts result) := by
  have hnode : Tidy d false (assignedVariables lifts.prelude) n :=
    h.node.weaken (List.append_subset.mpr ⟨List.Subset.refl _, List.nil_subset _⟩) id
  have hwrapped : ∀ {lifting : Bool},
      Tidy d lifting (assignedVariables lifts.prelude) ⟨.nullableWrap result, [n]⟩ :=
    tidy_nullableWrap.mpr hnode
  unfold lifted
  simp only
  split
  · next hnone =>
    -- Without a test there is no assignment that the operation could rely on.
    have hchecks : lifts.checks = [] := by
      cases hcases : lifts.checks with
      | nil => rfl
      | cons first rest => rw [hcases] at hnone; cases hnone
    have hprelude : lifts.prelude = [] := h.lifts.guarded hchecks
    rw [hprelude] at hwrapped
    exact hwrapped
  · next absent habsent =>
    refine standalone_afterPrelude h.lifts.prelude (tidy_ternary.mpr ?_)
    have htest := tidy_anyOf? h.lifts.checks habsent
    have hnull : Tidy d false (assignedVariables lifts.prelude) (.nullOf result) :=
      tidy_canonical rfl
    simp [htest, hnull, hwrapped]

end

namespace Lowerer

variable {g : Lowerer} {d : Discipline} {e : Cil.Expr} {n : Node}

theorem yields_liftOperand (hn : Standalone d n) :
    Yields (g.liftOperand n) fun r =>
      r.2.Tidy d ∧ Tidy d false (assignedVariables r.2.prelude) r.1 := by
  refine .after fun type => ?_
  have habsent : ∀ {defined : List Variable} {m : Node}, Tidy d false defined m →
      Tidy d false defined (.binary .equal m (.nullOf type) g.core.boolean) :=
    fun hm => hm.binary (tidy_canonical rfl)
  dsimp only
  split
  · refine .pure ⟨⟨List.forall_mem_nil _, ?_, nofun⟩, hn.settled⟩
    exact List.forall_mem_singleton.mpr (habsent hn.settled)
  · refine Yields.newTemporary.bind ?_
    rintro _ ⟨v, rfl⟩
    have hv : Tidy d false [v] (.ofVariable v) := tidy_ofVariable_self
    refine .pure ⟨⟨?_, ?_, nofun⟩, hv⟩
    · exact List.forall_mem_singleton.mpr (tidy_assign_ofVariable.mpr hn)
    · exact List.forall_mem_singleton.mpr (habsent hv)

mutual

theorem yields_liftIn :
    ∀ (n : Node) {defined : List Variable}, Tidy d true defined n →
      Yields (g.liftIn n) (Prepared d defined n)
  | ⟨form, operands⟩, defined, h => by
    obtain ⟨hform, hoperands⟩ := tidy_mk.mp h
    unfold liftIn
    split
    · exact .pure (Prepared.untouched h)
    · exact .pure (Prepared.untouched h)
    · split
      · exact .pure (Prepared.untouched h)
      · -- What is unwrapped relies on nothing, so it can be assigned in front.
        obtain ⟨hfirst, hrest⟩ := tidyFrom_cons.mp hoperands
        refine (yields_liftOperand hfirst).bind ?_
        rintro ⟨operand, lifts⟩ ⟨hlifts, hoperand⟩
        refine .pure ⟨hlifts, tidy_mk.mpr ⟨trivial, tidyFrom_cons.mpr ⟨?_, ?_⟩⟩, rfl, rfl⟩
        · exact hoperand.weaken (List.subset_append_left _ _) id
        · exact TidyFrom.weaken hrest (List.nil_subset _) nofun
    · next hternary hwrap hunwrap =>
      have hopen : form.staysOpen true = true := by
        unfold Form.staysOpen
        split
        · exact absurd rfl (hternary _)
        · exact absurd rfl (hwrap _)
        · rfl
      rw [hopen] at hoperands
      refine (yields_liftInAll operands hoperands).bind ?_
      rintro ⟨operands', lifts⟩ ⟨hlifts, hnodes, hvars⟩
      refine .pure ⟨hlifts, tidy_mk.mpr ⟨?_, ?_⟩, rfl, assigned?_congr hvars⟩
      · exact hform.mono (List.subset_append_right _ _)
      · rw [Form.staysOpen_false]
        exact TidyFrom.weaken hnodes append_within_subset id

theorem yields_liftInAll :
    ∀ (ns : List Node) {form : Form} {slot : Nat} {defined : List Variable},
      TidyFrom d true form slot defined ns →
        Yields (g.liftInAll ns) (PreparedAll d form slot defined ns)
  | [], _, _, _, _ => .pure ⟨Lifts.tidy_empty, tidyFrom_nil, rfl⟩
  | n :: rest, form, slot, defined, h => by
    obtain ⟨hfirst, hrest⟩ := tidyFrom_cons.mp h
    unfold liftInAll
    refine (yields_liftIn n hfirst).bind ?_
    rintro ⟨n', first⟩ ⟨hlifts, hnode, hvar, hassigned⟩
    refine (yields_liftInAll rest hrest).bind ?_
    rintro ⟨rest', others⟩ ⟨hothers, hnodes, hvars⟩
    -- Taking operands out leaves variables and assignments what they are, so the operands may rely
    -- on each other as before.
    have hgrants : form.grants slot n' = form.grants slot n := by
      unfold Form.grants
      rw [hvar]
    have hpasses : form.passesOn n' = form.passesOn n := by
      unfold Form.passesOn
      rw [hassigned]
    refine .pure ⟨hlifts.append hothers, tidyFrom_cons.mpr ⟨?_, ?_⟩, ?_⟩
    · refine hnode.weaken ?_ id
      simp only [Lifts.append, assignedVariables_append, hgrants]
      intro x hx
      simp only [List.mem_append] at hx ⊢
      tauto
    · refine TidyFrom.weaken hnodes ?_ id
      simp only [Lifts.append, assignedVariables_append, hpasses]
      intro x hx
      simp only [List.mem_append] at hx ⊢
      tauto
    · rw [List.map_cons, List.map_cons, hvar, hvars]

end

/-! ### The criterion -/

/-- Lowering of subexpressions to trees that rely on nothing. -/
def Tidies (g : Lowerer) (d : Discipline) : Prop :=
  ∀ {e}, Admits d g.core e.parts → Yields (g.raw e) (Standalone d)

theorem yields_resolve {v : Cil.Variable} (hv : Untracked d v) :
    Yields (g.resolve v) fun w => Standalone d (.ofVariable w) := by
  refine Yields.resolve.mono fun w hname => tidy_ofVariable.mpr fun htracked => ?_
  exact absurd htracked (hv w hname)

theorem yields_earlyForm? (hn : Standalone d n) :
    Yields (g.earlyForm? n) fun r? => ∀ r, r? = some r → Standalone d r := by
  refine .ite (fun _ => ?_) fun _ => .pure nofun
  exact .after fun c => .pure fun r hr => Canonical.tidy_replaceCall? (fun _ => rfl) hn hr

theorem yields_unsupported {concern : Concern} {message description : String} {ns : List Node}
    (hns : ∀ n ∈ ns, Standalone d n) :
    Yields (g.warn e concern message >>= fun _ => pure (.unsupported description ns))
      (Standalone d) :=
  .after fun _ => .pure ((tidy_ordinary rfl).mpr hns)

/-- Values may be lifted and rely on the given temporaries only. -/
def tidyTrees (g : Lowerer) (d : Discipline) : Criterion g where
  lexicon := .all g.env
  Meets x s post := Leads x s (fun a s' => post s' a) fun _ => True
  Later _ _ := True
  Fits _ := True
  Lowers e := Admits d g.core e.parts
  Applies e := Admits d g.core e.parts
  Value _ vs n := Tidy d true vs n
  Part _ vs n := Tidy d true vs n
  Passed _ n := Standalone d n
  Own _ v := Standalone d (.ofVariable v)
  Temporary _ _ := True
  Accessed _ := True
  Strict := False

theorem tidyTrees_meets {α : Type} {x : Lower α} {p : α → Prop} (hx : Yields x p) {s : State}
    {post : State → α → Prop} (h : ∀ s' a, p a → post s' a) : (g.tidyTrees d).Meets x s post :=
  (hx s).mono (fun a s' ha => h s' a ha) fun _ h => h

theorem Tidies.closed (hg : g.Tidies d) : (g.tidyTrees d).Closed where
  refl _ := trivial
  trans _ _ := trivial
  pure h := h
  throw _ := tidyTrees_meets (p := fun _ => False) .throw fun _ _ h => h.elim
  bind hx hf := Leads.bind (hx.mono (fun a s' ha => hf s' a trivial ha) fun _ h => h)
  fitting h := h trivial
  reading a hx hf := by
    refine Leads.bind ?_
    unfold Leads
    rw [hx]
    exact hf
  withAutoCast hx := Yields.withAutoCast hx _
  value_later _ hn := hn
  part_later _ hn := hn
  passed_later _ hn := hn
  own_later _ hv := hv
  temporary_later _ _ := trivial
  raw he := hg he _
  lowers he ha := he.argument ha
  applies he := he
  covers _ := Lexicon.covers_all
  returns := trivial
  resolve he hv := yields_resolve (he.untracked _ (Cil.Expr.mem_parts_var hv)) _
  retype _ _ _ _ := tidyTrees_meets .any fun _ _ _ => trivial
  newTemporary _ := tidyTrees_meets .newTemporary fun _ _ hv => hv.imp fun _ hv => ⟨trivial, hv⟩
  variableType _ _ := trivial
  computedType _ _ := trivial
  methodDirective? _ := tidyTrees_meets .any fun _ _ _ => trivial
  asks _ := tidyTrees_meets .any fun _ _ _ => trivial
  propertyOf? _ := tidyTrees_meets .any fun _ _ _ _ _ => trivial
  earlyForm? hn := yields_earlyForm? hn _
  liftIn hn _ := (yields_liftIn _ hn).bind (fun _ hr => .pure (standalone_lifted hr)) _
  unsupported hns := tidyTrees_meets (yields_unsupported hns) fun _ _ h => h
  part hn := hn
  weaken hn := hn.anywhere
  weakenPart hn hsubset := hn.weaken hsubset id
  general hform hslots _ h := tidy_general hform hslots h
  loose hform _ _ h := (tidy_ordinary (isOrdinary_of_isLoose hform)).mpr h
  parts hform hn :=
    ⟨fun _ _ => trivial, hn.forall_operands (isOrdinary_of_isLoose hform)⟩
  literal hcanonical _ := tidy_canonical hcanonical
  amount he hcode hdelta hone hminus hkind :=
    tidy_literal.mpr (he.amounts _ (Cil.Expr.mem_parts_self _) hcode _ hdelta hone hminus _ hkind)
  own hv := hv
  temporary _ hv := tidy_ofVariable.mpr fun _ => hv
  assignTemporary _ hvalue _ := tidy_assign_ofVariable.mpr hvalue
  assignment htarget hvalue _ _ := htarget.binary hvalue
  assignReferent haddress hvalue _ := ((tidy_ordinary_singleton rfl).mpr haddress).assign hvalue
  update hn _ _ := (tidy_ordinary_singleton rfl).mpr hn
  afterPrelude := tidy_comma_concat
  structCopy hn := (tidy_ordinary_singleton rfl).mpr hn
  uncopied := tidy_uncopied
  takeReference hn _ := (tidy_ordinary_singleton rfl).mpr hn
  locationOf _ hn := tidy_located hn (located_locationOf ..)
  memberReference _ hn _ :=
    (tidy_ordinary_singleton rfl).mpr (tidy_located hn (located_locationOf ..))
  staticReference _ := by
    refine (tidy_ordinary_singleton rfl).mpr ?_
    unfold typeTargetUnder
    split <;> exact tidy_ordinary_nil rfl
  writeThrough haddress hvalue :=
    (tidy_ordinary rfl).mpr
      (List.forall_mem_cons.mpr ⟨haddress, List.forall_mem_singleton.mpr hvalue⟩)
  logicalNot := tidy_logicalNot
  nullableUnwrap hn _ := tidy_nullableUnwrap.mpr hn
  breakOut _ := tidy_ordinary_nil rfl
  continueLoop _ := tidy_ordinary_nil rfl
  passed hn := hn
  plain := False.elim
  passByReference hn _ := (tidy_ordinary_singleton rfl).mpr hn
  invocation _ _ hreceiver harguments :=
    (tidy_ordinary rfl).mpr (List.forall_mem_cons.mpr ⟨hreceiver, harguments⟩)
  newObject _ harguments := (tidy_ordinary rfl).mpr harguments
  propertyAccess _ htarget hindices :=
    (tidy_ordinary rfl).mpr (List.forall_mem_cons.mpr ⟨htarget, hindices⟩)
  assignPassed htarget hvalue _ _ := htarget.assign hvalue

end Lowerer

theorem yields_lowerUpTo {env : Env} {method : Method} :
    ∀ (n : Nat) {e : Cil.Expr}, Admits d env.core e.parts →
      Yields (lowerUpTo env method n e) (Standalone d)
  | 0, _, _ => by
    unfold lowerUpTo
    exact .throw
  | n + 1, e, he => by
    unfold lowerUpTo
    -- The rules use what was proved for one level less.
    have hg : Lowerer.Tidies { env, method, raw := lowerUpTo env method n } d :=
      fun he => yields_lowerUpTo n he
    exact .oneLevelDown fun _ => hg.closed.apply_ruleOf he

theorem tidies_ofMethod {env : Env} {method : Method} : (Lowerer.ofMethod env method).Tidies d :=
  fun he => yields_lowerUpTo _ he

end Lowering

end ScriptLowering
