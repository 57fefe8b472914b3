import ScriptLowering.Proofs.Lowering.Layout
import ScriptLowering.Proofs.Lowering.Reliable

/-!
# Statements are formed trees

The statements that come out of lowering are formed where they stand, and the loops in them have the
indices that were taken for them, in order (`Lowers`). A loop takes its index before its body is
lowered and after its condition, which has no loops; so the indices increase in pre-order. The
jumps in the body of a loop or in a case of a switch were resolved inside that construct, and that
is where they stand in the tree.
-/

namespace ScriptLowering.Lowering

open Script

variable {derived : Prop} {around : List Enclosure} {s s₁ s₂ s₃ : State}

/-! ### Loop indices -/

/-- Increasing indices from `first` on and below `next`. -/
structure LoopsBetween (first next : Nat) (indices : List Nat) : Prop where
  increasing : indices.Pairwise (· < ·)
  bounds : ∀ i ∈ indices, first ≤ i ∧ i < next

namespace LoopsBetween

variable {first next : Nat} {is : List Nat}

theorem nil : LoopsBetween first next [] :=
  ⟨.nil, by simp⟩

theorem append {middle : Nat} {js : List Nat} (hi : LoopsBetween first middle is)
    (hj : LoopsBetween middle next js) (hfirst : first ≤ middle) (hnext : middle ≤ next) :
    LoopsBetween first next (is ++ js) where
  increasing := by
    refine List.pairwise_append.mpr ⟨hi.increasing, hj.increasing, fun i himem j hjmem => ?_⟩
    exact Nat.lt_of_lt_of_le (hi.bounds i himem).2 (hj.bounds j hjmem).1
  bounds := by
    refine List.forall_mem_append.mpr ⟨fun i himem => ?_, fun j hjmem => ?_⟩
    · exact ⟨(hi.bounds i himem).1, Nat.lt_of_lt_of_le (hi.bounds i himem).2 hnext⟩
    · exact ⟨Nat.le_trans hfirst (hj.bounds j hjmem).1, (hj.bounds j hjmem).2⟩

/-- An index that is taken before others. -/
theorem cons (h : LoopsBetween (first + 1) next is) (hnext : first < next) :
    LoopsBetween first next (first :: is) where
  increasing := List.pairwise_cons.mpr ⟨fun i hi => (h.bounds i hi).1, h.increasing⟩
  bounds := by
    refine List.forall_mem_cons.mpr ⟨⟨Nat.le_refl _, hnext⟩, fun i hi => ?_⟩
    exact ⟨Nat.le_of_succ_le (h.bounds i hi).1, (h.bounds i hi).2⟩

theorem mono {first' : Nat} (h : LoopsBetween first next is) (hfirst : first' ≤ first) :
    LoopsBetween first' next is :=
  ⟨h.increasing, fun i hi => ⟨Nat.le_trans hfirst (h.bounds i hi).1, (h.bounds i hi).2⟩⟩

theorem sublist {js : List Nat} (h : LoopsBetween first next js) (hsub : is.Sublist js) :
    LoopsBetween first next is :=
  ⟨h.increasing.sublist hsub, fun i hi => h.bounds i (hsub.subset hi)⟩

end LoopsBetween

/-! ### Lowered statements -/

/-- Nodes that came out of lowering between two states: they are formed, and their loops have the
indices that were taken, in order. -/
structure Lowers (derived : Prop) (around : List Enclosure) (s s' : State) (ns : List Node) :
    Prop where
  formed : ∀ n ∈ ns, n.IsFormed derived s'.context.scope.allVariables around
  loops : LoopsBetween s.context.nextLoop s'.context.nextLoop (ns.flatMap Node.loopIndices)

variable {vars : List Variable} {form : Form}

theorem asks_nothing_of_isStatement (h : form.isStatement = true) :
    form.assigns = false ∧ (∀ o, form.Demands o) ∧ (∀ p, form ≠ .propertyAccess p)
      ∧ ∀ around, form.Aims around := by
  cases form <;> simp [Form.isStatement, Form.assigns, Form.Demands, Form.Aims] at h ⊢

theorem of_isPlainStatement (h : form.isPlainStatement = true) :
    form.isStatement = true ∧ form.isOpen = true ∧ form ≠ .variableDeclaration
      ∧ ∀ ns, Canonical.mentioned? ⟨form, ns⟩ = none := by
  cases form <;>
    simp [Form.isPlainStatement, Form.isStatement, Form.isOpen, Canonical.mentioned?] at h ⊢

theorem formed_statement {operands : List Node} (hform : form.isStatement = true)
    (hdeclares : form ≠ .variableDeclaration) (hslots : form.Takes operands.length)
    (hmentions : ∀ v, Canonical.mentioned? ⟨form, operands⟩ = some v → v ∈ vars) :
    Node.Formed derived vars around ⟨form, operands⟩ := by
  obtain ⟨hassigns, hdemands, haccess, haims⟩ := asks_nothing_of_isStatement hform
  refine ⟨hslots, fun _ => ⟨hslots, ?_, fun o _ => hdemands o, ?_⟩, hmentions, haims around, ?_,
    hdeclares⟩
  · intro h
    rw [hassigns] at h
    cases h
  · exact fun p hp => absurd hp (haccess p)
  · intro h
    rw [hform] at h
    cases h

theorem isFormed_statement {operands : List Node}
    (h : ∀ o ∈ operands, o.IsFormed derived vars around) (hform : form.isStatement = true)
    (hopen : form.isOpen = true) (hdeclares : form ≠ .variableDeclaration)
    (hslots : form.Takes operands.length)
    (hmentions : ∀ v, Canonical.mentioned? ⟨form, operands⟩ = some v → v ∈ vars) :
    Node.IsFormed derived vars around ⟨form, operands⟩ :=
  Node.holdsIn_mk.mpr ⟨formed_statement hform hdeclares hslots hmentions,
    (Node.holdsFrom_of_isOpen hopen).mpr h⟩

/-- A block of formed statements is formed. -/
theorem isFormed_block {label? : Option String} {ns : List Node}
    (h : ∀ n ∈ ns, n.IsFormed derived vars around) :
    Node.IsFormed derived vars around ⟨.block label?, ns⟩ :=
  isFormed_statement h rfl rfl (by simp) (Nat.zero_le _) (by simp [Canonical.mentioned?])

namespace Lowers

variable {ns ms : List Node} {n : Node}

theorem nil : Lowers derived around s s₁ [] :=
  ⟨by simp, .nil⟩

theorem append (hn : Lowers derived around s s₁ ns) (hm : Lowers derived around s₁ s₂ ms)
    (h₁ : s.Advances s₁) (h₂ : s₁.Advances s₂) : Lowers derived around s s₂ (ns ++ ms) where
  formed := List.forall_mem_append.mpr
    ⟨fun n hmem => (hn.formed n hmem).mono h₂.scope.subset, hm.formed⟩
  loops := by
    rw [List.flatMap_append]
    exact hn.loops.append hm.loops h₁.loops h₂.loops

/-- Nodes without loops. -/
theorem ofLoopless (hformed : ∀ n ∈ ns, n.IsFormed derived s₁.context.scope.allVariables around)
    (hloops : ∀ n ∈ ns, n.loopIndices = []) : Lowers derived around s s₁ ns where
  formed := hformed
  loops := by
    rw [List.flatMap_eq_nil_iff.mpr hloops]
    exact .nil

/-- An expression has no loops. -/
theorem ofExpression (h : n.IsExpression derived s₁.context.scope.allVariables around) :
    Lowers derived around s s₁ [n] :=
  ofLoopless (by simpa using h.2) (by simpa using h.loopIndices_eq_nil)

theorem statement {form : Form} (h : Lowers derived around s s₁ ns)
    (hform : form.isStatement = true) (hopen : form.isOpen = true)
    (hdeclares : form ≠ .variableDeclaration) (hslots : form.Takes ns.length)
    (hmentions : ∀ v, Canonical.mentioned? ⟨form, ns⟩ = some v →
      v ∈ s₁.context.scope.allVariables) :
    Lowers derived around s s₁ [⟨form, ns⟩] where
  formed := by
    simp only [List.mem_singleton, forall_eq]
    exact isFormed_statement h.formed hform hopen hdeclares hslots hmentions
  loops := by
    have hindex : form.loopIndex? = none := by
      cases form <;> first | rfl | cases hopen
    rw [List.flatMap_singleton, Node.loopIndices_mk, hindex]
    exact h.loops

/-- A block of lowered statements. -/
theorem block (h : Lowers derived around s s₁ ns) :
    Lowers derived around s s₁ [.block ns] :=
  h.statement rfl rfl (by simp) (Nat.zero_le _) (by simp [Canonical.mentioned?])

theorem loop {condition body : Node} {index : Nat} (hindex : s.context.nextLoop ≤ index)
    (hnext : s₁.context.nextLoop = index + 1) (h₂ : s₁.Advances s₂)
    (hcondition : condition.IsExpression derived s₂.context.scope.allVariables around)
    (hbody : Lowers derived (.loopBody index :: around) s₁ s₂ [body]) :
    Lowers derived around s s₂ [⟨.whileLoop index, [condition, body]⟩] where
  formed := by
    simp only [List.mem_singleton, forall_eq]
    refine Node.holdsIn_mk.mpr ⟨formed_statement rfl (by simp) rfl
      (by simp [Canonical.mentioned?]), ?_⟩
    simp only [Node.holdsFrom_cons, Node.holdsFrom_nil, and_true]
    exact ⟨hcondition.2, hbody.formed body List.mem_cons_self⟩
  loops := by
    have hbody := hbody.loops
    have hloops := h₂.loops
    rw [hnext] at hbody hloops
    rw [List.flatMap_singleton] at hbody ⊢
    rw [Node.loopIndices_mk, List.flatMap_cons, hcondition.loopIndices_eq_nil, List.nil_append,
      List.flatMap_singleton]
    exact (hbody.cons hloops).mono hindex

theorem switchCase (h : Lowers derived (.switchCase :: around) s s₁ ns) {values : List Int64} :
    Lowers derived around s s₁ [switchCase values ns] where
  formed := by
    simp only [List.mem_singleton, forall_eq]
    refine Node.holdsIn_mk.mpr ⟨formed_statement rfl (by simp) rfl
      (by simp [Canonical.mentioned?]), ?_⟩
    simp only [Node.holdsFrom_cons, Node.holdsFrom_nil, and_true]
    exact isFormed_block h.formed
  loops := by
    have hloops := h.block.loops
    rw [List.flatMap_singleton] at hloops ⊢
    rw [Lowering.switchCase, Node.loopIndices_mk, List.flatMap_singleton]
    exact hloops

/-- A protected region around its parts. -/
theorem guardedRegion {var? : Option Variable} {body handler finalizer fault : Node}
    (h : Lowers derived around s s₁ [body, handler, finalizer, fault])
    (hvar : ∀ v, var? = some v → v ∈ s₁.context.scope.allVariables) :
    Lowers derived around s s₁ [guardedRegion var? body handler finalizer fault] :=
  h.statement rfl rfl (by simp) rfl hvar

end Lowers

theorem loopIndices_catchChain {h : Hierarchy} {caught : Node}
    (hcaught : caught.IsExpression derived vars around) :
    ∀ (handlers : List (Ty × Node)),
      ((catchChain h caught handlers).loopIndices).Sublist
        ((handlers.map (·.2)).flatMap Node.loopIndices)
  | [] => .slnil
  | (type, body) :: rest => by
    have ih := loopIndices_catchChain (h := h) hcaught rest
    have htest : Node.loopIndices ⟨.typeTest type, [caught]⟩ = [] := by
      simp [Node.loopIndices_mk, Form.loopIndex?, hcaught.loopIndices_eq_nil]
    unfold catchChain at ih ⊢
    rw [List.foldr_cons, List.map_cons, List.flatMap_cons]
    split
    · exact List.sublist_append_left _ _
    · rw [Node.loopIndices_mk, show Form.ifElse.loopIndex? = none from rfl, Option.toList_none,
        List.nil_append, List.flatMap_cons, htest, List.nil_append, List.flatMap_cons,
        List.flatMap_singleton]
      exact (List.Sublist.refl body.loopIndices).append ih

/-- A chain of handlers that were lowered. -/
theorem Lowers.catchChain {handlers : List (Ty × Node)} {h : Hierarchy} {caught : Node}
    (hhandlers : Lowers derived around s s₁ (handlers.map (·.2)))
    (hcaught : caught.IsExpression derived s₁.context.scope.allVariables around) :
    Lowers derived around s s₁ [catchChain h caught handlers] where
  formed := by
    have hrethrow : Node.IsExpression derived s₁.context.scope.allVariables around
        ⟨.rethrow, []⟩ :=
      (Node.isExpression_plain rfl).mpr ⟨rfl, by simp⟩
    refine List.forall_mem_singleton.mpr
      (forall_catchChain ?_ (fun r hr rest hrest => ?_) fun r hr => ?_)
    · refine isFormed_block (List.forall_mem_singleton.mpr ?_)
      exact isFormed_statement (by simpa using hrethrow.2) rfl rfl (by simp) rfl
        (by simp [Canonical.mentioned?])
    · have htest : Node.IsExpression derived s₁.context.scope.allVariables around
          ⟨.typeTest r.1, [caught]⟩ :=
        (Node.isExpression_plain rfl).mpr ⟨rfl, by simpa using hcaught⟩
      have hbody := hhandlers.formed r.2 (List.mem_map_of_mem hr)
      exact isFormed_statement (by simp [htest.2, hbody, hrest]) rfl rfl (by simp) rfl
        (by simp [Canonical.mentioned?])
    · exact hhandlers.formed r.2 (List.mem_map_of_mem hr)
  loops := by
    rw [List.flatMap_singleton]
    exact hhandlers.loops.sublist (loopIndices_catchChain hcaught handlers)

/-! ### Parts of a block -/

/-- An empty slot has no loops. -/
theorem loopIndices_of_isEmpty {n : Node} (hn : n.IsFormed derived vars around)
    (h : n.isEmpty = true) : n.loopIndices = [] := by
  have hform : n.form.isStatement = false := by
    unfold Node.isEmpty at h
    split at h
    · next hform => rw [hform]; rfl
    · cases h
  exact Node.IsExpression.loopIndices_eq_nil ⟨hform, hn⟩

theorem loopIndices_gather :
    ∀ {items : List Item}, (∀ n ∈ items.flatMap Item.nodes, n.IsFormed derived vars around) →
      ((gather items).1 ++ (gather items).2).flatMap Node.loopIndices
        = (items.flatMap Item.nodes).flatMap Node.loopIndices
  | [], _ => rfl
  | .label name :: rest, h => by
    have ih := loopIndices_gather (show ∀ n ∈ rest.flatMap Item.nodes, _ from h)
    simp only [gather, Item.nodes, List.flatMap_cons, List.nil_append, Node.labeledBlock,
      Node.loopIndices_mk]
    rw [← ih, List.flatMap_append]
    rfl
  | .statement n :: rest, h => by
    obtain ⟨hn, hrest⟩ := List.forall_mem_cons.mp h
    have ih := loopIndices_gather hrest
    simp only [gather, Item.nodes, List.flatMap_cons, List.singleton_append]
    rw [← ih]
    split
    · next hempty => rw [loopIndices_of_isEmpty hn hempty, List.nil_append]
    · rw [List.cons_append, List.flatMap_cons]

theorem Lowers.assemble {items : List Item}
    (h : Lowers derived around s s₁ (items.flatMap Item.nodes)) :
    Lowers derived around s s₁ (assemble items) where
  formed := forall_assemble (fun _ _ => isFormed_block) h.formed
  loops := by
    unfold Lowering.assemble
    rw [loopIndices_gather h.formed]
    exact h.loops

/-! ### Lowering statements -/

namespace Lowerer

variable {g : Lowerer}

/-- Statements are formed, and their loops have the indices that were taken. -/
def formedStatements (g : Lowerer) (derived : Prop) : Layout (g.expressions derived) where
  Allows _ _ := True
  Stand c s s' _ ns := Lowers derived c.around s s' ns
  Taken s s' index :=
    index = s.context.nextLoop ∧ s'.context.nextLoop = s.context.nextLoop + 1

theorem closed_formedStatements : (g.formedStatements derived).Closed where
  split _ := ⟨trivial, trivial⟩
  member _ _ := trivial
  expression _ := trivial
  resolve _ := Ensures.resolve
  caughtType _ := ⟨trivial, trivial⟩
  newLoop hs := ⟨⟨hs, rfl, Scope.Grows.refl _, Nat.le_succ _⟩, rfl, rfl⟩
  newCaught := (Ensures.declaring (f := id)).mono fun _ _ _ ⟨_, hw, hv⟩ => hv ▸ hw
  pinned {s _ n _} hv hn _ := by
    have hpin : ValueIn derived s ⟨.pin, [n]⟩ :=
      .ofPlain rfl rfl (List.forall_mem_singleton.mpr hn.expression)
    exact ⟨Node.isExpression_assignVariable hv hpin.expression, fun _ => rfl⟩
  released hv := .ofPlain rfl rfl
    (List.forall_mem_singleton.mpr (Node.isExpression_ofVariable.mpr hv))
  inside h := (Ensures.withTarget h).mono fun _ _ _ h => ⟨h.formed, h.loops⟩
  nil := .nil
  append h₁ h₂ hn hm := hn.append hm h₁ h₂
  moved {s _ _ _ _} h hn := by
    change Lowers derived s.context.around _ _ _
    rw [← State.Advances.around_eq h]
    exact hn
  weaken _ := id
  value h hn := .ofExpression (isExpression_around h hn.expression)
  statement {_ _ _ _ form ns} hform hslots h := by
    obtain ⟨hstatement, hopen, hdeclares, hmentions⟩ := of_isPlainStatement hform
    exact Lowers.statement h hstatement hopen hdeclares hslots (by simp [hmentions])
  assemble := .assemble
  loop h₁ hcondition h₂ htaken h₃ hbody := by
    obtain ⟨rfl, hnext⟩ := htaken
    have haround := (h₁.trans h₂).around_eq
    refine .loop h₁.loops hnext h₃ ?_ (haround ▸ hbody)
    exact isExpression_around ((h₁.trans h₂).trans h₃) (later (h₂.trans h₃) hcondition.expression)
  switchCase _ h := Lowers.switchCase h
  region h := h
  guardedRegion hvar h := h.guardedRegion hvar
  catchChain hcaught _ h := h.catchChain (Node.isExpression_ofVariable.mpr hcaught)

namespace Reliable

/-- A statement lowers to a part of a block. -/
theorem item (hg : g.Reliable derived) (stmt : Cil.Stmt) (s : State) :
    Ensures derived (g.item stmt) s
      (fun s' item => Lowers derived s.context.around s s' item.nodes) :=
  Layout.Closed.item hg.closed closed_formedStatements stmt s trivial

/-- The statements of a block. -/
theorem statements (hg : g.Reliable derived) {body : List Cil.Stmt} :
    Ensures derived (g.statements body) s
      (fun s' ns => Lowers derived s.context.around s s' ns) :=
  Layout.Closed.statements hg.closed closed_formedStatements trivial

end Reliable

end Lowerer

end ScriptLowering.Lowering
