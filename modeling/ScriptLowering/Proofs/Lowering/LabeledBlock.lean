import ScriptLowering.Proofs.Lowering.TruthValue

/-!
# Labels split blocks

The statements of a block are lowered one after another (`InOrder`). What comes before the first
label stays as it is, and each label opens a labeled block that reaches to the next label or to the
end (`assemble_eq`). Statements that leave nothing are dropped. Since no statement is lowered to a
labeled block by itself, the labeled blocks in the result are those of the labels, and with their
statements in their place the result is the list of all statements that are left
(`labels_split_block`).
-/

namespace ScriptLowering

open Script

/-- The label that a statement is. -/
def Cil.Stmt.label? : Cil.Stmt → Option String
  | .label name => some name
  | _ => none

namespace Script.Node

/-- The label and the statements of a labeled block. -/
def labeled? (n : Node) : Option (String × List Node) :=
  match n.form with
  | .block (some name) => some (name, n.operands)
  | _ => none

/-- A labeled block as its statements, and any other node as it is. -/
def unlabeled (n : Node) : List Node :=
  match n.labeled? with
  | some segment => segment.2
  | none => [n]

theorem labeled?_of_expression {n : Node} (h : n.form.isStatement = false) : n.labeled? = none := by
  unfold labeled?
  split
  · next hform =>
    rw [hform] at h
    cases h
  · rfl

end Script.Node

namespace Lowering

open Node

/-! ### Segments -/

namespace Item

/-- The label that a part is. -/
def label? : Item → Option String
  | label name => some name
  | statement _ => none

/-- The statement that is left of a part. -/
def kept? : Item → Option Node
  | label _ => none
  | statement n => if n.isEmpty then none else some n

/-- What is left of the parts before the first label. -/
def beforeLabel (items : List Item) : List Node :=
  (items.takeWhile fun i => i.label?.isNone).filterMap kept?

/-- The label at the head of some parts, with what is left of the parts after it up to the next
label. -/
def segment? : List Item → Option (String × List Node)
  | label name :: rest => some (name, beforeLabel rest)
  | _ => none

/-- The segments that the labels of a block open, in order. -/
def segments (items : List Item) : List (String × List Node) :=
  items.tails.filterMap segment?

end Item

open Item

theorem segments_label (name : String) (rest : List Item) :
    segments (.label name :: rest) = (name, beforeLabel rest) :: segments rest :=
  rfl

theorem segments_statement (n : Node) (rest : List Item) :
    segments (.statement n :: rest) = segments rest :=
  rfl

theorem beforeLabel_statement (n : Node) (rest : List Item) :
    beforeLabel (.statement n :: rest)
      = if n.isEmpty then beforeLabel rest else n :: beforeLabel rest := by
  rw [beforeLabel, List.takeWhile_cons_of_pos rfl, List.filterMap_cons, kept?]
  cases n.isEmpty <;> rfl

theorem gather_eq (items : List Item) :
    gather items = (beforeLabel items,
      (segments items).map fun segment => .labeledBlock segment.1 segment.2) := by
  induction items with
  | nil => rfl
  | cons item rest ih =>
    cases item with
    | label name =>
      rw [gather, ih, segments_label, List.map_cons]
      rfl
    | statement n => rw [gather, ih, segments_statement, beforeLabel_statement]

theorem assemble_eq (items : List Item) :
    assemble items
      = beforeLabel items
        ++ (segments items).map fun segment => .labeledBlock segment.1 segment.2 := by
  rw [assemble, gather_eq]

theorem beforeLabel_append_segments (items : List Item) :
    beforeLabel items ++ (segments items).flatMap (·.2) = items.filterMap kept? := by
  induction items with
  | nil => rfl
  | cons item rest ih =>
    cases item with
    | label name =>
      rw [segments_label, List.flatMap_cons, ih]
      rfl
    | statement n =>
      rw [segments_statement, beforeLabel_statement, List.filterMap_cons, ← ih, kept?]
      cases n.isEmpty <;> rfl

theorem map_fst_segments (items : List Item) :
    (segments items).map (·.1) = items.filterMap label? := by
  induction items with
  | nil => rfl
  | cons item rest ih =>
    cases item with
    | label name =>
      rw [segments_label, List.map_cons, ih]
      rfl
    | statement n =>
      rw [segments_statement, ih]
      rfl

theorem beforeLabel_subset (items : List Item) : beforeLabel items ⊆ items.filterMap kept? := by
  rw [← beforeLabel_append_segments]
  exact List.subset_append_left _ _

section

variable {items : List Item} (hplain : ∀ n ∈ items.filterMap kept?, n.labeled? = none)

include hplain

theorem filterMap_labeled?_assemble : (assemble items).filterMap labeled? = segments items := by
  have hbefore : (beforeLabel items).filterMap labeled? = [] :=
    List.filterMap_eq_nil_iff.mpr fun n hn => hplain n (beforeLabel_subset items hn)
  rw [assemble_eq, List.filterMap_append, hbefore, List.nil_append, List.filterMap_map]
  exact List.filterMap_some

theorem flatMap_unlabeled_assemble :
    (assemble items).flatMap unlabeled = items.filterMap kept? := by
  have hbefore : (beforeLabel items).flatMap unlabeled = beforeLabel items := by
    have hsame : ∀ n ∈ beforeLabel items, n.unlabeled = [n] := by
      intro n hn
      rw [unlabeled, hplain n (beforeLabel_subset items hn)]
    rw [List.flatMap_congr hsame, List.flatMap_singleton']
  rw [assemble_eq, List.flatMap_append, hbefore, List.flatMap_map,
    ← beforeLabel_append_segments items]
  rfl

end

/-! ### Lowered statements -/

/-- Statements that are lowered one after another, each from the state that the one before it
left. -/
inductive InOrder (g : Lowerer) : State → List Cil.Stmt → List Item → State → Prop where
  | nil {s : State} : InOrder g s [] [] s
  | cons {s s₁ s' : State} {stmt : Cil.Stmt} {rest : List Cil.Stmt} {item : Item}
      {items : List Item} :
    ((g.item stmt).run s : Except Error Item × State) = (.ok item, s₁) →
    InOrder g s₁ rest items s' → InOrder g s (stmt :: rest) (item :: items) s'

variable {g : Lowerer} {body : List Cil.Stmt} {items : List Item}

theorem inOrder_of_items {s s' : State}
    (hrun : (g.items body).run s = (.ok items, s')) :
    InOrder g s body items s' := by
  induction body generalizing s items with
  | nil =>
    unfold Lowerer.items at hrun
    cases hrun
    exact .nil
  | cons stmt rest ih =>
    unfold Lowerer.items at hrun
    obtain ⟨first, s₁, hfirst, hrun⟩ := exists_run_of_bind hrun
    obtain ⟨others, s₂, hothers, hrun⟩ := exists_run_of_bind hrun
    cases hrun
    exact .cons hfirst (ih hothers)

/-- A lowered part of a statement: a label of a label, and of anything else a node that is no
labeled block. -/
structure Item.IsPartOf (stmt : Cil.Stmt) (item : Item) : Prop where
  label : item.label? = stmt.label?
  plain : ∀ n, item = .statement n → n.labeled? = none

theorem isPartOf_statement {stmt : Cil.Stmt} {n : Node} (hstmt : stmt.label? = none)
    (hn : n.labeled? = none) : Item.IsPartOf stmt (.statement n) where
  label := hstmt.symm
  plain _ h := by
    cases h
    exact hn

theorem labeled?_asStatement {n : Node} (hn : n.form.isStatement = false) :
    (asStatement n).labeled? = none := by
  unfold asStatement
  split
  · exact labeled?_of_expression hn
  · rfl

theorem yields_item (hg : g.Reliable False) (stmt : Cil.Stmt) :
    Yields (g.item stmt) (Item.IsPartOf stmt) := by
  cases stmt with
  | expression e =>
    unfold Lowerer.item
    have hvalue : Yields (g.expression e) fun n => n.form.isStatement = false :=
      fun s => ((hg.expression (s := s)).leads False.elim).mono
        (fun _ _ h => h.2.expression.1) fun _ _ => trivial
    exact hvalue.bind fun n hn => .pure (isPartOf_statement rfl (labeled?_asStatement hn))
  | label name =>
    unfold Lowerer.item
    exact .pure ⟨rfl, fun _ h => by cases h⟩
  | block body =>
    unfold Lowerer.item
    exact .after fun _ => .pure (isPartOf_statement rfl rfl)
  | condition _ _ _ | loop _ _ =>
    unfold Lowerer.item
    exact .after fun _ => .after fun _ => .after fun _ => .pure (isPartOf_statement rfl rfl)
  | switch _ _ | fixed _ _ =>
    unfold Lowerer.item
    exact .after fun _ => .after fun _ => .pure (isPartOf_statement rfl rfl)
  | guarded body handlers finally? fault? =>
    unfold Lowerer.item
    exact .withTarget (.after fun _ => .after fun _ => .after fun _ => .after fun _ =>
      .pure (isPartOf_statement rfl rfl))

theorem InOrder.forall₂ (hg : g.Reliable False) {s s' : State} (h : InOrder g s body items s') :
    List.Forall₂ Item.IsPartOf body items := by
  induction h with
  | nil => exact .nil
  | cons hfirst _ ih => exact .cons ((yields_item hg _ _).done_of_run hfirst) ih

theorem map_label?_of_forall₂ (h : List.Forall₂ Item.IsPartOf body items) :
    items.map Item.label? = body.map Cil.Stmt.label? := by
  induction h with
  | nil => rfl
  | cons hfirst _ ih => rw [List.map_cons, List.map_cons, ih, hfirst.label]

theorem filterMap_label?_of_map (h : items.map Item.label? = body.map Cil.Stmt.label?) :
    items.filterMap Item.label? = body.filterMap Cil.Stmt.label? := by
  have hlists : (items.map Item.label?).filterMap id = (body.map Cil.Stmt.label?).filterMap id := by
    rw [h]
  rwa [List.filterMap_map, List.filterMap_map] at hlists

theorem labeled?_of_forall₂ (h : List.Forall₂ Item.IsPartOf body items) :
    ∀ n ∈ items.filterMap kept?, n.labeled? = none := by
  induction h with
  | nil => exact List.forall_mem_nil _
  | @cons stmt item _ _ hfirst _ ih =>
    cases hitem : item.kept? with
    | none =>
      rw [List.filterMap_cons_none hitem]
      exact ih
    | some n =>
      rw [List.filterMap_cons_some hitem]
      refine List.forall_mem_cons.mpr ⟨?_, ih⟩
      cases item with
      | label name => cases hitem
      | statement m =>
        rw [kept?] at hitem
        split at hitem <;> cases hitem
        exact hfirst.plain n rfl

/-- A block that is lowered, statement after statement, consists of what is left before its first
label and of a labeled block for each label, which holds what is left between the label and the next
one or the end. The labeled blocks in it are these, one for each label and in the order of the
labels; and with their statements in their place, it is what is left of the statements, in order.
Where a block is a statement, it is lowered to a block of the same. -/
theorem labels_split_block (env : Env) (method : Method) (levels : Nat) (body : List Cil.Stmt)
    {s s' : State} {ns : List Node}
    (hrun : ((⟨env, method, lowerUpTo env method levels⟩ : Lowerer).statements body).run s
      = ((.ok ns, s') : Except Error (List Node) × State)) :
    ((⟨env, method, lowerUpTo env method levels⟩ : Lowerer).item (.block body)).run s
        = ((.ok (.statement (.block ns)), s') : Except Error Item × State)
      ∧ ∃ items, InOrder ⟨env, method, lowerUpTo env method levels⟩ s body items s'
      ∧ items.map Item.label? = body.map Cil.Stmt.label?
      ∧ ns = beforeLabel items
          ++ (segments items).map (fun segment => .labeledBlock segment.1 segment.2)
      ∧ ns.flatMap unlabeled = items.filterMap kept?
      ∧ ns.filterMap labeled? = segments items
      ∧ (ns.filterMap labeled?).map (·.1) = body.filterMap Cil.Stmt.label? := by
  have hg : Lowerer.Reliable False ⟨env, method, lowerUpTo env method levels⟩ :=
    ⟨False.elim, ensures_lowerUpTo False.elim method levels⟩
  obtain ⟨items, s₁, hitems, hrest⟩ := exists_run_of_bind hrun
  cases hrest
  have horder := inOrder_of_items hitems
  have hparts := horder.forall₂ hg
  have hlabels := map_label?_of_forall₂ hparts
  have hplain := labeled?_of_forall₂ hparts
  have hblocks := filterMap_labeled?_assemble hplain
  refine ⟨?_, items, horder, hlabels, assemble_eq items, flatMap_unlabeled_assemble hplain,
    hblocks, ?_⟩
  · unfold Lowerer.item
    rw [run_bind_of_run hitems]
    rfl
  · rw [hblocks, map_fst_segments, filterMap_label?_of_map hlabels]

/-- A constant as a statement. -/
def constantStatement (value : Int32) : Cil.Stmt :=
  .expression (.plain .ldcI4 (.int32 value) [])

/-- A block that starts and ends with a label, and has the same label twice in a row before a
statement that leaves nothing. -/
def labeledBody : List Cil.Stmt :=
  [.label "A", constantStatement 1, .label "B", .label "B", .expression (.plain .nop .none []),
    constantStatement 2, .label "C"]

/-- The block, lowered in a plain run. -/
def labeledRun : Except Error (List Node) × State :=
  ((plainLowerer (.plain .nop .none [])).statements labeledBody).run ⟨.start true 512, .start⟩

/-- Four labels make four labeled blocks, of which two hold a statement. -/
theorem labeledBody_split :
    ∃ items ns s', labeledRun = (.ok ns, s') ∧ ns.flatMap unlabeled = items.filterMap kept?
      ∧ ns.filterMap labeled? = segments items
      ∧ (ns.filterMap labeled?).map (·.1) = ["A", "B", "B", "C"]
      ∧ (ns.filterMap labeled?).map (·.2.length) = [1, 0, 1, 0] := by
  have hlengths : (labeledRun.1.toOption.map fun ns =>
      (ns.filterMap labeled?).map (·.2.length)) = some [1, 0, 1, 0] := by
    decide +kernel
  rcases hrun : labeledRun with ⟨_ | ns, s'⟩ <;> rw [hrun] at hlengths
  · cases hlengths
  · obtain ⟨-, items, -, -, -, hstatements, hblocks, hlabels⟩ :=
      labels_split_block plainEnv _ _ labeledBody hrun
    exact ⟨items, ns, s', rfl, hstatements, hblocks, hlabels, Option.some.inj hlengths⟩

end Lowering

end ScriptLowering
