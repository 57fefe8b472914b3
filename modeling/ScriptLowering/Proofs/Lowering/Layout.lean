import ScriptLowering.Lowering.Statement
import ScriptLowering.Proofs.Lowering.Rule

/-!
# Statements under a criterion

A criterion says what is asked of values; a `Layout` says what is asked of the statements that are
made of them. Statements are lowered one after another, so this is a condition on the nodes that
were made between two states. It may depend on where they stand: the body of a loop and the cases of
a switch are lowered inside a construct that they stand outside of afterwards. The handlers of a
region may rely on the exception that they catch.
-/

namespace ScriptLowering

namespace Script.Form

/-- The statements that stand over others in the same surroundings. -/
def isPlainStatement : Form → Bool
  | block _ | expressionStatement | ifElse | switch => true
  | _ => false

/-- The statements that stand over others and mention nothing. -/
def isConstruct : Form → Bool
  | block _ | expressionStatement | ifElse | switch | whileLoop _ | switchCase _ _ => true
  | _ => false

theorem isConstruct_of_isPlainStatement {form : Form} (h : form.isPlainStatement = true) :
    form.isConstruct = true := by
  cases form <;> first | rfl | cases h

end Script.Form

namespace Lowering

open Script

/-- The nodes of a lowered part. -/
def Item.nodes : Item → List Node
  | label _ => []
  | statement n => [n]

/-- A state inside of a construct. -/
abbrev State.inside (s : State) (target : JumpTarget) : State :=
  { s with context := s.context.pushTarget target }

/-! ### Conditions on each node -/

section

variable {P : Node → Prop}

theorem forall_assemble (hlabel : ∀ name ns, (∀ n ∈ ns, P n) → P (.labeledBlock name ns))
    {items : List Item} (h : ∀ n ∈ items.flatMap Item.nodes, P n) : ∀ n ∈ assemble items, P n := by
  have hgather : ∀ items : List Item, (∀ n ∈ items.flatMap Item.nodes, P n) →
      (∀ n ∈ (gather items).1, P n) ∧ ∀ n ∈ (gather items).2, P n := by
    intro items h
    induction items with
    | nil => simp [gather]
    | cons item rest ih =>
      cases item with
      | label name =>
        obtain ⟨hstatements, hblocks⟩ := ih h
        refine ⟨by simp [gather], List.forall_mem_cons.mpr ⟨?_, hblocks⟩⟩
        exact hlabel name _ hstatements
      | statement n =>
        obtain ⟨hn, hrest⟩ := List.forall_mem_cons.mp h
        obtain ⟨hstatements, hblocks⟩ := ih hrest
        refine ⟨?_, hblocks⟩
        unfold gather
        simp only
        split
        · exact hstatements
        · exact List.forall_mem_cons.mpr ⟨hn, hstatements⟩
  exact List.forall_mem_append.mpr (hgather items h)

theorem forall_catchChain {h : Hierarchy} {caught : Node} (hrethrow : P rethrowBlock) :
    ∀ {handlers : List (Ty × Node)},
      (∀ r ∈ handlers, ∀ rest, P rest → P ⟨.ifElse, [⟨.typeTest r.1, [caught]⟩, r.2, rest]⟩) →
      (∀ r ∈ handlers, P r.2) → P (catchChain h caught handlers)
  | [], _, _ => hrethrow
  | r :: rest, htest, hhandlers => by
    obtain ⟨hfirst, hothers⟩ := List.forall_mem_cons.mp htest
    obtain ⟨hbody, hrest⟩ := List.forall_mem_cons.mp hhandlers
    have ih := forall_catchChain (h := h) hrethrow hothers hrest
    unfold catchChain at ih ⊢
    rw [List.foldr_cons]
    split
    · exact hbody
    · exact hfirst _ ih

end

/-! ### Layouts -/

/-- What is asked of statements. -/
structure Layout {g : Lowerer} (C : Criterion g) where
  /-- The statements that may be lowered, by what they mention and their parts. -/
  Allows : List Cil.Mention → List Cil.Part → Prop
  /-- Nodes that were lowered between two states and stand in the surroundings of a context. They
  may rely on some variables. -/
  Stand : Context → State → State → List Variable → List Node → Prop
  /-- An index that was taken for a loop between two states. -/
  Taken : State → State → Nat → Prop

namespace Layout

variable {g : Lowerer} {C : Criterion g}

/-- What allows statements allows their parts. -/
structure Descends (L : Layout C) : Prop where
  split {ms ms' : List Cil.Mention} {ps ps' : List Cil.Part} :
    L.Allows (ms ++ ms') (ps ++ ps') → L.Allows ms ps ∧ L.Allows ms' ps'
  member {α : Type} {f : α → List Cil.Mention} {h : α → List Cil.Part} {as : List α} {a : α} :
    L.Allows (as.flatMap f) (as.flatMap h) → a ∈ as → L.Allows (f a) (h a)
  expression {e : Cil.Expr} : L.Allows e.mentions e.parts → C.Lowers e
  resolve {v : Cil.Variable} {s : State} :
    L.Allows v.mentions v.parts → C.Meets (g.resolve v) s C.Own
  caughtType {t : Ty} {ms : List Cil.Mention} {ps : List Cil.Part} :
    L.Allows (.type t :: ms) ps → C.types t ∧ L.Allows ms ps

/-- Loops, exceptions and pinned storage can be provided for. -/
structure Provides (L : Layout C) : Prop where
  newLoop {s : State} : C.Meets Lowerer.newLoop s (L.Taken s)
  newCaught {s : State} : C.Meets g.newCaught s C.Temporary
  pinned {s : State} {v : Variable} {n : Node} {t : Ty} :
    C.Own s v → C.Value s [] n → C.types t →
      C.Value s [] (.binary .assign (.ofVariable v) ⟨.pin, [n]⟩ t)
  released {s : State} {v : Variable} : C.Own s v → C.Value s [] ⟨.unpin, [.ofVariable v]⟩

/-- A layout that the lowering of statements keeps. -/
structure Closed (L : Layout C) : Prop extends Descends L, Provides L where
  inside {α : Type} {x : Lower α} {s : State} {target : JumpTarget} {c : Context}
      {nodes : α → List Node} :
    C.Meets x (s.inside target) (fun s' a => L.Stand c (s.inside target) s' [] (nodes a)) →
      C.Meets (Lower.withTarget target x) s fun s' a => L.Stand c s s' [] (nodes a)
  nil {c : Context} {s s' : State} {vs : List Variable} : L.Stand c s s' vs []
  append {c : Context} {s s₁ s₂ : State} {vs : List Variable} {ns ms : List Node} :
    C.Later s s₁ → C.Later s₁ s₂ → L.Stand c s s₁ vs ns → L.Stand c s₁ s₂ vs ms →
      L.Stand c s s₂ vs (ns ++ ms)
  /-- The surroundings stay the same. -/
  moved {s s₁ s₂ : State} {vs : List Variable} {ns : List Node} :
    C.Later s s₁ → L.Stand s₁.context s₁ s₂ vs ns → L.Stand s.context s₁ s₂ vs ns
  weaken {c : Context} {s s' : State} {ns : List Node} (vs : List Variable) :
    L.Stand c s s' [] ns → L.Stand c s s' vs ns
  value {s s' : State} {vs : List Variable} {n : Node} :
    C.Later s s' → C.Value s' vs n → L.Stand s.context s s' vs [n]
  statement {c : Context} {s s' : State} {vs : List Variable} {form : Form} {ns : List Node} :
    form.isPlainStatement = true → form.Takes ns.length → L.Stand c s s' vs ns →
      L.Stand c s s' vs [⟨form, ns⟩]
  assemble {c : Context} {s s' : State} {items : List Item} :
    L.Stand c s s' [] (items.flatMap Item.nodes) → L.Stand c s s' [] (assemble items)
  /-- The condition of a loop is lowered before its index is taken, and its body afterwards. -/
  loop {s s₁ s₂ s₃ : State} {index : Nat} {condition body : Node} :
    C.Later s s₁ → C.Value s₁ [] condition → C.Later s₁ s₂ → L.Taken s₁ s₂ index →
      C.Later s₂ s₃ → L.Stand (s₂.inside (.loop index)).context s₂ s₃ [] [body] →
      L.Stand s.context s s₃ [] [⟨.whileLoop index, [condition, body]⟩]
  switchCase {s s₁ s₂ : State} {ns : List Node} (values : List Int64) :
    L.Stand (s.inside .switch).context s₁ s₂ [] ns →
      L.Stand s.context s₁ s₂ [] [switchCase values ns]
  /-- Jumps pass through a region. -/
  region {s s₁ s₂ : State} {ns : List Node} :
    L.Stand (s.inside .region).context s₁ s₂ [] ns → L.Stand s.context s₁ s₂ [] ns
  guardedRegion {c : Context} {s s' : State} {var? : Option Variable}
      {body handler finalizer fault : Node} :
    (∀ v, var? = some v → C.Temporary s' v) →
      L.Stand c s s' var?.toList [body, handler, finalizer, fault] →
      L.Stand c s s' [] [guardedRegion var? body handler finalizer fault]
  catchChain {c : Context} {s s' : State} {caught : Variable} {handlers : List (Ty × Node)} :
    C.Temporary s' caught → (∀ r ∈ handlers, C.types r.1) →
      L.Stand c s s' [caught] (handlers.map (·.2)) →
      L.Stand c s s' [caught] [catchChain g.env.types (.ofVariable caught) handlers]

namespace Closed

variable {L : Layout C} (hC : C.Closed) (hL : L.Closed) {s : State}
include hC hL

/-! ### Small statements -/

omit hC in
theorem block {c : Context} {s' : State} {vs : List Variable} {ns : List Node}
    (h : L.Stand c s s' vs ns) : L.Stand c s s' vs [.block ns] :=
  hL.statement rfl (Nat.zero_le _) h

omit hC in
theorem expressionStatement {s' : State} {vs : List Variable} {n : Node} (h : C.Later s s')
    (hn : C.Value s' vs n) : L.Stand s.context s s' vs [.expressionStatement n] :=
  hL.statement rfl rfl (hL.value h hn)

omit hC in
theorem asStatement {s' : State} {n : Node} (h : C.Later s s') (hn : C.Value s' [] n) :
    L.Stand s.context s s' [] [asStatement n] := by
  unfold Lowering.asStatement
  split
  · exact hL.value h hn
  · exact hL.expressionStatement h hn

theorem empty : L.Stand s.context s s [] [.empty] :=
  hL.value (hC.refl s) (hC.general rfl rfl (by simp [Form.types]) (by simp))

omit hL in
theorem assignOwn {vs : List Variable} {v : Variable} {value : Node} (hv : C.Own s v)
    (h : ∀ t, C.types t → C.Value s vs (.binary .assign (.ofVariable v) value t)) :
    C.Meets (g.assign (.ofVariable v) value) s fun s' n => C.Value s' vs n :=
  hC.compoundAssign (fun hs => hC.computedType hs (hC.part (hC.own hv))) fun t ht _ => h t ht

theorem bindCaught {caught : Variable} {v? : Option Cil.Variable} (hcaught : C.Temporary s caught)
    (hv : ∀ v, v? = some v → L.Allows v.mentions v.parts) :
    C.Meets (g.bindCaught caught v?) s fun s' ns => L.Stand s.context s s' [caught] ns := by
  cases v? with
  | none => exact hC.pure hL.nil
  | some v =>
    refine hC.bind (hL.resolve (hv v rfl)) fun s₁ w h₁ hw => ?_
    refine hC.fitting fun hs => hC.reading (s₁.context.scope.typeOf w) (fun _ => rfl) ?_
    have hcaught : C.Value s₁ [caught] (.ofVariable caught) :=
      hC.temporary (hC.temporary_later h₁ hcaught) (List.mem_singleton_self caught)
    have hvalue : C.Value s₁ [caught]
        (.changeType (.ofVariable caught) (s₁.context.scope.typeOf w)) :=
      hC.general rfl rfl (List.forall_mem_singleton.mpr (hC.variableType hs hw))
        (List.forall_mem_singleton.mpr hcaught)
    have htarget := hC.weakenPart (hC.part (hC.own hw)) (List.nil_subset [caught])
    refine hC.bind (assignOwn hC hw fun t ht => hC.assignment htarget (hC.part hvalue) rfl ht)
      fun s₂ assignment h₂ hassignment => ?_
    exact hC.pure (hL.expressionStatement (hC.trans h₁ h₂) hassignment)

theorem pin {p : Cil.Variable × Cil.Expr}
    (hp : L.Allows (p.1.mentions ++ p.2.mentions) (p.1.parts ++ p.2.parts)) :
    C.Meets (g.pin p) s fun s' r => C.Own s' r.1 ∧ L.Stand s.context s s' [] [r.2] := by
  obtain ⟨hv, he⟩ := hL.split hp
  refine hC.bind (hL.resolve hv) fun s₁ v h₁ hv => ?_
  refine hC.bind (hC.raw (hL.expression he)) fun s₂ reference h₂ hreference => ?_
  refine hC.requireReference fun _ => ?_
  have hv := hC.own_later h₂ hv
  refine hC.bind (assignOwn hC hv fun t ht => hL.pinned hv hreference ht)
    fun s₃ assignment h₃ hassignment => ?_
  refine hC.pure ⟨hC.own_later h₃ hv, ?_⟩
  exact hL.expressionStatement (hC.trans (hC.trans h₁ h₂) h₃) hassignment

theorem pins : ∀ {pins : List (Cil.Variable × Cil.Expr)} {s : State},
    (∀ p ∈ pins, L.Allows (p.1.mentions ++ p.2.mentions) (p.1.parts ++ p.2.parts)) →
    C.Meets (Lower.each g.pin pins) s fun s' rs =>
      (∀ v ∈ rs.map (·.1), C.Own s' v) ∧ L.Stand s.context s s' [] (rs.map (·.2))
  | [], _, _ => hC.pure ⟨by simp, hL.nil⟩
  | p :: rest, s, hp => by
    obtain ⟨hp, hrest⟩ := List.forall_mem_cons.mp hp
    refine hC.bind (pin hC hL hp) fun s₁ r h₁ hr => ?_
    refine hC.bind (pins hrest) fun s₂ rs h₂ hrs => ?_
    refine hC.pure ⟨List.forall_mem_cons.mpr ⟨hC.own_later h₂ hr.1, hrs.1⟩, ?_⟩
    exact hL.append h₁ h₂ hr.2 (hL.moved h₁ hrs.2)

/-- The storage is released. -/
theorem unpins : ∀ {vs : List Variable}, (∀ v ∈ vs, C.Own s v) →
    L.Stand s.context s s [] (vs.map unpin)
  | [], _ => hL.nil
  | _ :: _, hvs => by
    obtain ⟨hv, hrest⟩ := List.forall_mem_cons.mp hvs
    exact hL.append (hC.refl s) (hC.refl s) (hL.expressionStatement (hC.refl s) (hL.released hv))
      (unpins hrest)

theorem loopCondition {e? : Option Cil.Expr}
    (he : ∀ e, e? = some e → L.Allows e.mentions e.parts) : C.Gives (g.loopCondition e?) s := by
  cases e? with
  | none => exact hC.pure (hC.literal rfl (by simp [Literal.types]))
  | some e => exact hC.condition (hL.expression (he e rfl))

theorem handler {isMissing : Bool} {handlers : Variable → Lower (List (Ty × Node))}
    (hhandlers : ∀ caught s, C.Temporary s caught → C.Meets (handlers caught) s fun s' rs =>
      (∀ r ∈ rs, C.types r.1) ∧ L.Stand s.context s s' [caught] (rs.map (·.2))) :
    C.Meets (g.handler isMissing handlers) s fun s' r =>
      (∀ v, r.1 = some v → C.Temporary s' v) ∧ L.Stand s.context s s' r.1.toList [r.2] := by
  refine .ite (fun _ => hC.pure ⟨by simp, empty hC hL⟩) fun _ => ?_
  refine hC.bind hL.newCaught fun s₁ caught h₁ hcaught => ?_
  refine hC.bind (hhandlers caught s₁ hcaught) fun s₂ rs h₂ hrs => ?_
  have hcaught := hC.temporary_later h₂ hcaught
  refine hC.pure ⟨?_, hL.block ?_⟩
  · rintro v ⟨⟩
    exact hcaught
  · have hchain := hL.catchChain hcaught hrs.1 (hL.moved h₁ hrs.2)
    exact hL.append h₁ h₂ hL.nil hchain

/-! ### Statements -/

mutual

/-- A statement lowers to a part of a block. -/
theorem item : ∀ (stmt : Cil.Stmt) (s : State), L.Allows stmt.mentions stmt.parts →
    C.Meets (g.item stmt) s fun s' item => L.Stand s.context s s' [] item.nodes
  | .expression e, s, h => by
    unfold Lowerer.item
    rw [Cil.Stmt.mentions, Cil.Stmt.parts] at h
    refine hC.bind (hC.expression (hL.expression h)) fun s₁ n h₁ hn => ?_
    exact hC.pure (hL.asStatement h₁ hn)
  | .label name, s, _ => by
    unfold Lowerer.item
    exact hC.pure hL.nil
  | .block body, s, h => by
    unfold Lowerer.item
    rw [Cil.Stmt.mentions, Cil.Stmt.parts] at h
    refine hC.bind (items body s h) fun s₁ parts _ hparts => ?_
    exact hC.pure (hL.block (hL.assemble hparts))
  | .condition condition whenTrue whenFalse?, s, h => by
    unfold Lowerer.item
    rw [Cil.Stmt.mentions, Cil.Stmt.parts] at h
    obtain ⟨h, hno⟩ := hL.split h
    obtain ⟨hcondition, hyes⟩ := hL.split h
    refine hC.bind (hC.condition (hL.expression hcondition)) fun s₁ test h₁ htest => ?_
    refine hC.bind (items whenTrue s₁ hyes) fun s₂ yes h₂ hyes => ?_
    refine hC.bind (optionalBlock whenFalse? s₂ hno) fun s₃ no h₃ hno => ?_
    -- Condition and branches were lowered in the order in which they stand.
    have hyes := hL.moved h₁ (hL.block (hL.assemble hyes))
    have hno := hL.moved (hC.trans h₁ h₂) hno
    have hall := hL.append (hC.trans h₁ h₂) h₃ (hL.append h₁ h₂ (hL.value h₁ htest) hyes) hno
    exact hC.pure (hL.statement rfl rfl hall)
  | .loop condition? body, s, h => by
    unfold Lowerer.item
    rw [Cil.Stmt.mentions, Cil.Stmt.parts] at h
    obtain ⟨hcondition, hbody⟩ := hL.split h
    refine hC.bind (loopCondition hC hL fun e he =>
      hL.member hcondition (Option.mem_toList.mpr he)) fun s₁ condition h₁ hcondition => ?_
    refine hC.bind hL.newLoop fun s₂ index h₂ htaken => ?_
    refine hC.bind (hL.inside (items body _ hbody)) fun s₃ parts h₃ hparts => ?_
    exact hC.pure (hL.loop h₁ hcondition h₂ htaken h₃ (hL.block (hL.assemble hparts)))
  | .switch scrutinee cases, s, h => by
    unfold Lowerer.item
    rw [Cil.Stmt.mentions, Cil.Stmt.parts] at h
    obtain ⟨hscrutinee, hcases⟩ := hL.split h
    refine hC.bind (hC.expression (hL.expression hscrutinee)) fun s₁ value h₁ hvalue => ?_
    refine hC.bind (hL.inside (cases' cases s₁ _ (hC.refl _) hcases)) fun s₂ cases h₂ hcases => ?_
    have hall := hL.append h₁ h₂ (hL.value h₁ hvalue) (hL.moved h₁ hcases)
    exact hC.pure (hL.statement rfl (Nat.succ_le_succ (Nat.zero_le _)) hall)
  | .guarded body handlers finally? fault?, s, h => by
    unfold Lowerer.item
    rw [Cil.Stmt.mentions, Cil.Stmt.parts] at h
    obtain ⟨h, hfault⟩ := hL.split h
    obtain ⟨h, hfinally⟩ := hL.split h
    obtain ⟨hbody, hhandlers⟩ := hL.split h
    refine hC.mono (hL.inside (c := (s.inside .region).context) ?_) fun _ _ _ h => hL.region h
    refine hC.bind (items body _ hbody) fun s₁ parts h₁ hparts => ?_
    refine hC.bind (handler hC hL fun caught s hcaught =>
      handlers' handlers caught s hcaught hhandlers) ?_
    rintro s₂ ⟨var?, handler⟩ h₂ ⟨hvar, hhandler⟩
    refine hC.bind (optionalBlock finally? s₂ hfinally) fun s₃ finalizer h₃ hfinalizer => ?_
    refine hC.bind (optionalBlock fault? s₃ hfault) fun s₄ fault h₄ hfault => ?_
    have h₁₂ := hC.trans h₁ h₂
    have h₁₃ := hC.trans h₁₂ h₃
    have hbody := hL.weaken var?.toList (hL.block (hL.assemble hparts))
    have hfinalizer := hL.weaken var?.toList (hL.moved h₁₂ hfinalizer)
    have hfault := hL.weaken var?.toList (hL.moved h₁₃ hfault)
    have hall := hL.append h₁₃ h₄ (hL.append h₁₂ h₃ (hL.append h₁ h₂ hbody
      (hL.moved h₁ hhandler)) hfinalizer) hfault
    refine hC.pure (hL.guardedRegion (fun v hv => ?_) hall)
    exact hC.temporary_later (hC.trans h₃ h₄) (hvar v hv)
  | .fixed pins body, s, h => by
    unfold Lowerer.item
    rw [Cil.Stmt.mentions, Cil.Stmt.parts] at h
    obtain ⟨hpins, hbody⟩ := hL.split h
    refine hC.bind (Closed.pins hC hL fun p hp => hL.member hpins hp)
      fun s₁ pinned h₁ hpinned => ?_
    refine hC.bind (items body s₁ hbody) fun s₂ parts h₂ hparts => ?_
    obtain ⟨hvars, hpins⟩ := hpinned
    -- The body stands in a region whose last part releases the storage.
    have hsame := hC.refl s₂
    have hunpins := hL.moved h₂ (hL.block (unpins hC hL fun v hv => hC.own_later h₂ (hvars v hv)))
    have hempty := hL.moved h₂ (empty hC hL (s := s₂))
    have hall := hL.append h₂ hsame (hL.append h₂ hsame (hL.append h₂ hsame
      (hL.block (hL.assemble hparts)) hempty) hunpins) hempty
    rw [List.map_map] at hall
    have hnone : ∀ v, none = some v → C.Temporary s₂ v := fun v hv => by cases hv
    have hregion := hL.guardedRegion hnone hall
    exact hC.pure (hL.block (hL.append h₁ h₂ hpins (hL.moved h₁ hregion)))

/-- Statements lower to parts of a block. -/
theorem items : ∀ (body : List Cil.Stmt) (s : State),
    L.Allows (Cil.Stmt.mentionsList body) (Cil.Stmt.partsList body) →
    C.Meets (g.items body) s fun s' parts => L.Stand s.context s s' [] (parts.flatMap Item.nodes)
  | [], s, _ => by
    unfold Lowerer.items
    exact hC.pure hL.nil
  | stmt :: rest, s, h => by
    unfold Lowerer.items
    rw [Cil.Stmt.mentionsList, Cil.Stmt.partsList] at h
    obtain ⟨hstmt, hrest⟩ := hL.split h
    refine hC.bind (item stmt s hstmt) fun s₁ first h₁ hfirst => ?_
    refine hC.bind (items rest s₁ hrest) fun s₂ others h₂ hothers => ?_
    exact hC.pure (hL.append h₁ h₂ hfirst (hL.moved h₁ hothers))

theorem optionalBlock : ∀ (body? : Option (List Cil.Stmt)) (s : State),
    L.Allows (Cil.Stmt.mentionsOption body?) (Cil.Stmt.partsOption body?) →
    C.Meets (g.optionalBlock body?) s fun s' n => L.Stand s.context s s' [] [n]
  | none, s, _ => by
    unfold Lowerer.optionalBlock
    exact hC.pure (empty hC hL)
  | some body, s, h => by
    unfold Lowerer.optionalBlock
    rw [Cil.Stmt.mentionsOption, Cil.Stmt.partsOption] at h
    refine hC.bind (items body s h) fun s₁ parts _ hparts => ?_
    exact hC.pure (hL.block (hL.assemble hparts))

theorem cases' : ∀ (cs : List Cil.Case) (s s₁ : State), C.Later (s.inside .switch) s₁ →
    L.Allows (Cil.Case.mentionsList cs) (Cil.Case.partsList cs) →
    C.Meets (g.cases cs) s₁ fun s₂ ns => L.Stand s.context s₁ s₂ [] ns
  | [], s, s₁, _, _ => by
    unfold Lowerer.cases
    exact hC.pure hL.nil
  | .mk values body :: rest, s, s₁, h₁, h => by
    unfold Lowerer.cases
    rw [Cil.Case.mentionsList, Cil.Case.partsList] at h
    obtain ⟨hbody, hrest⟩ := hL.split h
    refine hC.bind (items body s₁ hbody) fun s₂ parts h₂ hparts => ?_
    refine hC.bind (cases' rest s s₂ (hC.trans h₁ h₂) hrest) fun s₃ others h₃ hothers => ?_
    have hcase := hL.switchCase values (hL.moved h₁ (hL.assemble hparts))
    exact hC.pure (hL.append h₂ h₃ hcase hothers)

theorem handlers' : ∀ (hs : List Cil.Handler) (caught : Variable) (s : State),
    C.Temporary s caught → L.Allows (Cil.Handler.mentionsList hs) (Cil.Handler.partsList hs) →
    C.Meets (g.handlers caught hs) s fun s' rs =>
      (∀ r ∈ rs, C.types r.1) ∧ L.Stand s.context s s' [caught] (rs.map (·.2))
  | [], caught, s, _, _ => by
    unfold Lowerer.handlers
    exact hC.pure ⟨by simp, hL.nil⟩
  | .mk type var? body :: rest, caught, s, hcaught, h => by
    unfold Lowerer.handlers
    rw [Cil.Handler.mentionsList, Cil.Handler.partsList] at h
    obtain ⟨h, hrest⟩ := hL.split h
    obtain ⟨htype, h⟩ := hL.caughtType h
    obtain ⟨hvar, hbody⟩ := hL.split h
    refine hC.bind (bindCaught hC hL hcaught fun v hv =>
      hL.member hvar (Option.mem_toList.mpr hv)) fun s₁ binding h₁ hbinding => ?_
    refine hC.bind (items body s₁ hbody) fun s₂ parts h₂ hparts => ?_
    have h₁₂ := hC.trans h₁ h₂
    refine hC.bind (handlers' rest caught s₂ (hC.temporary_later h₁₂ hcaught) hrest)
      fun s₃ others h₃ hothers => ?_
    -- Only the binding relies on the exception.
    have hbody := hL.weaken [caught] (hL.moved h₁ (hL.assemble hparts))
    have hblock := hL.block (hL.append h₁ h₂ hbinding hbody)
    exact hC.pure ⟨List.forall_mem_cons.mpr ⟨htype, hothers.1⟩,
      hL.append h₁₂ h₃ hblock (hL.moved h₁₂ hothers.2)⟩

end

/-- The statements of a block. -/
theorem statements {body : List Cil.Stmt}
    (h : L.Allows (Cil.Stmt.mentionsList body) (Cil.Stmt.partsList body)) :
    C.Meets (g.statements body) s fun s' ns => L.Stand s.context s s' [] ns :=
  hC.bind (items hC hL body s h) fun _ _ _ hparts => hC.pure (hL.assemble hparts)

end Closed

/-! ### Conditions on each node as layouts -/

/-- A condition on each node. -/
def ofNodes (C : Criterion g) (Allows : List Cil.Mention → List Cil.Part → Prop)
    (Holds : State → List Variable → Node → Prop) : Layout C where
  Allows := Allows
  Stand _ _ s' vs ns := ∀ n ∈ ns, Holds s' vs n
  Taken _ _ _ := True

/-- A condition on each node that the lowering of statements keeps. -/
structure OnNodes (C : Criterion g) (Holds : State → List Variable → Node → Prop) : Prop where
  inside {α : Type} {x : Lower α} {s : State} {target : JumpTarget} {nodes : α → List Node} :
    C.Meets x (s.inside target) (fun s' a => ∀ n ∈ nodes a, Holds s' [] n) →
      C.Meets (Lower.withTarget target x) s fun s' a => ∀ n ∈ nodes a, Holds s' [] n
  later {s s' : State} {vs : List Variable} {n : Node} :
    C.Later s s' → Holds s vs n → Holds s' vs n
  weaken {s : State} {vs : List Variable} {n : Node} : Holds s [] n → Holds s vs n
  value {s : State} {vs : List Variable} {n : Node} : C.Value s vs n → Holds s vs n
  construct {s : State} {vs : List Variable} {form : Form} {ns : List Node} :
    form.isConstruct = true → (∀ n ∈ ns, Holds s vs n) → Holds s vs ⟨form, ns⟩
  guardedRegion {s : State} {var? : Option Variable} {body handler finalizer fault : Node} :
    (∀ v, var? = some v → C.Temporary s v) →
      (∀ n ∈ [body, handler, finalizer, fault], Holds s var?.toList n) →
      Holds s [] (guardedRegion var? body handler finalizer fault)

theorem OnNodes.closed {Allows : List Cil.Mention → List Cil.Part → Prop}
    {Holds : State → List Variable → Node → Prop} (h : OnNodes C Holds) (hC : C.Closed)
    (hdescends : (ofNodes C Allows Holds).Descends) (hprovides : (ofNodes C Allows Holds).Provides) :
    (ofNodes C Allows Holds).Closed where
  toDescends := hdescends
  toProvides := hprovides
  inside := h.inside
  nil := List.forall_mem_nil _
  append _ h₂ hns hms := List.forall_mem_append.mpr ⟨fun n hn => h.later h₂ (hns n hn), hms⟩
  moved _ hns := hns
  weaken _ hns n hn := h.weaken (hns n hn)
  value _ hn := List.forall_mem_singleton.mpr (h.value hn)
  statement hform _ hns :=
    List.forall_mem_singleton.mpr (h.construct (Form.isConstruct_of_isPlainStatement hform) hns)
  assemble := forall_assemble fun _ _ hns => h.construct rfl hns
  loop _ hcondition h₂ _ h₃ hbody := by
    have hcondition := h.later (hC.trans h₂ h₃) (h.value hcondition)
    exact List.forall_mem_singleton.mpr
      (h.construct rfl (List.forall_mem_cons.mpr ⟨hcondition, hbody⟩))
  switchCase _ hns := List.forall_mem_singleton.mpr
    (h.construct rfl (List.forall_mem_singleton.mpr (h.construct rfl hns)))
  region hns := hns
  guardedRegion hvar hns := List.forall_mem_singleton.mpr (h.guardedRegion hvar hns)
  catchChain {_ _ s' caught _} hcaught htypes hns := by
    have hcaught : C.Part s' [caught] (.ofVariable caught) :=
      hC.part (hC.temporary hcaught (List.mem_singleton_self caught))
    have hrethrow : Holds s' [caught] ⟨.rethrow, []⟩ :=
      h.value (hC.general rfl rfl (by simp [Form.types]) (by simp))
    refine List.forall_mem_singleton.mpr (forall_catchChain ?_ (fun r hr rest hrest => ?_) ?_)
    · refine h.construct rfl (List.forall_mem_singleton.mpr ?_)
      exact h.construct rfl (List.forall_mem_singleton.mpr hrethrow)
    · have htest : C.Value s' [caught] ⟨.typeTest r.1, [.ofVariable caught]⟩ :=
        hC.loose rfl rfl (List.forall_mem_singleton.mpr (htypes r hr))
          (List.forall_mem_singleton.mpr hcaught)
      have hbody := hns r.2 (List.mem_map_of_mem hr)
      exact h.construct rfl (by simp [h.value htest, hbody, hrest])
    · exact fun r hr => hns r.2 (List.mem_map_of_mem hr)

end Layout

end Lowering

end ScriptLowering
