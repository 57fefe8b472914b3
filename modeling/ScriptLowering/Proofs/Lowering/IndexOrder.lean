import ScriptLowering.Proofs.Canonical.PropertyMeaning
import ScriptLowering.Proofs.Lowering.TruthValue

/-!
# The order in which hoisted indices are evaluated

The element of an array with several dimensions evaluates the array and then the indices, from left
to right. When its indices are hoisted, those that are neither constants nor variables are evaluated
first, into temporaries; then the array, and then the variables among the indices. So the array and
the moved indices change places, and variables are read after indices that came after them.
`hoisting_keeps_order_iff` says that this is all that can differ: hoisting keeps what the element
evaluates exactly if the array and the moved indices commute and the variables among the indices
still hold at the end what they held at their turn. It does not always (`operands_change_places`).
-/

namespace ScriptLowering.Lowering

open Script Canonical

variable {V : Type} {bound : Nat} {host : Host V bound}

/-! ### Indices that stay and indices that move -/

/-- The indices that are moved into temporaries. -/
def movedIndices (indices : List Node) : List Node :=
  indices.filter fun index => !isStableIndex index

variable {index : Node} {indices prelude kept : List Node} {s : Script.State V}

theorem movedIndices_cons_of_stable (hstable : isStableIndex index = true) (rest : List Node) :
    movedIndices (index :: rest) = movedIndices rest := by
  rw [movedIndices, List.filter_cons, hstable]
  rfl

theorem movedIndices_cons_of_moved (hmoved : isStableIndex index = false) (rest : List Node) :
    movedIndices (index :: rest) = index :: movedIndices rest := by
  rw [movedIndices, List.filter_cons, hmoved]
  rfl

/-- A variable is read. -/
theorem eval_of_var? {operand : Node} {v : Variable} (hvar : operand.var? = some v)
    (t : Script.State V) : host.eval operand t = (t.locals v.id, t) := by
  obtain ⟨form, operands⟩ := operand
  obtain rfl : form = .var v := Node.form_of_var? hvar
  unfold Host.eval
  rfl

theorem eval_of_isStableIndex (hstable : isStableIndex index = true) (s t : Script.State V) :
    host.eval index t = (again t index (host.eval index s).1, t) := by
  cases hvar : index.var? with
  | some v => rw [eval_of_var? hvar, again, hvar]
  | none =>
    have hconstant : index.isConstant = true := by
      simpa [isStableIndex, hvar] using hstable
    obtain ⟨x, hx⟩ := host.eval_constant index hconstant
    rw [again_of_var? hvar, hx, hx]

theorem var?_of_not_isStableIndex (hmoved : isStableIndex index = false) : index.var? = none := by
  rw [isStableIndex, Bool.or_eq_false_iff, Option.isSome_eq_false_iff, Option.isNone_iff_eq_none]
    at hmoved
  exact hmoved.2

theorem evalAll_movedIndices (indices : List Node) (s : Script.State V) :
    (host.evalAll (movedIndices indices) s).2 = (host.evalAll indices s).2 := by
  induction indices generalizing s with
  | nil => rfl
  | cons index rest ih =>
    cases hstable : isStableIndex index with
    | true =>
      rw [movedIndices_cons_of_stable hstable, Host.evalAll, eval_of_isStableIndex hstable s s]
      exact ih s
    | false =>
      rw [movedIndices_cons_of_moved hstable, Host.evalAll, Host.evalAll]
      exact ih _

theorem reread_eq_iff (indices : List Node) (s s' t : Script.State V) :
    reread t indices (host.evalAll indices s).1 = (host.evalAll indices s').1
      ↔ (host.evalAll (movedIndices indices) s).1 = (host.evalAll (movedIndices indices) s').1
        ∧ StillHold t indices (host.evalAll indices s').1 := by
  induction indices generalizing s s' with
  | nil =>
    rw [movedIndices, List.filter_nil, Host.evalAll, Host.evalAll]
    exact ⟨fun _ => ⟨rfl, .nil⟩, fun _ => rfl⟩
  | cons index rest ih =>
    rw [Host.evalAll, Host.evalAll, reread_cons, List.cons.injEq, ih, stillHold_cons]
    cases hstable : isStableIndex index with
    | true =>
      -- The index is no moved one, and only a variable can give another value.
      have hvalue : again t index (host.eval index s).1 = (host.eval index s').1
          ↔ ∀ v, index.var? = some v → t.locals v.id = (host.eval index s').1 := by
        cases hvar : index.var? with
        | some v => simp [again, hvar]
        | none =>
          have hsame : (host.eval index s).1 = (host.eval index s').1 := by
            rw [eval_of_isStableIndex hstable s' s, again_of_var? hvar]
          simp [again_of_var? hvar, hsame]
      have hs : (host.eval index s).2 = s := by rw [eval_of_isStableIndex hstable s s]
      have hs' : (host.eval index s').2 = s' := by rw [eval_of_isStableIndex hstable s' s']
      rw [movedIndices_cons_of_stable hstable, hvalue, hs, hs']
      exact and_left_comm
    | false =>
      have hvar := var?_of_not_isStableIndex hstable
      have hholds : ∀ v, index.var? = some v → t.locals v.id = (host.eval index s').1 := by
        intro v hv
        rw [hvar] at hv
        cases hv
      rw [movedIndices_cons_of_moved hstable, Host.evalAll, Host.evalAll, List.cons.injEq,
        again_of_var? hvar, and_iff_right hholds, and_assoc]

/-! ### Hoisting -/

/-- How indices are hoisted with the temporaries from a number up to another one: indices that can
be evaluated again stay, and each other one is assigned to the next temporary, which takes its
place. -/
inductive Hoists : Nat → Nat → List Node → List Node → List Node → Prop where
  | nil {first : Nat} : Hoists first first [] [] []
  | stay {first last : Nat} {index : Node} {rest prelude kept : List Node} :
    isStableIndex index = true → Hoists first last rest prelude kept →
    Hoists first last (index :: rest) prelude (index :: kept)
  | move {first last : Nat} {index : Node} {rest prelude kept : List Node} {v : Variable}
    {type : Ty} :
    isStableIndex index = false → v.id = first → Hoists (first + 1) last rest prelude kept →
    Hoists first last (index :: rest) (.binary .assign (.ofVariable v) index type :: prelude)
      (.ofVariable v :: kept)

/-- Hoisting always answers. -/
theorem exists_hoists (g : Lowerer) (indices : List Node) : ∀ s : State, ∃ prelude kept s',
    (g.hoistEach indices).run s
        = (.ok (prelude, kept), s')
      ∧ Hoists s.context.scope.nextId s'.context.scope.nextId indices prelude kept := by
  induction indices with
  | nil => exact fun s => ⟨[], [], s, rfl, .nil⟩
  | cons index rest ih =>
    intro s
    unfold Lowerer.hoistEach
    cases hstable : isStableIndex index with
    | true =>
      obtain ⟨prelude, kept, s', hrun, hhoists⟩ := ih s
      refine ⟨prelude, index :: kept, s', ?_, .stay hstable hhoists⟩
      rw [if_pos rfl, run_bind_of_run hrun]
      rfl
    | false =>
      -- The temporary takes the next number, and the others come after it.
      let type := index.computedType g.core s.context.scope.retyping
      let v := (s.context.table.newTemporary type).1
      let s₁ : State :=
        { s with context := { s.context with table := (s.context.table.newTemporary type).2 } }
      obtain ⟨prelude, kept, s', hrun, hhoists⟩ := ih s₁
      refine ⟨.binary .assign (.ofVariable v) index type :: prelude, .ofVariable v :: kept, s', ?_,
        .move hstable rfl hhoists⟩
      rw [if_neg Bool.false_ne_true, run_bind_of_run (run_typeOf g index s),
        run_bind_of_run (run_newTemporary type s), run_bind_of_run hrun]
      rfl

variable {first last : Nat}

theorem Hoists.spills (h : Hoists first last indices prelude kept) (hbound : bound ≤ first)
    (hbelow : ∀ o ∈ indices, o.VariablesBelow bound) (host : Host V bound) (s : Script.State V)
    (temporaries : Nat → V) :
    ∃ after, Spills host indices first last ⟨prelude, kept⟩ s temporaries after := by
  induction h generalizing s temporaries with
  | nil => exact ⟨temporaries, spills_nil⟩
  | stay hstable _ ih =>
    obtain ⟨hindex, hrest⟩ := List.forall_mem_cons.mp hbelow
    obtain ⟨after, hafter⟩ := ih hbound hrest s temporaries
    exact ⟨after, hafter.keep (eval_of_isStableIndex hstable s) hindex⟩
  | @move first last index _ _ _ v _ hmoved hv _ ih =>
    obtain ⟨hindex, hrest⟩ := List.forall_mem_cons.mp hbelow
    obtain ⟨after, hafter⟩ := ih (Nat.le_succ_of_le hbound) hrest (host.eval index s).2
      fun i => if i = v.id then (host.eval index s).1 else temporaries i
    exact ⟨after, hafter.move (var?_of_not_isStableIndex hmoved) hindex hv hbound⟩

variable {array : Node}

theorem evalAll_hoisted {after : Nat → V} (harray : array.VariablesBelow bound)
    (hspills : Spills host indices first last ⟨prelude, kept⟩ s s.locals after) :
    host.evalAll (array :: kept) (host.evalAll prelude s).2
      = let moved := host.evalAll indices s
        let target := host.eval array moved.2
        (target.1 :: reread target.2 indices moved.1, target.2.overlay bound after) := by
  have hself : s.overlay bound s.locals = s := by simp [State.overlay]
  have hstate := hspills.state
  rw [hself] at hstate
  rw [hstate, Host.evalAll, (host.frames array harray).eval]
  dsimp only
  rw [hspills.operands _ after fun _ _ => rfl]

/-! ### Order -/

/-- Two evaluations of operands with the same values, the same trace, and the same variables below a
bound. -/
structure SameValues (bound : Nat) (a b : List V × Script.State V) : Prop where
  values : a.1 = b.1
  trace : a.2.trace = b.2.trace
  locals : ∀ i < bound, a.2.locals i = b.2.locals i

/-- An operand and the operands after it can be evaluated in either order. -/
structure Commutes (host : Host V bound) (operand : Node) (later : List Node)
    (s : Script.State V) : Prop where
  value : (host.eval operand (host.evalAll later s).2).1 = (host.eval operand s).1
  values : (host.evalAll later s).1 = (host.evalAll later (host.eval operand s).2).1
  trace : (host.eval operand (host.evalAll later s).2).2.trace
    = (host.evalAll later (host.eval operand s).2).2.trace
  locals : ∀ i < bound, (host.eval operand (host.evalAll later s).2).2.locals i
    = (host.evalAll later (host.eval operand s).2).2.locals i

theorem stillHold_congr {t : Script.State V} {operands : List Node} {values : List V}
    (hbelow : ∀ o ∈ operands, o.VariablesBelow bound)
    (hlocals : ∀ i < bound, s.locals i = t.locals i) :
    StillHold s operands values ↔ StillHold t operands values := by
  induction operands generalizing values with
  | nil => cases values <;> simp [StillHold]
  | cons operand rest ih =>
    obtain ⟨hoperand, hrest⟩ := List.forall_mem_cons.mp hbelow
    cases values with
    | nil => simp [StillHold]
    | cons x values =>
      rw [stillHold_cons, stillHold_cons, ih hrest]
      have hheld : ∀ v, operand.var? = some v → s.locals v.id = t.locals v.id := fun v hv =>
        hlocals v.id (hoperand operand List.mem_cons_self v (Node.form_of_var? hv))
      exact and_congr_left fun _ => forall₂_congr fun v hv => by rw [hheld v hv]

theorem sameValues_hoisted_iff {after : Nat → V} (harray : array.VariablesBelow bound)
    (hindices : ∀ o ∈ indices, o.VariablesBelow bound)
    (hspills : Spills host indices first last ⟨prelude, kept⟩ s s.locals after) :
    SameValues bound (host.evalAll (array :: kept) (host.evalAll prelude s).2)
        (host.evalAll (array :: indices) s)
      ↔ Commutes host array (movedIndices indices) s
        ∧ StillHold (host.evalAll (array :: indices) s).2 indices
            (host.evalAll (array :: indices) s).1.tail := by
  have hmoved : ∀ t, (host.evalAll (movedIndices indices) t).2 = (host.evalAll indices t).2 :=
    evalAll_movedIndices indices
  -- Hoisted, the indices come first, then the array, and then what is kept of the indices is read.
  rw [evalAll_hoisted harray hspills, Host.evalAll]
  constructor
  · intro hsame
    obtain ⟨hvalue, hread⟩ := List.cons.inj hsame.values
    have hlocals : ∀ i < bound, (host.eval array (host.evalAll indices s).2).2.locals i
        = (host.evalAll indices (host.eval array s).2).2.locals i := fun i hi => by
      rw [← hsame.locals i hi, State.locals_overlay_of_lt hi]
    obtain ⟨hvalues, hhold⟩ := (reread_eq_iff indices s _ _).mp hread
    refine ⟨⟨?_, hvalues, ?_, ?_⟩, (stillHold_congr hindices hlocals).mp hhold⟩
    · rw [hmoved]
      exact hvalue
    · rw [hmoved, hmoved]
      exact hsame.trace
    · rw [hmoved, hmoved]
      exact hlocals
  · rintro ⟨hcommutes, hhold⟩
    have hlocals := hcommutes.locals
    have hvalue := hcommutes.value
    have htrace := hcommutes.trace
    rw [hmoved, hmoved] at hlocals htrace
    rw [hmoved] at hvalue
    refine ⟨?_, htrace, fun i hi => ?_⟩
    · rw [List.cons.injEq, reread_eq_iff]
      exact ⟨hvalue, hcommutes.values, (stillHold_congr hindices hlocals).mpr hhold⟩
    · rw [State.locals_overlay_of_lt hi]
      exact hlocals i hi

theorem commutes_and_stillHold_iff (hstable : isStableIndex array = true) (indices : List Node)
    (s : Script.State V) :
    Commutes host array (movedIndices indices) s
        ∧ StillHold (host.evalAll (array :: indices) s).2 indices
          (host.evalAll (array :: indices) s).1.tail
      ↔ StillHold (host.evalAll (array :: indices) s).2 (array :: indices)
          (host.evalAll (array :: indices) s).1 := by
  have hstill : ∀ t, (host.eval array t).2 = t := fun t => by
    rw [eval_of_isStableIndex hstable t t]
  have hread : (host.eval array (host.evalAll indices s).2).1 = (host.eval array s).1
      ↔ ∀ v, array.var? = some v → (host.evalAll indices s).2.locals v.id
        = (host.eval array s).1 := by
    rw [eval_of_isStableIndex hstable s (host.evalAll indices s).2, again]
    cases array.var? with
    | none => simp
    | some v => simp
  have hcommutes : Commutes host array (movedIndices indices) s
      ↔ (host.eval array (host.evalAll indices s).2).1 = (host.eval array s).1 := by
    rw [← evalAll_movedIndices indices s]
    refine ⟨fun h => h.value, fun h => ⟨h, by rw [hstill], by rw [hstill, hstill], fun i _ => ?_⟩⟩
    rw [hstill, hstill]
  rw [Host.evalAll, stillHold_cons, hstill, hcommutes, hread]
  rfl

theorem evalAll_of_still {operands : List Node}
    (hstill : ∀ o ∈ operands, ∀ t : Script.State V, (host.eval o t).2 = t) (s : Script.State V) :
    (host.evalAll operands s).2 = s ∧ StillHold s operands (host.evalAll operands s).1 := by
  induction operands with
  | nil =>
    rw [Host.evalAll]
    exact ⟨rfl, .nil⟩
  | cons operand rest ih =>
    obtain ⟨hoperand, hrest⟩ := List.forall_mem_cons.mp hstill
    rw [Host.evalAll, stillHold_cons, hoperand]
    refine ⟨(ih hrest).1, fun v hv => ?_, (ih hrest).2⟩
    rw [eval_of_var? hv]

/-- Operands that change no state commute. -/
theorem commutes_of_still {operand : Node} {later : List Node}
    (hoperand : ∀ t : Script.State V, (host.eval operand t).2 = t)
    (hlater : ∀ o ∈ later, ∀ t : Script.State V, (host.eval o t).2 = t) (s : Script.State V) :
    Commutes host operand later s := by
  have hafter := fun t => (evalAll_of_still hlater t).1
  refine ⟨?_, ?_, ?_, fun i _ => ?_⟩
  · rw [hafter]
  · rw [hoperand]
  · rw [hafter, hafter]
  · rw [hafter, hafter]

/-- The indices of an element of an array with several dimensions are always hoisted. What is
evaluated then, prelude first, is what the element evaluates exactly if the array and the moved
indices commute and the variables among the indices hold in the end what they held at their turn; if
the array is a constant or a variable, exactly if the variables hold; and always, if no operand
changes the state. -/
theorem hoisting_keeps_order_iff (g : Lowerer) (element : Ty) (array first second : Node)
    (rest : List Node) (s : State)
    (hbelow : ∀ o ∈ array :: first :: second :: rest, o.VariablesBelow s.context.scope.nextId) :
    let indices := first :: second :: rest
    ∃ prelude kept s', ((g.hoistIndices ⟨.elementAccess element, array :: indices⟩).run s :
          Except Error (List Node × Node) × State)
        = (.ok (prelude, ⟨.elementAccess element, array :: kept⟩), s')
      ∧ ∀ {V : Type} (host : Host V s.context.scope.nextId) (t : Script.State V),
        let hoisted := host.evalAll (array :: kept) (host.evalAll prelude t).2
        let plain := host.evalAll (array :: indices) t
        (SameValues s.context.scope.nextId hoisted plain
            ↔ Commutes host array (movedIndices indices) t
              ∧ StillHold plain.2 indices plain.1.tail)
          ∧ (isStableIndex array = true →
            (SameValues s.context.scope.nextId hoisted plain
              ↔ StillHold plain.2 (array :: indices) plain.1))
          ∧ ((∀ o ∈ array :: indices, ∀ t : Script.State V, (host.eval o t).2 = t) →
            SameValues s.context.scope.nextId hoisted plain) := by
  intro indices
  obtain ⟨harray, hindices⟩ := List.forall_mem_cons.mp hbelow
  obtain ⟨prelude, kept, s', hrun, hhoists⟩ := exists_hoists g indices s
  refine ⟨prelude, kept, s', ?_, fun {V} host t => ?_⟩
  · unfold Lowerer.hoistIndices
    rw [run_bind_of_run hrun]
    rfl
  · intro hoisted plain
    obtain ⟨after, hafter⟩ := hhoists.spills (Nat.le_refl _) hindices host t t.locals
    have hiff : SameValues s.context.scope.nextId hoisted plain
        ↔ Commutes host array (movedIndices indices) t
          ∧ StillHold plain.2 indices plain.1.tail :=
      sameValues_hoisted_iff harray hindices hafter
    refine ⟨hiff, fun hstable => ?_, fun hstill => hiff.mpr ⟨?_, ?_⟩⟩
    · exact hiff.trans (commutes_and_stillHold_iff hstable indices t)
    · -- Where nothing changes the state, what changes places still commutes.
      obtain ⟨harrayStill, hindicesStill⟩ := List.forall_mem_cons.mp hstill
      exact commutes_of_still harrayStill
        (fun o ho => hindicesStill o (List.mem_of_mem_filter ho)) t
    · obtain ⟨hsame, hhold⟩ := evalAll_of_still hstill t
      show StillHold (host.evalAll (array :: indices) t).2 indices
        (host.evalAll (array :: indices) t).1.tail
      rw [hsame]
      rw [Host.evalAll] at hhold ⊢
      exact (stillHold_cons.mp hhold).2

/-! ### Operands that change places -/

/-- A local for an integer. -/
def cell (id : Nat) (name : String) : Variable :=
  ⟨id, name, .localVariable, Core.standard.int32, id⟩

/-- A grid and two integers. -/
def gridState : State :=
  let declare (table : Table) (name : String) : Table :=
    (table.add name .localVariable Core.standard.int32).2
  { context := { Context.start true 512 with
      table := declare (declare (declare .empty "grid") "i") "j" }
    session := .start }

/-- The assignment of one to a local. -/
def oneInto (v : Variable) : Node :=
  .binary .assign (.ofVariable v) (.integer .standard .i4 1) Core.standard.int32

/-- The call of a method without arguments. -/
def callOf (name : String) : Node :=
  .invocation ⟨name, widget, Core.standard.int32, [], [], .empty⟩ .static false .empty []

/-- A host on numbers: constants are one, and calls answer zero and are recorded. -/
def recording : Host Nat 3 where
  compute _ _ := 1
  operate _ x y := x + y
  truth x := x != 0
  answer trace _ _ := trace.length
  perform n locals _ := (0, locals, [.done n.form []])

/-- Seven, eight and nine in the variables. -/
def sevenEightNine : Script.State Nat :=
  ⟨fun i => i + 7, []⟩

/-- The lowering that hoists. -/
def hoisting : Lowerer :=
  plainLowerer (loadOf "x" Core.standard.int32)

theorem variablesBelow_oneInto {v : Variable} (hv : v.id < bound) :
    (oneInto v).VariablesBelow bound := by
  have hone : (Node.integer .standard .i4 1).VariablesBelow bound :=
    Node.variablesBelow_mk.mpr ⟨fun _ h => (by cases h), fun _ h => absurd h List.not_mem_nil⟩
  refine Node.variablesBelow_mk.mpr ⟨fun _ h => (by cases h), List.forall_mem_cons.mpr ⟨?_, ?_⟩⟩
  · exact variablesBelow_ofVariable hv
  · exact List.forall_mem_singleton.mpr hone

/-- An index that assigns another variable than those that stay keeps the order. -/
theorem other_index_assigned_same :
    let grid := Node.ofVariable (cell 0 "grid")
    let i := Node.ofVariable (cell 1 "i")
    let j := oneInto (cell 2 "j")
    ∃ prelude kept s',
      (hoisting.hoistIndices ⟨.elementAccess Core.standard.int32, [grid, i, j]⟩).run gridState
          = (.ok (prelude, ⟨.elementAccess Core.standard.int32, grid :: kept⟩), s')
      ∧ SameValues 3 (recording.evalAll (grid :: kept) (recording.evalAll prelude sevenEightNine).2)
          (recording.evalAll [grid, i, j] sevenEightNine) := by
  intro grid i j
  have hbelow : ∀ o ∈ [grid, i, j], o.VariablesBelow gridState.context.scope.nextId := by
    refine List.forall_mem_cons.mpr ⟨variablesBelow_ofVariable (by decide),
      List.forall_mem_cons.mpr ⟨variablesBelow_ofVariable (by decide), ?_⟩⟩
    exact List.forall_mem_singleton.mpr (variablesBelow_oneInto (by decide))
  obtain ⟨prelude, kept, s', hrun, hmeaning⟩ :=
    hoisting_keeps_order_iff hoisting Core.standard.int32 grid i j [] gridState hbelow
  refine ⟨prelude, kept, s', hrun, ((hmeaning recording sevenEightNine).2.1 rfl).mpr ?_⟩
  -- The grid and the first index hold seven and eight throughout.
  refine .cons (fun v hv => ?_) (.cons (fun v hv => ?_) (.cons (fun v hv => ?_) .nil))
  · cases hv
    rfl
  · cases hv
    rfl
  · cases hv

/-- The name of a method that is called. -/
def calledName? : Event Nat → Option String
  | .done (.invocation m _ _) _ => some m.name
  | _ => none

/-- An array that is called for is called after an index that is, and a variable is read after the
index that assigns it: calls in another order, and another index. -/
theorem operands_change_places :
    (∃ prelude kept s', (hoisting.hoistIndices ⟨.elementAccess Core.standard.int32,
            [callOf "Grid", callOf "Next", oneInto (cell 2 "j")]⟩).run gridState
          = (.ok (prelude, ⟨.elementAccess Core.standard.int32, callOf "Grid" :: kept⟩), s')
        ∧ (recording.evalAll (callOf "Grid" :: kept)
            (recording.evalAll prelude sevenEightNine).2).2.trace.filterMap calledName?
          = ["Next", "Grid"]
        ∧ (recording.evalAll [callOf "Grid", callOf "Next", oneInto (cell 2 "j")]
            sevenEightNine).2.trace.filterMap calledName? = ["Grid", "Next"])
      ∧ ∃ prelude kept s', (hoisting.hoistIndices ⟨.elementAccess Core.standard.int32,
            [.ofVariable (cell 0 "grid"), .ofVariable (cell 1 "i"), oneInto (cell 1 "i")]⟩).run
          gridState = (.ok (prelude, ⟨.elementAccess Core.standard.int32,
            .ofVariable (cell 0 "grid") :: kept⟩), s')
        ∧ (recording.evalAll (.ofVariable (cell 0 "grid") :: kept)
            (recording.evalAll prelude sevenEightNine).2).1 = [7, 1, 1]
        ∧ (recording.evalAll [.ofVariable (cell 0 "grid"), .ofVariable (cell 1 "i"),
            oneInto (cell 1 "i")] sevenEightNine).1 = [7, 8, 1] :=
  ⟨⟨_, _, _, rfl, by decide +kernel, by decide +kernel⟩, _, _, _, rfl, by decide +kernel,
    by decide +kernel⟩

end ScriptLowering.Lowering
