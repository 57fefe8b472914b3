import ScriptLowering.Ty.Equality

/-!
# The shape of a type

Agreement of types looks at names and modules of definitions and at how wrappers are nested. What it
looks at is kept in the `shape` of a type, and the rest is dropped: of a type without generic
parameters, agreement with another type is equality of shapes (`Ty.agrees_iff_shape`). There the
relation between owners is not asked for, so equality in any hierarchy comes to the same
(`Hierarchy.equal_iff_shape`). Loose shapes have neither modifiers nor pins, and follow from the
strict ones (`Ty.erase_shape`).
-/

namespace ScriptLowering

/-- What agreement sees of a definition: its name, its namespace and its module. -/
def Definition.signature (d : Definition) : Definition :=
  .plain 0 d.namespaceName d.name (.ofFile d.scope.normalized) .classType

theorem Definition.sameName_iff {a b : Definition} :
    a.sameName b = true ↔ a.signature = b.signature := by
  simp only [sameName, ModuleScope.sameModule, signature, plain, ModuleScope.ofFile,
    Bool.and_eq_true, beq_iff_eq, Definition.mk.injEq, ModuleScope.mk.injEq, and_self, true_and,
    and_true]
  constructor
  · rintro ⟨⟨hname, hnamespace⟩, hmodule⟩
    exact ⟨hnamespace, hname, hmodule⟩
  · rintro ⟨hnamespace, hname, hmodule⟩
    exact ⟨⟨hname, hnamespace⟩, hmodule⟩

variable {a b : Ty}

namespace Ty

/-! ### Types without generic parameters -/

mutual

/-- Whether no generic parameter occurs in a type. -/
def isClosed : Ty → Bool
  | named _ => true
  | nested outer _ => outer.isClosed
  | array element _ => element.isClosed
  | byRef element => element.isClosed
  | pointer element => element.isClosed
  | modified element modifier _ => element.isClosed && modifier.isClosed
  | pinned element => element.isClosed
  | inst generic arguments => generic.isClosed && areClosed arguments
  | typeParam .. => false
  | methodParam .. => false
  | functionPointer result parameters => result.isClosed && areClosed parameters

/-- Whether no generic parameter occurs in some types. -/
def areClosed : List Ty → Bool
  | [] => true
  | t :: ts => t.isClosed && areClosed ts

end

/-! ### Shapes -/

mutual

/-- What agreement sees of a type. Only the strict shape has modifiers and pins; enclosing types are
always seen loosely. -/
def shape (strict : Bool) : Ty → Ty
  | named d => .named d.signature
  | nested outer d => .nested (outer.shape false) d.signature
  | array element rank => .array (element.shape strict) rank
  | byRef element => .byRef (element.shape strict)
  | pointer element => .pointer (element.shape strict)
  | modified element modifier required =>
    if strict then .modified (element.shape true) (modifier.shape true) required
    else element.shape false
  | pinned element => if strict then .pinned (element.shape true) else element.shape false
  | inst generic arguments => .inst (generic.shape strict) (shapes strict arguments)
  | typeParam owner position name? => .typeParam owner position name?
  | methodParam owner method declared position name? =>
    .methodParam owner method declared position name?
  | functionPointer result parameters =>
    .functionPointer (result.shape strict) (shapes strict parameters)

/-- The shapes of some types. -/
def shapes (strict : Bool) : List Ty → List Ty
  | [] => []
  | t :: ts => t.shape strict :: shapes strict ts

end

theorem ask_strip {α : Type} {f : Ty → α} (hmodified : ∀ e m r, f (.modified e m r) = f e)
    (hpinned : ∀ e, f (.pinned e) = f e) : ∀ t : Ty, f t.strip = f t
  | modified element _ _ => by rw [strip, ask_strip hmodified hpinned element, hmodified]
  | pinned element => by rw [strip, ask_strip hmodified hpinned element, hpinned]
  | named _ | nested _ _ | array _ _ | byRef _ | pointer _ | inst _ _ | typeParam _ _ _
  | methodParam _ _ _ _ _ | functionPointer _ _ => by simp only [strip]

theorem shape_strip : ∀ t : Ty, t.strip.shape false = t.shape false :=
  ask_strip (fun _ _ _ => rfl) (fun _ => rfl)

/-- Whether a type is neither modified nor pinned on its outside. -/
def isBare : Ty → Bool
  | modified .. | pinned _ => false
  | _ => true

theorem isBare_strip : ∀ t : Ty, t.strip.isBare = true
  | modified element _ _ | pinned element => by rw [strip, isBare_strip element]
  | named _ | nested _ _ | array _ _ | byRef _ | pointer _ | inst _ _ | typeParam _ _ _
  | methodParam _ _ _ _ _ | functionPointer _ _ => by simp only [strip, isBare]

/-- A bare type has nothing to strip. -/
theorem strip_of_isBare {t : Ty} (h : t.isBare = true) : t.strip = t := by
  cases t with
  | modified _ _ _ | pinned _ => cases h
  | _ => simp only [strip]

theorem shape_compared (strict : Bool) (t : Ty) :
    ∃ u : Ty, (if strict then t else t.strip) = u ∧ t.shape strict = u.shape strict
      ∧ (strict = false → u.isBare = true) := by
  cases strict with
  | false => exact ⟨t.strip, rfl, (shape_strip t).symm, fun _ => isBare_strip t⟩
  | true => exact ⟨t, rfl, rfl, fun h => by cases h⟩

mutual

theorem agrees_iff_shape (related : Ty → Ty → Bool) :
    ∀ {a : Ty}, a.isClosed = true → ∀ (strict : Bool) (b : Ty),
      agrees related a strict b = true ↔ a.shape strict = b.shape strict
  -- Modifiers and pins are compared strictly, and looked through otherwise.
  | modified element modifier required, ha, true, b => by
    obtain ⟨helement, hmodifier⟩ := Bool.and_eq_true_iff.mp ha
    have ihelement := agrees_iff_shape related helement true
    have ihmodifier := agrees_iff_shape related hmodifier true
    cases b <;> simp [agrees, shape, ihelement, ihmodifier]
    rw [and_comm, and_comm (a := required = _)]
  | pinned element, ha, true, b => by
    have ihelement := agrees_iff_shape related (a := element) ha true
    cases b <;> simp [agrees, shape, ihelement]
  | modified element modifier required, ha, false, b => by
    have ihelement := agrees_iff_shape related (Bool.and_eq_true_iff.mp ha).1 false b
    simpa [agrees, shape] using ihelement
  | pinned element, ha, false, b => by
    have ihelement := agrees_iff_shape related (a := element) ha false b
    simpa [agrees, shape] using ihelement
  | named d, _, strict, b => by
    obtain ⟨u, hu, hshape, hbare⟩ := shape_compared strict b
    simp only [agrees, hu, hshape]
    cases strict <;> cases u <;> simp_all [shape, isBare, Definition.sameName_iff]
  | nested outer d, ha, strict, b => by
    have ihouter := agrees_iff_shape related (a := outer) ha false
    obtain ⟨u, hu, hshape, hbare⟩ := shape_compared strict b
    simp only [agrees, hu, hshape]
    cases strict <;> cases u <;>
      simp_all [shape, isBare, Definition.sameName_iff, and_comm]
  | array element rank, ha, strict, b => by
    have ihelement := agrees_iff_shape related (a := element) ha strict
    obtain ⟨u, hu, hshape, hbare⟩ := shape_compared strict b
    simp only [agrees, hu, hshape]
    cases strict <;> cases u <;> simp_all [shape, isBare, and_comm]
  | byRef element, ha, strict, b | pointer element, ha, strict, b => by
    have ihelement := agrees_iff_shape related (a := element) ha strict
    obtain ⟨u, hu, hshape, hbare⟩ := shape_compared strict b
    simp only [agrees, hu, hshape]
    cases strict <;> cases u <;> simp_all [shape, isBare]
  | inst head rest, ha, strict, b | functionPointer head rest, ha, strict, b => by
    obtain ⟨hhead, hrest⟩ := Bool.and_eq_true_iff.mp ha
    have ihhead := agrees_iff_shape related hhead strict
    have ihrest := agreesList_iff_shapes related hrest strict
    obtain ⟨u, hu, hshape, hbare⟩ := shape_compared strict b
    simp only [agrees, hu, hshape]
    cases strict <;> cases u <;> simp_all [shape, isBare]

theorem agreesList_iff_shapes (related : Ty → Ty → Bool) :
    ∀ {as : List Ty}, areClosed as = true → ∀ (strict : Bool) (bs : List Ty),
      agreesList related as strict bs = true ↔ shapes strict as = shapes strict bs
  | [], _, strict, bs => by
    cases bs <;> simp [agreesList, shapes]
  | a :: as, h, strict, bs => by
    obtain ⟨ha, has⟩ := Bool.and_eq_true_iff.mp h
    have ihhead := agrees_iff_shape related ha strict
    have ihtail := agreesList_iff_shapes related has strict
    cases bs <;> simp [agreesList, shapes, ihhead, ihtail]

end

/-! ### Likeness -/

/-- Types of one loose shape. -/
def Like (a b : Ty) : Prop :=
  a.shape false = b.shape false

theorem Like.refl (a : Ty) : a.Like a :=
  rfl

theorem Like.symm (h : a.Like b) : b.Like a :=
  Eq.symm h

theorem Like.trans {c : Ty} (h : a.Like b) (h' : b.Like c) : a.Like c :=
  Eq.trans h h'

mutual

/-- A type without modifiers and pins at any depth. -/
def erase : Ty → Ty
  | named d => .named d
  | nested outer d => .nested outer d
  | array element rank => .array element.erase rank
  | byRef element => .byRef element.erase
  | pointer element => .pointer element.erase
  | modified element _ _ => element.erase
  | pinned element => element.erase
  | inst generic arguments => .inst generic.erase (eraseAll arguments)
  | typeParam owner position name? => .typeParam owner position name?
  | methodParam owner method declared position name? =>
    .methodParam owner method declared position name?
  | functionPointer result parameters => .functionPointer result.erase (eraseAll parameters)

/-- Some types without modifiers and pins. -/
def eraseAll : List Ty → List Ty
  | [] => []
  | t :: ts => t.erase :: eraseAll ts

end

mutual

theorem erase_shape : ∀ t : Ty, (t.shape true).erase = t.shape false
  | named _ | nested _ _ | typeParam _ _ _ | methodParam _ _ _ _ _ => by simp only [shape, erase]
  | array element _ | byRef element | pointer element => by
    simp only [shape, erase, erase_shape element]
  | modified element _ _ | pinned element => by simp [shape, erase, erase_shape element]
  | inst head rest | functionPointer head rest => by
    simp only [shape, erase, erase_shape head, eraseAll_shapes rest]

theorem eraseAll_shapes : ∀ ts : List Ty, eraseAll (shapes true ts) = shapes false ts
  | [] => by simp only [shapes, eraseAll]
  | t :: ts => by simp only [shapes, eraseAll, erase_shape t, eraseAll_shapes ts]

end

/-- Types of one strict shape are alike. -/
theorem Like.of_strict (h : a.shape true = b.shape true) : a.Like b := by
  calc a.shape false = (a.shape true).erase := (erase_shape a).symm
    _ = (b.shape true).erase := by rw [h]
    _ = b.shape false := erase_shape b

theorem elementType?_shape : ∀ t : Ty,
    (t.shape false).elementType? = t.elementType?.map (shape false)
  | modified element _ _ | pinned element => by
    simp only [shape, elementType?, Bool.false_eq_true, if_false, elementType?_shape element]
  | named _ | nested _ _ | array _ _ | byRef _ | pointer _ | inst _ _ | typeParam _ _ _
  | methodParam _ _ _ _ _ | functionPointer _ _ => by simp [shape, elementType?]

/-- What like types refer to is alike. -/
theorem Like.referent (h : a.Like b) : (a.elementType?.getD a).Like (b.elementType?.getD b) := by
  have helement : a.elementType?.map (shape false) = b.elementType?.map (shape false) := by
    rw [← elementType?_shape, ← elementType?_shape, h]
  cases ha : a.elementType? <;> cases hb : b.elementType? <;> simp [ha, hb] at helement
  · exact h
  · exact helement

end Ty

/-! ### Equality -/

theorem Hierarchy.equal_iff_shape (h : Hierarchy) (ha : a.isClosed = true) (strict : Bool) (b : Ty) :
    h.equal a b strict = true ↔ a.shape strict = b.shape strict := by
  unfold equal
  generalize maxCrossings = crossings
  cases crossings with
  | zero => rw [equalUpTo_zero, Ty.agrees_iff_shape _ ha]
  | succ n => rw [equalUpTo_succ, Ty.agrees_iff_shape _ ha]

theorem Hierarchy.same_iff_like (h : Hierarchy) (ha : a.isClosed = true) (b : Ty) :
    h.same a b = true ↔ a.Like b :=
  h.equal_iff_shape ha false b

theorem Hierarchy.like_of_equal {h : Hierarchy} {strict : Bool} (ha : a.isClosed = true)
    (heq : h.equal a b strict = true) : a.Like b := by
  rw [h.equal_iff_shape ha] at heq
  cases strict with
  | false => exact heq
  | true => exact Ty.Like.of_strict heq

end ScriptLowering
