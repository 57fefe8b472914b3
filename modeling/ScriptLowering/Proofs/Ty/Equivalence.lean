import ScriptLowering.Proofs.Ty.World

/-!
# Equality of types is an equivalence

Agreement is defined by recursion on its first type, and looks at the second as it goes. It is
symmetric all the same, for every symmetric relation between owners of generic parameters
(`Ty.agrees_comm`); and deriving from each other is symmetric by its definition, so equality is.
-/

namespace ScriptLowering

variable {a b : Ty}

namespace Ty

/-! ### Symmetry -/

theorem agrees_strip_left (related : Ty → Ty → Bool) (b : Ty) :
    ∀ a : Ty, agrees related a.strip false b = agrees related a false b :=
  ask_strip (f := fun a => agrees related a false b)
    (fun _ _ _ => by simp only [agrees, Bool.false_eq_true, if_false])
    (fun _ => by simp only [agrees, Bool.false_eq_true, if_false])

theorem comm_of_compared {related : Ty → Ty → Bool} {strict : Bool}
    (h : ∀ u : Ty, (strict = false → u.isBare = true) →
      agrees related a strict u = agrees related u strict a)
    (b : Ty) : agrees related a strict b = agrees related b strict a := by
  cases strict with
  | true => exact h b fun hstrict => by cases hstrict
  | false =>
    calc agrees related a false b = agrees related a false b.strip := (agrees_strip related a b).symm
      _ = agrees related b.strip false a := h b.strip fun _ => isBare_strip b
      _ = agrees related b false a := agrees_strip_left related a b

theorem comm_of_strip {related : Ty → Ty → Bool} {element : Ty} (hstrip : a.strip = element.strip)
    (h : agrees related element false b = agrees related b false element) :
    agrees related a false b = agrees related b false a := by
  rw [← agrees_strip_left, hstrip, agrees_strip_left, h, ← agrees_strip related b element, ← hstrip,
    agrees_strip]

/-- Having the same slot is symmetric. -/
theorem Parameter.sameSlot_comm (p q : Parameter) : p.sameSlot q = q.sameSlot p := by
  unfold Parameter.sameSlot
  rw [Bool.beq_comm (a := p.position), Bool.beq_comm (a := p.method?)]
  cases p.name? <;> cases q.name? <;> simp [Bool.beq_comm]

theorem sameName_comm (a b : Definition) : a.sameName b = b.sameName a := by
  rw [Bool.eq_iff_iff, Definition.sameName_iff, Definition.sameName_iff, eq_comm]

mutual

theorem agrees_comm {related : Ty → Ty → Bool} (hrelated : ∀ x y, related x y = related y x) :
    ∀ (a : Ty) (strict : Bool) (b : Ty), agrees related a strict b = agrees related b strict a
  -- Modifiers and pins are compared strictly, and looked through otherwise.
  | modified element modifier required, true, b => by
    have ihelement := agrees_comm hrelated element true
    have ihmodifier := agrees_comm hrelated modifier true
    cases b <;> simp [agrees, ihelement, ihmodifier, Bool.beq_comm, expandedParameter?]
  | pinned element, true, b => by
    have ihelement := agrees_comm hrelated element true
    cases b <;> simp [agrees, ihelement, expandedParameter?]
  | modified element _ _, false, b | pinned element, false, b =>
    comm_of_strip (by simp only [strip]) (agrees_comm hrelated element false b)
  | named d, strict, b => by
    refine comm_of_compared (fun u hbare => ?_) b
    cases strict <;> cases u <;>
      simp_all [agrees, strip, isBare, expandedParameter?, sameName_comm d]
  | nested outer d, strict, b => by
    have ihouter := agrees_comm hrelated outer false
    refine comm_of_compared (fun u hbare => ?_) b
    cases strict <;> cases u <;>
      simp_all [agrees, strip, isBare, expandedParameter?, sameName_comm d]
  | array element rank, strict, b => by
    have ihelement := agrees_comm hrelated element strict
    refine comm_of_compared (fun u hbare => ?_) b
    cases strict <;> cases u <;>
      simp_all [agrees, strip, isBare, expandedParameter?, Bool.beq_comm (a := rank)]
  | byRef element, strict, b | pointer element, strict, b => by
    have ihelement := agrees_comm hrelated element strict
    refine comm_of_compared (fun u hbare => ?_) b
    cases strict <;> cases u <;> simp_all [agrees, strip, isBare, expandedParameter?]
  | inst head rest, strict, b | functionPointer head rest, strict, b => by
    have ihhead := agrees_comm hrelated head strict
    have ihrest := agreesList_comm hrelated rest strict
    refine comm_of_compared (fun u hbare => ?_) b
    cases strict <;> cases u <;> simp_all [agrees, strip, isBare, expandedParameter?]
  | typeParam owner _ _, strict, b | methodParam owner _ _ _ _, strict, b => by
    have ihowner := agrees_comm hrelated owner false
    refine comm_of_compared (fun u hbare => ?_) b
    cases strict <;> cases u <;> try cases hbare rfl
    all_goals
      simp [agrees, strip, expandedParameter?, Parameter.sameSlot_comm, ihowner, hrelated owner]

theorem agreesList_comm {related : Ty → Ty → Bool} (hrelated : ∀ x y, related x y = related y x) :
    ∀ (as : List Ty) (strict : Bool) (bs : List Ty),
      agreesList related as strict bs = agreesList related bs strict as
  | [], strict, bs => by cases bs <;> simp [agreesList]
  | a :: as, strict, bs => by
    have ihhead := agrees_comm hrelated a strict
    have ihtail := agreesList_comm hrelated as strict
    cases bs <;> simp [agreesList, ihhead, ihtail]

end

/-! ### Owners that are definitions -/

mutual

/-- Whether the owners of generic parameters and the enclosing types in a type are definitions. -/
def hasDefinedOwners : Ty → Bool
  | named _ => true
  | nested outer _ => outer.isDefinition && outer.hasDefinedOwners
  | array element _ => element.hasDefinedOwners
  | byRef element => element.hasDefinedOwners
  | pointer element => element.hasDefinedOwners
  | modified element modifier _ => element.hasDefinedOwners && modifier.hasDefinedOwners
  | pinned element => element.hasDefinedOwners
  | inst generic arguments => generic.hasDefinedOwners && haveDefinedOwners arguments
  | typeParam owner _ _ => owner.isDefinition && owner.hasDefinedOwners
  | methodParam owner _ _ _ _ => owner.isDefinition && owner.hasDefinedOwners
  | functionPointer result parameters => result.hasDefinedOwners && haveDefinedOwners parameters

/-- Whether the owners of generic parameters and the enclosing types in some types are
definitions. -/
def haveDefinedOwners : List Ty → Bool
  | [] => true
  | t :: ts => t.hasDefinedOwners && haveDefinedOwners ts

end

/-- A definition whose enclosing types are definitions. -/
structure IsPlainDefinition (t : Ty) : Prop where
  definition : t.isDefinition = true
  owners : t.hasDefinedOwners = true

theorem IsPlainDefinition.outer {outer : Ty} {d : Definition}
    (h : (nested outer d).IsPlainDefinition) : outer.IsPlainDefinition := by
  have howners := h.owners
  rw [hasDefinedOwners, Bool.and_eq_true] at howners
  exact ⟨howners.1, howners.2⟩

theorem agrees_definition (related related' : Ty → Ty → Bool) :
    ∀ (a : Ty) (strict : Bool) {b : Ty}, b.IsPlainDefinition →
      agrees related a strict b = agrees related' a strict b
  | named _, strict, b, _ => by simp only [agrees]
  | nested outer _, strict, b, hb => by
    have hdefinition := hb.definition
    cases b with
    | nested outer' _ =>
      have houter := agrees_definition related related' outer false hb.outer
      cases strict <;> simp [agrees, strip, houter]
    | named _ => cases strict <;> simp [agrees, strip]
    | _ => cases hdefinition
  | modified element _ _, false, b, hb | pinned element, false, b, hb => by
    simpa [agrees] using agrees_definition related related' element false hb
  -- No wrapper, instance or parameter agrees with a definition.
  | modified _ _ _, true, b, hb | pinned _, true, b, hb | array _ _, strict, b, hb
  | byRef _, strict, b, hb | pointer _, strict, b, hb | inst _ _, strict, b, hb
  | typeParam _ _ _, strict, b, hb | methodParam _ _ _ _ _, strict, b, hb
  | functionPointer _ _, strict, b, hb => by
    have hdefinition := hb.definition
    cases b with
    | named _ | nested _ _ => simp [agrees, strip, expandedParameter?]
    | _ => cases hdefinition

theorem expandedParameter?_owner {t : Ty} (h : t.hasDefinedOwners = true) {p : Parameter}
    (hp : t.expandedParameter? = some p) : p.owner.IsPlainDefinition := by
  cases t with
  | typeParam owner _ _ | methodParam owner _ _ _ _ =>
    rw [hasDefinedOwners, Bool.and_eq_true] at h
    cases hp
    exact ⟨h.1, h.2⟩
  | _ => cases hp

theorem hasDefinedOwners_strip {t : Ty} (h : t.hasDefinedOwners = true) :
    t.strip.hasDefinedOwners = true := by
  fun_induction strip t with
  | case1 element modifier required ih =>
    rw [hasDefinedOwners, Bool.and_eq_true] at h
    exact ih h.1
  | case2 element ih =>
    rw [hasDefinedOwners] at h
    exact ih h
  | case3 t => exact h

/-- Two relations that do not differ on plain definitions. -/
def AlikeOnDefinitions (related related' : Ty → Ty → Bool) : Prop :=
  ∀ a b : Ty, a.IsPlainDefinition → b.IsPlainDefinition → related a b = related' a b

variable {related related' : Ty → Ty → Bool}

theorem owner_agrees_congr (hrelated : AlikeOnDefinitions related related') {owner : Ty}
    (howner : owner.IsPlainDefinition) (hb : b.hasDefinedOwners = true) {q : Parameter}
    (hq : b.expandedParameter? = some q) :
    (agrees related owner false q.owner || related owner q.owner)
      = (agrees related' owner false q.owner || related' owner q.owner) := by
  have hqowner := expandedParameter?_owner hb hq
  rw [agrees_definition related related' owner false hqowner, hrelated owner q.owner howner hqowner]

theorem congr_of_compared {strict : Bool} (hb : b.hasDefinedOwners = true)
    (h : ∀ u : Ty, u.hasDefinedOwners = true → (strict = false → u.isBare = true) →
      agrees related a strict u = agrees related' a strict u) :
    agrees related a strict b = agrees related' a strict b := by
  cases strict with
  | true => exact h b hb fun hstrict => by cases hstrict
  | false =>
    rw [← agrees_strip related, ← agrees_strip related']
    exact h b.strip (hasDefinedOwners_strip hb) fun _ => isBare_strip b

mutual

theorem agrees_congr (hrelated : AlikeOnDefinitions related related') :
    ∀ {a : Ty}, a.hasDefinedOwners = true → ∀ (strict : Bool) {b : Ty},
      b.hasDefinedOwners = true → agrees related a strict b = agrees related' a strict b
  | named _, _, strict, b, _ => by simp only [agrees]
  -- Modifiers and pins are compared strictly, and looked through otherwise.
  | modified element modifier _, ha, true, b, hb => by
    rw [hasDefinedOwners, Bool.and_eq_true] at ha
    have ihelement := @agrees_congr hrelated element ha.1 true
    have ihmodifier := @agrees_congr hrelated modifier ha.2 true
    cases b <;> simp_all [agrees, hasDefinedOwners]
  | pinned element, ha, true, b, hb => by
    have ihelement := @agrees_congr hrelated element ha true
    cases b <;> simp_all [agrees, hasDefinedOwners]
  | modified element _ _, ha, false, b, hb => by
    rw [hasDefinedOwners, Bool.and_eq_true] at ha
    simpa [agrees] using agrees_congr hrelated ha.1 false hb
  | pinned element, ha, false, b, hb => by
    rw [hasDefinedOwners] at ha
    simpa [agrees] using agrees_congr hrelated ha false hb
  | nested outer _, ha, strict, b, hb => by
    rw [hasDefinedOwners, Bool.and_eq_true] at ha
    have ihouter := @agrees_congr hrelated outer ha.2 false
    refine congr_of_compared hb fun u hu hbare => ?_
    cases strict <;> cases u <;> simp_all [agrees, strip, isBare, hasDefinedOwners]
  | array element _, ha, strict, b, hb | byRef element, ha, strict, b, hb
  | pointer element, ha, strict, b, hb => by
    have ihelement := @agrees_congr hrelated element ha strict
    refine congr_of_compared hb fun u hu hbare => ?_
    cases strict <;> cases u <;> simp_all [agrees, strip, isBare, hasDefinedOwners]
  | inst head rest, ha, strict, b, hb | functionPointer head rest, ha, strict, b, hb => by
    rw [hasDefinedOwners, Bool.and_eq_true] at ha
    have ihhead := @agrees_congr hrelated head ha.1 strict
    have ihrest := @agreesList_congr hrelated rest ha.2 strict
    refine congr_of_compared hb fun u hu hbare => ?_
    cases strict <;> cases u <;> simp_all [agrees, strip, isBare, hasDefinedOwners]
  | typeParam owner _ _, ha, strict, b, hb | methodParam owner _ _ _ _, ha, strict, b, hb => by
    rw [hasDefinedOwners, Bool.and_eq_true] at ha
    refine congr_of_compared hb fun u hu hbare => ?_
    have hcompared : (if strict then u else u.strip) = u := by
      cases strict with
      | true => rfl
      | false => exact strip_of_isBare (hbare rfl)
    simp only [agrees, hcompared]
    cases hq : u.expandedParameter? with
    | none => rfl
    | some q => simp only [expandedParameter?, owner_agrees_congr hrelated ⟨ha.1, ha.2⟩ hu hq]

theorem agreesList_congr (hrelated : AlikeOnDefinitions related related') :
    ∀ {as : List Ty}, haveDefinedOwners as = true → ∀ (strict : Bool) {bs : List Ty},
      haveDefinedOwners bs = true →
      agreesList related as strict bs = agreesList related' as strict bs
  | [], _, strict, bs, _ => by cases bs <;> simp only [agreesList]
  | a :: as, h, strict, bs, h' => by
    rw [haveDefinedOwners, Bool.and_eq_true] at h
    cases bs with
    | nil => simp only [agreesList]
    | cons b bs =>
      rw [haveDefinedOwners, Bool.and_eq_true] at h'
      simp only [agreesList, agrees_congr hrelated h.1 strict h'.1,
        agreesList_congr hrelated h.2 strict h'.2]

end

/-! ### Copies -/

/-- A definition without its number. -/
def unnumberedDefinition (d : Definition) : Definition :=
  { d with id := 0 }

mutual

/-- A type without the numbers of its definitions: all that is written down of it. -/
def unnumbered : Ty → Ty
  | named d => .named (unnumberedDefinition d)
  | nested outer d => .nested outer.unnumbered (unnumberedDefinition d)
  | array element rank => .array element.unnumbered rank
  | byRef element => .byRef element.unnumbered
  | pointer element => .pointer element.unnumbered
  | modified element modifier required =>
    .modified element.unnumbered modifier.unnumbered required
  | pinned element => .pinned element.unnumbered
  | inst generic arguments => .inst generic.unnumbered (unnumberedAll arguments)
  | typeParam owner position name? => .typeParam owner.unnumbered position name?
  | methodParam owner method declared position name? =>
    .methodParam owner.unnumbered method declared position name?
  | functionPointer result parameters =>
    .functionPointer result.unnumbered (unnumberedAll parameters)

/-- Some types without the numbers of their definitions. -/
def unnumberedAll : List Ty → List Ty
  | [] => []
  | t :: ts => t.unnumbered :: unnumberedAll ts

end

/-- Two types that are built alike, of definitions that differ at most in their numbers. -/
def IsCopy (a b : Ty) : Prop :=
  a.unnumbered = b.unnumbered

theorem signature_unnumberedDefinition (d : Definition) :
    (unnumberedDefinition d).signature = d.signature :=
  rfl

mutual

theorem shape_unnumbered : ∀ {t : Ty}, t.isClosed = true → ∀ strict : Bool,
    t.unnumbered.shape strict = t.shape strict
  | named d, _, strict => by simp only [unnumbered, shape, signature_unnumberedDefinition]
  | nested outer d, h, strict => by
    rw [isClosed] at h
    simp only [unnumbered, shape, signature_unnumberedDefinition, shape_unnumbered h false]
  | array element _, h, strict | byRef element, h, strict | pointer element, h, strict
  | pinned element, h, strict => by
    rw [isClosed] at h
    simp only [unnumbered, shape, shape_unnumbered h]
  | modified element modifier _, h, strict => by
    rw [isClosed, Bool.and_eq_true] at h
    simp only [unnumbered, shape, shape_unnumbered h.1, shape_unnumbered h.2]
  | inst _ _, h, strict | functionPointer _ _, h, strict => by
    rw [isClosed, Bool.and_eq_true] at h
    simp only [unnumbered, shape, shape_unnumbered h.1, shapes_unnumberedAll h.2]

theorem shapes_unnumberedAll : ∀ {ts : List Ty}, areClosed ts = true → ∀ strict : Bool,
    shapes strict (unnumberedAll ts) = shapes strict ts
  | [], _, _ => by simp only [unnumberedAll]
  | t :: ts, h, strict => by
    rw [areClosed, Bool.and_eq_true] at h
    simp only [unnumberedAll, shapes, shape_unnumbered h.1, shapes_unnumberedAll h.2]

end

mutual

/-- Numbers are no generic parameters. -/
theorem isClosed_unnumbered : ∀ t : Ty, t.unnumbered.isClosed = t.isClosed
  | named _ | typeParam _ _ _ | methodParam _ _ _ _ _ => by simp only [unnumbered, isClosed]
  | nested outer _ => by simp only [unnumbered, isClosed, isClosed_unnumbered outer]
  | array element _ | byRef element | pointer element | pinned element => by
    simp only [unnumbered, isClosed, isClosed_unnumbered element]
  | modified element modifier _ => by
    simp only [unnumbered, isClosed, isClosed_unnumbered element, isClosed_unnumbered modifier]
  | inst head rest | functionPointer head rest => by
    simp only [unnumbered, isClosed, isClosed_unnumbered head, areClosed_unnumberedAll rest]

theorem areClosed_unnumberedAll : ∀ ts : List Ty, areClosed (unnumberedAll ts) = areClosed ts
  | [] => by simp only [unnumberedAll]
  | t :: ts => by
    simp only [unnumberedAll, areClosed, isClosed_unnumbered t, areClosed_unnumberedAll ts]

end

/-- A copy of a closed type has its shape. -/
theorem IsCopy.shape (h : a.IsCopy b) (ha : a.isClosed = true) (strict : Bool) :
    a.shape strict = b.shape strict := by
  have hb : b.isClosed = true := by
    rw [← isClosed_unnumbered, ← h, isClosed_unnumbered, ha]
  calc a.shape strict = a.unnumbered.shape strict := (shape_unnumbered ha strict).symm
    _ = b.unnumbered.shape strict := by rw [h]
    _ = b.shape strict := shape_unnumbered hb strict

end Ty

/-! ### Equality -/

namespace Hierarchy

open Ty

section

variable (h : Hierarchy)
include h

/-- Deriving from each other is symmetric. -/
theorem derives_comm (same : Ty → Ty → Bool) (a b : Ty) :
    h.derives same a b = h.derives same b a := by
  rw [derives, derives, Bool.or_comm]

theorem equalUpTo_comm (n : Nat) (a : Ty) (strict : Bool) (b : Ty) :
    h.equalUpTo n a strict b = h.equalUpTo n b strict a := by
  cases n with
  | zero =>
    rw [equalUpTo_zero, equalUpTo_zero]
    exact agrees_comm (fun _ _ => rfl) a strict b
  | succ n =>
    rw [equalUpTo_succ, equalUpTo_succ]
    exact agrees_comm (h.derives_comm _) a strict b

theorem equalUpTo_definition (n : Nat) (a : Ty) (hb : b.IsPlainDefinition) :
    h.equalUpTo n a false b = h.equalUpTo 0 a false b := by
  cases n with
  | zero => rfl
  | succ n =>
    rw [equalUpTo_succ, equalUpTo_zero]
    exact agrees_definition _ _ a false hb

theorem derives_alike (n m : Nat) :
    AlikeOnDefinitions (h.derives fun a b => h.equalUpTo n a false b)
      (h.derives fun a b => h.equalUpTo m a false b) := by
  intro a b ha hb
  have hcompared : ∀ {t : Ty}, t.IsPlainDefinition →
      (fun x => h.equalUpTo n x false t) = fun x => h.equalUpTo m x false t := by
    intro t ht
    funext x
    rw [h.equalUpTo_definition n x ht, h.equalUpTo_definition m x ht]
  rw [derives, derives, hcompared ha, hcompared hb]

theorem equalUpTo_eq_equal (ha : a.hasDefinedOwners = true) (hb : b.hasDefinedOwners = true)
    (strict : Bool) (n : Nat) : h.equalUpTo (n + 1) a strict b = h.equal a b strict := by
  have hmax : maxCrossings = 65535 + 1 := rfl
  rw [equal, hmax, equalUpTo_succ, equalUpTo_succ]
  exact agrees_congr (h.derives_alike n 65535) ha strict hb

theorem equal_closed_equivalence (strict : Bool) :
    Equivalence fun a b : { t : Ty // t.isClosed = true } => h.equal a.val b.val strict = true where
  refl a := (h.equal_iff_shape a.property strict a.val).mpr rfl
  symm {a b} hab := by
    rw [h.equal_iff_shape a.property] at hab
    exact (h.equal_iff_shape b.property strict a.val).mpr hab.symm
  trans {a b c} hab hbc := by
    rw [h.equal_iff_shape a.property] at hab
    rw [h.equal_iff_shape b.property] at hbc
    exact (h.equal_iff_shape a.property strict c.val).mpr (hab.trans hbc)

end

/-- Equality of types is symmetric, and where the owners of generic parameters and the enclosing
types are definitions it does not depend on the bound on crossings. Of types without generic
parameters it is an equivalence that relates every type to its copies. -/
theorem equal_symmetric_and_equivalence (h : Hierarchy) :
    (∀ (a b : Ty) (strict : Bool), h.equal a b strict = h.equal b a strict)
      ∧ (∀ (a b : Ty) (strict : Bool) (n : Nat), a.hasDefinedOwners = true →
          b.hasDefinedOwners = true → h.equalUpTo (n + 1) a strict b = h.equal a b strict)
      ∧ ∀ strict : Bool,
          (Equivalence fun a b : { t : Ty // t.isClosed = true } =>
            h.equal a.val b.val strict = true)
          ∧ ∀ a b : Ty, a.isClosed = true → a.IsCopy b → h.equal a b strict = true := by
  refine ⟨fun a b strict => h.equalUpTo_comm _ a strict b, ?_, fun strict => ⟨?_, ?_⟩⟩
  · intro a b strict n ha hb
    exact h.equalUpTo_eq_equal ha hb strict n
  · exact h.equal_closed_equivalence strict
  · intro a b ha hcopy
    exact (h.equal_iff_shape ha strict b).mpr (hcopy.shape ha strict)

/-- A vector of a modified class that is declared in another one, under two numbers. -/
def modifiedInnerVector (id : Nat) : Ty :=
  let outer := Ty.named (.plain id "App" "Outer" (.ofFile "App") .classType)
  let inner := Ty.nested outer (.plain (id + 1) "" "Inner" (.ofFile "App") .classType)
  .array (.modified inner outer true) 1

/-- The parameters of a delegate and of its base are compared with one crossing, in both orders
alike; and a vector is strictly equal to its copy. -/
theorem delegate_parameters_compared :
    let h := Hierarchy.ofCore .standard
    let base := Ty.typeParam h.core.delegate 0 none
    let derived := Ty.typeParam h.core.multicastDelegate 0 none
    let vector := modifiedInnerVector 40
    let copy := modifiedInnerVector 50
    base.hasDefinedOwners = true ∧ derived.hasDefinedOwners = true
      ∧ h.equal derived base false = h.equal base derived false
      ∧ h.equalUpTo 1 base false derived = h.equal base derived false
      ∧ h.equalUpTo 1 base false derived = true
      ∧ vector.isClosed = true ∧ vector.IsCopy copy ∧ h.equal vector copy true = true := by
  intro h base derived vector copy
  obtain ⟨hsymm, hbound, hclosed⟩ := equal_symmetric_and_equivalence h
  have hequal : h.equalUpTo 1 base false derived = true := by decide
  refine ⟨rfl, rfl, hsymm derived base false, hbound base derived false 0 rfl rfl, hequal, rfl, rfl,
    ?_⟩
  exact (hclosed true).2 vector copy rfl rfl

end Hierarchy

end ScriptLowering
