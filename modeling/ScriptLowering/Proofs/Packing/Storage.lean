import ScriptLowering.Proofs.Packing.Step

/-!
# Storage and updates in two runs

The rules for variables, fields and arrays keep two runs in step. A store of a value always succeeds,
once its target is a location: the runs may fold different stores into updates and move different
indices into temporaries.
-/

namespace ScriptLowering.Lowering

open Script

/-! ### Trees of one type -/

/-- A silent tree that is no location, of one type whatever types the variables have. -/
structure Fixed (c : Core) (t : Ty) (n : Node) : Prop where
  silent : n.form.isSilent = true
  value : n.isLocation = false
  type : ∀ changes, n.computedType c changes = t

theorem lastType_concat (c : Core) (changes : Retyping) (n : Node) :
    ∀ ns : List Node, Node.lastType c changes (ns ++ [n]) = n.computedType c changes
  | [] => by rw [List.nil_append, Node.lastType]
  | [m] => by rw [List.singleton_append, Node.lastType, Node.lastType]
  | _ :: m :: ns => by
    rw [List.cons_append, List.cons_append, Node.lastType, ← List.cons_append]
    exact lastType_concat c changes n (m :: ns)

theorem afterPrelude_eq (prelude : List Node) (n : Node) :
    afterPrelude prelude n = n ∨ afterPrelude prelude n = ⟨.comma, prelude ++ [n]⟩ := by
  unfold afterPrelude
  cases prelude with
  | nil => exact .inl rfl
  | cons first rest => cases rest <;> exact .inr rfl

theorem computedType_afterPrelude (c : Core) (changes : Retyping) (prelude : List Node) (n : Node) :
    (afterPrelude prelude n).computedType c changes = n.computedType c changes := by
  rcases afterPrelude_eq prelude n with h | h
  · rw [h]
  · rw [h, Node.computedType]
    exact lastType_concat c changes n prelude

theorem isSilent_afterPrelude {n : Node} (h : n.form.isSilent = true) (prelude : List Node) :
    (afterPrelude prelude n).form.isSilent = true := by
  rcases afterPrelude_eq prelude n with heq | heq
  · rw [heq, h]
  · rw [heq]
    rfl

theorem isLocation_afterPrelude {n : Node} (h : n.isLocation = false) (prelude : List Node) :
    (afterPrelude prelude n).isLocation = false := by
  rcases afterPrelude_eq prelude n with heq | heq
  · rw [heq, h]
  · rw [heq]
    rfl

theorem Fixed.afterPrelude {c : Core} {t : Ty} {n : Node} (h : Fixed c t n) (prelude : List Node) :
    Fixed c t (afterPrelude prelude n) where
  silent := isSilent_afterPrelude h.silent prelude
  value := isLocation_afterPrelude h.value prelude
  type changes := by
    rw [computedType_afterPrelude]
    exact h.type changes

/-! ### Stores -/

theorem isAssignment_of_toCompound? {op op' : BinaryOp} (h : op.toCompound? = some op') :
    op'.isAssignment = true := by
  cases op <;> cases h <;> rfl

theorem isAssignment_of_foldable? {h : Hierarchy} {changes : Retyping} {target value right : Node}
    {op : BinaryOp} (hfold : foldable? h changes target value = some (op, right)) :
    op.isAssignment = true := by
  unfold foldable? at hfold
  split at hfold
  · split at hfold
    · next hcompound =>
      split at hfold
      · cases hfold
        exact isAssignment_of_toCompound? hcompound
      · cases hfold
    · cases hfold
  · cases hfold

namespace Lowerer

variable {g : Lowerer} {changes : Retyping} {target value : Node}

theorem spilling_typeOf {n : Node} :
    Spilling changes (g.typeOf n) (fun t => t = n.computedType g.core changes) := by
  refine Spilling.context.bind fun c hc => .pure ?_
  rw [hc]

theorem spilling_compoundAssign {op : BinaryOp} (hop : op.isAssignment = true)
    (htarget : target.isLocation = true) :
    Spilling changes (g.compoundAssign op target value)
      (Fixed g.core (target.computedType g.core changes)) := by
  refine Spilling.context.bind fun c hc => ?_
  have hok : Node.compoundAssign g.core c.scope.retyping op target value
      = .ok (.binary op target value (target.computedType g.core changes)) := by
    unfold Node.compoundAssign
    rw [hop, htarget, hc]
    rfl
  rw [hok]
  exact .pure ⟨rfl, rfl, fun _ => computedType_known rfl⟩

theorem spilling_hoistEach (indices : List Node) :
    Spilling changes (g.hoistEach indices) (fun _ => True) := by
  induction indices with
  | nil => exact .pure trivial
  | cons index rest ih =>
    unfold Lowerer.hoistEach
    split
    · exact ih.bind fun _ _ => .pure trivial
    · refine spilling_typeOf.bind fun type _ => ?_
      refine (Spilling.newTemporary type).bind fun temporary _ => ?_
      exact ih.bind fun _ _ => .pure trivial

theorem spilling_hoistIndices (target : Node) :
    Spilling changes (g.hoistIndices target) (fun hoisted =>
      hoisted.2.isLocation = target.isLocation
        ∧ ∀ changes', hoisted.2.computedType g.core changes' = target.computedType g.core changes') := by
  unfold Lowerer.hoistIndices
  split
  · refine (spilling_hoistEach _).bind fun _ _ => .pure ⟨rfl, fun changes' => ?_⟩
    unfold Node.elementAccess
    rw [computedType_known rfl, computedType_known rfl]
  · exact .pure ⟨rfl, fun _ => rfl⟩

/-- A store into a location. -/
theorem spilling_store (htarget : target.isLocation = true) :
    Spilling changes (g.store target value) (Fixed g.core (target.computedType g.core changes)) := by
  refine Spilling.context.bind fun c _ => ?_
  split
  · next op right hfold =>
    refine (spilling_hoistIndices target).bind ?_
    rintro ⟨prelude, target'⟩ ⟨hlocation, htype⟩
    have hassign : Spilling changes (g.compoundAssign op target' right)
        (Fixed g.core (target'.computedType g.core changes)) :=
      spilling_compoundAssign (isAssignment_of_foldable? hfold) (hlocation.trans htarget)
    rw [htype] at hassign
    exact hassign.bind fun _ hassignment => .pure (hassignment.afterPrelude prelude)
  · exact spilling_compoundAssign rfl htarget

end Lowerer

section

variable {env : Env} {S : Setting env} {w : Ledger} {l r : Node} {b : Bool} {e : Cil.Expr}

theorem PlainTwins.ofFixed {L : Lexicon env} {t t' : Ty} (hl : Fixed env.core t l)
    (hr : Fixed env.core t' r) (hclose : Close L t t') : PlainTwins L w l r :=
  ⟨⟨hl.silent, hl.value⟩, ⟨hr.silent, hr.value⟩, .fixed hl.type hr.type hclose⟩

/-- What comes before values may differ. -/
theorem PlainTwins.afterPrelude {L : Lexicon env} (h : PlainTwins L w l r)
    (prelude prelude' : List Node) :
    PlainTwins L w (afterPrelude prelude l) (afterPrelude prelude' r) where
  left := ⟨isSilent_afterPrelude h.left.1 _, isLocation_afterPrelude h.left.2 _⟩
  right := ⟨isSilent_afterPrelude h.right.1 _, isLocation_afterPrelude h.right.2 _⟩
  types := by
    intro w' changes changes' hle hl hr
    rw [computedType_afterPrelude, computedType_afterPrelude]
    exact h.types hle hl hr

namespace Pair

variable {p : Pair env}

/-- A store into locations of close types. -/
theorem store (hl : l.isLocation = true) (hr : r.isLocation = true) (htypes : TypedAlike S.L w l r)
    {value value' : Node} :
    Couples S w (p.left.store l value) (p.right.store r value') (Twins S b) := by
  refine (Spilling.couples (fun _ => Lowerer.spilling_store hl)
    fun _ => Lowerer.spilling_store hr).mono ?_
  rintro w' n n' - ⟨changes, changes', hchanges, hchanges', hn, hn'⟩
  have hvalues : PlainTwins S.L w' n n' := .ofFixed hn hn' (htypes.now hchanges hchanges')
  exact hvalues.twin

theorem storePacked {v v' : Variable} (hv : TwinVariables S.L w v v') {value value' : Node}
    (hvalue : TypedIn S.L w.left value) (hvalue' : TypedIn S.L w.right value') {x y : Lower Node}
    {post : Ledger → Node → Node → Prop} (h : Couples S w x y post) :
    Couples S w
      (do
        let type ← p.left.typeOf value
        if type.isPackedArray && (← Lowerer.variableType v).isArray then
          Lower.modifyTable (·.retype v type)
        x)
      (do
        let type ← p.right.typeOf value'
        if type.isPackedArray && (← Lowerer.variableType v').isArray then
          Lower.modifyTable (·.retype v' type)
        y)
      post := by
  have htypeOf : Still S w (p.left.typeOf value) (p.right.typeOf value')
      (fun t t' => S.L.types t ∧ S.L.types t') :=
    .reading fun _ _ hc => ⟨hvalue List.prefix_rfl hc.left, hvalue' List.prefix_rfl hc.right⟩
  refine htypeOf.bind ?_
  rintro t t' ⟨ht, ht'⟩
  have hcurrent : Still S w (Lowerer.variableType v) (Lowerer.variableType v')
      (fun u u' => (u.isArray = true → v.declaredType.isArray = true)
        ∧ (u'.isArray = true → v'.declaredType.isArray = true)) :=
    .reading fun _ _ hc =>
      ⟨hc.left.isArray_declaredType hv.left, hc.right.isArray_declaredType hv.right⟩
  refine hcurrent.bind ?_
  rintro u u' ⟨harray, harray'⟩
  -- Only an array takes the type of a packed one, so the changes of type stay settled.
  have hretype {declared : List Ty} {v : Variable} {t u : Ty} (hv : Known declared v)
      (ht : S.L.types t) (harray : u.isArray = true → v.declaredType.isArray = true) (s : Table)
      (hs : s.Tracked S.L declared) :
      (if t.isPackedArray && u.isArray then s.retype v t else s).Tracked S.L declared := by
    split
    · next hcond =>
      obtain ⟨hpacked, hu⟩ := Bool.and_eq_true_iff.mp hcond
      exact ⟨hs.nextId, hs.known, hs.settled.retype hv (harray hu) ht (S.plain ht hpacked) hpacked⟩
    · exact hs
  have hboth := h.modifyTable fun s s' (hs : s.Paired S w s') =>
    ⟨hretype hv.left ht harray s hs.left, hretype hv.right ht' harray' s' hs.right,
      fun hu => (hs.names hu).later (.refl w) (by split <;> rfl) (by split <;> rfl)⟩
  -- The two runs need not agree on whether they change the type.
  dsimp only
  generalize (t.isPackedArray && u.isArray) = left at hboth ⊢
  generalize (t'.isPackedArray && u'.isArray) = right at hboth ⊢
  cases left <;> cases right <;> exact hboth

namespace InStep

variable (hp : p.InStep S) (he : S.Admits e)

include hp he

/-! ### Variables -/

omit hp in
theorem loadLocal : Couples S w (p.left.loadLocal e) (p.right.loadLocal e) (Twins S b) := by
  refine .variableOperand he fun u hu => ?_
  exact (resolve hu).bind fun w₁ v v' _ hv => .pure (.var hv)

theorem storeLocal : Couples S w (p.left.storeLocal e) (p.right.storeLocal e) (Twins S b) := by
  refine .variableOperand he fun u hu => ?_
  refine (resolve hu).bind fun w₁ v v' _ hv => ?_
  refine .argument he fun a _ ha => ?_
  refine (variableType hv).bind fun t t' hclose => ?_
  refine (hp.expectingEach ha hclose.left hclose.right w₁).bind fun w₂ value value' hle hvalue => ?_
  have hv₂ := hv.later hle
  refine storePacked hv₂ hvalue.1 hvalue.2 ?_
  exact copyAny.bind fun _ _ _ => store rfl rfl hv₂.typedAlike

omit hp in
theorem localAddress :
    Couples S w (p.left.localAddress e) (p.right.localAddress e) (Twins S b) := by
  refine .variableOperand he fun u hu => ?_
  refine (resolve hu).bind fun w₁ v v' _ hv => ?_
  exact .pure (.address hv)

/-! ### Fields -/

/-- The target of a field. -/
theorem fieldTarget {f : Field} :
    Couples S w (p.left.fieldTarget e f) (p.right.fieldTarget e f)
      (fun _ _ r => r.form.isDirect = false) := by
  refine .ite Iff.rfl (fun _ => ?_) fun _ => ?_
  · refine (Couples.asks (.type ..) (.type ..)).bind ?_
    rintro w₁ directive? directive?' - -
    refine .pure ?_
    unfold Lowerer.typeTargetUnder
    split <;> rfl
  · refine .argument he fun a _ ha => ?_
    exact (hp.receiver ha w).mono fun _ _ _ _ h => h.2

theorem loadField :
    Couples S w (p.left.loadField e) (p.right.loadField e)
      (Twins S (loadsPackedField env.directives .loadField e.operand)) := by
  refine .fieldOperand he fun f hf hft => ?_
  refine (Couples.asks (.field f) (.field f)).bind ?_
  rintro w₁ _ _ - ⟨rfl, rfl⟩
  have hignored := env.directives.ignoresField_unpacked f
  have hplain := env.directives.isPackedArray_unpacked f
  refine .ite (Bool.eq_iff_iff.mp hignored) (fun _ => .pure ?_) fun _ => ?_
  · exact Twin.same hft rfl
  · refine (hp.fieldTarget he).bind fun w₁ target target' _ _ => .pure ?_
    have hleft : (env.unpacked.directives.field? f).any (·.isPackedArray) = false := hplain
    rw [hf, hleft]
    show Twin S.L w₁ _ (.fieldAccess f target)
      (if (env.directives.field? f).any (·.isPackedArray) then _ else _)
    split
    · next hpacked =>
      exact .packed hft rfl rfl (.inl hpacked) (fun _ => computedType_known rfl)
        fun _ => computedType_known rfl
    · exact .silent rfl rfl (.inr rfl) (.known (.refl hft) rfl rfl)

theorem storeField : Couples S w (p.left.storeField e) (p.right.storeField e) (Twins S b) := by
  refine .fieldOperand he fun f hf hft => ?_
  refine (Couples.asks (.field f) (.field f)).bind ?_
  rintro w₁ _ _ - ⟨rfl, rfl⟩
  have hignored := env.directives.ignoresField_unpacked f
  refine .ite (Bool.eq_iff_iff.mp hignored) (fun _ => .pure ?_) fun _ => ?_
  · exact Twin.same hft rfl
  · refine (hp.fieldTarget he).bind fun w₁ target target' _ _ => ?_
    refine .operand he (hp.expecting · hft) fun _ _ w₂ _ _ _ _ => ?_
    refine copyAny.bind fun _ _ _ => store rfl rfl ?_
    exact .known (.refl hft) rfl rfl

theorem fieldAddress :
    Couples S w (p.left.fieldAddress e) (p.right.fieldAddress e) (Twins S b) := by
  refine .fieldOperand he fun f hf hft => ?_
  refine (hp.fieldTarget he).bind fun w₁ target target' _ htarget => ?_
  refine Still.last (.ofExcept fun n hn => ?_)
  rw [eq_of_make hn]
  refine ⟨_, memberReference_of_isDirect f htarget, ?_⟩
  refine .other rfl rfl rfl ?_ (.inr rfl) ?_
  · rintro m (h | h) <;> cases h
  · exact .known (.refl (S.L.byRef hft)) rfl rfl

/-! ### Arrays -/

theorem newArray : Couples S w (p.left.newArray e) (p.right.newArray e) (Twins S b) := by
  refine .typeOperand he fun element helement => ?_
  have heach := Couples.each (S := S) (w := w) fun a ha w =>
    (hp.expecting (he.argument ha) S.L.int32 w).forget
  refine heach.bind fun w₁ dimensions dimensions' _ hlength => ?_
  refine .ite (isEmpty_iff_of_length_eq hlength) (fun _ => .throw) fun _ => .pure ?_
  rw [hlength]
  exact Twin.same (S.L.array _ helement) rfl

theorem initArray : Couples S w (p.left.initArray e) (p.right.initArray e) (Twins S b) := by
  refine .typeOperand he fun element helement => ?_
  have heach : Couples S w
      (Lower.each (fun a => do p.left.copy (← p.left.expecting a element)) e.arguments)
      (Lower.each (fun a => do p.right.copy (← p.right.expecting a element)) e.arguments)
      (fun _ as bs => as.length = bs.length) := by
    refine Couples.each fun a ha w => ?_
    exact (hp.expecting (he.argument ha) helement w).bind fun _ _ _ _ _ => copyAny.last
  refine heach.bind fun w₁ elements elements' _ _ => .pure ?_
  exact Twin.same (S.L.array 1 helement) rfl

theorem arrayLength : Couples S w (p.left.arrayLength e) (p.right.arrayLength e) (Twins S b) := by
  refine .operand he hp.expression fun _ _ w₁ _ _ _ _ => .pure ?_
  exact Twin.same S.L.int32 rfl

theorem elementPlace {element : Ty} (htype : e.type? = some element) {stop : Nat} :
    Couples S w (p.left.elementPlace e stop) (p.right.elementPlace e stop)
      (fun _ place place' => place.element = element ∧ place'.element = element) := by
  refine .operand he hp.expression fun _ _ w₁ _ _ _ _ => ?_
  have heach := Couples.each (S := S) (w := w₁) fun a
    (ha : a ∈ (e.arguments.take stop).drop 1) w =>
    (hp.expression (he.argument (List.mem_of_mem_take (List.mem_of_mem_drop ha))) w).forget
  refine heach.bind fun w₂ indices indices' _ hlength => ?_
  refine .ite (isEmpty_iff_of_length_eq hlength) (fun _ => .throw) fun _ => ?_
  rw [htype]
  exact .pure ⟨rfl, rfl⟩

variable (htype : e.type?.isSome = true)

include htype

theorem loadElement : Couples S w (p.left.loadElement e) (p.right.loadElement e) (Twins S b) := by
  obtain ⟨element, htype⟩ := Option.isSome_iff_exists.mp htype
  refine (hp.elementPlace he htype).bind ?_
  rintro w₁ place place' - ⟨hplace, hplace'⟩
  refine .pure (.silent rfl rfl (.inr rfl) ?_)
  rw [hplace, hplace']
  exact .known (.refl (he.type? htype)) rfl rfl

theorem storeElement :
    Couples S w (p.left.storeElement e) (p.right.storeElement e) (Twins S b) := by
  obtain ⟨element, htype⟩ := Option.isSome_iff_exists.mp htype
  have helement := he.type? htype
  refine .ite Iff.rfl (fun _ => .throw) fun _ => ?_
  refine (hp.elementPlace he htype).bind ?_
  rintro w₁ place place' - ⟨hplace, hplace'⟩
  rw [hplace, hplace']
  refine .operand he (hp.expecting · helement) fun _ _ w₂ _ _ _ _ => ?_
  refine copyAny.bind fun _ _ _ => store rfl rfl ?_
  exact .known (.refl helement) rfl rfl

theorem elementAddress :
    Couples S w (p.left.elementAddress e) (p.right.elementAddress e) (Twins S b) := by
  obtain ⟨element, htype⟩ := Option.isSome_iff_exists.mp htype
  refine (hp.elementPlace he htype).bind ?_
  rintro w₁ place place' - ⟨hplace, hplace'⟩
  rw [hplace, hplace']
  refine .pure (.other rfl rfl rfl ?_ (.inr rfl) ?_)
  · rintro m (h | h) <;> cases h
  · exact .known (.refl (S.L.byRef (he.type? htype))) rfl rfl

end InStep

end Pair

end

end ScriptLowering.Lowering
