import ScriptLowering.Proofs.Packing.Storage

/-!
# Calls in two runs

Of the arguments of a call rules look at the types, and at methods that are values (`ArgumentTwins`).
That decides which form of its own a call has (`replaceCall?_invocation`), up to the calls that look
inside their arguments. The property of an accessor is the one remembered in both runs, because
properties have nothing to do with packed arrays (`Pair.propertyOf?`).
-/

namespace ScriptLowering.Lowering

open Script Canonical

section

variable {env : Env} {L : Lexicon env} {w w' : Ledger} {l r : Node} {b : Bool} {m : Method}
  {ls rs : List Node}

/-! ### Arguments -/

/-- Arguments that are typed alike; if they are methods, they are the same one. -/
structure ArgumentTwins (L : Lexicon env) (w : Ledger) (l r : Node) : Prop where
  types : TypedAlike L w l r
  method : l.form.method? = r.form.method?
  returns : ∀ m, l.form.method? = some m → L.types m.returnType

theorem ArgumentTwins.later (hle : w.Le w') (h : ArgumentTwins L w l r) : ArgumentTwins L w' l r :=
  ⟨h.types.later hle, h.method, h.returns⟩

theorem Twin.argument (h : Twin L w b l r) : ArgumentTwins L w l r :=
  ⟨h.typedAlike, congrArg Outline.method? h.outline_eq, fun m hm => h.outline_typesIn m (.inl hm)⟩

/-- A copy of an argument. -/
theorem ArgumentTwins.copied (h : ArgumentTwins L w l r) {n n' : Node} (htypes : TypedAlike L w n n')
    (hn : n.form.method? = l.form.method?) (hn' : n'.form.method? = r.form.method?) :
    ArgumentTwins L w n n' := by
  refine ⟨htypes, ?_, fun m hm => h.returns m ?_⟩
  · rw [hn, hn', h.method]
  · rw [← hn, hm]

/-- A passed reference. -/
theorem ArgumentTwins.passByReference (h : TypedAlike L w l r) :
    ArgumentTwins L w ⟨.passByReference, [l]⟩ ⟨.passByReference, [r]⟩ := by
  refine ⟨?_, rfl, nofun⟩
  intro w' changes changes' hle hl hr
  have hclose := h hle hl hr
  simpa [Node.computedType, Form.typeRule, Node.typeAt] using hclose

/-- Argument lists of one length. -/
abbrev ArgumentLists (L : Lexicon env) (w : Ledger) (ls rs : List Node) : Prop :=
  List.Forall₂ (ArgumentTwins L w) ls rs

theorem ArgumentLists.later (hle : w.Le w') (h : ArgumentLists L w ls rs) : ArgumentLists L w' ls rs :=
  h.imp fun _ _ h => h.later hle

/-! ### Created objects -/

theorem delegate?_newObject (constructor : Method) (t : Ty) (operands : List Node) :
    (outlineOf ⟨.newObject constructor t, operands⟩).delegate?
      = if t.isDelegate ∧ operands.length = 2 then operands[1]?.bind (·.form.method?) else none := by
  rcases operands with _ | ⟨target, _ | ⟨⟨form, arguments⟩, _ | ⟨third, rest⟩⟩⟩
  · simp [outlineOf, createdDelegate?]
  · simp [outlineOf, createdDelegate?]
  · cases form <;> simp [outlineOf, createdDelegate?, Form.method?]
  · simp [outlineOf, createdDelegate?]

theorem Twin.newObject {constructor : Method} {t : Ty} (ht : L.types t)
    (h : ArgumentLists L w ls rs) :
    Twin L w b ⟨.newObject constructor t, ls⟩ ⟨.newObject constructor t, rs⟩ := by
  have hlength : ls.length = rs.length := h.length_eq
  have hsecond : ls[1]?.bind (·.form.method?) = rs[1]?.bind (·.form.method?)
      ∧ ∀ m, ls[1]?.bind (·.form.method?) = some m → L.types m.returnType := by
    rcases h with _ | ⟨-, _ | ⟨hsecond, -⟩⟩
    · exact ⟨rfl, nofun⟩
    · exact ⟨rfl, nofun⟩
    · exact ⟨hsecond.method, hsecond.returns⟩
  have hdelegate := delegate?_newObject constructor t ls
  refine .other rfl rfl ?_ ?_ (.inr rfl) (.known (.refl ht) rfl rfl)
  · have hsame : (outlineOf ⟨.newObject constructor t, ls⟩).delegate?
        = (outlineOf ⟨.newObject constructor t, rs⟩).delegate? := by
      rw [hdelegate, delegate?_newObject constructor t rs, hlength, hsecond.1]
    exact congrArg (Outline.mk false false none none) hsame
  · rintro m (hm | hm)
    · cases hm
    · rw [hdelegate] at hm
      split at hm
      · exact hsecond.2 m hm
      · cases hm

/-! ### Forms of library calls -/

theorem rel_orElse {R : Node → Node → Prop} {x y x' y' : Option Node} (h : Option.Rel R x y)
    (h' : Option.Rel R x' y') : Option.Rel R (x.orElse fun _ => x') (y.orElse fun _ => y') := by
  cases h with
  | some h => exact .some h
  | none => exact h'

theorem objectCall?_rel (hlength : ls.length = rs.length) :
    Option.Rel (PlainTwins L w) (objectCall? env.core m ls) (objectCall? env.core m rs) := by
  unfold objectCall?
  split
  · exact .none
  · generalize m.name = name
    generalize m.isStatic = static
    split
    case h_1 =>
      obtain ⟨receiver, other, rfl⟩ := List.length_eq_two.mp hlength.symm
      exact .some (.same L.boolean rfl)
    case h_2 | h_3 =>
      obtain ⟨-, left, right, rfl⟩ := List.length_eq_three.mp hlength.symm
      exact .some (.same L.boolean rfl)
    case h_4 =>
      obtain ⟨receiver, rfl⟩ := List.length_eq_one_iff.mp hlength.symm
      exact .some (.same L.type rfl)
    case h_5 hequals hstatic hreference htype =>
      split
      · obtain ⟨receiver, other, rfl⟩ := List.length_eq_two.mp hlength
        exact (hequals _ _ rfl rfl rfl).elim
      · obtain ⟨first, left, right, rfl⟩ := List.length_eq_three.mp hlength
        exact (hstatic _ _ _ rfl rfl rfl).elim
      · obtain ⟨first, left, right, rfl⟩ := List.length_eq_three.mp hlength
        exact (hreference _ _ _ rfl rfl rfl).elim
      · obtain ⟨receiver, rfl⟩ := List.length_eq_one_iff.mp hlength
        exact (htype _ rfl rfl rfl).elim
      · exact .none

theorem delegateCall?_rel (hm : L.methods m) (dispatch : Dispatch) (h : Twin L w b l r) :
    Option.Rel (PlainTwins L w) (delegateCall? m dispatch (l :: ls))
      (delegateCall? m dispatch (r :: rs)) := by
  have hdelegate : (createdDelegate? l).map (·.1) = (createdDelegate? r).map (·.1) :=
    congrArg Outline.delegate? h.outline_eq
  have hreturns : ∀ m, (createdDelegate? l).map (·.1) = some m → L.types m.returnType :=
    fun m hm => h.outline_typesIn m (.inr hm)
  have hcall {callee : Method} (hcallee : L.types callee.returnType) (dispatch : Dispatch)
      (target target' : Node) : PlainTwins L w (.invocation callee dispatch false target ls)
        (.invocation callee dispatch false target' rs) :=
    .same hcallee rfl
  unfold delegateCall?
  split
  · exact .none
  · simp only
    generalize createdDelegate? l = created at hdelegate hreturns ⊢
    generalize createdDelegate? r = created' at hdelegate ⊢
    rcases created with _ | ⟨callee, target⟩ <;> rcases created' with _ | ⟨callee', target'⟩
    · simp only
      split
      · exact .none
      · exact .some (hcall (L.signature hm _ (by simp [Method.types])) _ _ _)
    · cases hdelegate
    · cases hdelegate
    · obtain rfl : callee = callee' := Option.some.inj hdelegate
      have hcallee := hreturns callee rfl
      simp only
      split
      · exact .some (hcall hcallee _ _ _)
      · exact .some (hcall hcallee _ _ _)

theorem arrayInitializer?_of_looksInside (h : looksInside m = false) (c : Core)
    (changes : Retyping) (operands : List Node) :
    arrayInitializer? c changes m operands = none := by
  unfold arrayInitializer?
  refine if_pos ?_
  rcases Bool.and_eq_false_iff.mp (Bool.or_eq_false_iff.mp h).1 with hname | hdeclared
  · rw [bne, hname]
    rfl
  · rw [hdeclared]
    exact Bool.or_true _

/-- A chain of additions is an addition. -/
theorem exists_additions_eq (c : Core) :
    ∀ (rest : List Node) (x y : Node), ∃ x' y' : Node,
      rest.foldl (fun left right => Node.binary .add left right c.string)
        (.binary .add x y c.string) = .binary .add x' y' c.string
  | [], x, y => ⟨x, y, rfl⟩
  | next :: rest, x, y => exists_additions_eq c rest (.binary .add x y c.string) next

variable {changes changes' : Retyping}

theorem ArgumentLists.all_isString_eq (h : ArgumentLists L w ls rs) (hl : Settled L w.left changes)
    (hr : Settled L w.right changes') :
    (ls.all fun a => env.types.isString (a.computedType env.types.core changes))
      = rs.all fun a => env.types.isString (a.computedType env.types.core changes') := by
  induction h with
  | nil => rfl
  | cons h _ ih =>
    rw [List.all_cons, List.all_cons, ih]
    exact congrArg (· && _) (h.types.now hl hr).isString_eq

/-- Arguments are texts in both runs. -/
theorem stringConcat?_rel (h : ArgumentLists L w ls rs) (hl : Settled L w.left changes)
    (hr : Settled L w.right changes') :
    Option.Rel (PlainTwins L w) (stringConcat? env.types changes m ls)
      (stringConcat? env.types changes' m rs) := by
  have hstrings := h.all_isString_eq hl hr
  unfold stringConcat?
  split
  · exact .none
  · cases h with
    | nil => exact .none
    | cons _ h =>
      cases h with
      | nil => exact .none
      | cons _ _ =>
        simp only [hstrings]
        split
        · obtain ⟨x, y, hsum⟩ := exists_additions_eq env.types.core _ _ _
          obtain ⟨x', y', hsum'⟩ := exists_additions_eq env.types.core _ _ _
          rw [List.foldl_cons, List.foldl_cons, hsum, hsum']
          exact .some (.same L.string rfl)
        · exact .none

theorem nullableCall?_rel (hm : L.methods m) (hinside : looksInside m = false) :
    Option.Rel (PlainTwins L w) (nullableCall? env.core m (l :: ls))
      (nullableCall? env.core m (r :: rs)) := by
  have hdeclaring : L.types m.declaringType := L.signature hm _ (by simp [Method.types])
  unfold nullableCall?
  split
  · exact .none
  · next hnullable =>
    unfold nullableMember?
    cases hunderlying : m.declaringType.nullableArgument? with
    | none => exact .none
    | some underlying =>
      simp only [Option.bind_eq_bind, Option.bind_some]
      split
      · exact .some (.same L.boolean rfl)
      · exact .some (.same (L.wrapped hdeclaring hunderlying) rfl)
      · next hname =>
        simp [looksInside, hname] at hinside
        simp [hinside] at hnullable
      · exact .none

theorem replaceCall?_invocation (hm : L.methods m) (hinside : looksInside m = false)
    (dispatch : Dispatch) (explicit : Bool) (h : Twin L w b l r)
    (harguments : ArgumentLists L w ls rs) (hl : Settled L w.left changes)
    (hr : Settled L w.right changes') :
    Option.Rel (PlainTwins L w)
      (replaceCall? env.types changes (.invocation m dispatch explicit l ls))
      (replaceCall? env.types changes' (.invocation m dispatch explicit r rs)) := by
  have hlength : (l :: ls).length = (r :: rs).length := congrArg Nat.succ harguments.length_eq
  refine rel_orElse (objectCall?_rel hlength) (rel_orElse (delegateCall?_rel hm dispatch h) ?_)
  refine rel_orElse ?_ (rel_orElse (stringConcat?_rel harguments hl hr) ?_)
  · rw [arrayInitializer?_of_looksInside hinside, arrayInitializer?_of_looksInside hinside]
    exact .none
  · exact nullableCall?_rel hm hinside

theorem replaceCall?_newObject {constructor : Method} {t : Ty} (ht : L.types t)
    (hlength : ls.length = rs.length) (changes changes' : Retyping) :
    Option.Rel (PlainTwins L w) (replaceCall? env.types changes ⟨.newObject constructor t, ls⟩)
      (replaceCall? env.types changes' ⟨.newObject constructor t, rs⟩) := by
  unfold replaceCall?
  simp only [hlength]
  split
  · exact .some (.same ht rfl)
  · exact .none

/-! ### Constants and placeholders -/

theorem Twin.ignoredCall (hm : ∀ t ∈ m.types, L.types t) :
    Twin L w b (ignoredCall m) (ignoredCall m) := by
  have hresult : L.types (if m.isConstructor then m.declaringType else m.returnType) :=
    L.ite (hm _ (by simp [Method.types])) (hm _ (by simp [Method.types]))
  exact Twin.same hresult rfl

theorem Twin.typeFromHandle? {e : Cil.Expr} (he : L.Covers e.mentions) {n : Node}
    (h : typeFromHandle? m e.arguments = some n) : Twin L w b n n := by
  unfold Lowering.typeFromHandle? at h
  split at h
  · split at h <;> cases h
    next t _ _ _ _ hhead =>
    have htype : L.types t := (he.argument (List.mem_of_head? hhead)).type rfl
    exact .literal (by simpa using htype)
  · cases h

/-- A method that is a value. -/
theorem Twin.methodIdentifier (hm : ∀ t ∈ m.types, L.types t) :
    Twin L w b (.methodIdentifier m) (.methodIdentifier m) := by
  refine .other rfl rfl rfl ?_ (.inr rfl) (.known (.refl L.nativeInt) rfl rfl)
  rintro m (h | h) <;> cases h
  exact hm _ (by simp [Method.types])

/-! ### Remembered properties -/

theorem types_property? {memo : MemberMemo} (hm : L.methods m)
    (hmemo : ∀ {name property}, (name, some property) ∈ memo.properties →
      ∀ t ∈ property.types, L.types t) :
    (∀ property, (memo.property? env.directives m).1 = some property →
      ∀ t ∈ property.types, L.types t)
      ∧ ∀ {name property}, (name, some property) ∈ (memo.property? env.directives m).2.properties →
        ∀ t ∈ property.types, L.types t := by
  unfold MemberMemo.property? remember
  cases hlookup : memo.properties.lookup m.fullName with
  | some answer =>
    obtain ⟨before, after, hentries, -⟩ := List.lookup_eq_some_iff.mp hlookup
    refine ⟨fun property hproperty => ?_, hmemo⟩
    have hmem : (m.fullName, some property) ∈ memo.properties := by
      rw [hentries, ← hproperty]
      exact List.mem_append_right _ List.mem_cons_self
    exact hmemo hmem
  | none =>
    refine ⟨fun property hproperty => L.property hm hproperty, fun {name property} hmem => ?_⟩
    rcases List.mem_cons.mp hmem with hnew | hold
    · exact L.property hm (Prod.mk.inj hnew).2.symm
    · exact hmemo hold

end

namespace Pair

variable {env : Env} {S : Setting env} {w : Ledger} {l r : Node} {b : Bool} {m : Method}
  {ls rs : List Node} {p : Pair env}

/-! ### Directives -/

theorem methodDirective? : Couples S w (p.left.methodDirective? m) (p.right.methodDirective? m)
    (fun _ d d' => d = env.directives.unpacked.method? m ∧ d' = env.directives.method? m) :=
  .asks (.method ..) (.method ..)

/-- Both runs drop the same calls. -/
theorem ignores : Couples S w (p.left.ignores m) (p.right.ignores m) (fun _ x y => x = y) := by
  refine (Couples.asks (.ignores m) (.ignores m)).mono ?_
  rintro w' _ _ - ⟨rfl, rfl⟩
  exact env.directives.ignores_unpacked m

/-! ### Steps of calls -/

/-- Both runs remember the same property. -/
theorem propertyOf? (hm : S.L.methods m) :
    Couples S w (p.left.propertyOf? m) (p.right.propertyOf? m)
      (fun _ q q' => q = q' ∧ ∀ property, q = some property →
        ∀ t ∈ property.types, S.L.types t) := by
  intro s s' hs a t hrun
  cases hrun
  obtain ⟨hleft, hright, hsame, hremembered⟩ := hs.members
  obtain ⟨hanswer, hmemo⟩ := types_property? hm hremembered
  have hrecall : remember s'.session.members.properties m.fullName (env.directives.property? m)
      = remember s.session.members.properties m.fullName (env.directives.property? m) := by
    rw [hsame]
  refine ⟨_, _, w, rfl, .refl w, ⟨hs.context, ⟨hleft.methods, hleft.fields, hleft.types⟩,
    ⟨hright.methods, hright.fields, hright.types⟩, ?_, hmemo⟩, ?_, hanswer⟩
  · exact congrArg Prod.snd hrecall
  · exact (congrArg Prod.fst hrecall).symm

/-- The targets of accesses can differ. -/
theorem accessTarget : Couples S w (p.left.accessTarget m l) (p.right.accessTarget m r)
    (fun _ _ _ => True) := by
  refine .ite Iff.rfl (fun _ => ?_) fun _ => .pure trivial
  exact (Couples.asks (.type ..) (.type ..)).bind
    fun _ _ _ _ _ => .pure trivial

theorem propertyAccess? (hm : S.L.methods m) (harguments : ArgumentLists S.L w ls rs) :
    Couples S w (p.left.propertyAccess? m l ls) (p.right.propertyAccess? m r rs)
      (fun w' => Option.Rel (Twins S b w')) := by
  refine (propertyOf? hm).bind ?_
  rintro w₁ property? _ - ⟨rfl, htypes⟩
  cases property? with
  | none => exact .pure .none
  | some property =>
    have htype : S.L.types property.type := htypes property rfl _ (by simp [Property.types])
    refine accessTarget.bind fun w₁ target target' hle _ => ?_
    have haccess (target target' : Node) (indices indices' : List Node) :
        TypedAlike S.L w₁ (.propertyAccess property target indices)
          (.propertyAccess property target' indices') :=
      .known (.refl htype) rfl rfl
    refine .ite Iff.rfl (fun _ => ?_) fun _ => ?_
    · exact .pure (.some (.silent rfl rfl (.inr rfl) (haccess _ _ _ _)))
    · cases hlast : ls.getLast? with
      | none =>
        have hnil : rs = [] := by
          rw [List.getLast?_eq_none_iff] at hlast
          subst hlast
          exact List.forall₂_nil_left_iff.mp harguments
        rw [hnil]
        exact .pure .none
      | some value =>
        cases hlast' : rs.getLast? with
        | none =>
          rw [List.getLast?_eq_none_iff] at hlast'
          subst hlast'
          rw [List.forall₂_nil_right_iff.mp harguments] at hlast
          cases hlast
        | some value' =>
          dsimp only
          refine (Pair.assign (by exact id) (haccess _ _ _ _)).bind fun access access' h => ?_
          exact .pure (.some h.twin)

theorem accessorForm? (hm : S.L.methods m) (harguments : ArgumentLists S.L w ls rs)
    {dispatch : Dispatch} :
    Couples S w (p.left.accessorForm? m dispatch l ls) (p.right.accessorForm? m dispatch r rs)
      (fun w' => Option.Rel (Twins S b w')) :=
  .ite Iff.rfl (fun _ => .pure .none) fun _ => propertyAccess? hm harguments

theorem earlyForm? (h : env.settings.earlyIntrinsics = true → ∀ ⦃changes changes'⦄,
      Settled S.L w.left changes → Settled S.L w.right changes' →
      Option.Rel (PlainTwins S.L w) (replaceCall? env.types changes l)
        (replaceCall? env.types changes' r)) :
    Couples S w (p.left.earlyForm? l) (p.right.earlyForm? r)
      (fun w' => Option.Rel (PlainTwins S.L w')) := by
  refine .ite Iff.rfl (fun hearly => ?_) fun _ => .pure .none
  exact Still.last (.reading fun c c' hc => h hearly hc.left hc.right)

/-! ### The rules -/

namespace InStep

variable {e : Cil.Expr} (hp : p.InStep S) (he : S.Admits e)

include hp

/-- Receivers are passed the same way. -/
theorem callReceiver (he : S.Admits e) (w : Ledger) :
    Couples S w (p.left.callReceiver e m) (p.right.callReceiver e m)
      (fun w' x y => Twin S.L w' (loadsPacked env.directives e) x.1 y.1 ∧ x.2 = y.2) := by
  refine (hp.raw he w).bind fun w₁ l r _ h => ?_
  refine .ite Iff.rfl (fun _ => ?_) fun _ => .pure ⟨h, rfl⟩
  refine (Pair.requireReference h).bind ?_
  rintro _ _ ⟨rfl, rfl⟩
  exact (Pair.location h).bind fun place place' hplace => .pure ⟨hplace, rfl⟩

theorem callArgument {q : MethodParameter} (hq : S.L.types q.type) (he : S.Admits e) (w : Ledger) :
    Couples S w (p.left.callArgument m q e) (p.right.callArgument m q e)
      (fun w' => ArgumentTwins S.L w') := by
  refine .ite Iff.rfl (fun _ => ?_) fun _ => ?_
  · refine (hp.raw he w).bind fun w₁ l r _ h => ?_
    refine (Pair.requireReference h).bind ?_
    rintro _ _ ⟨rfl, rfl⟩
    refine Still.last (.ofExcept fun n hn => ?_)
    obtain rfl := eq_of_make hn
    exact ⟨_, passByReference_of_ne h.ne_passByReference.2, .passByReference h.typedAlike⟩
  · refine (hp.expecting he hq w).bind fun w₁ l r _ h => ?_
    refine Still.last ((Pair.copy h.typedAlike).mono ?_)
    rintro n n' ⟨htypes, -, -, hn, hn'⟩
    exact h.argument.copied htypes hn hn'

theorem callArguments :
    ∀ {parameters : List MethodParameter} {arguments : List Cil.Expr},
      (∀ q ∈ parameters, S.L.types q.type) → (∀ a ∈ arguments, S.Admits a) → ∀ w,
      Couples S w (p.left.callArguments m parameters arguments)
        (p.right.callArguments m parameters arguments) (fun w' => ArgumentLists S.L w')
  | _, [], _, _, w => by
    unfold Lowerer.callArguments
    exact .pure .nil
  | [], e :: rest, hparameters, harguments, w => by
    obtain ⟨he, hrest⟩ := List.forall_mem_cons.mp harguments
    unfold Lowerer.callArguments
    refine (hp.expression he w).bind fun w₁ l r _ h => ?_
    refine (callArguments hparameters hrest w₁).bind fun w₂ ls rs hle hvalues => ?_
    exact .pure (.cons (h.argument.later hle) hvalues)
  | q :: parameters, e :: rest, hparameters, harguments, w => by
    obtain ⟨he, hrest⟩ := List.forall_mem_cons.mp harguments
    obtain ⟨hq, hparameters⟩ := List.forall_mem_cons.mp hparameters
    unfold Lowerer.callArguments
    refine (hp.callArgument hq he w).bind fun w₁ l r _ h => ?_
    refine (callArguments hparameters hrest w₁).bind fun w₂ ls rs hle hvalues => ?_
    exact .pure (.cons (h.later hle) hvalues)

include he

theorem replaced (hm : ∀ t ∈ m.types, S.L.types t) {text : String} :
    Couples S w (p.left.replaced e m text) (p.right.replaced e m text) (Twins S b) := by
  have hresult : S.L.types (if e.code == .newobj then m.declaringType else m.returnType) :=
    S.L.ite (hm _ (by simp [Method.types])) (hm _ (by simp [Method.types]))
  refine (Couples.each fun a ha w => ?_).bind fun w₁ ls rs _ hlength => ?_
  · exact (hp.expression (he.argument (List.take_subset _ _ ha)) w).forget
  · refine .pure (PlainTwins.twin ?_)
    rw [hlength]
    exact .same hresult rfl

theorem invocation (hm : S.L.methods m)
    (hinside : env.settings.earlyIntrinsics = true → looksInside m = false) {packs : Bool} :
    Couples S w (p.left.invocation e m false) (p.right.invocation e m packs) (Twins S b) := by
  have hsignature := S.L.signature hm
  have hreturn : S.L.types m.returnType := hsignature _ (by simp [Method.types])
  have hparameters : ∀ q ∈ m.parameters, S.L.types q.type :=
    fun q hq => hsignature _ (Method.parameter_mem_types hq)
  have harguments : ∀ a ∈ e.arguments.drop (if m.isStatic then 0 else 1), S.Admits a :=
    fun a ha => he.argument (List.drop_subset _ _ ha)
  unfold Lowerer.invocation
  extract_lets rest rest'
  -- The same happens with a receiver and without one.
  have hrest : ∀ (f : Bool) (w : Ledger) (x y : Node × Bool), Twin S.L w f x.1 y.1 ∧ x.2 = y.2 →
      Couples S w (rest x) (rest' y) (Twins S b) := by
    rintro f w ⟨l, explicit⟩ ⟨r, -⟩ ⟨h, rfl⟩
    refine (hp.callArguments hparameters harguments w).bind fun w₁ ls rs hle hlists => ?_
    have h := h.later hle
    have hdispatch : dispatchOf p.left.env.types p.left.method.declaringType e.code m l
        = dispatchOf p.right.env.types p.right.method.declaringType e.code m r := by
      unfold dispatchOf
      rw [h.isOwnReceiver_eq]
      rfl
    dsimp only
    rw [hdispatch]
    generalize dispatchOf p.right.env.types p.right.method.declaringType e.code m r = dispatch
    refine (Pair.earlyForm? fun hearly _ _ hl hr => ?_).bind fun w₂ form? form?' hle₂ hforms => ?_
    · exact replaceCall?_invocation hm (hinside hearly) dispatch _ h hlists hl hr
    cases hforms with
    | some hform => exact .pure hform.twin
    | none =>
      refine (Pair.accessorForm? (b := b) hm (hlists.later hle₂)).bind
        fun w₃ access? access?' _ haccess => ?_
      cases haccess with
      | some haccess => exact .pure haccess
      | none =>
        refine .pure ?_
        have hnode : Twin S.L w₃ b (.invocation m dispatch (explicit || dispatch = .base) l ls)
            (.invocation m dispatch (explicit || dispatch = .base) r rs) :=
          Twin.same hreturn rfl
        cases packs with
        | false => exact hnode
        | true =>
          refine .packed hreturn rfl rfl (.inr ⟨rfl, rfl⟩) (fun _ => ?_) fun _ => ?_
          · exact computedType_known rfl
          · exact computedType_known rfl
  refine .ite Iff.rfl (fun _ => ?_) fun _ => ?_
  · have hempty : Twin S.L w false .empty .empty :=
      Twin.same S.L.void rfl
    exact hrest false w (.empty, false) (.empty, false) ⟨hempty, rfl⟩
  · exact .operand he hp.callReceiver fun _ _ w₁ x y _ h => hrest _ w₁ x y h

theorem call (hinside : env.settings.earlyIntrinsics = true → ∀ m, e.method? = some m →
      looksInside (((env.directives.method? m).bind (·.proxy?)).getD m) = false) :
    Couples S w (p.left.call e) (p.right.call e) (Twins S b) := by
  refine .methodOperand he fun called hcalled hknows => ?_
  have hsignature := S.L.signature hknows.1
  refine methodDirective?.bind ?_
  rintro w₁ _ _ - ⟨rfl, rfl⟩
  rw [env.directives.replacement?_unpacked, env.directives.proxy?_unpacked,
    env.directives.packedReturn_unpacked]
  split
  · exact hp.replaced he hsignature
  · refine ignores.bind ?_
    rintro w₂ ignored _ - rfl
    refine .ite Iff.rfl (fun _ => .pure (.ignoredCall hsignature)) fun _ => ?_
    dsimp only
    split
    · next hconstant => exact .pure (.typeFromHandle? he.covers hconstant)
    · exact hp.invocation he hknows.proxy fun hearly => hinside hearly called hcalled

theorem newObject : Couples S w (p.left.newObject e) (p.right.newObject e) (Twins S b) := by
  refine .methodOperand he fun called _ hknows => ?_
  refine methodDirective?.bind ?_
  rintro w₁ _ _ - ⟨rfl, rfl⟩
  rw [env.directives.replacement?_unpacked, env.directives.proxy?_unpacked]
  split
  · exact hp.replaced he (S.L.signature hknows.1)
  · refine ignores.bind ?_
    rintro w₂ ignored _ - rfl
    refine .ite Iff.rfl (fun _ => .pure (.ignoredCall (S.L.signature hknows.1))) fun _ => ?_
    have hsignature := S.L.signature hknows.proxy
    generalize ((env.directives.method? called).bind (·.proxy?)).getD called = constructor
      at hsignature ⊢
    have hparameters : ∀ q ∈ constructor.parameters, S.L.types q.type :=
      fun q hq => hsignature _ (Method.parameter_mem_types hq)
    have htype : S.L.types constructor.declaringType := hsignature _ (by simp [Method.types])
    refine (hp.callArguments hparameters (fun a ha => he.argument ha) w₂).bind
      fun w₃ ls rs _ hlists => ?_
    refine (Pair.earlyForm? fun _ _ _ _ _ => ?_).bind fun w₄ form? form?' hle hforms => .pure ?_
    · exact replaceCall?_newObject htype hlists.length_eq _ _
    cases hforms with
    | some hform => exact hform.twin
    | none => exact .newObject htype (hlists.later hle)

omit hp in
theorem methodPointer :
    Couples S w (p.left.methodPointer e) (p.right.methodPointer e) (Twins S b) :=
  .methodOperand he fun _ _ hknows => .pure (.methodIdentifier (S.L.signature hknows.1))

theorem virtualMethodPointer :
    Couples S w (p.left.virtualMethodPointer e) (p.right.virtualMethodPointer e) (Twins S b) := by
  refine .methodOperand he fun m _ _ => ?_
  exact .operand he hp.expression fun _ _ _ _ _ _ _ => .pure (Twin.same S.L.nativeInt rfl)

end InStep

end Pair

end ScriptLowering.Lowering
