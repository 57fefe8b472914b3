import ScriptLowering.Proofs.Lowering.Run
import ScriptLowering.Proofs.Packing.Condition
import ScriptLowering.Proofs.Packing.Twin

/-!
# Two runs in step

Two computations are coupled (`Couples`) when from paired states, if the left one answers, the right
one answers too, in paired states and with answers that fit together. States are paired
(`State.Paired`) when they differ at most in temporaries and in the types of array variables. There is
one rule for each way to combine computations, so that a coupling is proved along the text of the
computations.
-/

namespace ScriptLowering.Lowering

open Script

/-- What two runs of a method have to do with: its types and its variables. -/
structure Setting (env : Env) where
  L : Lexicon env
  vars : Cil.Variable → Prop
  unreserved : ∀ {v}, vars v → ∀ n, v.name ≠ Scope.temporaryName n
  receiver : ∀ {v}, vars v → v.role = .this → v.type.isArray = false
  consistent : ∀ {v u}, vars v → vars u → v.name = u.name → v.type.isArray = true →
    env.types.same v.type u.type = true
  plain : ∀ {t}, L.types t → t.isPackedArray = true → env.types.Dull t

/-- A variable of the setting, of a type of its lexicon. -/
structure Setting.Meets {env : Env} (S : Setting env) (v : Cil.Variable) : Prop where
  vars : S.vars v
  types : S.L.types v.type

/-! ### Variables of a run -/

variable {name : String}

namespace Table

variable {t t' : Table}

theorem find?_add_of_ne {name' : String} (hne : name ≠ name') (kind : VariableKind) (type : Ty) :
    (t.add name kind type).2.find? name' = t.find? name' := by
  unfold find? Table.add
  rw [List.lookup_cons, beq_false_of_ne hne.symm]

theorem find?_add_self (name : String) (kind : VariableKind) (type : Ty) :
    (t.add name kind type).2.find? name = some (t.add name kind type).1 := by
  unfold find? Table.add
  rw [List.lookup_cons, beq_self_eq_true]

/-- Variables that came from others by making temporaries. -/
inductive Spills (t : Table) : Table → Prop where
  | refl : Spills t t
  | temporary {t' : Table} (h : Spills t t') (type : Ty) : Spills t (t'.newTemporary type).2

theorem Spills.trans {t₁ t₂ t₃ : Table} (h : t₁.Spills t₂) (h' : t₂.Spills t₃) : t₁.Spills t₃ := by
  induction h' with
  | refl => exact h
  | temporary _ type ih => exact .temporary ih type

theorem Spills.find? (h : t.Spills t') (hname : ∀ n, name ≠ Scope.temporaryName n) :
    t'.find? name = t.find? name := by
  induction h with
  | refl => rfl
  | @temporary t' _ type ih =>
    rw [← ih]
    exact find?_add_of_ne (t := t') (hname _).symm .temporary type

theorem Spills.retyping (h : t.Spills t') : t'.retyping = t.retyping := by
  induction h with
  | refl => rfl
  | temporary _ type ih => exact ih

end Table

namespace Scope

theorem retyping_add (s : Scope) (name : String) (kind : VariableKind) (type : Ty) :
    (s.add name kind type).2.retyping = s.retyping := by
  unfold Scope.add insert
  cases kind <;> rfl

variable {env : Env} {L : Lexicon env} {declared : List Ty} {s : Scope}

/-- Variables that are numbered by the ledger, and retyped only from arrays to packed arrays. -/
structure Tracked (L : Lexicon env) (declared : List Ty) (s : Scope) : Prop where
  nextId : s.nextId = declared.length
  known : ∀ v ∈ s.allVariables, Known declared v
  settled : Settled L declared s.retyping

theorem Tracked.add (h : s.Tracked L declared) (name : String) (kind : VariableKind) (type : Ty) :
    Known (declared ++ [type]) (s.add name kind type).1
      ∧ (s.add name kind type).2.Tracked L (declared ++ [type]) := by
  have hle : declared <+: declared ++ [type] := List.prefix_append _ _
  have hnew : Known (declared ++ [type]) (s.add name kind type).1 := by
    show (declared ++ [type])[s.nextId]? = some type
    rw [h.nextId, List.getElem?_concat_length]
  refine ⟨hnew, ?_, fun v hv => ?_, ?_⟩
  · show s.nextId + 1 = (declared ++ [type]).length
    rw [h.nextId, List.length_append, List.length_singleton]
  · rcases List.mem_cons.mp ((allVariables_add s name kind type).mem_iff.mp hv) with rfl | hold
    · exact hnew
    · exact (h.known v hold).later hle
  · rw [retyping_add]
    exact h.settled.later hle

theorem Tracked.addTemporary (h : s.Tracked L declared) (number : Nat) (type : Ty) :
    Known (declared ++ [type]) (s.addTemporary number type).1
      ∧ (s.addTemporary number type).2.Tracked L (declared ++ [type]) := by
  obtain ⟨hknown, hadd⟩ := h.add (temporaryName number) .temporary type
  exact ⟨hknown, hadd.nextId, hadd.known, hadd.settled⟩

theorem Tracked.spills {t t' : Table} (h : t.Tracked L declared) (hspills : t.Spills t') :
    ∃ declared', declared <+: declared' ∧ t'.Tracked L declared' := by
  induction hspills with
  | refl => exact ⟨declared, List.prefix_rfl, h⟩
  | temporary _ type ih =>
    obtain ⟨declared', hle, ht'⟩ := ih
    exact ⟨_, hle.trans (List.prefix_append _ _), (ht'.addTemporary _ type).2⟩

theorem tracked_empty : Scope.empty.Tracked L [] where
  nextId := rfl
  known := by simp [Scope.empty, allVariables]
  settled := settled_empty

end Scope

/-! ### Paired states -/

variable {w' : Ledger} {f : Context → Context}

section

variable {env : Env} {S : Setting env} {w : Ledger}

/-- What a name of the method body stands for in two runs: nothing yet, or twins with the type of a
variable of that name. -/
inductive Table.Match (S : Setting env) (w : Ledger) (t t' : Table) (name : String) : Prop where
  | new (left : t.find? name = none) (right : t'.find? name = none)
  | met {v v' : Variable} (left : t.find? name = some v) (right : t'.find? name = some v')
    (twins : TwinVariables S.L w v v') {u : Cil.Variable} (hu : S.vars u) (hname : u.name = name)
    (htype : v.declaredType = u.type)

theorem Table.Match.later {t t' t₁ t₁' : Table} (h : Table.Match S w t t' name) (hle : w.Le w')
    (hleft : t₁.find? name = t.find? name) (hright : t₁'.find? name = t'.find? name) :
    Table.Match S w' t₁ t₁' name := by
  cases h with
  | new hl hr => exact .new (hleft.trans hl) (hright.trans hr)
  | met hl hr htwins hu hname htype =>
    exact .met (hleft.trans hl) (hright.trans hr) (htwins.later hle) hu hname htype

/-- The variables of two runs. -/
structure Table.Paired (S : Setting env) (w : Ledger) (t t' : Table) : Prop where
  left : t.Tracked S.L w.left
  right : t'.Tracked S.L w.right
  names : ∀ {u}, S.vars u → Table.Match S w t t' u.name

/-- Contexts of two runs that differ in variables only. -/
structure Context.Paired (S : Setting env) (w : Ledger) (c c' : Context) : Prop where
  table : c.table.Paired S w c'.table
  rest : c' = { c with table := c'.table }

/-- What two runs remember of members: of directives what their own say, and of properties the same,
which are of the lexicon. -/
structure PairedMembers (S : Setting env) (memo memo' : MemberMemo) : Prop where
  left : memo.Right env.unpacked.directives
  right : memo'.Right env.directives
  same : memo'.properties = memo.properties
  remembered : ∀ {name p}, (name, some p) ∈ memo.properties → ∀ t ∈ p.types, S.L.types t

/-- States of two runs. -/
structure State.Paired (S : Setting env) (w : Ledger) (s s' : State) : Prop where
  context : s.context.Paired S w s'.context
  members : PairedMembers S s.session.members s'.session.members

variable {c c' : Context} {s s' : State}

theorem Context.Paired.left (h : c.Paired S w c') : Settled S.L w.left c.scope.retyping :=
  h.table.left.settled

theorem Context.Paired.right (h : c.Paired S w c') : Settled S.L w.right c'.scope.retyping :=
  h.table.right.settled

theorem Context.Paired.autoCastEnabled (h : c.Paired S w c') :
    c.autoCastEnabled = c'.autoCastEnabled := by
  rw [h.rest]
  rfl

theorem Context.Paired.map
    (hf : ∀ (c : Context) (table : Table), f { c with table } = { f c with table })
    (h : c.Paired S w c') : (f c).Paired S w (f c') := by
  have htable (c : Context) : (f c).table = c.table := by
    have h := congrArg Context.table (hf c c.table)
    exact h
  refine ⟨?_, ?_⟩
  · rw [htable, htable]
    exact h.table
  · calc f c' = f { c with table := c'.table } := congrArg f h.rest
      _ = { f c with table := c'.table } := hf c c'.table
      _ = { f c with table := (f c').table } := by rw [htable]

/-- Other variables on both sides. -/
theorem Context.Paired.setTable {table table' : Table} (h : c.Paired S w c')
    (htable : table.Paired S w' table') :
    Context.Paired S w' { c with table } { c' with table := table' } := by
  refine ⟨htable, ?_⟩
  rw [h.rest]

/-- Temporaries on both sides. -/
theorem Table.Paired.spills {t t' t₁ t₁' : Table} (h : t.Paired S w t') (ht : t.Spills t₁)
    (ht' : t'.Spills t₁') : ∃ w', w.Le w' ∧ t₁.Paired S w' t₁' := by
  obtain ⟨declared, hle, htracked⟩ := h.left.spills ht
  obtain ⟨declared', hle', htracked'⟩ := h.right.spills ht'
  have hw : w.Le ⟨declared, declared'⟩ := ⟨hle, hle'⟩
  refine ⟨_, hw, htracked, htracked', fun {u} hu => ?_⟩
  exact (h.names hu).later hw (ht.find? (S.unreserved hu)) (ht'.find? (S.unreserved hu))

end

/-! ### Coupled computations -/

section

variable {env : Env} {α β γ δ : Type}

/-- Whenever the left computation answers, the right one answers, and the answers fit together. -/
def Couples (S : Setting env) (w : Ledger) (x : Lower α) (y : Lower β)
    (post : Ledger → α → β → Prop) : Prop :=
  ∀ ⦃s s' : State⦄, s.Paired S w s' → ∀ ⦃a : α⦄ ⦃t : State⦄,
    (x.run s : Except Error α × State) = (.ok a, t) →
    ∃ (b : β) (t' : State) (w' : Ledger), (y.run s' : Except Error β × State) = (.ok b, t')
      ∧ w.Le w' ∧ t.Paired S w' t' ∧ post w' a b

/-- Whenever the left computation answers, the right one answers, and neither changes the state. -/
def Still (S : Setting env) (w : Ledger) (x : Lower α) (y : Lower β) (post : α → β → Prop) : Prop :=
  ∀ ⦃s s' : State⦄, s.Paired S w s' → ∀ ⦃a : α⦄ ⦃t : State⦄,
    (x.run s : Except Error α × State) = (.ok a, t) →
    t = s ∧ ∃ b : β, (y.run s' : Except Error β × State) = (.ok b, s') ∧ post a b

theorem isEmpty_iff_of_length_eq {as : List α} {bs : List β} (h : as.length = bs.length) :
    as.isEmpty = true ↔ bs.isEmpty = true := by
  rw [List.isEmpty_iff_length_eq_zero, List.isEmpty_iff_length_eq_zero, h]

variable {S : Setting env} {w : Ledger} {x : Lower α} {y : Lower β}

namespace Couples

variable {post : Ledger → α → β → Prop}

theorem pure {a : α} {b : β} (h : post w a b) : Couples S w (Pure.pure a) (Pure.pure b) post := by
  intro s s' hs a' t hrun
  cases hrun
  exact ⟨b, s', w, rfl, .refl w, hs, h⟩

theorem throw {e : Error} : Couples S w (MonadExcept.throw e : Lower α) y post := by
  intro s s' hs a t hrun
  cases hrun

theorem mono {post' : Ledger → α → β → Prop} (h : Couples S w x y post)
    (hpost : ∀ w' a b, w.Le w' → post w' a b → post' w' a b) : Couples S w x y post' := by
  intro s s' hs a t hrun
  obtain ⟨b, t', w', hrun', hle, ht, hab⟩ := h hs hrun
  exact ⟨b, t', w', hrun', hle, ht, hpost w' a b hle hab⟩

/-- Nothing is needed of the answers. -/
theorem forget (h : Couples S w x y post) : Couples S w x y (fun _ _ _ => True) :=
  h.mono fun _ _ _ _ _ => trivial

theorem bind {f : α → Lower γ} {f' : β → Lower δ} {post' : Ledger → γ → δ → Prop}
    (hx : Couples S w x y post)
    (hf : ∀ w' a b, w.Le w' → post w' a b → Couples S w' (f a) (f' b) post') :
    Couples S w (x >>= f) (y >>= f') post' := by
  intro s s' hs c t hrun
  obtain ⟨a, s₁, hrunx, hrunf⟩ := exists_run_of_bind hrun
  obtain ⟨b, s₁', w₁, hruny, hle₁, hs₁, hab⟩ := hx hs hrunx
  obtain ⟨d, t', w₂, hrunf', hle₂, ht, hcd⟩ := hf w₁ a b hle₁ hab hs₁ hrunf
  refine ⟨d, t', w₂, ?_, hle₁.trans hle₂, ht, hcd⟩
  rw [run_bind_of_run hruny]
  exact hrunf'

theorem ite {p p' : Prop} [Decidable p] [Decidable p'] (hp : p ↔ p') {x' : Lower α} {y' : Lower β}
    (hx : p → Couples S w x y post) (hx' : ¬p → Couples S w x' y' post) :
    Couples S w (if p then x else x') (if p' then y else y') post := by
  by_cases h : p
  · rw [if_pos h, if_pos (hp.mp h)]
    exact hx h
  · rw [if_neg h, if_neg fun h' => h (hp.mpr h')]
    exact hx' h

theorem each {ι : Type} {f : ι → Lower α} {f' : ι → Lower β} :
    ∀ {is : List ι} {w : Ledger}, (∀ i ∈ is, ∀ w, Couples S w (f i) (f' i) fun _ _ _ => True) →
      Couples S w (Lower.each f is) (Lower.each f' is) (fun _ as bs => as.length = bs.length)
  | [], w, _ => .pure rfl
  | i :: rest, w, hf => by
    refine (hf i List.mem_cons_self w).bind fun w₁ a b _ _ => ?_
    refine (each fun i hi => hf i (List.mem_cons_of_mem _ hi)).bind fun w₂ as bs _ hlength => ?_
    exact .pure (congrArg Nat.succ hlength)

theorem modifyContext
    (hf : ∀ (c : Context) (table : Table), f { c with table } = { f c with table }) :
    Couples S w (Lower.modifyContext f) (Lower.modifyContext f) (fun _ _ _ => True) := by
  intro s s' hs a t hrun
  cases hrun
  exact ⟨(), _, w, rfl, .refl w, ⟨hs.context.map hf, hs.members⟩, trivial⟩

/-- Other variables on both sides. -/
theorem setTable (hle : w.Le w') {table table' : Table} (h : table.Paired S w' table') :
    Couples S w (Lower.modifyTable fun _ => table) (Lower.modifyTable fun _ => table')
      (fun w₁ _ _ => w₁ = w') := by
  intro s s' hs a t hrun
  cases hrun
  refine ⟨(), _, w', rfl, hle, ⟨?_, hs.members⟩, rfl⟩
  exact hs.context.setTable h

theorem modifyTable {f f' : Table → Table} (h : Couples S w x y post)
    (hf : ∀ t t', Table.Paired S w t t' → (f t).Paired S w (f' t')) :
    Couples S w (Lower.modifyTable f >>= fun _ => x) (Lower.modifyTable f' >>= fun _ => y) post := by
  intro s s' hs a t hrun
  have hpaired : State.Paired S w
      { s with context := { s.context with table := f s.context.table } }
      { s' with context := { s'.context with table := f' s'.context.table } } :=
    ⟨hs.context.setTable (hf _ _ hs.context.table), hs.members⟩
  exact h hpaired hrun

theorem asks {ask : MemberMemo → α × MemberMemo} {ask' : MemberMemo → β × MemberMemo} {a : α} {b : β}
    (h : MemberMemo.Asks env.unpacked.directives ask a) (h' : MemberMemo.Asks env.directives ask' b) :
    Couples S w (Lower.askMembers ask) (Lower.askMembers ask') (fun _ x y => x = a ∧ y = b) := by
  intro s s' hs x t hrun
  cases hrun
  obtain ⟨hanswer, hleft⟩ := h.right hs.members.left
  obtain ⟨hanswer', hright⟩ := h'.right hs.members.right
  refine ⟨_, _, w, rfl, .refl w, ⟨hs.context, hleft, hright, ?_, ?_⟩, hanswer, hanswer'⟩
  · exact (h'.properties _).trans (hs.members.same.trans (h.properties _).symm)
  · intro name p hp
    exact hs.members.remembered ((h.properties _) ▸ hp)

theorem thenRestore {restore : Context → Context}
    (hrestore : ∀ (c : Context) (table : Table), restore { c with table } = { restore c with table })
    (h : Couples S w x y post) :
    Couples S w (Lower.thenRestore x restore) (Lower.thenRestore y restore) post := by
  intro s s' hs a t hrun
  rw [run_thenRestore] at hrun
  obtain ⟨hanswer, hstate⟩ := Prod.mk.inj hrun
  obtain ⟨b, t', w', hrun', hle, ht, hab⟩ := h hs (Prod.ext hanswer rfl)
  refine ⟨b, { t' with context := restore t'.context }, w', ?_, hle, ?_, hab⟩
  · rw [run_thenRestore, hrun']
  · rw [← hstate]
    exact ⟨ht.context.map hrestore, ht.members⟩

theorem withAutoCast {enabled : Bool} (h : ∀ w, Couples S w x y post) :
    Couples S w (Lower.withAutoCast enabled x) (Lower.withAutoCast enabled y) post :=
  (modifyContext fun _ _ => rfl).bind fun w₁ _ _ _ _ => thenRestore (fun _ _ => rfl) (h w₁)

theorem withTarget {target : JumpTarget} (h : ∀ w, Couples S w x y post) :
    Couples S w (Lower.withTarget target x) (Lower.withTarget target y) post :=
  (modifyContext fun _ _ => rfl).bind fun w₁ _ _ _ _ => thenRestore (fun _ _ => rfl) (h w₁)

end Couples

namespace Still

variable {post : α → β → Prop}

/-- Computations that read the context. -/
theorem reading {f : Context → α} {f' : Context → β}
    (h : ∀ c c', Context.Paired S w c c' → post (f c) (f' c')) :
    Still S w (do return f (← Lower.context)) (do return f' (← Lower.context)) post := by
  intro s s' hs a t hrun
  cases hrun
  exact ⟨rfl, f' s'.context, rfl, h _ _ hs.context⟩

theorem context : Still S w Lower.context Lower.context (Context.Paired S w) := by
  intro s s' hs a t hrun
  cases hrun
  exact ⟨rfl, s'.context, rfl, hs.context⟩

theorem ofExcept {answer : Except Error α} {answer' : Except Error β}
    (h : ∀ a, answer = .ok a → ∃ b, answer' = .ok b ∧ post a b) :
    Still S w (Lower.ofExcept answer) (Lower.ofExcept answer') post := by
  intro s s' hs a t hrun
  cases answer with
  | error e => cases hrun
  | ok a =>
    cases hrun
    obtain ⟨b, rfl, hab⟩ := h a rfl
    exact ⟨rfl, b, rfl, hab⟩

/-- One reading computation after another. -/
theorem andThen {f : α → Lower γ} {f' : β → Lower δ} {post' : γ → δ → Prop}
    (hx : Still S w x y post) (hf : ∀ a b, post a b → Still S w (f a) (f' b) post') :
    Still S w (x >>= f) (y >>= f') post' := by
  intro s s' hs c t hrun
  obtain ⟨a, s₁, hrunx, hrunf⟩ := exists_run_of_bind hrun
  obtain ⟨rfl, b, hruny, hab⟩ := hx hs hrunx
  obtain ⟨rfl, d, hrunf', hcd⟩ := hf a b hab hs hrunf
  refine ⟨rfl, d, ?_, hcd⟩
  rw [run_bind_of_run hruny]
  exact hrunf'

theorem mono {post' : α → β → Prop} (h : Still S w x y post)
    (hpost : ∀ a b, post a b → post' a b) : Still S w x y post' := by
  intro s s' hs a t hrun
  obtain ⟨hst, b, hrun', hab⟩ := h hs hrun
  exact ⟨hst, b, hrun', hpost a b hab⟩

/-- The last step of a computation. -/
theorem last {post' : Ledger → α → β → Prop} (h : Still S w x y (post' w)) :
    Couples S w x y post' := by
  intro s s' hs a t hrun
  obtain ⟨rfl, b, hrun', hab⟩ := h hs hrun
  exact ⟨b, s', w, hrun', .refl w, hs, hab⟩

theorem bind {f : α → Lower γ} {f' : β → Lower δ} {post' : Ledger → γ → δ → Prop}
    (hx : Still S w x y post)
    (hf : ∀ a b, post a b → Couples S w (f a) (f' b) post') :
    Couples S w (x >>= f) (y >>= f') post' := by
  have hlast : Couples S w x y fun w' a b => w' = w ∧ post a b :=
    (hx.mono fun _ _ hab => ⟨rfl, hab⟩).last
  refine hlast.bind fun w' a b _ hab => ?_
  rw [hab.1]
  exact hf a b hab.2

end Still

theorem Couples.oneLevelDown {post : Ledger → α → β → Prop} (h : ∀ w, Couples S w x y post) :
    Couples S w (Lower.oneLevelDown x) (Lower.oneLevelDown y) post := by
  refine Still.context.bind fun c c' hc => ?_
  have henter : ∀ d, c.enter = .ok d → ∃ d', c'.enter = .ok d' ∧ d.Paired S w d' := by
    intro d hd
    unfold Context.enter at hd
    split at hd
    · cases hd
    · next hdepth =>
      cases hd
      rw [hc.rest]
      refine ⟨_, if_neg hdepth, ?_⟩
      have hmap := hc.map (f := fun c => { c with depth := c.depth + 1 }) fun _ _ => rfl
      rw [hc.rest] at hmap
      exact hmap
  refine (Still.ofExcept henter).bind fun d d' hd => ?_
  have hset : Couples S w (Lower.modifyContext fun _ => d) (Lower.modifyContext fun _ => d')
      (fun _ _ _ => True) := by
    intro s s' hs a t hrun
    cases hrun
    exact ⟨(), _, w, rfl, .refl w, ⟨hd, hs.members⟩, trivial⟩
  exact hset.bind fun w₁ _ _ _ _ => .thenRestore (fun _ _ => rfl) (h w₁)

/-! ### Computations that make temporaries -/

/-- A computation that makes temporaries, changes nothing else and always answers, while variables
have the given types. -/
def Spilling (changes : Retyping) (x : Lower α) (post : α → Prop) : Prop :=
  ∀ s : State, s.context.scope.retyping = changes →
    ∃ (a : α) (table : Table), s.context.table.Spills table ∧ post a
      ∧ (x.run s : Except Error α × State)
        = (.ok a, { s with context := { s.context with table } })

namespace Spilling

variable {changes : Retyping} {post : α → Prop}

theorem pure {a : α} (h : post a) : Spilling changes (Pure.pure a) post :=
  fun s _ => ⟨a, s.context.table, .refl, h, rfl⟩

theorem bind {f : α → Lower γ} {post' : γ → Prop} (hx : Spilling changes x post)
    (hf : ∀ a, post a → Spilling changes (f a) post') : Spilling changes (x >>= f) post' := by
  intro s hs
  obtain ⟨a, table, hspills, ha, hrun⟩ := hx s hs
  obtain ⟨c, table', hspills', hc, hrun'⟩ :=
    hf a ha { s with context := { s.context with table } } (hspills.retyping.trans hs)
  refine ⟨c, table', hspills.trans hspills', hc, ?_⟩
  rw [run_bind_of_run hrun, hrun']

theorem context : Spilling changes Lower.context (fun c => c.scope.retyping = changes) :=
  fun s hs => ⟨s.context, s.context.table, .refl, hs, rfl⟩

theorem newTemporary (type : Ty) :
    Spilling changes (Lower.newTemporary type) (fun n => ∃ v, n = .ofVariable v) :=
  fun _ _ => ⟨_, _, .temporary .refl type, ⟨_, rfl⟩, rfl⟩

theorem couples {post : Retyping → α → Prop} {post' : Retyping → β → Prop}
    (hx : ∀ changes, Spilling changes x (post changes))
    (hy : ∀ changes, Spilling changes y (post' changes)) :
    Couples S w x y (fun _ a b => ∃ changes changes', Settled S.L w.left changes
      ∧ Settled S.L w.right changes' ∧ post changes a ∧ post' changes' b) := by
  intro s s' hs a t hrun
  obtain ⟨a', table, hspills, ha, hrunx⟩ := hx _ s rfl
  obtain ⟨b, table', hspills', hb, hruny⟩ := hy _ s' rfl
  rw [hrunx] at hrun
  cases hrun
  obtain ⟨w', hle, htable⟩ := hs.context.table.spills hspills hspills'
  refine ⟨b, _, w', hruny, hle, ⟨?_, hs.members⟩, ?_⟩
  · exact hs.context.setTable htable
  · exact ⟨_, _, hs.context.left, hs.context.right, ha, hb⟩

end Spilling

end

end ScriptLowering.Lowering
