import ScriptLowering.Proofs.Lowering.Run
import ScriptLowering.Proofs.Lowering.Scope

/-!
# Courses of lowering

A `Course` is a way for lowering to go on: the states that it goes through, which of them come after
which, and how it may fail. A computation keeps to a course (`Course.Keeps`) if from a state of the
course it leads to a later one, whether it answers or fails, and its answer satisfies a condition in
the state afterwards. There is one rule for each way to combine computations, so that a proof follows
the text of a computation.
-/

namespace ScriptLowering.Lowering

open Script

/-- A way for lowering to go on. -/
structure Course where
  Fits : State → Prop
  Later : State → State → Prop
  /-- How a computation from a state may fail. -/
  Fails : State → Error → Prop
  refl (s : State) : Later s s
  trans {s₁ s₂ s₃ : State} : Later s₁ s₂ → Later s₂ s₃ → Later s₁ s₃
  fails_of_later {s s' : State} {e : Error} : Later s s' → Fails s' e → Fails s e

namespace Course

variable {α β : Type} {c : Course} {s : State} {post : State → α → Prop}

/-- A good end of a run from a state. -/
def Ends (c : Course) (s : State) (post : State → α → Prop) : Except Error α × State → Prop
  | (.ok a, s') => (c.Fits s' ∧ c.Later s s') ∧ post s' a
  | (.error e, s') => (c.Fits s' ∧ c.Later s s') ∧ c.Fails s e

/-- A good end of a run from a later state. -/
theorem Ends.before {s' : State} (h : c.Later s s') :
    ∀ {result : Except Error α × State}, c.Ends s' post result → c.Ends s post result
  | (.ok _, _), hend => ⟨⟨hend.1.1, c.trans h hend.1.2⟩, hend.2⟩
  | (.error _, _), hend => ⟨⟨hend.1.1, c.trans h hend.1.2⟩, c.fails_of_later h hend.2⟩

/-- The end of a run that answers. -/
theorem Ends.done_of_run {result : Except Error α × State} (h : c.Ends s post result) {a : α}
    {s' : State} (hrun : result = (.ok a, s')) : (c.Fits s' ∧ c.Later s s') ∧ post s' a := by
  rw [hrun] at h
  exact h

/-- A computation from a state keeps to a course, and its answer satisfies a condition. -/
def Keeps (c : Course) (x : Lower α) (s : State) (post : State → α → Prop) : Prop :=
  c.Fits s → c.Ends s post (x.run s)

namespace Keeps

theorem pure {a : α} (h : post s a) : c.Keeps (Pure.pure a) s post :=
  fun hs => ⟨⟨hs, c.refl s⟩, h⟩

theorem throw {e : Error} (he : c.Fails s e) : c.Keeps (MonadExcept.throw e : Lower α) s post :=
  fun hs => ⟨⟨hs, c.refl s⟩, he⟩

variable {x : Lower α} {f : α → Lower β} {post' : State → β → Prop}

/-- A choice between two computations. -/
theorem ite {p : Prop} [Decidable p] {y : Lower α} (hx : p → c.Keeps x s post)
    (hy : ¬p → c.Keeps y s post) : c.Keeps (if p then x else y) s post := by
  split
  · exact hx ‹p›
  · exact hy ‹¬p›

/-- One computation after another. -/
theorem bind (hx : c.Keeps x s post)
    (hf : ∀ s' a, c.Later s s' → post s' a → c.Keeps (f a) s' post') :
    c.Keeps (x >>= f) s post' := by
  intro hs
  have h := hx hs
  rw [run_bind_eq]
  rcases hrun : x.run s with ⟨e | a, s'⟩ <;> rw [hrun] at h
  · exact h
  · exact (hf s' a h.1.2 h.2 h.1.1).before h.1.2

/-- What follows a failure does not matter. -/
theorem failing {e : Error} (he : c.Fails s e) :
    c.Keeps ((MonadExcept.throw e : Lower α) >>= f) s post' :=
  (throw he : c.Keeps (MonadExcept.throw e : Lower α) s fun _ _ => False).bind
    fun _ _ _ hfalse => hfalse.elim

theorem mono {post' : State → α → Prop} (hx : c.Keeps x s post)
    (h : ∀ s' a, c.Later s s' → post s' a → post' s' a) : c.Keeps x s post' := by
  have hbind := hx.bind fun s' a hlater ha => pure (h s' a hlater ha)
  rwa [bind_pure] at hbind

theorem fitting (h : c.Fits s → c.Keeps x s post) : c.Keeps x s post :=
  fun hs => h hs hs

theorem reading (a : α) (hx : x.run s = (.ok a, s))
    (hf : c.Keeps (f a) s post') : c.Keeps (x >>= f) s post' := by
  intro hs
  rw [run_bind_eq, hx]
  exact hf hs

theorem within {inner : Course} {enter restore : Context → Context} {post' : State → α → Prop}
    (hx : inner.Keeps x { s with context := enter s.context } post')
    (henter : c.Fits s → inner.Fits { s with context := enter s.context })
    (hback : ∀ s', inner.Later { s with context := enter s.context } s' → inner.Fits s' →
      c.Fits { s' with context := restore s'.context }
        ∧ c.Later s { s' with context := restore s'.context })
    (hpost : ∀ s' a, inner.Later { s with context := enter s.context } s' → post' s' a →
      post { s' with context := restore s'.context } a)
    (hfails : ∀ e, inner.Fails { s with context := enter s.context } e → c.Fails s e) :
    c.Keeps (Lower.modifyContext enter >>= fun _ => Lower.thenRestore x restore) s post := by
  intro hs
  have h := hx (henter hs)
  change c.Ends s post ((Lower.thenRestore x restore).run { s with context := enter s.context })
  rw [run_thenRestore]
  rcases hinner : x.run { s with context := enter s.context }
    with ⟨e | a, s'⟩ <;> rw [hinner] at h
  · exact ⟨hback s' h.1.2 h.1.1, hfails e h.2⟩
  · exact ⟨hback s' h.1.2 h.1.1, hpost s' a h.1.2 h.2⟩

theorem declaring {type : Ty} {f : Variable → α}
    (hchange : c.Keeps (Lower.modifyTable fun _ => (s.context.table.newTemporary type).2) s
      fun s' _ => s'.context.table = (s.context.table.newTemporary type).2) :
    c.Keeps
      (do
        let (v, table) := (← Lower.context).table.newTemporary type
        Lower.modifyTable fun _ => table
        return f v) s
      (fun s' a => ∃ v ∈ s'.context.scope.allVariables, a = f v) := by
  refine reading s.context rfl (hchange.bind fun s' _ _ htable => pure ?_)
  refine ⟨_, ?_, rfl⟩
  rw [Context.scope, htable]
  exact (s.context.table.newTemporary_spec type).1

theorem resolve {g : Lowerer} {v : Cil.Variable}
    (hchange : ∀ {w table}, s.context.table.resolve g.env.types v = .ok (w, table) →
      c.Keeps (Lower.modifyTable fun _ => table) s fun s' _ => s'.context.table = table)
    (hfails : ∀ {e}, s.context.table.resolve g.env.types v = .error e → c.Fails s e) :
    c.Keeps (g.resolve v) s (fun s' v => v ∈ s'.context.scope.allVariables) := by
  refine reading s.context rfl ?_
  cases hdeclare : s.context.table.resolve g.env.types v with
  | error e => exact failing (hfails hdeclare)
  | ok answer =>
    refine reading answer rfl ((hchange hdeclare).bind fun s' _ _ htable => pure ?_)
    rw [Context.scope, htable]
    exact (Table.declare_spec hdeclare).1

theorem leads (hx : c.Keeps x s post) (hs : c.Fits s) :
    Leads x s (fun a s' => (c.Fits s' ∧ c.Later s s') ∧ post s' a)
      fun s' => c.Fits s' ∧ c.Later s s' := by
  have h := hx hs
  unfold Leads
  rcases hrun : x.run s with ⟨e | a, s'⟩ <;> rw [hrun] at h
  · exact h.1
  · exact h

theorem of_run (hx : c.Keeps x s post) (hs : c.Fits s) {r : Except Error α} {s' : State}
    (hrun : x.run s = (r, s')) :
    (c.Fits s' ∧ c.Later s s')
      ∧ ((∃ a, r = .ok a ∧ post s' a) ∨ ∃ e, r = .error e ∧ c.Fails s e) := by
  have h := hx hs
  rw [hrun] at h
  cases r with
  | ok a => exact ⟨h.1, .inl ⟨a, rfl, h.2⟩⟩
  | error e => exact ⟨h.1, .inr ⟨e, rfl, h.2⟩⟩

end Keeps

end Course

end ScriptLowering.Lowering
