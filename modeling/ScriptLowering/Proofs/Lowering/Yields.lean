import ScriptLowering.Proofs.Lowering.Run
import ScriptLowering.Proofs.Lowering.Scope

/-!
# What lowering computations yield

`Yields x post` says that whatever state a computation starts from, its answer satisfies a
condition. There is one rule for each way to combine computations, so that a proof follows the text
of a computation.
-/

namespace ScriptLowering.Lowering

open Script

theorem leads_thenRestore {α : Type} {x : Lower α} {restore : Context → Context} {s : State}
    {post : α → Prop} (hx : Leads x s (fun a _ => post a) fun _ => True) :
    Leads (Lower.thenRestore x restore) s (fun a _ => post a) fun _ => True := by
  unfold Leads at hx ⊢
  rw [run_thenRestore]
  rcases hinner : x.run s with ⟨_ | a, s'⟩
  · trivial
  · rwa [hinner] at hx

/-- Every answer of a computation satisfies a condition. -/
def Yields {α : Type} (x : Lower α) (post : α → Prop) : Prop :=
  ∀ s, Leads x s (fun a _ => post a) fun _ => True

namespace Yields

variable {α β : Type} {x : Lower α} {post : α → Prop}

theorem pure {a : α} (h : post a) : Yields (Pure.pure a) post :=
  fun _ => Leads.pure h

theorem throw {e : Error} : Yields (MonadExcept.throw e : Lower α) post :=
  fun _ => Leads.throw trivial

theorem any : Yields x fun _ => True :=
  fun _ => Leads.running.mono (fun _ _ _ => trivial) fun _ h => h

/-- An answer is that of a run. -/
theorem ran : Yields x fun a => ∃ s s', x.run s = (.ok a, s') :=
  fun s => Leads.running.mono (fun _ s' hrun => ⟨s, s', hrun⟩) fun _ h => h

/-- A choice between two computations. -/
theorem ite {p : Prop} [Decidable p] {y : Lower α} (hx : p → Yields x post)
    (hy : ¬p → Yields y post) : Yields (if p then x else y) post := by
  split
  · exact hx ‹p›
  · exact hy ‹¬p›

variable {f : α → Lower β}

/-- One computation after another. -/
theorem bind {post' : β → Prop} (hx : Yields x post) (hf : ∀ a, post a → Yields (f a) post') :
    Yields (x >>= f) post' :=
  fun s => Leads.bind ((hx s).mono (fun a s' ha => hf a ha s') fun _ h => h)

theorem after {post' : β → Prop} (hf : ∀ a, Yields (f a) post') : Yields (x >>= f) post' :=
  any.bind fun a _ => hf a

theorem mono {post' : α → Prop} (hx : Yields x post) (h : ∀ a, post a → post' a) :
    Yields x post' :=
  fun s => (hx s).mono (fun a _ => h a) fun _ h => h

theorem ofExcept {answer : Except Error α} (h : ∀ a, answer = .ok a → post a) :
    Yields (Lower.ofExcept answer) post := by
  cases answer with
  | ok a => exact pure (h a rfl)
  | error e => exact throw

theorem make {form : Form} {operands : List Node} :
    Yields (Lower.ofExcept (Node.make form operands)) fun n => n = ⟨form, operands⟩ := by
  unfold Node.make
  cases form.checkCount operands.length with
  | error error => exact throw
  | ok _ =>
    cases form.checkLeast operands.length with
    | error error => exact throw
    | ok _ =>
      cases form.checkWrapper operands.head? with
      | error error => exact throw
      | ok _ => exact pure rfl

theorem each {post : α → β → Prop} (hf : ∀ a, Yields (f a) (post a)) :
    ∀ as : List α, Yields (Lower.each f as) (List.Forall₂ post as)
  | [] => pure .nil
  | a :: as => (hf a).bind fun _ hb => (each hf as).bind fun _ hbs => pure (.cons hb hbs)

theorem withAutoCast {enabled : Bool} (hx : Yields x post) :
    Yields (Lower.withAutoCast enabled x) post :=
  after fun _ s => leads_thenRestore (hx s)

theorem withTarget {target : JumpTarget} (hx : Yields x post) :
    Yields (Lower.withTarget target x) post :=
  after fun _ s => leads_thenRestore (hx s)

theorem oneLevelDown (hx : Yields x post) : Yields (Lower.oneLevelDown x) post :=
  after fun _ => after fun _ => after fun _ s => leads_thenRestore (hx s)

/-! ### Variables and assignments -/

/-- A new temporary is a variable. -/
theorem newTemporary {type : Ty} :
    Yields (Lower.newTemporary type) fun n => ∃ v, n = .ofVariable v :=
  after fun _ => after fun _ => pure ⟨_, rfl⟩

theorem resolve {g : Lowerer} {v : Cil.Variable} :
    Yields (g.resolve v) fun w => w.name = v.name := by
  refine after fun c => ?_
  have hname : Yields (Lower.ofExcept (c.table.resolve g.env.types v))
      fun answer => answer.1.name = v.name :=
    ofExcept fun answer hanswer => Table.declare_name hanswer
  exact hname.bind fun answer hanswer => after fun _ => pure hanswer

theorem compoundAssign {g : Lowerer} {op : BinaryOp} {target value : Node} :
    Yields (g.compoundAssign op target value) fun n => ∃ t, n = .binary op target value t := by
  refine after fun c => ofExcept fun n hn => ?_
  obtain ⟨-, rfl⟩ := Node.eq_of_compoundAssign hn
  exact ⟨_, rfl⟩

theorem assign {g : Lowerer} {target value : Node} :
    Yields (g.assign target value) fun n => ∃ t, n = .binary .assign target value t :=
  compoundAssign

end Yields

end ScriptLowering.Lowering
