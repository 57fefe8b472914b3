import ScriptLowering.Batch
import ScriptLowering.Proofs.Lowering.WorkerMethod

/-!
# Bringing a method to canonical form is the work of a worker

Of the passes, only the expansion of casts touches the session: it asks which types can be assigned
to which. A reduction whose reducer does nothing but ask (`Inquires`) does nothing but ask
(`inquires_run`). So passes and pipelines are workable, and with them all that becomes of a method
(`exists_worker_lowerMethod`).
-/

namespace ScriptLowering.Canonical

open Script Lowering

/-! ### Reductions that ask -/

/-- A function of the answers about types that a worker can compute. -/
structure Inquires {α : Type} (env : Env) (f : AssignableMemo → α × AssignableMemo) : Prop where
  exists_worker : ∃ w : Worker α, ∀ s : Session,
    w.run env s = ((f s.assignable).1, { s with assignable := (f s.assignable).2 })

namespace Inquires

variable {α β : Type} {env : Env} {f : AssignableMemo → α × AssignableMemo}

theorem pure {a : α} : Inquires env fun memo => (a, memo) :=
  ⟨.done a, fun _ => rfl⟩

/-- A question is asked. -/
theorem ask (target source : Ty) : Inquires env fun memo => memo.ask env.types target source :=
  ⟨.ask (.assignable target source) .done, fun _ => rfl⟩

/-- One function after another. -/
theorem bind {k : α → AssignableMemo → β × AssignableMemo} (hf : Inquires env f)
    (hk : ∀ a, Inquires env (k a)) : Inquires env fun memo => k (f memo).1 (f memo).2 := by
  obtain ⟨w, hrun⟩ := hf
  obtain ⟨v, hv⟩ := w.exists_next env (R := fun a s result =>
    result = ((k a s.assignable).1, { s with assignable := (k a s.assignable).2 }))
    fun a => (hk a).exists_worker
  refine ⟨v, fun s => ?_⟩
  rw [hv s, hrun s]

theorem follow {g : AssignableMemo → β × AssignableMemo} (hf : Inquires env f)
    (hg : ∀ a, ∃ k, Inquires env k ∧ ∀ memo memo', f memo = (a, memo') → g memo = k memo') :
    Inquires env g := by
  choose k hk hg using hg
  obtain rfl : g = fun memo => k (f memo).1 (f memo).2 := funext fun memo => hg _ memo _ rfl
  exact hf.bind hk

/-- What is made of an answer. -/
theorem map (hf : Inquires env f) (g : α → β) :
    Inquires env fun memo => (g (f memo).1, (f memo).2) :=
  hf.bind fun _ => pure

end Inquires

section

variable {env : Env}

/-- What a reduction answers, apart from the state. -/
abbrev Progress.answer {σ α : Type} (p : Progress σ α) : (α × Verdict) × σ :=
  ((p.result, p.verdict), p.state)

theorem Inquires.afterSettled {α β : Type} {f : AssignableMemo → Progress AssignableMemo α}
    {g : AssignableMemo → Progress AssignableMemo β} (rest : α → β)
    (hf : Inquires env fun memo => (f memo).answer)
    (hsettled : ∀ a changed, ∃ k, Inquires env k ∧ ∀ memo, (f memo).result = a →
      (f memo).verdict = .settled changed → (g memo).answer = k (f memo).state)
    (hother : ∀ memo, (∀ changed, (f memo).verdict ≠ .settled changed) →
      g memo = ⟨rest (f memo).result, (f memo).state, (f memo).verdict⟩) :
    Inquires env fun memo => (g memo).answer := by
  refine hf.follow ?_
  rintro ⟨a, verdict⟩
  by_cases hverdict : ∃ changed, verdict = .settled changed
  · obtain ⟨changed, rfl⟩ := hverdict
    obtain ⟨k, hk, hgo⟩ := hsettled a changed
    refine ⟨k, hk, fun memo memo' hmemo => ?_⟩
    simp only [Prod.mk.injEq] at hmemo
    rw [hgo memo hmemo.1.1 hmemo.1.2, hmemo.2]
  · refine ⟨fun memo => ((rest a, verdict), memo), .pure, fun memo memo' hmemo => ?_⟩
    simp only [Prod.mk.injEq] at hmemo
    have hstays := hother memo fun changed h => hverdict ⟨changed, hmemo.1.2.symm.trans h⟩
    rw [hstays, Progress.answer, hmemo.1.1, hmemo.1.2, hmemo.2]

/-- Nodes are reduced one after another. -/
theorem inquires_reduceEach {f : Node → AssignableMemo → Progress AssignableMemo Node}
    (hf : ∀ n, Inquires env fun memo => (f n memo).answer) (ns : List Node) :
    Inquires env fun memo => (Reducer.reduceEach f ns memo).answer := by
  induction ns with
  | nil => exact .pure (a := ([], Verdict.settled false))
  | cons n rest ih =>
    refine (hf n).afterSettled (· :: rest) (fun result changed => ?_) fun memo hother => ?_
    · refine ⟨_, ih.map fun a => (result :: a.1, a.2.after changed), fun memo hresult hverdict => ?_⟩
      simp only [Reducer.reduceEach, hresult, hverdict]
    · simp only [Reducer.reduceEach]

variable {w : Reducer AssignableMemo} (hw : ∀ n, Inquires env (w.reduct? n))
include hw

theorem inquires_settle (left : Nat) (changed : Bool) (n : Node) :
    Inquires env fun memo => (w.settle left changed n memo).answer := by
  induction left generalizing changed n with
  | zero =>
    refine (hw n).follow ?_
    rintro (e | _ | replacement)
    · refine ⟨_, .pure (a := (n, .failed e)), fun memo memo' h => ?_⟩
      rw [Reducer.settle, h]
    · refine ⟨_, .pure (a := (n, .settled changed)), fun memo memo' h => ?_⟩
      rw [Reducer.settle, h]
    · refine ⟨_, .pure (a := (n, .failed (.reductionLimit w.name))), fun memo memo' h => ?_⟩
      rw [Reducer.settle, h]
  | succ left ih =>
    refine (hw n).follow ?_
    rintro (e | _ | replacement)
    · refine ⟨_, .pure (a := (n, .failed e)), fun memo memo' h => ?_⟩
      rw [Reducer.settle, h]
    · refine ⟨_, .pure (a := (n, .settled changed)), fun memo memo' h => ?_⟩
      rw [Reducer.settle, h]
    · cases hvalid : replacement.validate with
      | error e =>
        refine ⟨_, .pure (a := (n, .failed e)), fun memo memo' h => ?_⟩
        rw [Reducer.settle, h]
        simp only [hvalid]
      | ok _ =>
        refine ⟨_, ih true replacement, fun memo memo' h => ?_⟩
        rw [Reducer.settle, h]
        simp only [hvalid]

/-- A tree is reduced from the root down. -/
theorem inquires_reduceTree (limit budget : Nat) (n : Node) :
    Inquires env fun memo => (w.reduceTree limit budget n memo).answer := by
  induction budget generalizing n with
  | zero => exact .pure (a := (n, Verdict.unfinished))
  | succ budget ih =>
    refine (inquires_settle hw limit false n).afterSettled id (fun root changed => ?_)
      fun memo hother => ?_
    · refine ⟨_, (inquires_reduceEach ih root.operands).map
        fun a => ((⟨root.form, a.1⟩ : Node), a.2.after changed), fun memo hresult hverdict => ?_⟩
      simp only [Reducer.reduceTree, hresult, hverdict]
    · simp only [Reducer.reduceTree]
      rfl

/-- A reduction asks what its reducer asks. -/
theorem inquires_run (limit : Nat) (n : Node) :
    Inquires env fun memo =>
      (((w.run limit n memo).1, (w.run limit n memo).2.1), (w.run limit n memo).2.2) := by
  refine (inquires_reduceTree hw limit (Reducer.levels n) n).follow ?_
  rintro ⟨result, verdict⟩
  cases verdict with
  | settled changed =>
    refine ⟨_, .pure (a := (.ok changed, result)), fun memo memo' h => ?_⟩
    simp only [Prod.mk.injEq] at h
    simp only [Reducer.run, h]
  | failed e =>
    refine ⟨_, .pure (a := (.error e, result)), fun memo memo' h => ?_⟩
    simp only [Prod.mk.injEq] at h
    simp only [Reducer.run, h]
  | unfinished =>
    refine ⟨_, .pure (a := (.error (.reductionLimit w.name), result)), fun memo memo' h => ?_⟩
    simp only [Prod.mk.injEq] at h
    simp only [Reducer.run, h]

end

theorem inquires_castExpansion (env : Env) (r : Retyping) (emulateInt64 : Bool) (n : Node) :
    Inquires env ((castExpansion env.types r emulateInt64).reduct? n) := by
  have hreference (value : Node) (source target : Ty) :
      Inquires env (expandReference? env.types value source target) := by
    refine (Inquires.ask target source).follow fun isUpcast => ⟨fun memo =>
      (if !isUpcast then none
        else if env.types.same target source then some value
        else some (.changeType value target), memo), .pure, fun memo memo' h => ?_⟩
    simp only [expandReference?, h]
    split
    · rfl
    · split <;> rfl
  have hcast (value : Node) (target : Ty) (checked : Bool) :
      Inquires env (expandCast? env.types r emulateInt64 value target checked) := by
    unfold expandCast?
    simp only
    split
    · exact .pure
    · split
      · exact .pure
      · split
        · exact .pure
        · split
          · exact hreference ..
          · exact .pure
  simp only [castExpansion]
  split
  · exact (hcast _ _ _).map fun m? => (.ok m? : Except Error (Option Node))
  · exact .pure

/-! ### Passes and pipelines -/

variable {env : Env} {m : Lowered}

/-- A note goes to the log. -/
theorem workable_note {message : String} : Workable env Work.mk (note message) m fun _ _ => True :=
  ⟨.write .debug message (.done (.ok (), m)), fun _ _ => trivial, fun _ => rfl⟩

theorem workable_pass (p : Pass) : Workable env Work.mk (p.run env) m fun _ _ => True := by
  have hpart (hrun : ∀ s, (p.run env).run ⟨m, s⟩
      = ((p.step env ⟨m, .start⟩).1, Work.mk (p.step env ⟨m, .start⟩).2.method s)) :
      Workable env Work.mk (p.run env) m fun _ _ => True :=
    .of_part _ _ hrun fun _ _ => trivial
  cases p with
  | castExpansion =>
    obtain ⟨w, hrun⟩ := inquires_run
      (inquires_castExpansion env m.scope.retyping env.settings.emulateInt64)
      env.settings.maxReductionsPerNode m.body
    obtain ⟨v, hv⟩ := w.exists_next env
      (R := fun a s result => result = ((a.1, { m with body := a.2 }), s))
      fun a => ⟨.done (a.1, { m with body := a.2 }), fun _ => rfl⟩
    refine ⟨v, v.ends_of_forall fun _ _ _ => trivial, fun s => ?_⟩
    rw [hv s, hrun s]
    rfl
  | intrinsics | propertyUpdates | declarations => exact hpart fun _ => rfl

/-- The method can be read. -/
theorem workable_get {α : Type} {f : Work → Refine α} {post : Lowered → α → Prop}
    (hf : ∀ s s', f ⟨m, s⟩ = f ⟨m, s'⟩) (hx : Workable env Work.mk (f ⟨m, .start⟩) m post) :
    Workable env Work.mk (get >>= f) m post := by
  obtain ⟨w, hw, hrun⟩ := hx
  refine ⟨w, hw, fun s => ?_⟩
  rw [← hrun s, hf .start s]
  rfl

theorem workable_runOnce (passes : List Pass) :
    ∀ m, Workable env Work.mk (runOnce env passes) m fun _ _ => True := by
  induction passes with
  | nil => exact fun m => .pure trivial
  | cons p rest ih =>
    intro m
    have hend (changed : Bool) (m : Lowered) : Workable env Work.mk
        (do let others ← runOnce env rest; return changed || others) m fun _ _ => True :=
      (ih m).bind fun _ _ _ => .pure trivial
    unfold runOnce
    refine workable_get (fun _ _ => rfl) ?_
    simp only
    split
    · refine (workable_pass p).bind fun m changed _ => ?_
      split
      · exact workable_note.bind fun m _ _ => hend changed m
      · exact hend changed m
    · exact ih m

theorem workable_rounds (passes : List Pass) (left : Nat) : ∀ (done : Nat) (m : Lowered),
    Workable env Work.mk (Pipeline.rounds env passes left done) m fun _ _ => True := by
  induction left with
  | zero => exact fun _ m => .pure trivial
  | succ left ih =>
    intro done m
    unfold Pipeline.rounds
    refine (workable_runOnce passes m).bind fun m changed _ => ?_
    split
    · refine workable_get (fun _ _ => rfl) ?_
      refine workable_note.bind fun m _ _ => ?_
      exact (ih (done + 1) m).bind fun _ _ _ => .pure trivial
    · exact .pure trivial

/-- A pipeline is workable. -/
theorem workable_pipeline (env : Env) (pipeline : Pipeline) (m : Lowered) :
    Workable env Work.mk (pipeline.run env) m fun _ _ => True := by
  unfold Pipeline.run
  refine (workable_rounds _ _ _ m).bind fun m changed _ => ?_
  exact (workable_runOnce _ m).bind fun _ _ _ => .pure trivial

end ScriptLowering.Canonical

namespace ScriptLowering

open Lowering Canonical

theorem exists_worker_canonicalOrStub (env : Env) (pipeline : Pipeline) (body : Cil.MethodBody)
    (m : Lowered) :
    ∃ w : Worker Outcome, ∀ s, w.run env s = canonicalOrStub env pipeline body m s := by
  obtain ⟨w, -, hrun⟩ := workable_pipeline env pipeline m
  obtain ⟨v, hv⟩ := w.exists_orStub env (fun _ m => Outcome.lowered m)
    (.stubbed (stub env.settings body)) .pass
    ("Rewrite passes failed on " ++ body.method.fullName ++ ", replacing it with a stub: ")
    body.method.fullName
  refine ⟨v, fun s => ?_⟩
  simp only [canonicalOrStub, hrun s]
  cases h : (w.run env s).1.1 with
  | ok changed => exact (hv s).1 changed h
  | error e => exact (hv s).2 e h

theorem exists_worker_lowerMethod (env : Env) (pipeline : Pipeline) (body : Cil.MethodBody) :
    ∃ w : Worker Outcome, w.run env = lowerMethod env pipeline body := by
  obtain ⟨w, hrun⟩ := exists_worker_lowerOrStub env body
  obtain ⟨v, hv⟩ := w.exists_next env (R := fun outcome s result => ∀ start,
    lowerOrStub env body start = (outcome, s) → result = lowerMethod env pipeline body start) <| by
    intro outcome
    cases outcome with
    | lowered m =>
      obtain ⟨v, hv⟩ := exists_worker_canonicalOrStub env pipeline body m
      refine ⟨v, fun s start h => ?_⟩
      rw [hv s, lowerMethod, h]
    | stubbed m e =>
      refine ⟨.done (.stubbed m e), fun s start h => ?_⟩
      rw [lowerMethod, h, Worker.run]
  exact ⟨v, funext fun s => hv s s (hrun s).symm⟩

end ScriptLowering
