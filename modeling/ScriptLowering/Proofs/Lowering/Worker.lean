import ScriptLowering.Lowering.Worker
import ScriptLowering.Proofs.Lowering.Vocabulary

/-!
# Workers that do not notice each other

A worker does not take answers back, its own or others'. So runs that end in faithful sessions have
one result and one list of records (`Worker.run_eq`), and a worker that keeps sessions faithful comes
to them whatever other workers ask in the meantime: what is expected of a worker (`Worker.Expects`)
is kept by its own steps (`Worker.Expects.step`) and by those of others (`Worker.Expects.after`).
Workers that share a session have the results that they have alone, and what they record is what
they record alone, in some order (`Interleaved.expects`).
-/

namespace ScriptLowering.Lowering

variable {α : Type} {env : Env} {V : Vocabulary env} {s s' : Session}

namespace Worker

variable {w w' : Worker α}

/-- All answers stay while a worker runs. -/
theorem later (w : Worker α) (s : Session) : s.Extends (w.run env s).2.toMemory := by
  induction w generalizing s with
  | done => exact .refl _
  | ask q rest ih => exact (Memory.ask_later _ q).trans (ih _ (s.ask env q).2)
  | record d rest ih => exact ih (s.record d)
  | write level message rest ih => exact ih (s.write level message)

theorem memory_run (w : Worker α) (h : s.toMemory = s'.toMemory) :
    (w.run env s).2.toMemory = (w.run env s').2.toMemory := by
  induction w generalizing s s' with
  | done => exact h
  | ask q rest ih =>
    have hask : (s.ask env q).1 = (s'.ask env q).1
        ∧ (s.ask env q).2.toMemory = (s'.ask env q).2.toMemory := by
      simp only [Session.ask, h, and_self]
    rw [run, run, hask.1]
    exact ih _ hask.2
  | record d rest ih => exact ih (show (s.record d).toMemory = (s'.record d).toMemory from h)
  | write level message rest ih =>
    exact ih (show (s.write level message).toMemory = (s'.write level message).toMemory from h)

theorem run_eq (w : Worker α) (h : (w.run env s).2.Faithful V)
    (h' : (w.run env s').2.Faithful V) :
    (w.run env s).1 = (w.run env s').1
      ∧ ∃ records, (w.run env s).2.diagnostics.entries = s.diagnostics.entries ++ records
        ∧ (w.run env s').2.diagnostics.entries = s'.diagnostics.entries ++ records := by
  induction w generalizing s s' with
  | done => exact ⟨rfl, [], (List.append_nil _).symm, (List.append_nil _).symm⟩
  | ask q rest ih =>
    -- The answer is still there at the end of the run, and all is faithful there.
    have hasked : ∀ {s : Session}, ((ask q rest).run env s).2.Faithful V →
        (s.ask env q).2.Faithful V := fun h => h.of_extends (later (rest _) _)
    have hanswer : (s.ask env q).1 = (s'.ask env q).1 := (hasked h).ask_eq (hasked h')
    rw [run, hanswer] at h
    rw [run, run, hanswer]
    exact ih _ h h'
  | record d rest ih =>
    obtain ⟨hresult, records, hentries, hentries'⟩ := ih h h'
    refine ⟨hresult, d :: records, hentries.trans ?_, hentries'.trans ?_⟩ <;>
      exact List.append_assoc ..
  | write level message rest ih => exact ih h h'

/-- In a session, the result that a worker comes to and the diagnostics that it is going to record,
if it keeps all later sessions faithful. -/
structure Expects (V : Vocabulary env) (s : Session) (w : Worker α) (e : α × List Diagnostic) :
    Prop where
  faithful : ∀ s' : Session, s'.Faithful V → s.Extends s'.toMemory → (w.run env s').2.Faithful V
  result : (w.run env s).1 = e.1
  records : (w.run env s).2.diagnostics.entries = s.diagnostics.entries ++ e.2

namespace Expects

variable {e : α × List Diagnostic}

theorem after (h : w.Expects V s e) (hs : s.Faithful V) (hs' : s'.Faithful V)
    (hlater : s.Extends s'.toMemory) : w.Expects V s' e := by
  obtain ⟨hresult, records, hentries, hentries'⟩ :=
    w.run_eq (h.faithful s hs (.refl _)) (h.faithful s' hs' hlater)
  refine ⟨fun s₁ hs₁ hs₁later => h.faithful s₁ hs₁ (hlater.trans hs₁later),
    hresult.symm.trans h.result, ?_⟩
  obtain rfl : e.2 = records := List.append_cancel_left (h.records.symm.trans hentries)
  exact hentries'

theorem told (tell : Session → Session) (first : List Diagnostic) {rest : Worker α}
    (htell : ∀ s : Session, (tell s).toMemory = s.toMemory)
    (hentries : (tell s).diagnostics.entries = s.diagnostics.entries ++ first)
    (hrun : ∀ s, w.run env s = rest.run env (tell s)) (h : w.Expects V s e) (hs : s.Faithful V) :
    ∃ others, e.2 = first ++ others ∧ rest.Expects V (tell s) (e.1, others) := by
  have hend := h.faithful s hs (.refl _)
  have hresult := h.result
  have hrecords := h.records
  rw [hrun] at hend hresult hrecords
  obtain ⟨-, others, hothers, -⟩ := rest.run_eq hend hend
  refine ⟨others, ?_, fun s₁ hs₁ hs₁later => ?_, hresult, hothers⟩
  · rw [hothers, hentries, List.append_assoc] at hrecords
    exact (List.append_cancel_left hrecords).symm
  · have hend₁ := h.faithful s₁ hs₁ (htell s ▸ hs₁later)
    rw [hrun] at hend₁
    exact rest.memory_run (htell s₁) ▸ hend₁

theorem step (h : w.Expects V s e) (hs : s.Faithful V) (hstep : w.step? env s = some (w', s')) :
    s'.Faithful V ∧ s.Extends s'.toMemory ∧ ∃ first others, e.2 = first ++ others
      ∧ s'.diagnostics.entries = s.diagnostics.entries ++ first
      ∧ w'.Expects V s' (e.1, others) := by
  cases w with
  | done => cases hstep
  | ask q rest =>
    cases hstep
    have hend := h.faithful s hs (.refl _)
    refine ⟨hend.of_extends (later (rest _) _), Memory.ask_later _ q, [], e.2, rfl,
      (List.append_nil _).symm, fun s₁ hs₁ hs₁later => ?_, h.result, h.records⟩
    have hagain : s₁.ask env q = ((s.ask env q).1, s₁) := by
      simp only [Session.ask, Memory.ask_again hs₁later]
    have hend₁ := h.faithful s₁ hs₁ ((Memory.ask_later _ q).trans hs₁later)
    rw [run, hagain] at hend₁
    exact hend₁
  | record d rest =>
    cases hstep
    obtain ⟨others, hothers, hrest⟩ :=
      h.told (·.record d) [d] (fun _ => rfl) rfl (fun _ => rfl) hs
    exact ⟨hs, .refl _, [d], others, hothers, rfl, hrest⟩
  | write level message rest =>
    cases hstep
    obtain ⟨others, hothers, hrest⟩ := h.told (·.write level message) []
      (fun _ => rfl) (List.append_nil _).symm (fun _ => rfl) hs
    exact ⟨hs, .refl _, [], others, hothers, (List.append_nil _).symm, hrest⟩

end Expects

end Worker

/-! ### Turns -/

variable {workers workers' : List (Worker α)}

theorem Turn.expects (h : Turn env workers s workers' s') (hs : s.Faithful V)
    {ends : List (α × List Diagnostic)}
    (hends : List.Forall₂ (·.Expects V s) workers ends) :
    s'.Faithful V ∧ s.Extends s'.toMemory ∧ ∃ first ends',
      s'.diagnostics.entries = s.diagnostics.entries ++ first
        ∧ ends'.map Prod.fst = ends.map Prod.fst
        ∧ (ends.flatMap Prod.snd).Perm (first ++ ends'.flatMap Prod.snd)
        ∧ List.Forall₂ (·.Expects V s') workers' ends' := by
  induction h generalizing ends with
  | here hstep =>
    cases hends with
    | @cons _ e _ others he hothers =>
      obtain ⟨hs', hlater, first, rest, hrecords, hentries, hw'⟩ := he.step hs hstep
      refine ⟨hs', hlater, first, (e.1, rest) :: others, hentries, rfl, ?_, .cons hw' ?_⟩
      · rw [List.flatMap_cons, List.flatMap_cons, hrecords, List.append_assoc]
      · exact hothers.imp fun _ _ hother => hother.after hs hs' hlater
  | there _ ih =>
    cases hends with
    | @cons _ e _ others he hothers =>
      obtain ⟨hs', hlater, first, ends', hentries, hresults, hperm, hends'⟩ := ih hs hothers
      refine ⟨hs', hlater, first, e :: ends', hentries, ?_, ?_, .cons (he.after hs hs' hlater) hends'⟩
      · rw [List.map_cons, List.map_cons, hresults]
      · rw [List.flatMap_cons, List.flatMap_cons]
        exact (hperm.append_left e.2).trans (List.perm_append_comm_assoc ..)

theorem Interleaved.expects {results : List α} (h : Interleaved env workers s results s')
    (hs : s.Faithful V) {ends : List (α × List Diagnostic)}
    (hends : List.Forall₂ (·.Expects V s) workers ends) :
    results = ends.map Prod.fst
      ∧ s'.diagnostics.entries.Perm (s.diagnostics.entries ++ ends.flatMap Prod.snd) := by
  induction h generalizing ends with
  | done results =>
    rw [List.forall₂_map_left_iff] at hends
    induction hends with
    | nil => exact ⟨rfl, by simp⟩
    | cons he _ ih =>
      -- A worker that is done has its result, and records nothing.
      have hnothing := List.self_eq_append_right.mp he.records
      rw [List.map_cons, List.flatMap_cons, hnothing, List.nil_append, ih.1]
      exact ⟨congrArg (· :: _) he.result, ih.2⟩
  | turn hturn _ ih =>
    obtain ⟨hs', -, first, ends', hentries, hresults, hperm, hends'⟩ := hturn.expects hs hends
    obtain ⟨hrest, hrecorded⟩ := ih hs' hends'
    refine ⟨hrest.trans hresults, hrecorded.trans ?_⟩
    rw [hentries, List.append_assoc]
    exact hperm.symm.append_left _

theorem Interleaved.first {results : List α} (w : Worker α)
    (h : Interleaved env (.done (w.run env s).1 :: workers) (w.run env s).2 results s') :
    Interleaved env (w :: workers) s results s' := by
  induction w generalizing s with
  | done => exact h
  | ask q rest ih => exact .turn (.here rfl) (ih _ h)
  | record d rest ih => exact .turn (.here rfl) (ih h)
  | write level message rest ih => exact .turn (.here rfl) (ih h)

theorem Interleaved.beside {results : List α} {result : α}
    (h : Interleaved env workers s results s') :
    Interleaved env (.done result :: workers) s (result :: results) s' := by
  induction h with
  | done => exact .done (result :: _)
  | turn hturn _ ih => exact .turn (.there hturn) ih

end ScriptLowering.Lowering
