import ScriptLowering.Proofs.Cil.Height
import ScriptLowering.Proofs.Lowering.Convention

/-!
# Computations that abide by the rules of lowering

`Abides` is a statement about a computation from a state: the state proceeds, also when the
computation fails; the answer satisfies a condition in the state afterwards; and if the depth that
is left is enough for what remains to be lowered (`Reach.Fits`), a failure is not one of depth.
-/

namespace ScriptLowering.Lowering

open Script

/-- How deep a computation goes: the levels that are provided for, and the height of what is
lowered. -/
structure Reach where
  levels : Nat
  height : Nat

/-- In a context there is depth left for the height, but not for all of the levels. -/
structure Reach.Fits (r : Reach) (c : Context) : Prop where
  height : c.depth + r.height ≤ c.maxDepth
  levels : c.maxDepth < c.depth + r.levels

/-- Lowering leaves the depth as it was. -/
theorem State.Proceeds.fits {m : Method} {s s' : State} (h : s.Proceeds m s') {r : Reach}
    (hr : r.Fits s.context) : r.Fits s'.context := by
  rw [h.advances.frame]
  exact ⟨hr.height, hr.levels⟩

/-- The course of a job: states proceed, and where there is depth enough, a failure is not one of
depth. -/
def Job.course (j : Job) (r : Reach) : Course where
  Fits := j.Fits
  Later := State.Proceeds j.method
  Fails s e := r.Fits s.context → e.exceedsDepth = false
  refl := .refl
  trans := .trans
  fails_of_later h he hr := he (h.fits hr)

/-- What a computation in a state does: it proceeds, its answer satisfies a condition, and it does
not fail for its depth. -/
abbrev Abides {α : Type} (j : Job) (r : Reach) (x : Lower α) (s : State)
    (post : State → α → Prop) : Prop :=
  (j.course r).Keeps x s post

namespace Abides

variable {α : Type} {j : Job} {r : Reach} {s : State} {post : State → α → Prop}

/-- A computation that answers at once. -/
theorem step {x : Lower α} {a : α} {s' : State}
    (hrun : x.run s = (.ok a, s'))
    (h : j.Fits s → s.Proceeds j.method s' ∧ post s' a) : Abides j r x s post := by
  intro hs
  obtain ⟨hproceeds, ha⟩ := h hs
  rw [hrun]
  exact ⟨⟨hs.later hproceeds, hproceeds⟩, ha⟩

/-- A change of the variables. -/
theorem modifyTable {f : Table → Table}
    (hgrows : s.context.scope.Grows (f s.context.table).toScope)
    (hrepacks : s.context.scope.Repacks (f s.context.table).toScope)
    (htyped : s.context.scope.Typed → (f s.context.table).Typed) :
    Abides j r (Lower.modifyTable f) s (fun s' _ => s'.context.table = f s.context.table) :=
  step rfl fun _ => ⟨⟨⟨rfl, hgrows, Nat.le_refl _⟩, hrepacks, htyped, [], by simp⟩, rfl⟩

/-! ### Changed contexts -/

theorem within {x : Lower α} {enter restore : Context → Context} {inner : Reach}
    (hscope : (enter s.context).scope = s.context.scope)
    (hloops : (enter s.context).nextLoop = s.context.nextLoop)
    (hrestore : ∀ table nextLoop,
      restore { enter s.context with table, nextLoop } = { s.context with table, nextLoop })
    (hreach : r.Fits s.context → inner.Fits (enter s.context))
    (hpost : ∀ s₁ s₂ a, s₂.context.scope = s₁.context.scope → s₂.session = s₁.session →
      post s₁ a → post s₂ a)
    (hx : Abides j inner x { s with context := enter s.context } post) :
    Abides j r (Lower.modifyContext enter >>= fun _ => Lower.thenRestore x restore) s post := by
  have henter : j.Fits s → j.Fits { s with context := enter s.context } :=
    fun hs => ⟨hscope.symm ▸ hs.typed, hs.recorded⟩
  refine Course.Keeps.within hx henter (fun s' h hs => ?_) (fun s' a h ha => ?_)
    fun e he hr => he (hreach hr)
  · -- Restoring leaves the variables, the next loop and the records that the computation reached.
    obtain ⟨hadvances, hsame⟩ := h.advances.restored hscope hloops hrestore
    refine ⟨⟨hsame.symm ▸ hs.typed, hs.recorded⟩, hadvances, ?_, ?_, h.records⟩
    · exact hsame.symm ▸ hscope ▸ h.repacks
    · exact hsame.symm ▸ hscope ▸ h.typed
  · exact hpost s' _ a (h.advances.restored hscope hloops hrestore).2 rfl ha

theorem withTarget {x : Lower α} {target : JumpTarget}
    (hpost : ∀ s₁ s₂ a, s₂.context.scope = s₁.context.scope → s₂.session = s₁.session →
      post s₁ a → post s₂ a)
    (hx : Abides j r x { s with context := s.context.pushTarget target } post) :
    Abides j r (Lower.withTarget target x) s post :=
  within rfl rfl (fun _ _ => rfl) (fun hr => ⟨hr.height, hr.levels⟩) hpost hx

theorem withAutoCast {x : Lower Node} {enabled : Bool} (hx : ∀ s, Abides j r x s (Proper j)) :
    Abides j r (Lower.withAutoCast enabled x) s (Proper j) :=
  within rfl rfl (fun _ _ => rfl) (fun hr => ⟨hr.height, hr.levels⟩)
    (fun _ _ _ hscope hsession hn => hn.of_eq hscope hsession) (hx _)

/-- One level down there is one level less. -/
theorem oneLevelDown {x : Lower Node} {levels height : Nat}
    (hx : ∀ s, Abides j ⟨levels, height⟩ x s (Proper j)) :
    Abides j ⟨levels + 1, height + 1⟩ (Lower.oneLevelDown x) s (Proper j) := by
  refine .reading s.context rfl ?_
  unfold Context.enter
  split
  · next hdeep =>
    refine .throw fun hr => ?_
    -- There would be no depth left, but the height needs it.
    have hheight : s.context.depth + (height + 1) ≤ s.context.maxDepth := hr.height
    omega
  · refine .reading _ rfl ?_
    refine within rfl rfl (fun _ _ => rfl) (fun hr => ⟨?_, ?_⟩)
      (fun _ _ _ hscope hsession hn => hn.of_eq hscope hsession) (hx _)
    · have hheight : s.context.depth + (height + 1) ≤ s.context.maxDepth := hr.height
      change s.context.depth + 1 + height ≤ s.context.maxDepth
      omega
    · have hlevels : s.context.maxDepth < s.context.depth + (levels + 1) := hr.levels
      change s.context.maxDepth < s.context.depth + 1 + levels
      omega

/-! ### Variables -/

theorem declaring {type : Ty} {f : Variable → α} :
    Abides j r
      (do
        let (v, table) := (← Lower.context).table.newTemporary type
        Lower.modifyTable fun _ => table
        return f v) s
      (fun s' a => ∃ v ∈ s'.context.scope.allVariables, a = f v) :=
  Course.Keeps.declaring (modifyTable (Table.newTemporary_spec _ _).2
    (Scope.repacks_addTemporary _ _ _) fun h => h.addTemporary _ type)

theorem newTemporary {type : Ty} :
    Abides j r (Lower.newTemporary type) s
      (fun s' n => ∃ v ∈ s'.context.scope.allVariables, n = .ofVariable v) :=
  declaring

theorem resolve {g : Lowerer} {v : Cil.Variable} :
    Abides j r (g.resolve v) s (fun s' v => v ∈ s'.context.scope.allVariables) := by
  refine .fitting fun hs => Course.Keeps.resolve (fun h => ?_) fun h _ => ?_
  · have htyped := hs.typed.declare h
    exact modifyTable (Table.declare_spec h).2 htyped.2 fun _ => htyped.1
  · unfold Table.resolve Table.declare at h
    split at h
    · simp only at h
      split at h <;> cases h
      rfl
    · cases h

/-! ### Warnings -/

/-- A warning about the method is recorded. -/
theorem warn {g : Lowerer} (hmethod : g.method = j.method) {e : Cil.Expr} {concern : Concern}
    {message : String} :
    Abides j r (g.warn e concern message) s (fun s' _ => j.Warned s') := by
  have hwarns : Diagnostic.Warns
      ⟨.warning, concern, message, some g.method.fullName, e.offset?⟩ j.method :=
    ⟨rfl, by rw [hmethod]⟩
  refine step rfl fun hs => ⟨⟨⟨rfl, .refl _, Nat.le_refl _⟩, .refl _, id, [_], rfl,
    by simpa using hwarns⟩, _, ?_, hwarns⟩
  change _ ∈ (s.session.diagnostics.entries ++ [_]).drop j.recorded
  rw [List.drop_append_of_le_length hs.recorded]
  exact List.mem_append_right _ (List.mem_singleton.mpr rfl)

end Abides

end ScriptLowering.Lowering
