/-!
# Where computations with state and failure lead

`Leads x s done failed` says where a computation leads from a state: if it answers, answer and state
afterwards satisfy `done`; if it fails, the state it leaves satisfies `failed`. The rules take a
computation apart step by step, so that a proof about a computation follows its text.
-/

namespace ScriptLowering

variable {ε σ α β : Type}

/-- Where a computation leads from a state, when it answers and when it fails. -/
def Leads (x : ExceptT ε (StateM σ) α) (s : σ) (done : α → σ → Prop) (failed : σ → Prop) : Prop :=
  match (x.run s : Except ε α × σ) with
  | (.ok a, s') => done a s'
  | (.error _, s') => failed s'

instance {x : ExceptT ε (StateM σ) α} {s : σ} {done : α → σ → Prop} {failed : σ → Prop}
    [∀ a s', Decidable (done a s')] [∀ s', Decidable (failed s')] :
    Decidable (Leads x s done failed) :=
  match hx : (x.run s : Except ε α × σ) with
  | (.ok a, s') => decidable_of_iff (done a s') (by rw [Leads, hx])
  | (.error _, s') => decidable_of_iff (failed s') (by rw [Leads, hx])

theorem run_bind_eq (x : ExceptT ε (StateM σ) α) (f : α → ExceptT ε (StateM σ) β) (s : σ) :
    ((x >>= f).run s : Except ε β × σ)
      = match (x.run s : Except ε α × σ) with
        | (.ok a, s') => (f a).run s'
        | (.error e, s') => (.error e, s') := by
  change StateT.bind x.run (ExceptT.bindCont f) s = _
  unfold StateT.bind
  rcases (x.run s : Except ε α × σ) with ⟨_ | _, s'⟩ <;> rfl

theorem exists_run_of_bind {x : ExceptT ε (StateM σ) α} {f : α → ExceptT ε (StateM σ) β} {s s' : σ}
    {b : β}
    (h : ((x >>= f).run s : Except ε β × σ) = (.ok b, s')) :
    ∃ a s₁, (x.run s : Except ε α × σ) = (.ok a, s₁)
      ∧ ((f a).run s₁ : Except ε β × σ) = (.ok b, s') := by
  rw [run_bind_eq] at h
  rcases hx : (x.run s : Except ε α × σ) with ⟨e | a, s₁⟩ <;> rw [hx] at h
  · cases h
  · exact ⟨a, s₁, rfl, h⟩

theorem run_bind_of_run {x : ExceptT ε (StateM σ) α} {f : α → ExceptT ε (StateM σ) β} {s s₁ : σ}
    {a : α}
    (h : (x.run s : Except ε α × σ) = (.ok a, s₁)) :
    ((x >>= f).run s : Except ε β × σ) = (f a).run s₁ := by
  rw [run_bind_eq, h]

namespace Leads

variable {s : σ} {done : α → σ → Prop} {failed : σ → Prop}

/-- An answer known at once. -/
theorem pure {a : α} (h : done a s) :
    Leads (Pure.pure a : ExceptT ε (StateM σ) α) s done failed :=
  h

/-- A failure. -/
theorem throw {e : ε} (h : failed s) :
    Leads (MonadExcept.throw e : ExceptT ε (StateM σ) α) s done failed :=
  h

variable {x : ExceptT ε (StateM σ) α}

theorem bind {f : α → ExceptT ε (StateM σ) β} {done : β → σ → Prop}
    (h : Leads x s (fun a s' => Leads (f a) s' done failed) failed) :
    Leads (x >>= f) s done failed := by
  unfold Leads at h ⊢
  rw [run_bind_eq]
  rcases hx : (x.run s : Except ε α × σ) with ⟨e | a, s'⟩
  · simpa [hx] using h
  · simpa [hx] using h

theorem mono {done' : α → σ → Prop} {failed' : σ → Prop} (h : Leads x s done failed)
    (hdone : ∀ a s', done a s' → done' a s') (hfailed : ∀ s', failed s' → failed' s') :
    Leads x s done' failed' := by
  unfold Leads at h ⊢
  split at h
  · exact hdone _ _ h
  · exact hfailed _ h

/-- An answer is that of a run. -/
theorem running :
    Leads x s (fun a s' => (x.run s : Except ε α × σ) = (.ok a, s')) fun _ => True := by
  unfold Leads
  split
  · assumption
  · trivial

theorem after {f : α → ExceptT ε (StateM σ) β} {done : β → σ → Prop}
    (h : ∀ a s', Leads (f a) s' done fun _ => True) : Leads (x >>= f) s done fun _ => True :=
  bind (running.mono (fun a s' _ => h a s') fun _ h => h)

theorem of_run (h : Leads x s done failed) {r : Except ε α} {s' : σ}
    (hrun : (x.run s : Except ε α × σ) = (r, s')) :
    (∃ a, r = .ok a ∧ done a s') ∨ ((∃ e, r = .error e) ∧ failed s') := by
  unfold Leads at h
  rw [hrun] at h
  cases r with
  | ok a => exact .inl ⟨a, rfl, h⟩
  | error e => exact .inr ⟨⟨e, rfl⟩, h⟩

/-- Where a computation leads that answers. -/
theorem done_of_run (h : Leads x s done failed) {a : α} {s' : σ}
    (hrun : (x.run s : Except ε α × σ) = (.ok a, s')) : done a s' := by
  unfold Leads at h
  rw [hrun] at h
  exact h

end Leads

end ScriptLowering
