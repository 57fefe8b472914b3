import ScriptLowering.Proofs.Canonical.Settling

/-!
# Replacement and the reference wrapper rule

Replacing operands of a node checks the node against the rule that no reference wrapper wraps
itself. A reduction only checks each replacement by itself, not the node above the place that it
takes. So a tree whose reduction settles has its slots filled everywhere, but a reference wrapper
may wrap the same wrapper, if the reducer puts that wrapper for something else
(`Reducer.Introduces`). This is the only way in which a node stops being valid
(`replacement_validates`), and it does happen (`reduction_nests_references`).
-/

namespace ScriptLowering

open Script

namespace Script

/-- A reference wrapper around the same wrapper. -/
def Node.SelfWraps (n : Node) (wrapper : Form.ReferenceWrapper) : Prop :=
  n.form.referenceWrapper? = some wrapper
    ∧ ∃ o, n.operands.head? = some o ∧ o.form.referenceWrapper? = some wrapper

theorem Form.checkWrapper_eq_ok_iff {form : Form} {first? : Option Node} :
    form.checkWrapper first? = .ok () ↔
      ∀ wrapper o, form.referenceWrapper? = some wrapper → first? = some o →
        o.form.referenceWrapper? ≠ some wrapper := by
  unfold Form.checkWrapper
  cases form.referenceWrapper? with
  | none => simp
  | some wrapper =>
    cases first? with
    | none => simp
    | some o => by_cases hsame : o.form.referenceWrapper? = some wrapper <;> simp [hsame]

theorem Node.validate_eq_ok_iff {n : Node} :
    n.validate = .ok () ↔
      n.form.checkCount n.operands.length = .ok () ∧ ∀ wrapper, ¬n.SelfWraps wrapper := by
  have hwrapper : n.form.checkWrapper n.operands.head? = .ok () ↔
      ∀ wrapper, ¬n.SelfWraps wrapper := by
    rw [Form.checkWrapper_eq_ok_iff]
    unfold Node.SelfWraps
    grind
  unfold Node.validate
  rw [← hwrapper]
  cases n.form.checkCount n.operands.length <;> simp [bind, Except.bind]

theorem Node.validate_of_replaceChild {n n' old new : Node} {count : Nat}
    (hn : n.validate = .ok ()) (h : n.replaceChild old new = .ok (count, n')) :
    n'.validate = .ok () := by
  obtain ⟨hcount, hwraps⟩ := Node.validate_eq_ok_iff.mp hn
  obtain ⟨form, operands⟩ := n
  unfold Node.replaceChild at h
  cases operands with
  | nil =>
    cases h
    exact Node.validate_eq_ok_iff.mpr ⟨hcount, hwraps⟩
  | cons first rest =>
    -- Only the first operand of a wrapper matters, and it is checked where it is replaced.
    have hchecked : form.checkWrapper (some (if first == old then new else first)) = .ok ()
        ∧ n' = ⟨form, (first :: rest).map fun child => if child == old then new else child⟩ := by
      by_cases hfirst : first == old
      · simp only [List.head?_cons, Option.any_some, hfirst, if_true] at h ⊢
        cases hcheck : form.checkWrapper (some new) with
        | error e => rw [hcheck] at h; cases h
        | ok _ => rw [hcheck] at h; cases h; exact ⟨rfl, by simp⟩
      · simp only [List.head?_cons, Option.any_some, hfirst, if_false, Bool.false_eq_true] at h ⊢
        cases h
        refine ⟨Form.checkWrapper_eq_ok_iff.mpr fun wrapper o hform ho hsame => ?_, by simp⟩
        exact hwraps wrapper ⟨hform, o, ho, hsame⟩
    obtain ⟨hfirst, rfl⟩ := hchecked
    refine Node.validate_eq_ok_iff.mpr ⟨by simpa using hcount, ?_⟩
    rintro wrapper ⟨hform, o, ho, hsame⟩
    exact Form.checkWrapper_eq_ok_iff.mp hfirst wrapper o hform (by simpa using ho) hsame

/-- A tree in which every node validates. -/
def Node.Validates (n : Node) : Prop :=
  ∀ m ∈ n.selfAndDescendants, m.validate = .ok ()

end Script

namespace Canonical

variable {σ : Type}

namespace Reducer

/-- A reducer that replaces by valid nodes only. -/
def ReplacesValidly (w : Reducer σ) : Prop :=
  ∀ {n m : Node} {s s' : σ}, w.reduct? n s = (.ok (some m), s') → m.Validates

/-- A reducer that puts a reference wrapper for something that is not this wrapper. -/
def Introduces (w : Reducer σ) (wrapper : Form.ReferenceWrapper) : Prop :=
  ∃ n m s s', w.reduct? n s = (.ok (some m), s')
    ∧ n.form.referenceWrapper? ≠ some wrapper ∧ m.form.referenceWrapper? = some wrapper

/-- A node that has its operands, and wraps itself only where the reducer introduces the
wrapper. -/
structure NearlyValid (w : Reducer σ) (n : Node) : Prop where
  slots : n.form.checkCount n.operands.length = .ok ()
  wraps : ∀ wrapper, n.SelfWraps wrapper → w.Introduces wrapper

variable {w : Reducer σ}

theorem nearlyValid_of_validates {n : Node} (h : n.Validates) :
    ∀ m ∈ n.selfAndDescendants, w.NearlyValid m := by
  intro m hm
  obtain ⟨hslots, hwraps⟩ := Node.validate_eq_ok_iff.mp (h m hm)
  exact ⟨hslots, fun wrapper hself => absurd hself (hwraps wrapper)⟩

/-- A reference wrapper that was there before, or that the reducer introduces. -/
def WrapsAsBefore (w : Reducer σ) (n m : Node) : Prop :=
  ∀ wrapper, m.form.referenceWrapper? = some wrapper →
    n.form.referenceWrapper? = some wrapper ∨ w.Introduces wrapper

theorem NearlyValid.replace {form : Form} {operands operands' : List Node}
    (hn : w.NearlyValid ⟨form, operands⟩)
    (hoperands : List.Forall₂ w.WrapsAsBefore operands operands') :
    w.NearlyValid ⟨form, operands'⟩ where
  slots := by
    have hlength : operands'.length = operands.length := hoperands.length_eq.symm
    rw [hlength]
    exact hn.slots
  wraps := by
    rintro wrapper ⟨hform, o', ho', hsame⟩
    cases hoperands with
    | nil => cases ho'
    | cons hfirst _ =>
      obtain rfl := Option.some.inj ho'
      -- The operand was this wrapper before, under the same form, or it was introduced.
      rcases hfirst wrapper hsame with hbefore | hintroduced
      · exact hn.wraps wrapper ⟨hform, _, rfl, hbefore⟩
      · exact hintroduced

theorem ReplacesValidly.law (hw : w.ReplacesValidly) :
    w.Law (fun n => ∀ m ∈ n.selfAndDescendants, w.NearlyValid m) w.WrapsAsBefore
      fun _ => True where
  refl _ _ := .inl
  trans hnm hmk wrapper hk := by
    rcases hmk wrapper hk with hm | hintroduced
    · exact hnm wrapper hm
    · exact .inr hintroduced
  step := by
    intro n m s s' _ hstep
    refine ⟨nearlyValid_of_validates (hw hstep), fun wrapper hm => ?_⟩
    by_cases hn : n.form.referenceWrapper? = some wrapper
    · exact .inl hn
    · exact .inr ⟨n, m, s, s', hstep, hn, hm⟩
  operand hnode o ho m hm := by
    refine hnode m ?_
    rw [Node.selfAndDescendants_mk]
    exact List.mem_cons_of_mem _ (List.mem_flatMap.mpr ⟨o, ho, hm⟩)
  congr := by
    intro form operands operands' hnode hoperands
    refine ⟨?_, fun wrapper => .inl⟩
    have hroot : w.NearlyValid ⟨form, operands⟩ :=
      hnode _ (by rw [Node.selfAndDescendants_mk]; exact List.mem_cons_self)
    rw [Node.selfAndDescendants_mk]
    refine List.forall_mem_cons.mpr ⟨hroot.replace (hoperands.imp fun _ _ ho => ho.related), ?_⟩
    intro m hm
    obtain ⟨o', ho', hm⟩ := List.mem_flatMap.mp hm
    exact forall_mem_right (fun _ _ ho => ho.invariant) hoperands o' ho' m hm
  finish _ _ _ := trivial

/-- A substitution replaces by its entries. -/
theorem mem_of_substitution {entries : List (Node × Node)} {n m : Node} {s s' : Unit}
    (h : (substitution entries).reduct? n s = (.ok (some m), s')) : ∃ e ∈ entries, e.2 = m := by
  have hfound : (entries.find? (·.1 == n)).map (·.2) = some m := Except.ok.inj (Prod.mk.inj h).1
  obtain ⟨e, he, rfl⟩ := Option.map_eq_some_iff.mp hfound
  exact ⟨e, List.mem_of_find?_eq_some he, rfl⟩

theorem replacesValidly_substitution {entries : List (Node × Node)}
    (h : ∀ e ∈ entries, e.2.Validates) : (substitution entries).ReplacesValidly := by
  intro n m s s' hstep
  obtain ⟨e, he, rfl⟩ := mem_of_substitution hstep
  exact h e he

end Reducer

/-- Replacing operands of a valid node is refused or leaves it valid. A reduction by valid nodes
that settles leaves every node with its slots filled, and the only nodes that are not valid wrap a
reference wrapper that the reducer has put there for something else; where it introduces no
wrapper, all nodes are valid. -/
theorem replacement_validates (n : Node) :
    (∀ old new : Node, n.validate = .ok () →
      (∃ e, n.replaceChild old new = .error e)
        ∨ ∃ count n', n.replaceChild old new = .ok (count, n') ∧ n'.validate = .ok ())
    ∧ ∀ {σ : Type} (w : Reducer σ), w.ReplacesValidly →
        ∀ (limit budget : Nat) (s : σ) (changed : Bool), n.Validates →
          (w.reduceTree limit budget n s).verdict = .settled changed →
          (∀ m ∈ (w.reduceTree limit budget n s).result.selfAndDescendants,
            m.form.checkCount m.operands.length = .ok ()
              ∧ (m.validate = .ok () ↔ ∀ wrapper, w.Introduces wrapper → ¬m.SelfWraps wrapper))
          ∧ ((∀ wrapper, ¬w.Introduces wrapper) →
            (w.reduceTree limit budget n s).result.Validates) := by
  constructor
  · intro old new hn
    rcases hreplace : n.replaceChild old new with e | ⟨count, n'⟩
    · exact .inl ⟨e, rfl⟩
    · exact .inr ⟨count, n', rfl, Node.validate_of_replaceChild hn hreplace⟩
  · intro σ w hw limit budget s changed hn hsettled
    have hnear := (hw.law.reduceTree limit budget (Reducer.nearlyValid_of_validates hn)
      hsettled).becomes.invariant
    -- A nearly valid node fails to validate only by wrapping a wrapper that was introduced.
    have hvalid : ∀ m ∈ (w.reduceTree limit budget n s).result.selfAndDescendants,
        (m.validate = .ok () ↔ ∀ wrapper, w.Introduces wrapper → ¬m.SelfWraps wrapper) := by
      intro m hm
      rw [Node.validate_eq_ok_iff]
      constructor
      · exact fun h wrapper _ => h.2 wrapper
      · exact fun h => ⟨(hnear m hm).slots, fun wrapper hself =>
          h wrapper ((hnear m hm).wraps wrapper hself) hself⟩
    refine ⟨fun m hm => ⟨(hnear m hm).slots, hvalid m hm⟩, fun hnone m hm => ?_⟩
    exact (hvalid m hm).mpr fun wrapper hintroduced => absurd hintroduced (hnone wrapper)

/-- A local variable that holds an integer. -/
def integerLocal (name : String) (id : Nat) : Node :=
  .ofVariable { id, name, kind := .localVariable, declaredType := Core.standard.int32 }

theorem integerLocal_validates (name : String) (id : Nat) :
    (integerLocal name id).Validates := by
  intro m hm
  rw [integerLocal, Node.ofVariable, Node.selfAndDescendants_mk] at hm
  obtain rfl : m = _ := List.mem_singleton.mp hm
  rfl

/-- A reference to a local variable. -/
def integerReference (name : String) (id : Nat) : Node :=
  ⟨.takeReference, [integerLocal name id]⟩

theorem integerReference_validates (name : String) (id : Nat) :
    (integerReference name id).Validates := by
  intro m hm
  rw [integerReference, Node.selfAndDescendants_mk] at hm
  rcases List.mem_cons.mp hm with rfl | hm
  · rfl
  · rw [List.flatMap_singleton] at hm
    exact integerLocal_validates name id m hm

/-- A variable under a reference is not replaced by a reference, but a reduction may put another
variable for it, and leaves all nodes valid. -/
theorem reference_to_other_validates :
    (∃ e, (integerReference "x" 0).replaceChild (integerLocal "x" 0) (integerReference "y" 1)
      = .error e)
    ∧ ((substitution [(integerLocal "x" 0, integerLocal "y" 1)]).reduceTree 10 10
      (integerReference "x" 0) ()).result.Validates := by
  constructor
  · rcases (replacement_validates (integerReference "x" 0)).1 (integerLocal "x" 0)
      (integerReference "y" 1) rfl with herror | ⟨count, n', hok, -⟩
    · exact herror
    · cases hok
  · have hvalid : (substitution [(integerLocal "x" 0, integerLocal "y" 1)]).ReplacesValidly :=
      Reducer.replacesValidly_substitution (by simpa using integerLocal_validates "y" 1)
    refine ((replacement_validates (integerReference "x" 0)).2 _ hvalid 10 10 () true
      (integerReference_validates "x" 0) rfl).2 ?_
    rintro wrapper ⟨n, m, s, s', hstep, -, hm⟩
    obtain ⟨e, he, rfl⟩ := Reducer.mem_of_substitution hstep
    obtain rfl := List.mem_singleton.mp he
    cases hm

/-- Putting a reference for the variable under a reference succeeds, though every node of the tree
and of the replacement is valid and the result is not. -/
theorem reduction_nests_references :
    (integerReference "x" 0).Validates ∧ (integerReference "y" 1).Validates
      ∧ ∃ n, (substitution [(integerLocal "x" 0, integerReference "y" 1)]).run 10
          (integerReference "x" 0) () = (.ok true, n, ())
        ∧ n.SelfWraps .takeReference ∧ ¬n.Validates := by
  refine ⟨integerReference_validates "x" 0, integerReference_validates "y" 1,
    ⟨.takeReference, [integerReference "y" 1]⟩, by rfl, ⟨rfl, _, rfl, rfl⟩, fun hvalid => ?_⟩
  have hroot := hvalid _ (by rw [Node.selfAndDescendants_mk]; exact List.mem_cons_self)
  cases hroot

end Canonical

end ScriptLowering
