import ScriptLowering.Proofs.Ty.InterfaceSearch

/-!
# What the memory of assignability answers

`AssignableMemo.ask` answers from memory when a pair of types with the same two full names was asked
about before. The memory starts empty and is filled by a history of queries. `answerAfter_eq` says
what a query then gets: the answer computed for the first query of the history that was written the
same, and its own answer if there is none. The history cannot be noticed in a world of types exactly
when names decide the answers there (`answers_fresh_iff_names_decide`), which they do where distinct
types are written differently.
-/

namespace ScriptLowering.AssignableMemo

/-- The memory after further queries, asked in order. -/
def after (m : AssignableMemo) (h : Hierarchy) : List (Ty × Ty) → AssignableMemo
  | [] => m
  | query :: rest => (m.ask h query.1 query.2).2.after h rest

/-- The answer to a query after a history of queries on an empty memory. -/
def answerAfter (h : Hierarchy) (history : List (Ty × Ty)) (target source : Ty) : Bool :=
  ((empty.after h history).ask h target source).1

/-- Whether two queries are written the same. -/
def writtenAlike (p q : Ty × Ty) : Bool :=
  (p.1.fullName, p.2.fullName) == (q.1.fullName, q.2.fullName)

theorem lookup_after (h : Hierarchy) (query : Ty × Ty) :
    ∀ (history : List (Ty × Ty)) (m : AssignableMemo),
      (m.after h history).answers.lookup (query.1.fullName, query.2.fullName)
        = (m.answers.lookup (query.1.fullName, query.2.fullName)).or
            ((history.find? (writtenAlike query)).map fun q => h.isAssignable q.1 q.2)
  | [], m => by simp [after]
  | q :: rest, m => by
    rw [after, lookup_after h query rest, List.find?_cons]
    by_cases hq : writtenAlike query q = true
    · -- The query itself: it is remembered now, whether or not it was before.
      have hkey : (q.1.fullName, q.2.fullName) = (query.1.fullName, query.2.fullName) :=
        (beq_iff_eq.mp hq).symm
      simp only [ask, hkey, hq]
      cases hm : m.answers.lookup (query.1.fullName, query.2.fullName) with
      | some answer => simp [hm]
      | none => simp
    · -- Another query: what it adds stands under another key.
      have hkey : ((query.1.fullName, query.2.fullName) == (q.1.fullName, q.2.fullName)) = false :=
        Bool.eq_false_iff.mpr hq
      simp only [ask, Bool.eq_false_iff.mpr hq]
      cases m.answers.lookup (q.1.fullName, q.2.fullName) with
      | some answer => rfl
      | none => simp [List.lookup_cons, hkey]

theorem answerAfter_eq (h : Hierarchy) (history : List (Ty × Ty)) (target source : Ty) :
    answerAfter h history target source
      = let first := (history.find? (writtenAlike (target, source))).getD (target, source)
        h.isAssignable first.1 first.2 := by
  have held := lookup_after h (target, source) history empty
  have hempty : empty.answers.lookup (target.fullName, source.fullName) = none := rfl
  simp only [hempty, Option.none_or] at held
  simp only [answerAfter, ask, held]
  cases history.find? (writtenAlike (target, source)) <;> rfl

/-- Names decide the answers in a world of types: queries that are written the same have the same
answer. -/
def NamesDecide (h : Hierarchy) (world : Ty → Prop) : Prop :=
  ∀ target source target' source', world target → world source → world target' → world source' →
    target.fullName = target'.fullName → source.fullName = source'.fullName →
    h.isAssignable target source = h.isAssignable target' source'

/-- In a world of types, every query after every history gets its own answer exactly when names
decide the answers; and they do where distinct types are written differently. -/
theorem answers_fresh_iff_names_decide (h : Hierarchy) (world : Ty → Prop) :
    ((∀ (history : List (Ty × Ty)) (target source : Ty),
        (∀ query ∈ history, world query.1 ∧ world query.2) → world target → world source →
        answerAfter h history target source = h.isAssignable target source)
      ↔ NamesDecide h world)
    ∧ ((∀ t u, world t → world u → t.fullName = u.fullName → t = u) → NamesDecide h world) := by
  refine ⟨⟨?_, ?_⟩, ?_⟩
  · -- Ask about the one pair first, then about the other.
    intro fresh target source target' source' ht hs ht' hs' htarget hsource
    have hpair := fresh [(target', source')] target source (by simp [ht', hs']) ht hs
    rw [answerAfter_eq] at hpair
    simp only [writtenAlike, htarget, hsource, List.find?_cons, beq_self_eq_true,
      Option.getD_some] at hpair
    exact hpair.symm
  · intro decide history target source hhistory ht hs
    rw [answerAfter_eq]
    cases hfind : history.find? (writtenAlike (target, source)) with
    | none => rfl
    | some query =>
      have hworld := hhistory query (List.mem_of_find?_eq_some hfind)
      have halike : writtenAlike (target, source) query = true := List.find?_some hfind
      simp only [writtenAlike, beq_iff_eq, Prod.mk.injEq] at halike
      exact decide _ _ _ _ hworld.1 hworld.2 ht hs halike.1.symm halike.2.symm
  · intro distinct target source target' source' ht hs ht' hs' htarget hsource
    rw [distinct target target' ht ht' htarget, distinct source source' hs hs' hsource]

/-- A class `App.P` of a module. -/
def classIn (id : Nat) (file : String) : Ty :=
  .named (.plain id "App" "P" (.ofFile file) .classType)

/-- A class is assignable to itself. Asked about after that, the class of the same name in another
module is answered to be assignable to it, which it is not. -/
theorem remembered_answer_differs :
    let h := Hierarchy.ofCore .standard
    let one := classIn 40 "One"
    let two := classIn 41 "Two"
    answerAfter h [(one, one)] one two = true ∧ h.isAssignable one two = false := by
  have hinterfaces : (Hierarchy.ofCore .standard).implements (classIn 40 "One") (classIn 41 "Two")
      = false :=
    Hierarchy.implements_of_no_interfaces (by decide +kernel)
  refine ⟨by decide +kernel, Bool.or_eq_false_iff.mpr ⟨by decide +kernel, hinterfaces⟩⟩

end ScriptLowering.AssignableMemo
