import ScriptLowering.Proofs.Canonical.CastQuestion

/-!
# Nested casts and the limit on replacements

The expansion of casts replaces a place again, as long as what stands there is a cast: a cast that
does nothing gives way to the cast below it, and a cast of an enumeration becomes a cast of its
integer. How often this happens depends on the casts, changes of type and conversions that are
nested directly below one another (`Node.castNesting`). `castPotential` is at most one more than the
nesting, and each replacement lowers it; so a limit above the nesting is never reached, and the
expansion succeeds if it comes back (`nested_casts_expand`).
-/

namespace ScriptLowering

open Script

/-! ### Reducers that lower a measure -/

namespace Canonical.Reducer

variable {σ : Type} {w : Reducer σ} {limit : Nat} {inv : Node → Prop} {measure : Node → Nat}

/-- A reducer that does not fail by itself, and whose replacements are valid, keep an invariant and
lower a measure. -/
structure Lowers (w : Reducer σ) (inv : Node → Prop) (measure : Node → Nat) : Prop extends
    Keeps w inv where
  answers : ∀ n s e, (w.reduct? n s).1 ≠ .error e
  step : ∀ {n m : Node} {s s' : σ}, inv n → w.reduct? n s = (.ok (some m), s') →
    m.validate = .ok () ∧ measure m < measure n

namespace Lowers

variable (hw : w.Lowers inv measure)
include hw

theorem settles (left : Nat) (changed : Bool) {n : Node} (s : σ) (hn : inv n)
    (hle : measure n ≤ left) : ∃ c, (w.settle left changed n s).verdict = .settled c := by
  fun_induction settle w left changed n s with
  | case1 _ _ n s e _ hstep => exact absurd (congrArg Prod.fst hstep) (hw.answers n s e)
  | case2 _ changed => exact ⟨changed, rfl⟩
  | case3 _ _ _ _ _ hstep =>
    have hlower := (hw.step hn hstep).2
    omega
  | case4 _ _ _ _ _ hstep _ _ hinvalid =>
    rw [(hw.step hn hstep).1] at hinvalid
    cases hinvalid
  | case5 _ _ _ _ _ hstep _ _ _ ih =>
    have hlower := (hw.step hn hstep).2
    exact ih (hw.reduct hn hstep) (by omega)

theorem count (left : Nat) (changed : Bool) {n : Node} (s : σ × Nat) (hn : inv n) :
    (w.counted.settle left changed n s).state.2 ≤ s.2 + measure n + 1 := by
  fun_induction settle w.counted left changed n s with
  | case1 _ _ _ _ _ _ hstep | case2 _ _ _ _ _ hstep | case3 _ _ _ _ _ hstep
  | case4 _ _ _ _ _ hstep =>
    have hcount := (counted_step hstep).2
    dsimp only
    omega
  | case5 _ _ _ _ _ hstep _ _ _ ih =>
    obtain ⟨hstep', hcount⟩ := counted_step hstep
    have hlower := (hw.step hn hstep').2
    have hrest := ih (hw.reduct hn hstep')
    omega

omit hw in
theorem reduceEach_ne_failed {f : Node → σ → Progress σ Node} {e : Error} :
    ∀ {operands : List Node} {s : σ},
      (∀ o ∈ operands, ∀ s, (f o s).verdict ≠ .failed e) →
      (reduceEach f operands s).verdict ≠ .failed e
  | [], _, _ => by simp [reduceEach]
  | n :: rest, s, h => by
    obtain ⟨hfirst, hrest⟩ := List.forall_mem_cons.mp h
    simp only [reduceEach]
    cases hverdict : (f n s).verdict with
    | settled c =>
      rw [Ne, Verdict.after_eq_failed]
      exact reduceEach_ne_failed hrest
    | failed e' =>
      have hverdict' := hfirst s
      rw [hverdict] at hverdict'
      exact hverdict'
    | unfinished => simp

theorem reduceTree_ne_failed (hlimit : ∀ n, inv n → measure n ≤ limit) (e : Error) :
    ∀ (budget : Nat) {n : Node} (s : σ), inv n →
      (w.reduceTree limit budget n s).verdict ≠ .failed e := by
  intro budget
  induction budget with
  | zero => intro n s _; simp [reduceTree]
  | succ budget ih =>
    intro n s hn
    obtain ⟨c, hc⟩ := hw.settles limit false s hn (hlimit n hn)
    rw [verdict_reduceTree_of_settled hc, Ne, Verdict.after_eq_failed]
    have hroot := hw.settle limit false s hn
    generalize (w.settle limit false n s).result = root at hroot ⊢
    obtain ⟨form, operands⟩ := root
    exact reduceEach_ne_failed fun o ho s => ih s (hw.operand hroot o ho)

end Lowers

end Canonical.Reducer

/-! ### Nesting -/

/-- Whether the form is a cast, a change of type or a conversion. -/
def Script.Form.isCasting : Form → Bool
  | .cast _ _ | .changeType _ | .conversion _ _ _ => true
  | _ => false

/-- The number of casts, changes of type and conversions that are nested directly below one another,
from the root down. -/
def Script.Node.castNesting : Node → Nat
  | ⟨form, []⟩ => if form.isCasting then 1 else 0
  | ⟨form, operand :: _⟩ => if form.isCasting then operand.castNesting + 1 else 0

variable {rest : List Node}

namespace Canonical

variable {h : Hierarchy} {r : Retyping} {value : Node} {target : Ty} {checked : Bool}

theorem isCasting_of_isTransparent {form : Form} (hform : isTransparent form = true) :
    form.isCasting = true := by
  cases form <;> first | rfl | cases hform

theorem castNesting_innermost (c : Core) (r : Retyping) (kind : Primitive) (value : Node) :
    innermost c r kind value = value
      ∨ (innermost c r kind value).castNesting < value.castNesting := by
  fun_induction innermost c r kind value with
  | case1 form => exact .inl rfl
  | case2 form operand rest hthrough ih =>
    right
    have hcasting := isCasting_of_isTransparent (Bool.and_eq_true_iff.mp hthrough).1
    have hnesting : Node.castNesting ⟨form, operand :: rest⟩ = operand.castNesting + 1 := by
      rw [Node.castNesting, if_pos hcasting]
    rcases ih with hsame | hless
    · rw [hsame, hnesting]
      omega
    · omega
  | case3 form operand rest _ => exact .inl rfl

/-! ### The potential of a cast -/

/-- How often a place may be replaced: not at all if it is no cast, once if the cast is of a value
that is neither a cast nor of an enumeration, and else once more than casts are nested there. -/
def castPotential (c : Core) (r : Retyping) : Node → Nat
  | ⟨.cast _ _, value :: _⟩ =>
    if value.form.isCast || (value.computedType c r).enumUnderlying?.isSome then
      value.castNesting + 2
    else 1
  | _ => 0

variable {c : Core}

theorem castPotential_of_not_cast {n : Node} (hn : n.form.isCast = false) :
    castPotential c r n = 0 := by
  obtain ⟨form, operands⟩ := n
  unfold castPotential
  split
  · next heq =>
    obtain ⟨rfl, rfl⟩ := Node.mk.inj heq
    cases hn
  · rfl

theorem castPotential_pos (c : Core) (r : Retyping) (value : Node) (rest : List Node) (target : Ty)
    (checked : Bool) : 0 < castPotential c r ⟨.cast target checked, value :: rest⟩ := by
  unfold castPotential
  dsimp only
  split <;> omega

theorem castPotential_le (c : Core) (r : Retyping) (n : Node) :
    castPotential c r n ≤ n.castNesting + 1 := by
  unfold castPotential
  split
  · next target checked value rest =>
    have hnesting : Node.castNesting ⟨.cast target checked, value :: rest⟩
        = value.castNesting + 1 := by
      rw [Node.castNesting, Form.isCasting, if_pos rfl]
    rw [hnesting]
    split <;> omega
  · omega

theorem castPotential_of_enum {kind : Primitive}
    (hvalue : (value.computedType c r).enumUnderlying? = some kind) :
    castPotential c r ⟨.cast target checked, value :: rest⟩ = value.castNesting + 2 := by
  unfold castPotential
  dsimp only
  rw [hvalue, Option.isSome_some, Bool.or_true, if_pos rfl]

theorem castPotential_of_plain (hform : value.form.isCast = false)
    (hvalue : (value.computedType c r).enumUnderlying? = none) :
    castPotential c r ⟨.cast target checked, value :: rest⟩ = 1 := by
  unfold castPotential
  dsimp only
  rw [hform, hvalue, Option.isSome_none, Bool.or_false, if_neg Bool.false_ne_true]

end Canonical

/-- A type that is no enumeration, or that is told apart from the primitive under it. -/
def Hierarchy.TellsApart (h : Hierarchy) (t : Ty) : Prop :=
  ∀ kind, t.enumUnderlying? = some kind → h.equal t (h.core.primitive kind) true = false

theorem Hierarchy.tellsApart_primitive (h : Hierarchy) (kind : Primitive) :
    h.TellsApart (h.core.primitive kind) := by
  intro kind' hkind'
  cases hkind'

namespace Canonical

variable {h : Hierarchy} {r : Retyping} {value : Node} {target : Ty} {checked : Bool}

theorem Expansion.castPotential_lt {m : Node} (hm : Expansion h r value target checked m)
    (hvalue : h.TellsApart (value.computedType h.core r)) (rest : List Node) :
    castPotential h.core r m < castPotential h.core r ⟨.cast target checked, value :: rest⟩ := by
  -- What is no cast has no potential left.
  have hother : ∀ {n : Node}, n.form.isCast = false →
      castPotential h.core r n < castPotential h.core r ⟨.cast target checked, value :: rest⟩ := by
    intro n hn
    rw [castPotential_of_not_cast hn]
    exact castPotential_pos h.core r value rest target checked
  cases hm with
  | same _ =>
    cases hform : value.form.isCast with
    | false => exact hother hform
    | true =>
      have hle := castPotential_le h.core r value
      have hcast : castPotential h.core r ⟨.cast target checked, value :: rest⟩
          = value.castNesting + 2 := by
        unfold castPotential
        dsimp only
        rw [hform, Bool.true_or, if_pos rfl]
      omega
  | @integer kind hkind _ =>
    have hinner := castNesting_innermost h.core r kind value
    have hreading := reading_enumInteger h r value kind
    generalize enumInteger h r value kind = integer at hreading
    cases hreading with
    | same _ =>
      have hle := castPotential_le h.core r (innermost h.core r kind value)
      rw [castPotential_of_enum hkind]
      rcases hinner with hsame | hless
      · rw [hsame] at hle ⊢
        omega
      · omega
    | ofEnum => exact hother rfl
    | changed _ => exact hother rfl
  | @integerCast kind hkind =>
    have hreading := reading_enumInteger h r value kind
    rw [castPotential_of_enum hkind]
    generalize enumInteger h r value kind = integer at hreading
    -- A conversion or a change of type to the integer is plain.
    have hplain : integer.form.isCast = false →
        (integer.computedType h.core r).enumUnderlying? = none →
        castPotential h.core r (integer.cast target checked) < value.castNesting + 2 := by
      intro hform hnone
      have hone : castPotential h.core r (integer.cast target checked) = 1 :=
        castPotential_of_plain hform hnone
      omega
    cases hreading with
    | same hequal =>
      -- The value is told apart from its integer, so that something has been taken off.
      have hless := (castNesting_innermost h.core r kind value).resolve_left fun hsame => by
        rw [hsame, hvalue kind hkind] at hequal
        cases hequal
      have hle := castPotential_le h.core r
        ((innermost h.core r kind value).cast target checked)
      have hnesting : ((innermost h.core r kind value).cast target checked).castNesting
          = (innermost h.core r kind value).castNesting + 1 := by
        rw [Node.cast, Node.castNesting, Form.isCasting, if_pos rfl]
      omega
    | ofEnum | changed _ => exact hplain rfl rfl
  | _ => exact hother rfl

/-! ### Trees with bounded potential -/

/-- A valid node with a type that is told apart, and with a bounded potential. -/
structure Expandable (h : Hierarchy) (r : Retyping) (most : Nat) (n : Node) : Prop where
  valid : n.validate = .ok ()
  apart : h.TellsApart (n.computedType h.core r)
  potential : castPotential h.core r n ≤ most

theorem Expandable.added {most : Nat} {x : Node} (hx : Added h r value target checked x)
    (hcast : Expandable h r most ⟨.cast target checked, value :: rest⟩)
    (hvalue : Expandable h r most value) : Expandable h r most x := by
  have hapart : h.TellsApart (x.computedType h.core r) := by
    rcases hx.computedType_cases with htype | htype | ⟨kind, htype⟩
    · rw [htype]
      exact hcast.apart
    · rw [htype]
      exact hvalue.apart
    · rw [htype]
      exact h.tellsApart_primitive kind
  have hnone : x.form.isCast = false → castPotential h.core r x ≤ most := by
    intro hform
    rw [castPotential_of_not_cast hform]
    exact Nat.zero_le most
  cases hx with
  | integerCast hkind =>
    have hexpansion : Expansion h r value target checked _ := .integerCast hkind
    have hlower := hexpansion.castPotential_lt hvalue.apart rest
    exact ⟨rfl, hapart, Nat.le_trans (Nat.le_of_lt hlower) hcast.potential⟩
  | memberCast => exact ⟨rfl, hapart, hcast.potential⟩
  | constant _ | upcast _ _ | choice | conversion | call | changed _ _ _ _ _ | test | ofEnum
  | read _ _ => exact ⟨rfl, hapart, hnone rfl⟩

theorem keeps_expandable (h : Hierarchy) (r : Retyping) (emulateInt64 : Bool) (most : Nat) :
    (castExpansion h r emulateInt64).Keeps
      fun n => ∀ x ∈ n.selfAndDescendants, Expandable h r most x where
  reduct := by
    intro n m memo memo' hn hstep x hx
    obtain ⟨target, checked, value, rest, rfl, hm⟩ := expansion_of_reduct hstep
    have hcast := hn _ (Node.self_mem_selfAndDescendants _)
    have hparts : ∀ x ∈ value.selfAndDescendants, Expandable h r most x := fun x hx =>
      hn x (Node.mem_selfAndDescendants_of_operand hx List.mem_cons_self)
    rcases hm.part_or_added x hx with hpart | hadded
    · exact hparts x hpart
    · exact Expandable.added hadded hcast (hparts value value.self_mem_selfAndDescendants)
  operand hn o ho x hx := hn x (Node.mem_selfAndDescendants_of_operand hx ho)

theorem lowers_castExpansion (h : Hierarchy) (r : Retyping) (emulateInt64 : Bool) (most : Nat) :
    (castExpansion h r emulateInt64).Lowers
      (fun n => ∀ x ∈ n.selfAndDescendants, Expandable h r most x) (castPotential h.core r) where
  toKeeps := keeps_expandable h r emulateInt64 most
  answers := by
    intro n memo e
    unfold castExpansion
    dsimp only
    split <;> simp
  step := by
    intro n m memo memo' hn hstep
    have hm := (keeps_expandable h r emulateInt64 most).reduct hn hstep m
      m.self_mem_selfAndDescendants
    obtain ⟨target, checked, value, rest, rfl, hexpansion⟩ := expansion_of_reduct hstep
    have hvalue := hn value (Node.mem_selfAndDescendants_of_operand
      value.self_mem_selfAndDescendants List.mem_cons_self)
    exact ⟨hm.valid, hexpansion.castPotential_lt hvalue.apart rest⟩

/-- If at most so many casts, changes of type and conversions are nested directly below one another,
then the expansion of casts asks about no place more than twice more often, so that it replaces
there at most once more often. It succeeds, if this is allowed and the interfaces of all types in the
tree have names of bounded length: then it comes back, and without a failure. -/
theorem nested_casts_expand (h : Hierarchy) (r : Retyping) (emulateInt64 : Bool) (limit depth : Nat)
    {n : Node} (memo : AssignableMemo) (hvalid : n.Validates)
    (hapart : ∀ m ∈ n.selfAndDescendants, h.TellsApart (m.computedType h.core r))
    (hnesting : ∀ m ∈ n.selfAndDescendants, m.castNesting ≤ depth) :
    let w := castExpansion h r emulateInt64
    (depth < limit → (∀ m ∈ n.selfAndDescendants, h.BoundsNames (m.computedType h.core r)) →
        CastsReturn h r emulateInt64 limit n memo
          ∧ ∃ changed n' memo', w.run limit n memo = (.ok changed, n', memo'))
      ∧ ∀ p : Reducer.Site AssignableMemo,
        Relation.ReflTransGen (w.Enters limit) ⟨n, memo⟩ p →
        w.callsAt limit p.node p.state ≤ depth + 2 := by
  have hlowers := lowers_castExpansion h r emulateInt64 (depth + 1)
  have hn : ∀ x ∈ n.selfAndDescendants, Expandable h r (depth + 1) x := by
    intro x hx
    have hpotential := castPotential_le h.core r x
    have hdepth := hnesting x hx
    exact ⟨hvalid x hx, hapart x hx, by omega⟩
  constructor
  · -- The walk ends, and no place is replaced more often than its potential allows.
    intro hlimit hbounds
    have hreturn : CastsReturn h r emulateInt64 limit n memo :=
      castsReturn_of_boundsNames limit memo hbounds
    refine ⟨hreturn, ?_⟩
    have hsucceeds := hlowers.reduceTree_ne_failed fun m hm =>
      Nat.le_trans (hm m m.self_mem_selfAndDescendants).potential hlimit
    unfold Reducer.run
    dsimp only
    cases hverdict : ((castExpansion h r emulateInt64).reduceTree limit (Reducer.levels n) n
        memo).verdict with
    | settled changed => exact ⟨changed, _, _, rfl⟩
    | failed e => exact absurd hverdict (hsucceeds e _ memo hn)
    | unfinished => exact absurd hverdict hreturn.terminates.ends
  · intro p hreached
    have hp := hlowers.toKeeps.entered hreached hn
    have hcount := hlowers.count limit false (p.state, 0) hp
    have hpotential := (hp p.node p.node.self_mem_selfAndDescendants).potential
    unfold Reducer.callsAt
    dsimp only at hcount
    omega

/-- Two nested casts through an enumeration are expanded where three replacements are allowed at a
place. -/
theorem throughChoice_expands :
    throughChoice.Validates
      ∧ (∀ m ∈ throughChoice.selfAndDescendants,
        (Hierarchy.ofCore .standard).TellsApart (m.computedType .standard .empty))
      ∧ (∀ m ∈ throughChoice.selfAndDescendants, m.castNesting ≤ 2)
      ∧ (∀ m ∈ throughChoice.selfAndDescendants,
        (Hierarchy.ofCore .standard).BoundsNames (m.computedType .standard .empty))
      ∧ CastsReturn (.ofCore .standard) .empty false 3 throughChoice .empty
      ∧ (∃ changed n' memo', expandCasts.run 3 throughChoice .empty = (.ok changed, n', memo'))
      ∧ expandCasts.callsAt 3 throughChoice .empty ≤ 4 := by
  have hnodes : throughChoice.selfAndDescendants
      = [throughChoice, (held (Core.standard.primitive .i4)).cast choice false,
        held (Core.standard.primitive .i4)] := by rfl
  have hvalid : throughChoice.Validates := by
    unfold Node.Validates
    rw [hnodes]
    simp only [List.forall_mem_cons]
    exact ⟨rfl, rfl, rfl, fun _ hm => absurd hm List.not_mem_nil⟩
  have hchoice : (Hierarchy.ofCore .standard).TellsApart choice := by
    intro kind hkind
    obtain rfl : Primitive.i4 = kind := Option.some.inj hkind
    decide +kernel
  have hapart : ∀ m ∈ throughChoice.selfAndDescendants,
      (Hierarchy.ofCore .standard).TellsApart (m.computedType .standard .empty) := by
    rw [hnodes]
    simp only [List.forall_mem_cons]
    exact ⟨Hierarchy.tellsApart_primitive _ .i8, hchoice, Hierarchy.tellsApart_primitive _ .i4,
      fun _ hm => absurd hm List.not_mem_nil⟩
  have hnesting : ∀ m ∈ throughChoice.selfAndDescendants, m.castNesting ≤ 2 := by
    rw [hnodes]
    decide +kernel
  have hexpands := nested_casts_expand (.ofCore .standard) .empty false 3 2 .empty hvalid hapart
    hnesting
  have hbounds : ∀ m ∈ throughChoice.selfAndDescendants,
      (Hierarchy.ofCore .standard).BoundsNames (m.computedType .standard .empty) :=
    fun m _ => (Hierarchy.leveled_ofCore .standard).boundsNames _
  obtain ⟨hreturns, hsucceeds⟩ := hexpands.1 (by omega) hbounds
  exact ⟨hvalid, hapart, hnesting, hbounds, hreturns, hsucceeds, hexpands.2 ⟨_, _⟩ .refl⟩

/-- An enumeration over 32-bit integers that is called as they are. -/
def disguisedInteger : Ty :=
  .named (.plain 42 "System" "Int32" Core.standard.scope (.enumeration .i4))

/-- A 64-bit integer made of such an enumeration. -/
def disguisedCast : Node :=
  (held disguisedInteger).cast (Core.standard.primitive .i8) false

/-- A single cast of an enumeration that is taken for the primitive under it reaches the limit,
however large it is. -/
theorem endless_cast_reported :
    disguisedCast.Validates ∧ (∀ m ∈ disguisedCast.selfAndDescendants, m.castNesting ≤ 1)
      ∧ ∀ limit, (expandCasts.run limit disguisedCast .empty).1
        = .error (.reductionLimit "expand casts") := by
  have hnodes : disguisedCast.selfAndDescendants = [disguisedCast, held disguisedInteger] := by rfl
  refine ⟨?_, ?_, fun limit => ?_⟩
  · unfold Node.Validates
    rw [hnodes]
    simp only [List.forall_mem_cons]
    exact ⟨rfl, rfl, fun _ hm => absurd hm List.not_mem_nil⟩
  · rw [hnodes]
    decide +kernel
  · -- The cast is put for itself.
    have hstep : expandCasts.reduct? disguisedCast .empty = (.ok (some disguisedCast), .empty) := by
      rfl
    have hproposes : ∀ k, expandCasts.Proposes k ⟨disguisedCast, .empty⟩ := by
      intro k
      induction k with
      | zero => trivial
      | succ k ih => exact ⟨disguisedCast, .empty, hstep, rfl, ih⟩
    have hfails : (expandCasts.settle limit false disguisedCast .empty).verdict
        = .failed (.reductionLimit "expand casts") :=
      Reducer.settle_of_proposes limit false (hproposes (limit + 1))
    have hlevels : Reducer.levels disguisedCast = 23 + 1 := by rfl
    unfold Reducer.run
    rw [hlevels, Reducer.reduceTree_of_not_settled (by simp [hfails])]
    dsimp only
    rw [hfails]

end Canonical

end ScriptLowering
