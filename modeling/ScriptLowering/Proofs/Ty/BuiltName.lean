import ScriptLowering.Ty.Core

/-!
# Names of built types

Lowering builds references, pointers, arrays, packed arrays and nullable types over the types that it
is given (`Ty.Built`). A built name has the inner name between two texts, and the last character
tells how the type was built. So built types are told apart by their names if the types at the
bottom are, and if the names of those end in none of the characters that built names end in
(`Ty.Built.eq_of_letters_eq`).
-/

namespace ScriptLowering.Ty

/-- A way to build a type over another one. -/
inductive Builder where
  | byRef
  | pointer
  /-- An array, given by the number of commas in its name. -/
  | array (commas : Nat)
  | packed
  | nullable

/-- The characters of a name. -/
def letters (t : Ty) : List Char :=
  t.fullName.toList

namespace Builder

/-- The built type. -/
def apply (c : Core) : Builder → Ty → Ty
  | byRef, t => .byRef t
  | pointer, t => .pointer t
  | array commas, t => .array t (commas + 1)
  | packed, t => Core.packedArrayOf t
  | nullable, t => c.nullableOf t

/-- What stands before the inner name. -/
def opening (c : Core) : Builder → List Char
  | byRef | pointer | array _ => []
  | packed => Core.packedArray.letters ++ ['<']
  | nullable => c.nullable.letters ++ ['<']

/-- The last character of a built name. -/
def mark : Builder → Char
  | byRef => '&'
  | pointer => '*'
  | array _ => ']'
  | packed | nullable => '>'

/-- What stands between the inner name and the last character. -/
def middle : Builder → List Char
  | array commas => '[' :: List.replicate commas ','
  | _ => []

variable {c : Core}

theorem letters_apply (b : Builder) (t : Ty) :
    (b.apply c t).letters = b.opening c ++ t.letters ++ b.middle ++ [b.mark] := by
  cases b <;>
    simp [letters, apply, opening, middle, mark, fullName, fullNames, Core.packedArrayOf,
      Core.nullableOf]

variable {x y : List Char}

theorem packed_ne_nullable : packed.opening c ++ x ≠ nullable.opening c ++ y := by
  intro h
  have hpacked : (packed.opening c).head? = some 'D' := by
    simp [opening, letters, fullName, Core.packedArray, Core.runtimeName, Definition.plain,
      Definition.qualifiedName]
  have hnullable : (nullable.opening c).head? = some 'S' := by
    simp [opening, letters, fullName, Core.nullable, Core.value, Definition.plain,
      Definition.qualifiedName]
  have hfirst := congrArg List.head? h
  rw [List.head?_append, List.head?_append, hpacked, hnullable] at hfirst
  simp at hfirst

theorem commas_inj :
    ∀ {m n : Nat}, List.replicate m ',' ++ '[' :: x = List.replicate n ',' ++ '[' :: y →
      m = n ∧ x = y
  | 0, 0, h => ⟨rfl, by simpa using h⟩
  | 0, _ + 1, h | _ + 1, 0, h => by simp [List.replicate_succ] at h
  | m + 1, n + 1, h => by
    rw [List.replicate_succ, List.replicate_succ, List.cons_append, List.cons_append] at h
    obtain ⟨hcount, hrest⟩ := commas_inj (List.cons.inj h).2
    exact ⟨congrArg (· + 1) hcount, hrest⟩

theorem eq_of_name_eq {b b' : Builder}
    (h : b.opening c ++ x ++ b.middle ++ [b.mark] = b'.opening c ++ y ++ b'.middle ++ [b'.mark]) :
    b = b' ∧ x = y := by
  obtain ⟨hinner, hmark⟩ := List.append_inj' h rfl
  have hmark : b.mark = b'.mark := List.head_eq_of_cons_eq hmark
  cases b <;> cases b' <;> simp only [mark, Char.reduceEq] at hmark
  case byRef.byRef | pointer.pointer => simpa [opening, middle] using hinner
  case array.array m n =>
    have hreversed := congrArg List.reverse hinner
    simp only [opening, middle, List.nil_append, List.reverse_append, List.reverse_cons,
      List.reverse_replicate, List.append_assoc, List.cons_append] at hreversed
    obtain ⟨hcount, hrest⟩ := commas_inj hreversed
    exact ⟨congrArg array hcount, List.reverse_inj.mp hrest⟩
  case packed.packed | nullable.nullable =>
    simp only [middle, List.append_nil] at hinner
    exact ⟨rfl, List.append_cancel_left hinner⟩
  case packed.nullable =>
    simp only [middle, List.append_nil] at hinner
    exact absurd hinner packed_ne_nullable
  case nullable.packed =>
    simp only [middle, List.append_nil] at hinner
    exact absurd hinner.symm packed_ne_nullable

end Builder

/-- Types built over others in the ways that lowering has. -/
inductive Built (c : Core) (base : Ty → Prop) : Ty → Prop where
  | base {t : Ty} (ht : base t) : Built c base t
  | build {t : Ty} (b : Builder) (ht : Built c base t) : Built c base (b.apply c t)

namespace Built

variable {c : Core} {base : Ty → Prop} {t u : Ty}

/-- No name of a type at the bottom looks like the name of a built one. -/
def Unmarked (base : Ty → Prop) : Prop :=
  ∀ t, base t → ∀ b : Builder, t.letters.getLast? ≠ some b.mark

theorem eq_of_letters_eq (hmarks : Unmarked base)
    (hbase : ∀ t u, base t → base u → t.letters = u.letters → t = u)
    (ht : Built c base t) (hu : Built c base u) (h : t.letters = u.letters) : t = u := by
  have hlast (b : Builder) (w : Ty) : (b.apply c w).letters.getLast? = some b.mark := by
    rw [b.letters_apply, List.getLast?_concat]
  induction ht generalizing u with
  | base ht =>
    cases hu with
    | base hu => exact hbase _ _ ht hu h
    | build b hu => exact absurd (h ▸ hlast b _) (hmarks _ ht b)
  | build b ht ih =>
    cases hu with
    | base hu => exact absurd (h ▸ hlast b _) (hmarks _ hu b)
    | build b' hu =>
      rw [b.letters_apply, b'.letters_apply] at h
      obtain ⟨rfl, hinner⟩ := Builder.eq_of_name_eq h
      rw [ih hu hinner]

theorem elementType? (hbase : ∀ t, base t → t.elementType? = none) (ht : Built c base t)
    (h : t.elementType? = some u) : Built c base u := by
  cases ht with
  | base ht => simp [hbase _ ht] at h
  | build b ht =>
    cases b with
    | byRef | pointer | array => cases h; exact ht
    | packed | nullable => cases h

theorem nullableArgument? (hbase : ∀ t, base t → t.genericArguments = []) (ht : Built c base t)
    (h : t.nullableArgument? = some u) : Built c base u := by
  unfold Ty.nullableArgument? at h
  split at h
  · cases ht with
    | base ht => simp [hbase _ ht] at h
    | build b ht =>
      cases b with
      | byRef | pointer | array => cases h
      | packed | nullable => cases h; exact ht
  · cases h

theorem arrayOf (rank : Nat) (ht : Built c base t) : Built c base (.arrayOf t rank) := by
  have hrank : Ty.arrayOf t rank = (Builder.array (max rank 1 - 1)).apply c t := by
    rw [Builder.apply, Nat.sub_add_cancel (Nat.le_max_right rank 1), Ty.arrayOf]
  rw [hrank]
  exact .build _ ht

end Built

end ScriptLowering.Ty
