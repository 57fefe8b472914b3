import ScriptLowering.Proofs.Cil.Part

/-!
# Heights of expressions

The height of an expression is the number of levels of its tree, and at least one. What lowering
nests is a level of an expression, never a statement, so only heights of expressions matter for how
deep it goes.
-/

namespace ScriptLowering.Cil

mutual

/-- The number of levels of an expression. -/
def Expr.height : Expr → Nat
  | ⟨_, _, arguments, _, _, _⟩ => Expr.heightList arguments + 1

/-- The number of levels of the highest of some expressions. -/
def Expr.heightList : List Expr → Nat
  | [] => 0
  | e :: rest => max e.height (Expr.heightList rest)

end

theorem Expr.height_eq (e : Expr) : e.height = Expr.heightList e.arguments + 1 := by
  obtain ⟨code, operand, arguments, expected?, inferred?, offset?⟩ := e
  rw [Expr.height]

theorem Expr.height_le_heightList {a : Expr} :
    ∀ {es : List Expr}, a ∈ es → a.height ≤ Expr.heightList es
  | e :: rest, ha => by
    rw [Expr.heightList]
    rcases List.mem_cons.mp ha with rfl | hrest
    · exact Nat.le_max_left ..
    · have hle := Expr.height_le_heightList hrest
      omega

theorem Expr.height_argument {e a : Expr} (ha : a ∈ e.arguments) : a.height < e.height := by
  have hle := Expr.height_le_heightList ha
  rw [Expr.height_eq e]
  omega

/-- An expression whose arguments are not higher than a bound. -/
def Expr.Above (e : Expr) (height : Nat) : Prop :=
  ∀ a ∈ e.arguments, a.height ≤ height

theorem Expr.above_of_height_le {e : Expr} {height : Nat} (h : e.height ≤ height + 1) :
    e.Above height := by
  intro a ha
  have hlt := Expr.height_argument ha
  omega

/-- Parts of which no expression is higher than a bound. -/
def Part.Within (height : Nat) (parts : List Part) : Prop :=
  ∀ e, .expression e ∈ parts → e.height ≤ height

namespace Part

variable {height : Nat}

@[simp]
theorem within_nil : Within height [] := by
  simp [Within]

@[simp]
theorem within_append {xs ys : List Part} :
    Within height (xs ++ ys) ↔ Within height xs ∧ Within height ys := by
  simp [Within, or_imp, forall_and]

theorem within_flatMap {α : Type} {f : α → List Part} {as : List α} :
    Within height (as.flatMap f) ↔ ∀ a ∈ as, Within height (f a) := by
  simp only [Within, List.mem_flatMap]
  constructor
  · exact fun h a ha e he => h e ⟨a, ha, he⟩
  · rintro h e ⟨a, ha, he⟩
    exact h a ha e he

/-- There is always a bound. -/
theorem exists_within : ∀ parts : List Part, ∃ height, Within height parts
  | [] => ⟨0, within_nil⟩
  | .variable v :: rest => by
    obtain ⟨height, hrest⟩ := exists_within rest
    exact ⟨height, fun e he => hrest e (by simpa using he)⟩
  | .expression e :: rest => by
    obtain ⟨height, hrest⟩ := exists_within rest
    refine ⟨max e.height height, fun a ha => ?_⟩
    rcases List.mem_cons.mp ha with heq | ha
    · cases heq
      exact Nat.le_max_left ..
    · exact Nat.le_trans (hrest a ha) (Nat.le_max_right ..)

theorem Within.expression {e : Expr} (h : Within height e.parts) : e.height ≤ height :=
  h e e.mem_parts_self

end Part

end ScriptLowering.Cil
