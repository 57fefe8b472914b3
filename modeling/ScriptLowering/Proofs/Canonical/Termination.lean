import ScriptLowering.Canonical.Pass
import ScriptLowering.Proofs.Canonical.CallForm
import ScriptLowering.Proofs.Canonical.Expansion
import ScriptLowering.Proofs.Canonical.PropertyUpdate

/-!
# The walks of the passes stop

A replacement may be larger than what it replaces: operands are written twice, calls become chains
of additions, data blobs become array literals, and a cast of an enumeration becomes a cast under a
conversion or over one. But no replacement is higher, if the nodes that are replaced count for as
many levels as they may become. So each reducer of a pass has a weight of its own for the nodes that
it replaces, and under this weight a place never gets higher while it is replaced
(`Reducer.Moderate`), and the walk ends within the height of the tree.
-/

namespace ScriptLowering

variable {op : BinaryOp}

theorem Script.BinaryOp.compoundBase?_base {base : BinaryOp} (h : op.compoundBase? = some base) :
    base.compoundBase? = none := by
  cases op <;> cases h <;> rfl

/-! ### Weighted heights -/

variable {weight : Form → List Node → Nat} {extra : Nat}

namespace Script.Node

mutual

/-- The height of a tree in which each node counts with a weight. -/
def heightBy (weight : Form → List Node → Nat) : Node → Nat
  | ⟨form, operands⟩ => weight form operands + greatestBy weight operands

/-- The greatest height of some trees. -/
def greatestBy (weight : Form → List Node → Nat) : List Node → Nat
  | [] => 0
  | n :: rest => max (heightBy weight n) (greatestBy weight rest)

end

section

variable (weight : Form → List Node → Nat) (form : Form) {operands : List Node}

theorem heightBy_mk (operands : List Node) : heightBy weight ⟨form, operands⟩
    = weight form operands + greatestBy weight operands := by
  rw [heightBy]

theorem heightBy_leaf : heightBy weight ⟨form, []⟩ = weight form [] := by
  rw [heightBy, greatestBy, Nat.add_zero]

variable {form}

theorem greatestBy_le_iff {k : Nat} :
    greatestBy weight operands ≤ k ↔ ∀ o ∈ operands, o.heightBy weight ≤ k := by
  induction operands with
  | nil => simp [greatestBy]
  | cons n rest ih => rw [greatestBy, Nat.max_le, ih, List.forall_mem_cons]

theorem heightBy_le_greatestBy (operands : List Node) :
    ∀ o ∈ operands, o.heightBy weight ≤ greatestBy weight operands :=
  (greatestBy_le_iff weight).mp (Nat.le_refl _)

theorem add_heightBy_le (form : Form) {o : Node} (ho : o ∈ operands) :
    weight form operands + o.heightBy weight ≤ heightBy weight ⟨form, operands⟩ := by
  have hoperand := heightBy_le_greatestBy weight operands o ho
  rw [heightBy_mk]
  omega

variable {weight}

theorem one_le_heightBy (hweight : ∀ form operands, 0 < weight form operands) (n : Node) :
    1 ≤ n.heightBy weight := by
  obtain ⟨form, operands⟩ := n
  have hnode := hweight form operands
  rw [heightBy_mk]
  omega

theorem heightBy_le {k : Nat} (hoperands : ∀ o ∈ operands, o.heightBy weight ≤ k) :
    heightBy weight ⟨form, operands⟩ ≤ weight form operands + k := by
  have hgreatest := (greatestBy_le_iff weight).mpr hoperands
  rw [heightBy_mk]
  omega

end

theorem greatestBy_add_length_le {ns : List Node}
    (h : ∀ n ∈ ns, n.heightBy weight < (extra + 1) * n.size) :
    greatestBy weight ns + ns.length ≤ (extra + 1) * sizeList ns := by
  induction ns with
  | nil => simp [greatestBy, sizeList]
  | cons n rest ih =>
    obtain ⟨hfirst, hrest⟩ := List.forall_mem_cons.mp h
    have hothers := ih hrest
    rw [greatestBy, sizeList, Nat.mul_add, List.length_cons]
    omega

theorem heightBy_lt (hweight : ∀ form operands, weight form operands ≤ operands.length + extra)
    (n : Node) : n.heightBy weight < (extra + 1) * n.size := by
  induction n using Node.induction with
  | step form operands ih =>
    have hnode := hweight form operands
    have hoperands := greatestBy_add_length_le ih
    rw [heightBy_mk, size, Nat.mul_add]
    omega

end Script.Node

namespace Canonical

open Script Lowering

/-! ### Reducers with a weight -/

namespace Reducer

variable {σ : Type} {w : Reducer σ} {limit : Nat}

/-- Operands end, if each of them does. -/
theorem reduceEach_ne_unfinished {f : Node → σ → Progress σ Node} :
    ∀ {operands : List Node} {s : σ},
      (∀ o ∈ operands, ∀ s, (f o s).verdict ≠ .unfinished) →
      (reduceEach f operands s).verdict ≠ .unfinished
  | [], _, _ => nofun
  | n :: rest, s, h => by
    obtain ⟨hfirst, hrest⟩ := List.forall_mem_cons.mp h
    simp only [reduceEach]
    cases hverdict : (f n s).verdict with
    | settled c =>
      rw [Ne, Verdict.after_eq_unfinished]
      exact reduceEach_ne_unfinished hrest
    | failed e => exact fun h => by cases h
    | unfinished => exact absurd hverdict (hfirst s)

/-- A weight that is at least one and grows with the number of operands only, under which no
replacement is higher than what it replaces. -/
structure Moderate (w : Reducer σ) (weight : Form → List Node → Nat) (extra : Nat) : Prop where
  positive : ∀ form operands, 0 < weight form operands
  bounded : ∀ form operands, weight form operands ≤ operands.length + extra
  step : ∀ {n m : Node} {s s' : σ}, w.reduct? n s = (.ok (some m), s') →
    m.heightBy weight ≤ n.heightBy weight

namespace Moderate

variable {weight : Form → List Node → Nat} {extra : Nat} (hw : w.Moderate weight extra)
include hw

theorem settle (left : Nat) (changed : Bool) (n : Node) (s : σ) :
    (w.settle left changed n s).result.heightBy weight ≤ n.heightBy weight := by
  fun_induction Reducer.settle w left changed n s with
  | case1 | case2 | case3 | case4 => exact Nat.le_refl _
  | case5 _ _ _ _ _ hstep _ _ _ ih => exact Nat.le_trans ih (hw.step hstep)

theorem reduceTree (limit : Nat) : ∀ {budget : Nat} {n : Node} {s : σ},
    n.heightBy weight < budget → (w.reduceTree limit budget n s).verdict ≠ .unfinished := by
  intro budget
  induction budget with
  | zero => exact fun h => absurd h (Nat.not_lt_zero _)
  | succ budget ih =>
    intro n s h
    have hplace := hw.settle limit false n s
    by_cases hroot : ∃ c, (w.settle limit false n s).verdict = .settled c
    · obtain ⟨c, hc⟩ := hroot
      rw [verdict_reduceTree_of_settled hc, Ne, Verdict.after_eq_unfinished]
      generalize (w.settle limit false n s).result = root at hplace ⊢
      obtain ⟨form, operands⟩ := root
      refine reduceEach_ne_unfinished fun o ho s => ih ?_
      -- The operands are lower than the root, which is no higher than the node before.
      replace ho : o ∈ operands := ho
      have hpositive := hw.positive form operands
      have hlower := Node.add_heightBy_le weight form ho
      omega
    · rw [not_exists] at hroot
      rw [reduceTree_of_not_settled hroot]
      exact settle_ne_unfinished limit _ _ _

theorem heightBy_lt_levels (hextra : extra ≤ 7) (n : Node) : n.heightBy weight < levels n := by
  have hheight := Node.heightBy_lt hw.bounded n
  have hsize : (extra + 1) * n.size ≤ 8 * n.size := Nat.mul_le_mul_right _ (by omega)
  unfold levels
  omega

end Moderate

/-- A reduction that stops, and whose run is given enough levels: it comes to the end that every
larger budget leads to. -/
structure Terminates (w : Reducer σ) (limit : Nat) (n : Node) (s : σ) : Prop where
  stops : w.Stops limit n s
  ends : (w.reduceTree limit (levels n) n s).verdict ≠ .unfinished
  stable : ∀ budget ≥ levels n, w.reduceTree limit budget n s = w.reduceTree limit (levels n) n s

theorem Moderate.terminates (hw : w.Moderate weight extra) (hextra : extra ≤ 7) (n : Node) (s : σ) :
    w.Terminates limit n s := by
  have hends : (w.reduceTree limit (levels n) n s).verdict ≠ .unfinished :=
    hw.reduceTree limit (hw.heightBy_lt_levels hextra n)
  exact ⟨stops_iff_ends.mpr ⟨_, hends⟩, hends, fun _ hle => reduceTree_of_le hends hle⟩

end Reducer

/-! ### Calls -/

/-- Calls and accesses of properties count for as many levels as they have operands, and one more:
a chain of additions joins all arguments. -/
def callWeight : Form → List Node → Nat
  | .invocation .., operands => operands.length + 1
  | .propertyAccess _, operands => operands.length + 1
  | _, _ => 1

section

variable {c : Core} {r : Retyping} {m : Method} {operands : List Node} {result : Node} {k : Nat}

theorem callWeight_pos (form : Form) (operands : List Node) : 0 < callWeight form operands := by
  unfold callWeight
  split <;> omega

theorem callWeight_le (form : Form) (operands : List Node) :
    callWeight form operands ≤ operands.length + 1 := by
  unfold callWeight
  split <;> omega

theorem height_additions (type : Ty) : ∀ (rest : List Node) {left : Node} {a : Nat},
    left.heightBy callWeight ≤ a → (∀ o ∈ rest, o.heightBy callWeight ≤ a) →
    (rest.foldl (fun left right => .binary .add left right type) left).heightBy callWeight
      ≤ rest.length + a := by
  intro rest
  induction rest with
  | nil => exact fun hleft _ => by simpa using hleft
  | cons next rest ih =>
    intro left a hleft hrest
    obtain ⟨hnext, hrest⟩ := List.forall_mem_cons.mp hrest
    have hsum : (Node.binary .add left next type).heightBy callWeight ≤ 1 + a :=
      Node.heightBy_le (by simp [hleft, hnext])
    have hchain := ih hsum fun o ho => Nat.le_trans (hrest o ho) (by omega)
    rw [List.foldl_cons, List.length_cons]
    omega

theorem FilledWith.height {array : Node} {type : Ty} (h : FilledWith c r array type operands) :
    Node.heightBy callWeight ⟨.arrayLiteral type, operands⟩ ≤ 1 + 1 := by
  obtain ⟨kind, -, hconstants⟩ := h.constants
  refine Node.heightBy_le fun o ho => ?_
  obtain ⟨bytes, rfl⟩ := hconstants o ho
  exact Nat.le_of_eq (Node.heightBy_leaf _ _)

theorem NullableForm.height {target : Node} {fallback? : Option Node}
    (h : NullableForm c m target fallback? result) (htarget : target.heightBy callWeight ≤ k)
    (hfallback : ∀ n, fallback? = some n → n.heightBy callWeight ≤ k) :
    result.heightBy callWeight ≤ 2 + k := by
  have hconstant : ∀ l : Literal, (Node.literal l).heightBy callWeight ≤ k := by
    intro l
    have hleaf : (Node.literal l).heightBy callWeight = 1 := Node.heightBy_leaf _ _
    have hone := Node.one_le_heightBy callWeight_pos target
    omega
  have hpresence : ∀ nullable, (presence c nullable target).heightBy callWeight ≤ 1 + k := by
    intro nullable
    refine Node.heightBy_le ?_
    simp only [List.forall_mem_cons]
    exact ⟨htarget, hconstant _, nofun⟩
  have hunwrapped : ∀ underlying, (unwrapped underlying target).heightBy callWeight ≤ 1 + k := by
    intro underlying
    refine Node.heightBy_le ?_
    simp only [List.forall_mem_cons]
    exact ⟨htarget, nofun⟩
  cases h with
  | present => exact Nat.le_trans (hpresence _) (by omega)
  | value => exact Nat.le_trans (hunwrapped _) (by omega)
  | @valueOrDefault underlying =>
    have hdefault : (fallback?.getD (.defaultOf underlying)).heightBy callWeight ≤ k := by
      cases fallback? with
      | none => exact hconstant _
      | some n => exact hfallback n rfl
    have hchoice : (Node.ternary (presence c m.declaringType target)
        (unwrapped underlying target) (fallback?.getD (.defaultOf underlying))
        underlying).heightBy callWeight ≤ 1 + (1 + k) := by
      refine Node.heightBy_le ?_
      simp only [List.forall_mem_cons]
      exact ⟨hpresence _, hunwrapped _, by omega, nofun⟩
    omega

theorem CallForm.height {h : Hierarchy} (hform : CallForm h r m operands result)
    (hoperands : ∀ o ∈ operands, o.heightBy callWeight ≤ k) :
    result.heightBy callWeight ≤ operands.length + 1 + k := by
  cases hform with
  | equals | staticEquals | identity | typeOf =>
    simp only [List.forall_mem_cons] at hoperands
    refine Nat.le_trans (Node.heightBy_le (k := k) (by simp [hoperands])) ?_
    simp only [callWeight, List.length_cons]
    omega
  | static =>
    obtain ⟨hreceiver, harguments⟩ := List.forall_mem_cons.mp hoperands
    have hempty : Node.empty.heightBy callWeight = 1 := Node.heightBy_leaf _ _
    have hone := Nat.le_trans (Node.one_le_heightBy callWeight_pos _) hreceiver
    exact Node.heightBy_le (List.forall_mem_cons.mpr ⟨by omega, harguments⟩)
  | direct =>
    obtain ⟨hreceiver, harguments⟩ := List.forall_mem_cons.mp hoperands
    -- The target is lower than the delegate.
    have htarget := Nat.le_trans (Node.add_heightBy_le callWeight _ List.mem_cons_self) hreceiver
    exact Node.heightBy_le (List.forall_mem_cons.mpr ⟨by omega, harguments⟩)
  | delegate => exact Node.heightBy_le hoperands
  | newArray _ _ hfilled =>
    have hheight := hfilled.height
    simp only [List.length_cons]
    omega
  | @storedArray _ array _ element _ elements _ _ hfilled =>
    have hheight := hfilled.height
    simp only [List.forall_mem_cons] at hoperands
    have hassigned : (Node.binary .assign array ⟨.arrayLiteral element, elements⟩
        (array.computedType h.core r)).heightBy callWeight ≤ 1 + (2 + k) := by
      refine Node.heightBy_le ?_
      simp only [List.forall_mem_cons]
      exact ⟨by omega, by omega, nofun⟩
    simp only [List.length_cons]
    omega
  | @concat _ first second rest _ =>
    obtain ⟨-, hfirst, hothers⟩ :=
      (List.forall_mem_cons.mp hoperands).imp_right List.forall_mem_cons.mp
    have hchain := height_additions h.core.string (second :: rest) hfirst hothers
    simp only [List.length_cons, List.foldl_cons] at hchain ⊢
    omega
  | nullable hread =>
    obtain ⟨htarget, harguments⟩ := List.forall_mem_cons.mp hoperands
    have hheight := hread.height htarget fun o ho => harguments o (List.mem_of_head? ho)
    rw [List.length_cons]
    omega

end

theorem height_replaceCall? {h : Hierarchy} {r : Retyping} {n result : Node}
    (hreplace : replaceCall? h r n = some result) :
    result.heightBy callWeight ≤ n.heightBy callWeight := by
  have hreplaced := replaced_of_replaceCall? hreplace
  have hoperands := Node.heightBy_le_greatestBy callWeight n.operands
  cases hreplaced with
  | call hform =>
    rw [Node.heightBy_mk]
    exact hform.height hoperands
  | wrapped => exact Node.heightBy_le hoperands
  | property _ hread =>
    rw [Node.heightBy_mk]
    exact hread.height (hoperands _ List.mem_cons_self) nofun

theorem moderate_intrinsicForms (h : Hierarchy) (r : Retyping) :
    (Pass.intrinsicForms h r).Moderate callWeight 1 where
  positive := callWeight_pos
  bounded := callWeight_le
  step hstep := height_replaceCall? (Except.ok.inj (Prod.mk.inj hstep).1)

/-! ### Updates of properties -/

/-- Compound assignments count for four levels: a sequence, an assignment and an operation, and the
receiver that is filled in where there is none. -/
def updateWeight : Form → List Node → Nat
  | .binary op _, _ => if op.compoundBase?.isSome then 4 else 1
  | _, _ => 1

theorem updateWeight_pos (form : Form) (operands : List Node) : 0 < updateWeight form operands := by
  unfold updateWeight
  split
  · split <;> omega
  · omega

theorem updateWeight_le (form : Form) (operands : List Node) :
    updateWeight form operands ≤ operands.length + 4 := by
  unfold updateWeight
  split
  · split <;> omega
  · omega

section

variable {c : Core} {k : Nat}

theorem height_comma {expressions : List Node}
    (h : ∀ o ∈ expressions, o.heightBy updateWeight ≤ k) :
    (Node.comma expressions).heightBy updateWeight ≤ 1 + k := by
  unfold Node.comma
  split
  · next only =>
    have honly := h only List.mem_cons_self
    omega
  · exact Node.heightBy_le h

theorem height_ofVariable (v : Variable) (hk : 0 < k) :
    (Node.ofVariable v).heightBy updateWeight ≤ k := by
  rw [Node.ofVariable, Node.heightBy_leaf]
  exact hk

theorem height_binary (hop : op.compoundBase? = none) {left right : Node} (type : Ty)
    (hleft : left.heightBy updateWeight ≤ k) (hright : right.heightBy updateWeight ≤ k) :
    (Node.binary op left right type).heightBy updateWeight ≤ 1 + k := by
  have hweight : updateWeight (.binary op type) [left, right] = 1 := by
    rw [updateWeight, hop]
    rfl
  rw [← hweight]
  exact Node.heightBy_le (by simp [hleft, hright])

theorem height_spill (hk : 0 < k) : ∀ (operands : List Node) (isReceiver : Bool) (scope : Scope),
    (∀ o ∈ operands, o.heightBy updateWeight ≤ k) →
    (∀ o ∈ (spill c isReceiver operands scope).1.assignments, o.heightBy updateWeight ≤ 1 + k)
      ∧ ∀ o ∈ (spill c isReceiver operands scope).1.operands, o.heightBy updateWeight ≤ k
  | [], _, _, _ => ⟨nofun, nofun⟩
  | operand :: rest, isReceiver, scope, h => by
    obtain ⟨hoperand, hrest⟩ := List.forall_mem_cons.mp h
    simp only [spill]
    split
    · obtain ⟨hassignments, hoperands⟩ := height_spill hk rest false scope hrest
      exact ⟨hassignments, List.forall_mem_cons.mpr ⟨hoperand, hoperands⟩⟩
    · obtain ⟨hassignments, hoperands⟩ := height_spill hk rest false
        (scope.newTemporary (operand.computedType c scope.retyping)).2 hrest
      refine ⟨List.forall_mem_cons.mpr ⟨?_, hassignments⟩,
        List.forall_mem_cons.mpr ⟨height_ofVariable _ hk, hoperands⟩⟩
      exact height_binary rfl _ (height_ofVariable _ hk) hoperand

theorem height_accessOf (property : Property) {operands : List Node} (hk : 0 < k)
    (hoperands : ∀ o ∈ operands, o.heightBy updateWeight ≤ k) :
    (accessOf property operands).heightBy updateWeight ≤ 1 + k := by
  refine Node.heightBy_le (List.forall_mem_cons.mpr ⟨?_, fun o ho => ?_⟩)
  · cases operands with
    | nil => exact Nat.le_trans (Nat.le_of_eq (Node.heightBy_leaf _ _)) hk
    | cons first _ => exact hoperands first List.mem_cons_self
  · exact hoperands o (List.mem_of_mem_tail ho)

theorem height_updateSequence {property : Property} {operands : List Node} {value sequence : Node}
    {scope : Scope} {a : Nat} (hop : op.compoundBase? = none) (hk : 0 < k)
    (hoperands : ∀ o ∈ operands, o.heightBy updateWeight ≤ k) (hka : 1 + k ≤ a)
    (hvalue : value.heightBy updateWeight ≤ a)
    (h : (updateSequence c property op operands value scope).1 = .ok sequence) :
    sequence.heightBy updateWeight ≤ 3 + a := by
  obtain ⟨hassignments, hspilled⟩ := height_spill (c := c) hk operands true scope hoperands
  have haccess := height_accessOf property hk hspilled
  simp only [updateSequence] at h
  generalize accessOf property (spill c true operands scope).1.operands = access at h haccess
  split at h
  · next write hwrite =>
    obtain ⟨-, rfl⟩ := Node.eq_of_compoundAssign hwrite
    cases h
    generalize ((spill c true operands scope).2.newTemporary property.type).1 = v
    -- The operation, the assignment of its value, and the write of the property.
    have hoperation := height_binary hop property.type (Nat.le_trans haccess hka) hvalue
    have hassign : BinaryOp.assign.compoundBase? = none := rfl
    have hcompute := height_binary hassign property.type (height_ofVariable v (by omega)) hoperation
    have hwritten := height_binary hassign (access.computedType c
        ((spill c true operands scope).2.newTemporary property.type).2.retyping)
      (Nat.le_trans haccess (by omega : 1 + k ≤ 1 + a)) (height_ofVariable v (by omega))
    have hsequence := height_comma (k := 1 + (1 + a))
      (List.forall_mem_append.mpr ⟨fun o ho => Nat.le_trans (hassignments o ho) (by omega),
        List.forall_mem_cons.mpr ⟨hcompute, List.forall_mem_cons.mpr ⟨hwritten,
          List.forall_mem_singleton.mpr (height_ofVariable v (by omega))⟩⟩⟩)
    omega
  · cases h

theorem height_update {base : BinaryOp} (hop : op.compoundBase? = some base) (type : Ty)
    (property : Property) (operands : List Node) (value : Node) :
    5 + Node.greatestBy updateWeight operands ≤ Node.heightBy updateWeight
        ⟨.binary op type, [⟨.propertyAccess property, operands⟩, value]⟩
      ∧ 4 + value.heightBy updateWeight ≤ Node.heightBy updateWeight
        ⟨.binary op type, [⟨.propertyAccess property, operands⟩, value]⟩ := by
  have hupdate : ∀ operands, updateWeight (.binary op type) operands = 4 := by
    intro operands
    rw [updateWeight, hop]
    rfl
  have haccess : Node.heightBy updateWeight ⟨.propertyAccess property, operands⟩
      = 1 + Node.greatestBy updateWeight operands := Node.heightBy_mk _ _ _
  rw [Node.heightBy_mk, hupdate, Node.greatestBy, Node.greatestBy, Node.greatestBy, haccess]
  omega

end

theorem moderate_propertyUpdate (c : Core) : (propertyUpdate c).Moderate updateWeight 4 where
  positive := updateWeight_pos
  bounded := updateWeight_le
  step {n m s s'} hstep := by
    obtain ⟨op, type, property, operands, value, base, rfl, hbase, hsequence⟩ :=
      exists_of_propertyUpdate (congrArg Prod.fst hstep)
    obtain ⟨haccess, hvalue⟩ := height_update hbase type property operands value
    have hoperands := Node.heightBy_le_greatestBy updateWeight operands
    -- An access without operands is given an empty receiver, which is one level.
    generalize Node.greatestBy updateWeight operands = greatest at haccess hoperands
    have hreplaced := height_updateSequence (k := max 1 greatest)
      (a := max (1 + max 1 greatest) (value.heightBy updateWeight))
      (BinaryOp.compoundBase?_base hbase) (by omega)
      (fun o ho => Nat.le_trans (hoperands o ho) (by omega)) (by omega) (by omega) hsequence
    omega

/-! ### Casts -/

/-- Casts count for three levels, if they read an enumeration: its integer is read and cast, and the
cast may be to another enumeration, which is two levels. -/
def castWeight (c : Core) (r : Retyping) : Form → List Node → Nat
  | .cast target _, value :: _ =>
    if (value.computedType c r).enumUnderlying?.isSome then 3
    else if target.enumUnderlying?.isSome then 2
    else 1
  | _, _ => 1

/-- The height of a tree in which casts count for what they may become. -/
abbrev castHeight (h : Hierarchy) (r : Retyping) (n : Node) : Nat :=
  n.heightBy (castWeight h.core r)

section

variable {h : Hierarchy} {r : Retyping} {value : Node}

theorem castWeight_pos (c : Core) (r : Retyping) (form : Form) (operands : List Node) :
    0 < castWeight c r form operands := by
  unfold castWeight
  repeat' split
  all_goals omega

theorem castWeight_le (c : Core) (r : Retyping) (form : Form) (operands : List Node) :
    castWeight c r form operands ≤ operands.length + 3 := by
  unfold castWeight
  repeat' split
  all_goals omega

theorem height_innermost (kind : Primitive) (value : Node) :
    castHeight h r (innermost h.core r kind value) ≤ castHeight h r value := by
  refine innermost_of (p := (castHeight h r · ≤ castHeight h r value)) h.core r kind
    (fun {form operand rest} _ hle => ?_) (Nat.le_refl _)
  have hlower : _ + castHeight h r operand ≤ castHeight h r ⟨form, operand :: rest⟩ :=
    Node.add_heightBy_le _ form List.mem_cons_self
  omega

theorem castWeight_cast_le (value : Node) (target : Ty) (checked : Bool) :
    castWeight h.core r (.cast target checked) [value] ≤ 3 := by
  simp only [castWeight]
  repeat' split
  all_goals omega

theorem castWeight_le_two (target : Ty) (checked : Bool)
    (hvalue : (value.computedType h.core r).enumUnderlying? = none) :
    castWeight h.core r (.cast target checked) [value] ≤ 2 := by
  simp only [castWeight, hvalue]
  repeat' split
  all_goals simp_all

theorem height_cast (value : Node) (target : Ty) (checked : Bool) :
    castHeight h r (Node.cast value target checked)
      = castWeight h.core r (.cast target checked) [value] + castHeight h r value := by
  rw [Node.cast, castHeight, Node.heightBy_mk, Node.greatestBy, Node.greatestBy, Nat.max_zero]

theorem height_enumInteger (value : Node) (kind : Primitive) :
    castHeight h r (enumInteger h r value kind) ≤ castHeight h r value
      ∨ castHeight h r (enumInteger h r value kind) ≤ 1 + castHeight h r value
        ∧ ((enumInteger h r value kind).computedType h.core r).enumUnderlying? = none := by
  have hinner := height_innermost (h := h) (r := r) kind value
  have hreading := reading_enumInteger h r value kind
  generalize enumInteger h r value kind = integer at hreading
  cases hreading with
  | same _ => exact .inl hinner
  | ofEnum | changed _ => exact .inr ⟨Node.heightBy_le (by simpa using hinner), rfl⟩

theorem height_integerCast (value : Node) (kind : Primitive) (target : Ty) (checked : Bool) :
    castHeight h r ((enumInteger h r value kind).cast target checked)
      ≤ 3 + castHeight h r value := by
  rw [height_cast]
  rcases height_enumInteger (h := h) (r := r) value kind with hle | ⟨hle, htype⟩
  · have hweight := castWeight_cast_le (h := h) (r := r) (enumInteger h r value kind) target checked
    omega
  · have hweight := castWeight_le_two target checked htype
    omega

/-- A constant is not higher than any node. -/
theorem height_literal_le (l : Literal) (value : Node) :
    castHeight h r (Node.literal l) ≤ castHeight h r value := by
  have hleaf : castHeight h r (Node.literal l) = 1 := Node.heightBy_leaf _ _
  rw [hleaf]
  exact Node.one_le_heightBy (castWeight_pos h.core r) value

theorem Expansion.height_le {target : Ty} {checked : Bool} {m : Node}
    (hm : Expansion h r value target checked m) :
    castHeight h r m ≤ castHeight h r (Node.cast value target checked) := by
  have hpositive := castWeight_pos h.core r (.cast target checked) [value]
  have hliteral (l : Literal) := height_literal_le (h := h) (r := r) l value
  rw [height_cast]
  -- Most casts become one level above the value.
  have habove {form : Form} {operands : List Node}
      (hweight : castWeight h.core r form operands = 1)
      (hoperands : ∀ o ∈ operands, castHeight h r o ≤ castHeight h r value) :
      castHeight h r ⟨form, operands⟩
        ≤ castWeight h.core r (.cast target checked) [value] + castHeight h r value := by
    have hle : castHeight h r ⟨form, operands⟩ ≤ _ :=
      Node.heightBy_le hoperands
    omega
  have henum {kind : Primitive} (hkind : (value.computedType h.core r).enumUnderlying? = some kind) :
      castWeight h.core r (.cast target checked) [value] = 3 := by
    rw [castWeight, hkind]
    rfl
  cases hm with
  | same _ => omega
  | constant _ => exact Nat.le_trans (hliteral _) (by omega)
  | upcast _ _ | changed _ _ _ _ _ | conversion | call => exact habove rfl (by simp)
  | test _ _ => exact habove rfl (by simpa using hliteral _)
  | choice _ _ => exact habove rfl (by simpa using ⟨hliteral _, hliteral _⟩)
  | @integer kind hkind _ =>
    have hread := height_enumInteger (h := h) (r := r) value kind
    have hcast := henum hkind
    omega
  | @integerCast kind hkind =>
    rw [henum hkind]
    exact height_integerCast value kind target checked
  | @member kind hvalue htarget =>
    -- An integer is cast to the integer of the enumeration, and then made its member.
    have hcast : castWeight h.core r (.cast target checked) [value] = 2 := by
      simp [castWeight, hvalue, htarget]
    have hinteger : castHeight h r (Node.cast value (h.core.primitive kind) checked)
        = 1 + castHeight h r value := by
      rw [height_cast, castWeight, hvalue]
      rfl
    have hmember : castHeight h r
        (.conversion (.cast value (h.core.primitive kind) checked) .intToEnum target false)
          ≤ 1 + (1 + castHeight h r value) :=
      Node.heightBy_le (by simpa using Nat.le_of_eq hinteger)
    omega

end

theorem moderate_castExpansion (h : Hierarchy) (r : Retyping) (emulateInt64 : Bool) :
    (castExpansion h r emulateInt64).Moderate (castWeight h.core r) 3 where
  positive := castWeight_pos h.core r
  bounded := castWeight_le h.core r
  step {n m memo memo'} hstep := by
    obtain ⟨target, checked, value, rest, rfl, hm⟩ := expansion_of_reduct hstep
    have hresult := hm.height_le
    have hweight : castWeight h.core r (.cast target checked) [value]
        = castWeight h.core r (.cast target checked) (value :: rest) := rfl
    rw [height_cast, hweight] at hresult
    exact Nat.le_trans hresult (Node.add_heightBy_le _ _ List.mem_cons_self)

end Canonical

end ScriptLowering
