import Mathlib.Data.Finset.Card
import ScriptLowering.Lowering.Method
import ScriptLowering.Proofs.Computation
import ScriptLowering.Proofs.Lowering.Scope

/-!
# The tables of variables

While a method is lowered, variables are declared by name, met again by name, and made up as
temporaries, with a map of the names at hand. The lists and the counters are then handed over to the
lowered method, whose passes make up more temporaries and go through the lists for a free name.
-/

namespace ScriptLowering.Lowering

open Script

namespace Scope

variable {s s' : Scope} {name : String} {v : Variable}

/-! ### Free names -/

theorem lookup?_eq_none_iff : s.lookup? name = none ↔ name ∉ s.allVariables.map (·.name) := by
  simp only [lookup?, List.find?_eq_none, beq_iff_eq, List.mem_map, not_exists, not_and]

/-- The number in the name of a temporary, which starts with five other characters. -/
def temporaryNumber (name : String) : Nat :=
  Nat.ofDigitChars 10 (name.toList.drop 5) 0

/-- The number can be read off the name. -/
theorem temporaryNumber_temporaryName (number : Nat) :
    temporaryNumber (temporaryName number) = number := by
  have hchars : (temporaryName number).toList
      = ['$', 't', 'e', 'm', 'p'] ++ Nat.toDigits 10 number := by
    simp [temporaryName]
  rw [temporaryNumber, hchars]
  exact Nat.ofDigitChars_ten_toDigits

variable {taken : String → Bool}

theorem taken_of_freeNumber : ∀ {tries number : Nat},
    taken (temporaryName (freeNumber taken tries number)) = true →
    ∀ i ≤ tries, taken (temporaryName (number + i)) = true
  | 0, number, h, i, hi => by
    obtain rfl : i = 0 := by omega
    exact h
  | tries + 1, number, h, i, hi => by
    rw [freeNumber] at h
    split at h
    · next hused =>
      cases i with
      | zero => exact hused
      | succ i =>
        have hlater := taken_of_freeNumber h i (by omega)
        rw [Nat.add_assoc, Nat.add_comm 1 i] at hlater
        exact hlater
    · next hfree => exact absurd h hfree

theorem free_freeNumber (taken : String → Bool) (names : List String)
    (htaken : ∀ name, taken name = true → name ∈ names) (number : Nat) : taken (temporaryName (freeNumber taken names.length number)) = false := by
  rw [Bool.eq_false_iff]
  intro hused
  have hall := taken_of_freeNumber hused
  -- The names tried differ by their numbers, and are one more than there are names.
  have hcard := Finset.card_le_card_of_injOn (fun i => temporaryName (number + i))
    (s := Finset.range (names.length + 1)) (t := names.toFinset)
    (fun i hi => by
      rw [Finset.mem_coe, Finset.mem_range] at hi
      exact Finset.mem_coe.mpr (List.mem_toFinset.mpr (htaken _ (hall i (by omega)))))
    (fun i _ j _ h => by
      have hnumbers := congrArg temporaryNumber h
      simp only [temporaryNumber_temporaryName] at hnumbers
      omega)
  have hnames := List.toFinset_card_le names
  rw [Finset.card_range] at hcard
  omega

/-! ### Tables -/

/-- Tables of variables with distinct numbers and names, each variable in the list of its kind. -/
structure Apart (s : Scope) : Prop where
  ids : (s.allVariables.map (·.id)).Nodup
  names : (s.allVariables.map (·.name)).Nodup
  parameters : ∀ v ∈ s.allVariables, v ∈ s.parameters ↔ v.kind = .this ∨ v.kind = .parameter
  locals : ∀ v ∈ s.allVariables, v ∈ s.locals ↔ v.kind = .localVariable
  temporaries : ∀ v ∈ s.allVariables, v ∈ s.temporaries ↔ v.kind = .temporary
  /-- The numbers in use are below the next one. -/
  numbered : ∀ v ∈ s.allVariables, v.id < s.nextId

/-- One variable more, under a name that was free and under the next number, at the end of the list
of its kind and of no other. -/
structure Adds (s : Scope) (v : Variable) (s' : Scope) : Prop where
  free : ∀ w ∈ s.allVariables, w.name ≠ v.name
  number : v.id = s.nextId
  next : s'.nextId = s.nextId + 1
  parameters : s'.parameters = if v.isParameter then s.parameters ++ [v] else s.parameters
  locals : s'.locals = if v.kind = .localVariable then s.locals ++ [v] else s.locals
  temporaries : s'.temporaries = if v.kind = .temporary then s.temporaries ++ [v] else s.temporaries

/-- Later tables: each list has grown at its end, by variables under numbers that were not in use. -/
structure Extends (s s' : Scope) : Prop where
  parameters : s.parameters <+: s'.parameters
  locals : s.locals <+: s'.locals
  temporaries : s.temporaries <+: s'.temporaries
  above : ∀ v ∈ s'.allVariables, v ∉ s.allVariables → s.nextId ≤ v.id
  next : s.nextId ≤ s'.nextId

theorem mem_allVariables :
    v ∈ s.allVariables ↔ v ∈ s.parameters ∨ v ∈ s.locals ∨ v ∈ s.temporaries := by
  simp only [allVariables, List.mem_append, or_assoc]

namespace Extends

theorem refl (s : Scope) : s.Extends s :=
  ⟨List.prefix_rfl, List.prefix_rfl, List.prefix_rfl, fun _ hv hnew => absurd hv hnew, le_rfl⟩

/-- No variable is lost. -/
theorem subset (h : s.Extends s') : s.allVariables ⊆ s'.allVariables := by
  intro v hv
  rw [mem_allVariables] at hv ⊢
  exact hv.imp (fun h' => h.parameters.subset h')
    (Or.imp (fun h' => h.locals.subset h') fun h' => h.temporaries.subset h')

theorem trans {s₁ s₂ s₃ : Scope} (h : s₁.Extends s₂) (h' : s₂.Extends s₃) : s₁.Extends s₃ where
  parameters := h.parameters.trans h'.parameters
  locals := h.locals.trans h'.locals
  temporaries := h.temporaries.trans h'.temporaries
  above v hv hnew := by
    by_cases hmiddle : v ∈ s₂.allVariables
    · exact h.above v hmiddle hnew
    · exact h.next.trans (h'.above v hv hmiddle)
  next := h.next.trans h'.next

end Extends

/-- What every operation keeps: variables with distinct names and with numbers below the next one,
each in the list of its kind. -/
structure Kept (s : Scope) : Prop extends s.WellFormed where
  names : (s.allVariables.map (·.name)).Nodup
  locals : ∀ v ∈ s.locals, v.kind = .localVariable
  temporaries : ∀ v ∈ s.temporaries, v.kind = .temporary

theorem kept_empty : Scope.empty.Kept where
  toWellFormed := wellFormed_empty
  names := List.nodup_nil
  locals := nofun
  temporaries := nofun

theorem Kept.apart (h : s.Kept) : s.Apart := by
  have hparameters : ∀ v ∈ s.parameters, v.kind = .this ∨ v.kind = .parameter := by
    intro v hv
    have hkind := h.parameters v hv
    simpa [Variable.isParameter, or_comm] using hkind
  have hlocals := h.locals
  have htemporaries := h.temporaries
  refine ⟨h.distinct, h.names, fun v hv => ?_, fun v hv => ?_, fun v hv => ?_, h.numbered⟩ <;>
    rw [mem_allVariables] at hv <;> grind

/-- A name is found where a variable has it. -/
theorem Kept.lookup?_eq_some_iff (h : s.Kept) :
    s.lookup? name = some v ↔ v ∈ s.allVariables ∧ v.name = name := by
  constructor
  · intro hfind
    unfold lookup? at hfind
    exact ⟨List.mem_of_find?_eq_some hfind, by simpa using List.find?_some hfind⟩
  · rintro ⟨hv, rfl⟩
    cases hfind : s.lookup? v.name with
    | none => exact absurd (List.mem_map_of_mem hv) (lookup?_eq_none_iff.mp hfind)
    | some w =>
      -- Names are distinct, so that no other variable can be found first.
      have hw : w ∈ s.allVariables ∧ w.name = v.name := by
        unfold lookup? at hfind
        exact ⟨List.mem_of_find?_eq_some hfind, by simpa using List.find?_some hfind⟩
      rw [List.inj_on_of_nodup_map h.names hw.1 hv hw.2]

/-- A variable under a free name is added. -/
theorem adds_add (hfree : s.lookup? name = none) (kind : VariableKind) (type : Ty) :
    s.Adds (s.add name kind type).1 (s.add name kind type).2 where
  free w hw hname := lookup?_eq_none_iff.mp hfree (List.mem_map.mpr ⟨w, hw, hname⟩)
  number := rfl
  next := rfl
  parameters := by cases kind <;> rfl
  locals := by cases kind <;> rfl
  temporaries := by cases kind <;> rfl

theorem adds_addTemporary {number : Nat} (hfree : s.lookup? (temporaryName number) = none)
    (type : Ty) : s.Adds (s.addTemporary number type).1 (s.addTemporary number type).2 := by
  have hadds := adds_add hfree .temporary type
  exact ⟨hadds.free, hadds.number, hadds.next, hadds.parameters, hadds.locals, hadds.temporaries⟩

namespace Adds

variable (h : s.Adds v s')
include h

theorem perm : s'.allVariables.Perm (v :: s.allVariables) := by
  have hsame : s'.allVariables = (s.insert v).allVariables := by
    rw [allVariables, h.parameters, h.locals, h.temporaries, insert]
    cases hkind : v.kind <;> simp [allVariables, Variable.isParameter, hkind]
  rw [hsame]
  exact allVariables_insert s v

/-- Adding a variable keeps the tables. -/
theorem kept (hs : s.Kept) : s'.Kept where
  distinct := by
    rw [(h.perm.map _).nodup_iff, List.map_cons, List.nodup_cons, h.number]
    refine ⟨fun hmem => ?_, hs.distinct⟩
    obtain ⟨w, hw, hid⟩ := List.mem_map.mp hmem
    exact absurd (hs.numbered w hw) (hid ▸ Nat.lt_irrefl _)
  numbered w hw := by
    rw [h.next]
    rcases List.mem_cons.mp (h.perm.mem_iff.mp hw) with rfl | hold
    · rw [h.number]
      exact Nat.lt_succ_self _
    · exact Nat.lt_succ_of_lt (hs.numbered w hold)
  parameters w hw := by
    have hold := hs.parameters w
    rw [h.parameters] at hw
    grind
  others w hw := by
    have hold := hs.others w
    rw [h.locals, h.temporaries] at hw
    simp only [Variable.isParameter] at hold ⊢
    grind
  names := by
    rw [(h.perm.map _).nodup_iff, List.map_cons, List.nodup_cons]
    refine ⟨fun hmem => ?_, hs.names⟩
    obtain ⟨w, hw, hname⟩ := List.mem_map.mp hmem
    exact h.free w hw hname
  locals w hw := by
    have hold := hs.locals w
    rw [h.locals] at hw
    grind
  temporaries w hw := by
    have hold := hs.temporaries w
    rw [h.temporaries] at hw
    grind

/-- Adding a variable extends the tables. -/
theorem later : s.Extends s' where
  parameters := by rw [h.parameters]; split <;> simp
  locals := by rw [h.locals]; split <;> simp
  temporaries := by rw [h.temporaries]; split <;> simp
  above w hw hnew := by
    rcases List.mem_cons.mp (h.perm.mem_iff.mp hw) with rfl | hold
    · exact Nat.le_of_eq h.number.symm
    · exact absurd hold hnew
  next := by rw [h.next]; exact Nat.le_succ _

end Adds

/-- A lowered method adds a temporary. -/
theorem adds_newTemporary (s : Scope) (type : Ty) :
    s.Adds (s.newTemporary type).1 (s.newTemporary type).2 := by
  refine adds_addTemporary ?_ type
  have hfree := free_freeNumber (fun name => (s.lookup? name).isSome)
    (s.allVariables.map (·.name)) (fun name htaken => by
      by_contra hnone
      rw [lookup?_eq_none_iff.mpr hnone] at htaken
      cases htaken) s.nextTemporary
  rw [List.length_map] at hfree
  exact Option.not_isSome_iff_eq_none.mp (Bool.eq_false_iff.mp hfree)

/-- What a declaration of a variable gets: the variable of that name, and the tables as they are, or
a new one of the kind and type asked for. -/
inductive Declares (s : Scope) (name : String) (kind : VariableKind) (type : Ty) :
    Variable → Scope → Prop where
  | met {v : Variable} : v ∈ s.allVariables → v.name = name → Declares s name kind type v s
  | new {v : Variable} {s' : Scope} : s.Adds v s' → v.name = name → v.kind = kind →
    v.declaredType = type → Declares s name kind type v s'

/-- Why a declaration is refused: the variable of that name has another type, and is not a packed
array. -/
def Refuses (s : Scope) (h : Hierarchy) (name : String) (type : Ty) (e : Error) : Prop :=
  ∃ v ∈ s.allVariables, v.name = name ∧ h.same (s.typeOf v) type = false
    ∧ (s.typeOf v).isPackedArray = false ∧ e = .variableRedeclared name (s.typeOf v) type

/-- What a demand for a temporary gets. -/
structure MakesUp (s : Scope) (type : Ty) (v : Variable) (s' : Scope) : Prop where
  adds : s.Adds v s'
  kind : v.kind = .temporary
  type : v.declaredType = type

end Scope

/-! ### The map of names -/

namespace Table

variable {t t' : Table} {name : String} {v : Variable} {type : Ty}

/-- Tables whose map has the names of the lists, each once. -/
structure Kept (t : Table) : Prop extends t.toScope.Kept where
  agrees : ∀ name, t.find? name = t.lookup? name
  length : t.byName.length = t.allVariables.length

theorem kept_empty : Table.empty.Kept where
  toKept := Scope.kept_empty
  agrees _ := rfl
  length := rfl

theorem Kept.of_adds (h : t.Kept) (hadds : t.Adds v t'.toScope)
    (hmap : t'.byName = (v.name, v) :: t.byName) : t'.Kept where
  toKept := hadds.kept h.toKept
  agrees name := by
    refine Option.ext fun w => ?_
    rw [(hadds.kept h.toKept).lookup?_eq_some_iff, hadds.perm.mem_iff, List.mem_cons, find?, hmap,
      List.lookup_cons]
    by_cases hname : name = v.name
    · -- The new name stands for the new variable, and for no other.
      subst hname
      rw [beq_self_eq_true]
      constructor
      · rintro ⟨⟩
        exact ⟨.inl rfl, rfl⟩
      · rintro ⟨rfl | hw, hsame⟩
        · rfl
        · exact absurd hsame (hadds.free w hw)
    · rw [beq_false_of_ne hname]
      change t.find? name = some w ↔ _
      rw [h.agrees, h.toKept.lookup?_eq_some_iff]
      constructor
      · exact fun ⟨hw, hsame⟩ => ⟨.inr hw, hsame⟩
      · rintro ⟨rfl | hw, hsame⟩
        · exact absurd hsame.symm hname
        · exact ⟨hw, hsame⟩
  length := by
    rw [hmap, List.length_cons, h.length, hadds.perm.length_eq, List.length_cons]

theorem find?_eq_none_iff : t.find? name = none ↔ t.lookup? name = none := by
  rw [Scope.lookup?_eq_none_iff]
  constructor
  · intro hfind hmem
    obtain ⟨v, hv, rfl⟩ := List.mem_map.mp hmem
    exact t.named hv hfind
  · intro hfree
    by_contra hfind
    obtain ⟨v, hv⟩ := Option.ne_none_iff_exists'.mp hfind
    exact hfree (List.mem_map.mpr ⟨v, t.listed hv⟩)

theorem Kept.declare {h : Hierarchy} {kind : VariableKind} (ht : t.Kept)
    (hok : t.declare h name kind type = .ok (v, t')) :
    t.Declares name kind type v t'.toScope ∧ t'.Kept := by
  rcases declare_cases hok with ⟨hfind, rfl⟩ | ⟨hfree, rfl, rfl⟩
  · exact ⟨.met (t'.listed hfind).1 (t'.listed hfind).2, ht⟩
  · have hadds := Scope.adds_add (find?_eq_none_iff.mp hfree) kind type
    exact ⟨.new hadds rfl rfl rfl, ht.of_adds hadds rfl⟩

theorem refuses_of_declare {h : Hierarchy} {kind : VariableKind} {e : Error}
    (herror : t.declare h name kind type = .error e) : t.Refuses h name type e := by
  unfold Table.declare at herror
  split at herror
  · next v hfind =>
    simp only at herror
    split at herror
    · next hclash =>
      cases herror
      obtain ⟨hdiffers, hpacked⟩ := Bool.and_eq_true_iff.mp hclash
      obtain ⟨hv, hname⟩ := t.listed hfind
      exact ⟨v, hv, hname, Bool.not_eq_true' _ ▸ hdiffers, Bool.not_eq_true' _ ▸ hpacked, rfl⟩
    · cases herror
  · cases herror

theorem mem_of_isSome_find? (h : (t.find? name).isSome = true) : name ∈ t.byName.map (·.1) := by
  by_contra hnone
  have hfind : t.find? name = none := List.lookup_eq_none_iff.mpr fun entry hentry =>
    bne_iff_ne.mpr fun hname => hnone (hname ▸ List.mem_map_of_mem hentry)
  rw [hfind] at h
  cases h

/-- A temporary is added under a free name. -/
theorem adds_newTemporary (t : Table) (type : Ty) :
    t.Adds (t.newTemporary type).1 (t.newTemporary type).2.toScope := by
  refine Scope.adds_addTemporary (find?_eq_none_iff.mp ?_) type
  have hfree := Scope.free_freeNumber (fun name => (t.find? name).isSome) _
    (fun _ => mem_of_isSome_find?) t.nextTemporary
  rw [List.length_map] at hfree
  exact Option.not_isSome_iff_eq_none.mp (Bool.eq_false_iff.mp hfree)

theorem Kept.newTemporary (ht : t.Kept) (type : Ty) :
    t.MakesUp type (t.newTemporary type).1 (t.newTemporary type).2.toScope
      ∧ (t.newTemporary type).2.Kept :=
  ⟨⟨t.adds_newTemporary type, rfl, rfl⟩, ht.of_adds (t.adds_newTemporary type) rfl⟩

theorem Kept.newTemporary_eq (ht : t.Kept) (type : Ty) :
    (t.newTemporary type).1 = (t.toScope.newTemporary type).1
      ∧ (t.newTemporary type).2.toScope = (t.toScope.newTemporary type).2 := by
  have hnumber :
      Scope.freeNumber (fun name => (t.find? name).isSome) t.byName.length t.nextTemporary
        = Scope.freeNumber (fun name => (t.lookup? name).isSome) t.allVariables.length
            t.nextTemporary := by
    simp only [ht.agrees, ht.length]
  simp only [Table.newTemporary, Scope.newTemporary, hnumber]
  exact ⟨rfl, rfl⟩

end Table

/-! ### Demands -/

/-- Answers from the tables, and keeps what they become. -/
def Lower.fromTable (answer : Table → Except Error (Variable × Table)) : Lower Variable := do
  let (v, table) ← Lower.ofExcept (answer (← Lower.context).table)
  Lower.modifyTable fun _ => table
  return v

/-- What can be asked of the tables while a method is lowered. -/
inductive Demand where
  | declare (name : String) (kind : VariableKind) (type : Ty)
  /-- The variable for a variable of the method body. -/
  | resolve (v : Cil.Variable)
  | temporary (type : Ty)

namespace Demand

/-- The computation that serves a demand. -/
def serve (g : Lowerer) : Demand → Lower Node
  | declare name kind type =>
    return .ofVariable (← Lower.fromTable (·.declare g.env.types name kind type))
  | resolve v => return .ofVariable (← g.resolve v)
  | temporary type => Lower.newTemporary type

/-- The state after demands. Those after one that fails are served as well. -/
def serveAll (g : Lowerer) (demands : List Demand) (state : State) : State :=
  demands.foldl (fun state d => ((d.serve g).run state : Except Error Node × State).2) state

/-- What a demand makes of the tables. -/
def answer (h : Hierarchy) (d : Demand) (t : Table) : Except Error (Variable × Table) :=
  match d with
  | declare name kind type => t.declare h name kind type
  | resolve v => t.resolve h v
  | temporary type => .ok (t.newTemporary type)

/-- What a demand gets: a variable that is declared, or a temporary that is made up. -/
def Gets (d : Demand) (s : Scope) (v : Variable) (s' : Scope) : Prop :=
  match d with
  | declare name kind type => s.Declares name kind type v s'
  | resolve u => s.Declares u.name (Table.kindOfRole u.role) u.type v s'
  | temporary type => s.MakesUp type v s'

/-- Why a demand fails. A demand for a temporary does not. -/
def Fails (h : Hierarchy) (d : Demand) (s : Scope) (e : Error) : Prop :=
  match d with
  | declare name _ type => s.Refuses h name type e
  | resolve u => s.Refuses h u.name u.type e
  | temporary _ => False

/-- All demands are served in one way. -/
theorem serve_eq (g : Lowerer) (d : Demand) :
    d.serve g = do return .ofVariable (← Lower.fromTable (d.answer g.env.types)) := by
  cases d <;> rfl

variable {g : Lowerer} {d : Demand} {state : State}

theorem run_serve (g : Lowerer) (d : Demand) (state : State) :
    (∃ e, d.answer g.env.types state.context.table = .error e
        ∧ (d.serve g).run state = (.error e, state))
      ∨ ∃ v table, d.answer g.env.types state.context.table = .ok (v, table)
        ∧ (d.serve g).run state
          = (.ok (.ofVariable v), { state with context := { state.context with table } }) := by
  have hrun : (Lower.fromTable (d.answer g.env.types)).run state
      = (match d.answer g.env.types state.context.table with
        | .error e => (.error e, state)
        | .ok (v, table) => (.ok v, { state with context := { state.context with table } })) := by
    change ((Lower.ofExcept (d.answer g.env.types state.context.table) >>= _
      : Lower Variable).run state) = _
    cases d.answer g.env.types state.context.table <;> rfl
  rw [serve_eq, run_bind_eq, hrun]
  cases d.answer g.env.types state.context.table with
  | error e => exact .inl ⟨e, rfl, rfl⟩
  | ok result => exact .inr ⟨result.1, result.2, rfl, rfl⟩

/-- A demand that fails is refused. -/
theorem answer_fails {h : Hierarchy} {t : Table} {e : Error} (herror : d.answer h t = .error e) :
    d.Fails h t.toScope e := by
  cases d with
  | declare name kind type => exact Table.refuses_of_declare herror
  | resolve u => exact Table.refuses_of_declare herror
  | temporary type => cases herror

theorem answer_gets {h : Hierarchy} {t t' : Table} {v : Variable} (ht : t.Kept)
    (hok : d.answer h t = .ok (v, t')) : d.Gets t.toScope v t'.toScope ∧ t'.Kept := by
  cases d with
  | declare name kind type => exact ht.declare hok
  | resolve v => exact ht.declare hok
  | temporary type =>
    cases hok
    exact ht.newTemporary type

theorem Gets.extends {s s' : Scope} {v : Variable} (h : d.Gets s v s') : s.Extends s' := by
  cases d with
  | declare name kind type =>
    cases h with
    | met _ _ => exact .refl _
    | new hadds _ _ _ => exact hadds.later
  | resolve u =>
    cases h with
    | met _ _ => exact .refl _
    | new hadds _ _ _ => exact hadds.later
  | temporary type => exact h.adds.later

theorem kept_serve (hs : state.context.table.Kept) :
    ((d.serve g).run state : Except Error Node × State).2.context.table.Kept
      ∧ state.context.scope.Extends
        ((d.serve g).run state : Except Error Node × State).2.context.scope := by
  rcases run_serve g d state with ⟨e, -, hrun⟩ | ⟨v, table, hok, hrun⟩
  · rw [hrun]
    exact ⟨hs, .refl _⟩
  · rw [hrun]
    obtain ⟨hgets, hkept⟩ := answer_gets hs hok
    exact ⟨hkept, hgets.extends⟩

theorem kept_serveAll : ∀ (demands : List Demand) {state : State}, state.context.table.Kept →
    (serveAll g demands state).context.table.Kept
      ∧ state.context.scope.Extends (serveAll g demands state).context.scope
  | [], _, hs => ⟨hs, .refl _⟩
  | d :: rest, state, hs => by
    obtain ⟨hkept, hextends⟩ := kept_serve (g := g) (d := d) hs
    obtain ⟨hkept', hextends'⟩ := kept_serveAll rest hkept
    exact ⟨hkept', hextends.trans hextends'⟩

/-- Demands can be served in two parts. -/
theorem serveAll_append (g : Lowerer) (demands more : List Demand) (state : State) :
    serveAll g (demands ++ more) state = serveAll g more (serveAll g demands state) :=
  List.foldl_append

end Demand

/-- A method after further temporaries. -/
def Lowered.withTemporaries (m : Lowered) (types : List Ty) : Lowered :=
  types.foldl (fun m type => (m.newTemporary type).2) m

theorem Lowered.kept_withTemporaries : ∀ (types : List Ty) {m : Lowered}, m.scope.Kept →
    (m.withTemporaries types).scope.Kept ∧ m.scope.Extends (m.withTemporaries types).scope
  | [], _, hm => ⟨hm, .refl _⟩
  | type :: rest, m, hm => by
    have hadds := m.scope.adds_newTemporary type
    obtain ⟨hkept', hextends'⟩ :=
      kept_withTemporaries rest (m := (m.newTemporary type).2) (hadds.kept hm)
    exact ⟨hkept', hadds.later.trans hextends'⟩

theorem Lowered.withTemporaries_append (m : Lowered) (types more : List Ty) :
    m.withTemporaries (types ++ more) = (m.withTemporaries types).withTemporaries more :=
  List.foldl_append

/-- The method that demands lead to from the start of a lowering, after further temporaries. The
map of names is not handed over. -/
def Lowered.after (m : Lowered) (g : Lowerer) (start : State) (demands : List Demand)
    (types : List Ty) : Lowered :=
  { m with scope := (Demand.serveAll g demands start).context.scope }.withTemporaries types

/-- After every sequence of demands while a method is lowered, and of temporaries once the tables are
handed over, the tables of variables are apart, and names are found in the map just as in the lists.
A demand fails, because a variable of that name has another type, and leaves everything as it is; or
it gets the variable of that name; or it gets a variable that is added to the list of its kind under
a free name and the next number. So does a demand to the lowered method, and where the tables are
handed over, both would make up the same temporary. Tables extend those at every earlier moment, so
that a number is not used again. -/
theorem variable_tables_stay_apart (g : Lowerer) (autoCast : Bool) (maxDepth : Nat)
    (session : Session) (m : Lowered) (demands : List Demand) (types : List Ty) :
    let start : State := ⟨.start autoCast maxDepth, session⟩
    let state := Demand.serveAll g demands start
    let table := state.context.table
    let lowered := m.after g start demands types
    (table.toScope.Apart ∧ lowered.scope.Apart ∧ ∀ name, table.find? name = table.lookup? name)
      ∧ (∀ d : Demand,
          (∃ e, ((d.serve g).run state : Except Error Node × State) = (.error e, state)
            ∧ d.Fails g.env.types table.toScope e)
          ∨ ∃ v table',
            ((d.serve g).run state : Except Error Node × State)
                = (.ok (.ofVariable v), { state with context := { state.context with table := table' } })
              ∧ d.Gets table.toScope v table'.toScope)
      ∧ (∀ type, lowered.scope.MakesUp type (lowered.newTemporary type).1
          (lowered.newTemporary type).2.scope)
      ∧ (∀ type, (table.newTemporary type).1 = (table.toScope.newTemporary type).1
          ∧ (table.newTemporary type).2.toScope = (table.toScope.newTemporary type).2)
      ∧ (∀ more types', table.Extends (m.after g start (demands ++ more) types').scope)
      ∧ ∀ more, lowered.scope.Extends (m.after g start demands (types ++ more)).scope := by
  intro start state table lowered
  have hstart : start.context.table.Kept := Table.kept_empty
  obtain ⟨htable, -⟩ := Demand.kept_serveAll (g := g) demands hstart
  have hlowered : lowered.scope.Kept := (Lowered.kept_withTemporaries types htable.toKept).1
  refine ⟨⟨htable.toKept.apart, hlowered.apart, htable.agrees⟩, fun d => ?_,
    fun type => ⟨Scope.adds_newTemporary _ type, rfl, rfl⟩, htable.newTemporary_eq,
    fun more types' => ?_, fun more => ?_⟩
  · rcases Demand.run_serve g d state with ⟨e, herror, hrun⟩ | ⟨v, table', hok, hrun⟩
    · exact .inl ⟨e, hrun, Demand.answer_fails herror⟩
    · exact .inr ⟨v, table', hrun, (Demand.answer_gets htable hok).1⟩
  · obtain ⟨hkept, hextends⟩ := Demand.kept_serveAll (g := g) more htable
    rw [← Demand.serveAll_append] at hkept hextends
    exact hextends.trans (Lowered.kept_withTemporaries types' (m := { m with
      scope := (Demand.serveAll g (demands ++ more) start).context.scope }) hkept.toKept).2
  · rw [Lowered.after, Lowered.withTemporaries_append]
    exact (Lowered.kept_withTemporaries more hlowered).2

end ScriptLowering.Lowering
