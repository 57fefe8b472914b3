import Mathlib.Data.List.Nodup
import Mathlib.Data.List.Perm.Subperm
import ScriptLowering.Ty.Registry

/-!
# The registry and its history

What a type system stores is a function of the descriptors that were brought to it, by whatever
calls. Under each full name it stores the first one, for good. The index by simple name has an entry
for each time that a stored descriptor was brought, the first time and every later time, so a stored
descriptor that is registered again is listed again.
-/

namespace ScriptLowering

namespace Descriptor

/-- The full name of the type. -/
def fullName (d : Descriptor) : String :=
  d.type.fullName

/-- Whether the definition of the type has a simple name. -/
def isCalled (name : String) (d : Descriptor) : Bool :=
  d.type.definition?.any (·.name == name)

/-- The entry of a descriptor in the index by simple name. -/
def entry? (d : Descriptor) : Option (String × Ty) :=
  d.type.definition?.map fun definition => (definition.name, d.type)

end Descriptor

namespace TypeSystem

/-! ### First descriptors -/

/-- The first descriptor with a full name. -/
def first? (past : List Descriptor) (name : String) : Option Descriptor :=
  past.find? (·.fullName == name)

/-- The first descriptor of each full name, in order. -/
def firsts : List Descriptor → List Descriptor
  | [] => []
  | d :: rest => d :: (firsts rest).filter (·.fullName != d.fullName)

/-- Whether a descriptor is the first one of its full name. -/
def isFirst (past : List Descriptor) (d : Descriptor) : Bool :=
  (first? past d.fullName).any (·.serial == d.serial)

/-- The first descriptors whose definition has a simple name, in order. -/
def firstsCalled (past : List Descriptor) (name : String) : List Descriptor :=
  (firsts past).filter (·.isCalled name)

/-- The first descriptors whose definition has a simple name, each for every time that it was
brought. -/
def listedAs (past : List Descriptor) (name : String) : List Descriptor :=
  past.filter fun d => d.isCalled name && isFirst past d

/-- The serial number of a descriptor tells which one it is. -/
def Identified (past : List Descriptor) : Prop :=
  ∀ d ∈ past, ∀ e ∈ past, d.serial = e.serial → d = e

variable {past : List Descriptor} {d : Descriptor} {name : String}

theorem find?_firsts (past : List Descriptor) (name : String) :
    (firsts past).find? (·.fullName == name) = first? past name := by
  unfold first?
  induction past with
  | nil => rfl
  | cons d rest ih =>
    rw [firsts]
    by_cases hname : d.fullName = name
    · rw [List.find?_cons_of_pos (by simp [hname]), List.find?_cons_of_pos (by simp [hname])]
    · rw [List.find?_cons_of_neg (by simp [hname]), List.find?_cons_of_neg (by simp [hname]), ← ih,
        List.find?_filter]
      -- Those that were left out have the name of `d`, which is another one.
      congr 1
      funext e
      by_cases he : e.fullName = name
      · simp [he, Ne.symm hname]
      · simp [he]

theorem firsts_append_singleton (past : List Descriptor) (d : Descriptor) :
    firsts (past ++ [d])
      = firsts past ++ if (first? past d.fullName).isSome then [] else [d] := by
  unfold first?
  induction past with
  | nil => rfl
  | cons e rest ih =>
    rw [List.cons_append, firsts, firsts, ih, List.filter_append, List.cons_append]
    congr 2
    by_cases hname : e.fullName = d.fullName
    · rw [List.find?_cons_of_pos (by simp [hname])]
      split <;> simp [hname]
    · rw [List.find?_cons_of_neg (by simp [hname])]
      split <;> simp [Ne.symm hname]

theorem firsts_sublist (past : List Descriptor) : (firsts past).Sublist past := by
  induction past with
  | nil => exact List.Sublist.refl _
  | cons d rest ih => exact List.Sublist.cons_cons _ (List.filter_sublist.trans ih)

theorem nodup_firsts (past : List Descriptor) : ((firsts past).map (·.fullName)).Nodup := by
  induction past with
  | nil => exact List.nodup_nil
  | cons d rest ih =>
    rw [firsts, List.map_cons, List.nodup_cons]
    refine ⟨fun hmem => ?_, ih.sublist (List.filter_sublist.map _)⟩
    obtain ⟨e, he, hname⟩ := List.mem_map.mp hmem
    have hother := (List.mem_filter.mp he).2
    simp [hname] at hother

theorem exists_first? (hd : d ∈ past) : ∃ e, first? past d.fullName = some e := by
  rw [← Option.isSome_iff_exists, first?, List.find?_isSome]
  exact ⟨d, hd, beq_self_eq_true _⟩

theorem first?_append_of_eq_some (h : first? past name = some d) (later : List Descriptor) :
    first? (past ++ later) name = some d := by
  unfold first? at h ⊢
  rw [List.find?_append, h, Option.some_or]

theorem first?_append_singleton_of_eq_none (h : first? past d.fullName = none) :
    first? (past ++ [d]) d.fullName = some d := by
  unfold first? at h ⊢
  rw [List.find?_append, h, Option.none_or, List.find?_cons_of_pos (by simp)]

theorem isFirst_append (hd : d ∈ past) (later : List Descriptor) :
    isFirst (past ++ later) d = isFirst past d := by
  obtain ⟨e, he⟩ := exists_first? hd
  rw [isFirst, isFirst, first?_append_of_eq_some he, he]

theorem filter_isFirst_append_singleton (past : List Descriptor) (d : Descriptor) :
    (past ++ [d]).filter (isFirst (past ++ [d]))
      = past.filter (isFirst past) ++ if isFirst (past ++ [d]) d then [d] else [] := by
  rw [List.filter_append]
  congr 1
  · exact List.filter_congr fun e he => isFirst_append he [d]
  · rw [List.filter_singleton, Bool.cond_eq_ite]

theorem isFirst_iff_mem_firsts (hpast : Identified past) (hd : d ∈ past) :
    isFirst past d = true ↔ d ∈ firsts past := by
  obtain ⟨e, he⟩ := exists_first? hd
  have hfound : (firsts past).find? (·.fullName == d.fullName) = some e := by
    rw [find?_firsts, he]
  have hmem : e ∈ firsts past := List.mem_of_find?_eq_some hfound
  have hname : e.fullName = d.fullName := by simpa using List.find?_some hfound
  rw [isFirst, he, Option.any_some, beq_iff_eq]
  constructor
  · intro hserial
    rw [← hpast e ((firsts_sublist past).subset hmem) d hd hserial]
    exact hmem
  · intro hfirst
    rw [List.inj_on_of_nodup_map (nodup_firsts past) hmem hfirst hname]

/-! ### What is stored -/

/-- A type system that stores the first descriptor of each full name of a past, and lists each one
for every time that it was brought. -/
structure Reflects (s : TypeSystem) (past : List Descriptor) : Prop where
  registered : s.registered = (firsts past).map fun d => (d.fullName, d)
  index : s.index = (past.filter (isFirst past)).filterMap Descriptor.entry?

variable {s : TypeSystem}

theorem Reflects.get? (hs : s.Reflects past) (name : String) : s.get? name = first? past name := by
  unfold TypeSystem.get?
  rw [hs.registered, ← find?_firsts]
  induction firsts past with
  | nil => rfl
  | cons d rest ih =>
    rw [List.map_cons, List.lookup_cons, List.find?_cons, ih, BEq.comm]

theorem registered_addToIndex (s : TypeSystem) (d : Descriptor) :
    (s.addToIndex d).registered = s.registered := by
  unfold addToIndex
  split <;> rfl

theorem index_addToIndex (s : TypeSystem) (d : Descriptor) :
    (s.addToIndex d).index = s.index ++ d.entry?.toList := by
  unfold addToIndex Descriptor.entry?
  cases d.type.definition? with
  | none => exact (List.append_nil _).symm
  | some definition => rfl

theorem Reflects.register (hs : s.Reflects past) (d : Descriptor) :
    (s.register d).1.Reflects (past ++ [d])
      ∧ first? (past ++ [d]) d.fullName = some (s.register d).2 := by
  have hget : s.get? d.type.fullName = first? past d.fullName := hs.get? d.fullName
  unfold TypeSystem.register
  rw [hget]
  cases hfirst : first? past d.fullName with
  | some stored =>
    -- The name is taken: nothing is stored, but the stored descriptor itself is listed once more.
    have hlater := first?_append_of_eq_some hfirst [d]
    have hsame : isFirst (past ++ [d]) d = (stored.serial == d.serial) := by
      rw [isFirst, hlater, Option.any_some]
    refine ⟨⟨?_, ?_⟩, hlater⟩
    · rw [firsts_append_singleton, hfirst, Option.isSome_some, if_pos rfl, List.append_nil,
        ← hs.registered]
      dsimp only
      split
      · exact registered_addToIndex s d
      · rfl
    · rw [filter_isFirst_append_singleton, hsame, List.filterMap_append, ← hs.index]
      dsimp only
      split
      · rw [index_addToIndex]
        rfl
      · exact (List.append_nil _).symm
  | none =>
    have hlater := first?_append_singleton_of_eq_none hfirst
    have hfirst' : isFirst (past ++ [d]) d = true := by
      rw [isFirst, hlater, Option.any_some, beq_self_eq_true]
    refine ⟨⟨?_, ?_⟩, hlater⟩
    · rw [firsts_append_singleton, hfirst, Option.isSome_none, if_neg Bool.false_ne_true,
        List.map_append, ← hs.registered]
      exact registered_addToIndex _ d
    · rw [filter_isFirst_append_singleton, hfirst', if_pos rfl, List.filterMap_append, ← hs.index]
      dsimp only
      rw [index_addToIndex]
      rfl

theorem entries_called (l : List Descriptor) (name : String) :
    ((l.filterMap Descriptor.entry?).filter (·.1 == name)).map (·.2)
      = (l.filter (·.isCalled name)).map (·.type) := by
  induction l with
  | nil => rfl
  | cons d rest ih =>
    unfold Descriptor.isCalled Descriptor.entry? at ih ⊢
    cases hdefinition : d.type.definition? with
    | none =>
      rw [List.filterMap_cons_none (by rw [hdefinition, Option.map_none]), ih,
        List.filter_cons_of_neg (by simp [hdefinition])]
    | some definition =>
      rw [List.filterMap_cons_some (by rw [hdefinition, Option.map_some])]
      by_cases hname : definition.name = name
      · rw [List.filter_cons_of_pos (by simp [hname]), List.map_cons, ih,
          List.filter_cons_of_pos (by simp [hdefinition, hname]), List.map_cons]
      · rw [List.filter_cons_of_neg (by simp [hname]), ih,
          List.filter_cons_of_neg (by simp [hdefinition, hname])]

theorem Reflects.getByName (hs : s.Reflects past) (name : String) :
    s.getByName name = (listedAs past name).map (·.type) := by
  unfold TypeSystem.getByName listedAs
  rw [hs.index, entries_called, List.filter_filter]

/-! ### Calls -/

/-- A call that brings a descriptor: an existing one, or a new definition with its base type. -/
inductive Call where
  | register (d : Descriptor)
  | define (build : Nat → Ty) (base? : Option Ty)

namespace Call

/-- The descriptor that a call brings. -/
def brings (s : TypeSystem) : Call → Descriptor
  | register d => d
  | define build _ => ⟨s.nextSerial, build s.nextSerial⟩

/-- The type system after a call. -/
def perform (s : TypeSystem) : Call → TypeSystem
  | register d => (s.register d).1
  | define build none => (s.define build).1
  | define build (some base) => ((s.define build).1.setBase (s.define build).2 base).1

end Call

/-- The type system after some calls. -/
def afterCalls (s : TypeSystem) (calls : List Call) : TypeSystem :=
  calls.foldl Call.perform s

/-- The descriptors that some calls bring, in order. -/
def broughtBy (s : TypeSystem) : List Call → List Descriptor
  | [] => []
  | call :: rest => call.brings s :: (call.perform s).broughtBy rest

/-- The descriptor of a type that is known by its definition. -/
def descriptorOf? (t : Ty) : Option Descriptor :=
  t.definition?.map fun d => ⟨d.id, t⟩

/-- The descriptors of the core types. -/
def coreDescriptors (c : Core) : List Descriptor :=
  c.all.filterMap descriptorOf?

theorem Reflects.setBase (hs : s.Reflects past) (t base : Ty) :
    (s.setBase t base).1.Reflects past := by
  unfold TypeSystem.setBase
  split
  · exact ⟨hs.registered, hs.index⟩
  · exact hs

theorem Reflects.define (hs : s.Reflects past) (build : Nat → Ty) :
    (s.define build).1.Reflects (past ++ [⟨s.nextSerial, build s.nextSerial⟩])
      ∧ (first? (past ++ [⟨s.nextSerial, build s.nextSerial⟩]) (build s.nextSerial).fullName).map
          (·.type) = some (s.define build).2 := by
  have hfresh : s.freshSerial.1.Reflects past := ⟨hs.registered, hs.index⟩
  obtain ⟨hreflects, hfirst⟩ := hfresh.register ⟨s.nextSerial, build s.nextSerial⟩
  refine ⟨hreflects, ?_⟩
  show (first? _ (Descriptor.fullName ⟨s.nextSerial, build s.nextSerial⟩)).map _ = _
  rw [hfirst]
  rfl

theorem Reflects.perform (hs : s.Reflects past) (call : Call) :
    (call.perform s).Reflects (past ++ [call.brings s]) := by
  cases call with
  | register d => exact (hs.register d).1
  | define build base? =>
    cases base? with
    | none => exact (hs.define build).1
    | some base => exact (hs.define build).1.setBase _ base

theorem Reflects.afterCalls (hs : s.Reflects past) (calls : List Call) :
    (s.afterCalls calls).Reflects (past ++ s.broughtBy calls) := by
  induction calls generalizing s past with
  | nil =>
    rw [broughtBy, List.append_nil]
    exact hs
  | cons call rest ih =>
    rw [broughtBy, List.append_cons]
    exact ih (hs.perform call)

theorem Reflects.foldl {f : TypeSystem → Ty → TypeSystem}
    (hf : ∀ {s past} (t : Ty), s.Reflects past →
      (f s t).Reflects (past ++ (descriptorOf? t).toList))
    (hs : s.Reflects past) (types : List Ty) :
    (types.foldl f s).Reflects (past ++ types.filterMap descriptorOf?) := by
  induction types generalizing s past with
  | nil =>
    rw [List.filterMap_nil, List.append_nil]
    exact hs
  | cons t rest ih =>
    have hrest := ih (hf t hs)
    rw [List.append_assoc] at hrest
    rw [List.foldl_cons, List.filterMap_cons]
    cases hd : descriptorOf? t <;> simpa [hd] using hrest

theorem reflects_ofCore (c : Core) : (ofCore c).Reflects (coreDescriptors c) := by
  have hempty : Reflects ⟨[], [], .ofCore c, c.all.length⟩ [] := ⟨rfl, rfl⟩
  unfold ofCore coreDescriptors
  rw [← List.nil_append (c.all.filterMap descriptorOf?)]
  refine Reflects.foldl (fun {s past} t hs => ?_) hempty c.all
  unfold descriptorOf?
  cases t.definition? with
  | none =>
    rw [Option.map_none, Option.toList_none, List.append_nil]
    exact hs
  | some d => exact (hs.register ⟨d.id, t⟩).1

/-! ### Listed once -/

section

variable (hpast : Identified past)
include hpast

theorem mem_listedAs : d ∈ listedAs past name ↔ d ∈ firstsCalled past name := by
  rw [listedAs, firstsCalled, List.mem_filter, List.mem_filter, Bool.and_eq_true]
  constructor
  · rintro ⟨hd, hname, hfirst⟩
    exact ⟨(isFirst_iff_mem_firsts hpast hd).mp hfirst, hname⟩
  · rintro ⟨hfirst, hname⟩
    have hd := (firsts_sublist past).subset hfirst
    exact ⟨hd, hname, (isFirst_iff_mem_firsts hpast hd).mpr hfirst⟩

theorem firstsCalled_sublist (name : String) :
    (firstsCalled past name).Sublist (listedAs past name) := by
  have hfirst : firstsCalled past name
      = (firsts past).filter fun d => d.isCalled name && isFirst past d := by
    refine List.filter_congr fun d hd => ?_
    rw [(isFirst_iff_mem_firsts hpast ((firsts_sublist past).subset hd)).mpr hd, Bool.and_true]
  rw [hfirst]
  exact (firsts_sublist past).filter _

theorem nodup_serials (name : String) : ((firstsCalled past name).map (·.serial)).Nodup := by
  have hnodup : (firstsCalled past name).Nodup :=
    List.Nodup.of_map _ ((nodup_firsts past).sublist (List.filter_sublist.map _))
  refine hnodup.map_on fun d hd e he => hpast d ?_ e ?_
  · exact (firsts_sublist past).subset (List.mem_of_mem_filter hd)
  · exact (firsts_sublist past).subset (List.mem_of_mem_filter he)

theorem count_listedAs (hd : d ∈ firstsCalled past name) :
    ((listedAs past name).map (·.serial)).count d.serial = past.countP (·.serial == d.serial) := by
  have hlisted := (mem_listedAs hpast).mpr hd
  rw [listedAs, List.mem_filter] at hlisted
  rw [List.count, List.countP_map, listedAs, List.countP_filter]
  refine List.countP_congr fun e he => ?_
  -- Whatever has the serial number of `d` is `d`, and so it is listed.
  rw [Bool.and_eq_true, Function.comp_apply, beq_iff_eq]
  refine ⟨And.left, fun hserial => ⟨hserial, ?_⟩⟩
  rw [hpast e he d hlisted.1 hserial]
  exact hlisted.2

theorem listed_once_iff (name : String) :
    (listedAs past name).map (·.type) = (firstsCalled past name).map (·.type)
      ↔ ∀ d ∈ firstsCalled past name, past.countP (·.serial == d.serial) = 1 := by
  have hsublist := firstsCalled_sublist hpast name
  constructor
  · intro htypes d hd
    -- A part of the same length is the whole.
    have hlength : (firstsCalled past name).length = (listedAs past name).length := by
      simpa using (congrArg List.length htypes).symm
    rw [← count_listedAs hpast hd, ← hsublist.eq_of_length hlength]
    exact List.count_eq_one_of_mem (nodup_serials hpast name) (List.mem_map_of_mem hd)
  · intro honce
    have hnodup : ((listedAs past name).map (·.serial)).Nodup := by
      rw [List.nodup_iff_count_le_one]
      intro serial
      by_cases hmem : serial ∈ (listedAs past name).map (·.serial)
      · obtain ⟨d, hd, rfl⟩ := List.mem_map.mp hmem
        have hfirst := (mem_listedAs hpast).mp hd
        exact Nat.le_of_eq ((count_listedAs hpast hfirst).trans (honce d hfirst))
      · rw [List.count_eq_zero_of_not_mem hmem]
        omega
    -- All that is listed is among the first ones, so there are no more listed than those.
    have hsubset : (listedAs past name).map (·.serial) ⊆ (firstsCalled past name).map (·.serial) :=
      List.map_subset _ fun d hd => (mem_listedAs hpast).mp hd
    have hle := (hnodup.subperm hsubset).length_le
    rw [List.length_map, List.length_map] at hle
    rw [hsublist.eq_of_length_le hle]

end

/-! ### All histories -/

/-- Whatever calls are made of the type system of some core types: under each full name it stores
the first descriptor that was brought, for good, and every call answers what is stored under the
name that it brings. By simple name it lists a stored descriptor for each time that it was brought.
So each one is listed once, in order of first registration, if and only if each was brought once. -/
theorem registry_follows_history (c : Core) (calls : List Call) :
    let s := (ofCore c).afterCalls calls
    let past := coreDescriptors c ++ (ofCore c).broughtBy calls
    s.registered.map (·.2) = firsts past
      ∧ (∀ name, s.get? name = first? past name)
      ∧ (∀ name d later, s.get? name = some d → (s.afterCalls later).get? name = some d)
      ∧ (∀ d, (s.register d).1.get? d.fullName = some (s.register d).2)
      ∧ (∀ build, ((s.define build).1.get? (build s.nextSerial).fullName).map (·.type)
          = some (s.define build).2)
      ∧ (∀ name, s.getByName name = (listedAs past name).map (·.type))
      ∧ (Identified past → ∀ name,
          (s.getByName name = (firstsCalled past name).map (·.type)
            ↔ ∀ d ∈ firstsCalled past name, past.countP (·.serial == d.serial) = 1)) := by
  intro s past
  have hs : s.Reflects past := (reflects_ofCore c).afterCalls calls
  refine ⟨?_, hs.get?, ?_, ?_, ?_, hs.getByName, ?_⟩
  · rw [hs.registered, List.map_map]
    exact List.map_id _
  · intro name d later hd
    rw [(hs.afterCalls later).get?]
    rw [hs.get?] at hd
    exact first?_append_of_eq_some hd _
  · intro d
    rw [(hs.register d).1.get?]
    exact (hs.register d).2
  · intro build
    rw [(hs.define build).1.get?]
    exact (hs.define build).2
  · intro hpast name
    rw [hs.getByName]
    exact listed_once_iff hpast name

/-- A class `App.Widget` with a definition number. -/
def widget (id : Nat) : Ty :=
  .named (.plain id "App" "Widget" (.ofFile "App") .classType)

/-- A class that is defined twice is stored and listed once. -/
theorem defined_twice_listed_once :
    let calls := [Call.define widget (some Core.standard.object), .define widget none]
    let s := (ofCore .standard).afterCalls calls
    let past := coreDescriptors .standard ++ (ofCore .standard).broughtBy calls
    Identified past
      ∧ (s.get? "App.Widget").map (·.serial) = some 35
      ∧ s.getByName "Widget" = (firstsCalled past "Widget").map (·.type)
      ∧ (s.getByName "Widget").length = 1 := by
  intro calls s past
  have hfacts : (past.map (·.serial)).Nodup
      ∧ (∀ d ∈ firstsCalled past "Widget", past.countP (·.serial == d.serial) = 1)
      ∧ (s.get? "App.Widget").map (·.serial) = some 35 ∧ (s.getByName "Widget").length = 1 := by
    decide +kernel
  obtain ⟨hserials, honce, hstored, hlength⟩ := hfacts
  have hpast : Identified past := fun d hd e he h => List.inj_on_of_nodup_map hserials hd he h
  obtain ⟨-, -, -, -, -, -, hlisted⟩ := registry_follows_history .standard calls
  exact ⟨hpast, hstored, (hlisted hpast "Widget").mpr honce, hlength⟩

/-- A class that is defined, and then registered again, is listed twice. -/
theorem registered_again_listed_twice :
    let s := (ofCore .standard).afterCalls [.define widget none, .register ⟨35, widget 35⟩]
    (s.get? "App.Widget").map (·.serial) = some 35
      ∧ (s.getByName "Widget").map (·.fullName) = ["App.Widget", "App.Widget"] := by
  decide +kernel

end TypeSystem

end ScriptLowering
