import ScriptLowering.Proofs.Ty.Equivalence

/-!
# Types without modifiers and pins

Loose equality strips the modifiers and pins on the outside of a type each time it looks at one, and
strict equality compares them in a way of its own. Still the one is the other on erased types
(`Ty.agrees_erase`), whatever relates the owners of generic parameters: erasing a type leaves its
owners and enclosing types alone, and these are always compared loosely.
-/

namespace ScriptLowering

namespace Ty

/-! ### Erased types -/

theorem IsPlainDefinition.isBare_parts : ∀ {t p : Ty}, t.IsPlainDefinition → p ∈ t.parts →
    p.isBare = true
  | named _, p, _, hp => by
    rw [parts, List.mem_singleton] at hp
    rw [hp]
    rfl
  | nested outer _, p, h, hp => by
    rw [parts] at hp
    rcases List.mem_cons.mp hp with rfl | hp
    · rfl
    · exact h.outer.isBare_parts hp
  | array _ _, p, h, _ | byRef _, p, h, _ | pointer _, p, h, _ | modified _ _ _, p, h, _
  | pinned _, p, h, _ | inst _ _, p, h, _ | typeParam _ _ _, p, h, _
  | methodParam _ _ _ _ _, p, h, _ | functionPointer _ _, p, h, _ => by
    cases h.definition

mutual

theorem isBare_erase_parts : ∀ {t p : Ty}, t.hasDefinedOwners = true → p ∈ t.erase.parts →
    p.isBare = true
  | named _, p, _, hp | typeParam _ _ _, p, _, hp | methodParam _ _ _ _ _, p, _, hp => by
    rw [erase, parts, List.mem_singleton] at hp
    rw [hp]
    rfl
  | nested outer d, p, h, hp => by
    rw [erase] at hp
    exact IsPlainDefinition.isBare_parts ⟨rfl, h⟩ hp
  | pinned element, p, h, hp => by
    rw [erase] at hp
    rw [hasDefinedOwners] at h
    exact isBare_erase_parts h hp
  | modified element _ _, p, h, hp => by
    rw [erase] at hp
    rw [hasDefinedOwners, Bool.and_eq_true] at h
    exact isBare_erase_parts h.1 hp
  | array element _, p, h, hp | byRef element, p, h, hp | pointer element, p, h, hp => by
    rw [erase, parts] at hp
    rw [hasDefinedOwners] at h
    rcases List.mem_cons.mp hp with rfl | hp
    · rfl
    · exact isBare_erase_parts h hp
  | inst head rest, p, h, hp | functionPointer head rest, p, h, hp => by
    rw [erase, parts] at hp
    rw [hasDefinedOwners, Bool.and_eq_true] at h
    rcases List.mem_cons.mp hp with rfl | hp
    · rfl
    · rcases List.mem_append.mp hp with hp | hp
      · exact isBare_erase_parts h.1 hp
      · exact isBare_eraseAll_parts h.2 hp

theorem isBare_eraseAll_parts : ∀ {ts : List Ty} {p : Ty}, haveDefinedOwners ts = true →
    p ∈ partsAll (eraseAll ts) → p.isBare = true
  | [], p, _, hp => by
    rw [eraseAll, partsAll] at hp
    cases hp
  | t :: ts, p, h, hp => by
    rw [eraseAll, partsAll] at hp
    rw [haveDefinedOwners, Bool.and_eq_true] at h
    rcases List.mem_append.mp hp with hp | hp
    · exact isBare_erase_parts h.1 hp
    · exact isBare_eraseAll_parts h.2 hp

end

theorem erase_strip : ∀ t : Ty, t.strip.erase = t.erase :=
  ask_strip (fun _ _ _ => rfl) (fun _ => rfl)

/-! ### Loose agreement -/

section

variable {related : Ty → Ty → Bool}

theorem agrees_erase_of_bare {a : Ty}
    (h : ∀ u : Ty, u.isBare = true →
      agrees related a false u = agrees related a.erase true u.erase) (b : Ty) :
    agrees related a false b = agrees related a.erase true b.erase :=
  calc agrees related a false b = agrees related a false b.strip := (agrees_strip related a b).symm
    _ = agrees related a.erase true b.strip.erase := h b.strip (isBare_strip b)
    _ = agrees related a.erase true b.erase := by rw [erase_strip]

mutual

theorem agrees_erase : ∀ a b : Ty,
    agrees related a false b = agrees related a.erase true b.erase
  | modified element _ _, b | pinned element, b => by
    simp only [agrees, erase, Bool.false_eq_true, if_false]
    exact agrees_erase element b
  | named _, b | nested _ _, b | typeParam _ _ _, b | methodParam _ _ _ _ _, b => by
    refine agrees_erase_of_bare (fun u hbare => ?_) b
    cases u <;> simp_all [agrees, strip, erase, isBare, expandedParameter?]
  | array element _, b | byRef element, b | pointer element, b => by
    have ihelement := agrees_erase element
    refine agrees_erase_of_bare (fun u hbare => ?_) b
    cases u <;> simp_all [agrees, strip, erase, isBare]
  | inst head rest, b | functionPointer head rest, b => by
    have ihhead := agrees_erase head
    have ihrest := agreesList_erase rest
    refine agrees_erase_of_bare (fun u hbare => ?_) b
    cases u <;> simp_all [agrees, strip, erase, isBare]

theorem agreesList_erase : ∀ as bs : List Ty,
    agreesList related as false bs = agreesList related (eraseAll as) true (eraseAll bs)
  | [], bs => by cases bs <;> simp [agreesList, eraseAll]
  | a :: as, bs => by
    have ihhead := agrees_erase a
    have ihtail := agreesList_erase as
    cases bs <;> simp [agreesList, eraseAll, ihhead, ihtail]

end

mutual

/-- Types that agree strictly agree loosely. -/
theorem agrees_false_of_true : ∀ {a b : Ty}, agrees related a true b = true →
    agrees related a false b = true
  -- The modifiers of both types are dropped together.
  | modified element _ _, b, h | pinned element, b, h => by
    cases b <;> simp only [agrees, if_true, Bool.and_eq_true, Bool.false_eq_true] at h
    rw [agrees, if_neg Bool.false_ne_true, ← agrees_strip, strip, agrees_strip]
    exact agrees_false_of_true (by simp_all)
  | named _, b, h | nested _ _, b, h | typeParam _ _ _, b, h | methodParam _ _ _ _ _, b, h => by
    cases b <;> simp_all [agrees, strip, expandedParameter?]
  | array element _, b, h | byRef element, b, h | pointer element, b, h => by
    have ihelement {u : Ty} : agrees related element true u = true →
        agrees related element false u = true := agrees_false_of_true
    cases b <;> simp_all [agrees, strip]
  | inst head rest, b, h | functionPointer head rest, b, h => by
    have ihhead {u : Ty} : agrees related head true u = true →
        agrees related head false u = true := agrees_false_of_true
    have ihrest {us : List Ty} : agreesList related rest true us = true →
        agreesList related rest false us = true := agreesList_false_of_true
    cases b <;> simp_all [agrees, strip]

theorem agreesList_false_of_true : ∀ {as bs : List Ty}, agreesList related as true bs = true →
    agreesList related as false bs = true
  | [], bs, h => by cases bs <;> simp_all [agreesList]
  | a :: as, bs, h => by
    cases bs with
    | nil => simp [agreesList] at h
    | cons b bs =>
      simp only [agreesList, Bool.and_eq_true] at h ⊢
      exact ⟨agrees_false_of_true h.1, agreesList_false_of_true h.2⟩

end

end

end Ty

namespace Hierarchy

open Ty

theorem exists_equal_eq_agrees (h : Hierarchy) :
    ∃ related, ∀ (a b : Ty) (strict : Bool), h.equal a b strict = agrees related a strict b := by
  refine ⟨h.derives fun a b => h.equalUpTo 65535 a false b, fun a b strict => ?_⟩
  have hmax : maxCrossings = 65535 + 1 := rfl
  rw [equal, hmax, equalUpTo_succ]

/-- Types are loosely equal if and only if they are strictly equal when erased, and erased types
have no modifiers and pins at any depth where owners are definitions. Strictly equal types are
loosely equal. -/
theorem equal_loose_iff_erased_strict (h : Hierarchy) {a b : Ty} (ha : a.hasDefinedOwners = true)
    (hb : b.hasDefinedOwners = true) :
    (∀ p ∈ a.erase.parts ++ b.erase.parts, p.isBare = true)
      ∧ (h.equal a b false = true ↔ h.equal a.erase b.erase true = true)
      ∧ (h.equal a b true = true → h.equal a b false = true) := by
  obtain ⟨related, hequal⟩ := h.exists_equal_eq_agrees
  simp only [hequal]
  refine ⟨fun p hp => ?_, ?_, agrees_false_of_true⟩
  · rcases List.mem_append.mp hp with hp | hp
    · exact isBare_erase_parts ha hp
    · exact isBare_erase_parts hb hp
  · rw [agrees_erase]

/-- A generic list. -/
def listDefinition : Ty :=
  .named { Definition.plain 60 "App" "List" (.ofFile "App") .classType with
    genericParameters := ["T"] }

/-- A vector of lists, where the list and the type of its items are wrapped. -/
def vectorOfLists (wrapList wrapItem : Ty → Ty) : Ty :=
  .array (wrapList (.inst listDefinition [wrapItem (.typeParam listDefinition 0 none)])) 1

/-- Vectors of lists are loosely equal wherever modifiers and pins stand in them, and their erased
forms strictly. -/
theorem vectors_of_lists_equal :
    let h := Hierarchy.ofCore .standard
    let a := vectorOfLists (.modified · h.core.object true) .pinned
    let b := vectorOfLists id (.modified · h.core.object false)
    a.hasDefinedOwners = true ∧ b.hasDefinedOwners = true
      ∧ (∀ p ∈ a.erase.parts ++ b.erase.parts, p.isBare = true)
      ∧ h.equal a b true = false ∧ h.equal a b false = true
      ∧ h.equal a.erase b.erase true = true := by
  intro h a b
  have ha : a.hasDefinedOwners = true := by decide
  have hb : b.hasDefinedOwners = true := by decide
  have hloose : h.equal a b false = true := by decide +kernel
  obtain ⟨hbare, hiff, -⟩ := h.equal_loose_iff_erased_strict ha hb
  exact ⟨ha, hb, hbare, by decide +kernel, hloose, hiff.mp hloose⟩

end Hierarchy

end ScriptLowering
