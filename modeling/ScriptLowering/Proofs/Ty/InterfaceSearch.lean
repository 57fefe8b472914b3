import Mathlib.Data.Set.Finite.List
import Std.Data.HashSet.Lemmas
import ScriptLowering.Ty.Assignability

/-!
# How long a search for interfaces takes

A search visits an interface unless its name was seen. Visits are steps (`run_eq_iterate`), and
every step either drops an interface or finds a new name (`Recorded`). If the names that are found
are among `n` names, the search ends after the pending visits and `n` lists of interfaces more
(`Recorded.run_ends`).
-/

namespace ScriptLowering

theorem Hierarchy.length_interfacesOf_le (h : Hierarchy) : ∀ t : Ty,
    (h.interfacesOf t).length ≤ h.interfaces.length
  | .named d | .nested _ d => by
    rw [interfacesOf, declaredInterfaces, List.length_map]
    exact List.length_filter_le _ _
  | .inst generic _ => by
    rw [interfacesOf]
    split
    · rw [List.length_map, declaredInterfaces, List.length_map]
      exact List.length_filter_le _ _
    · exact Nat.zero_le _
  | .modified element _ _ | .pinned element => h.length_interfacesOf_le element
  | .array _ _ | .byRef _ | .pointer _ | .typeParam _ _ _ | .methodParam _ _ _ _ _
  | .functionPointer _ _ => Nat.zero_le _

namespace InterfaceSearch

variable {h : Hierarchy} {s : InterfaceSearch}

/-- Visits up to `n` interfaces. -/
def run (h : Hierarchy) : Nat → InterfaceSearch → InterfaceSearch
  | 0, s => s
  | n + 1, s => if s.pending.isEmpty then s else run h n (s.step h)

theorem step_of_nil (hs : s.pending = []) : s.step h = s := by
  rw [step, hs]

theorem run_eq_iterate (h : Hierarchy) (n : Nat) (s : InterfaceSearch) :
    run h n s = (step h)^[n] s := by
  induction n generalizing s with
  | zero => rfl
  | succ n ih =>
    rw [run, Function.iterate_succ_apply]
    split
    · next hempty =>
      have hnil := List.isEmpty_iff.mp hempty
      rw [step_of_nil hnil, Function.iterate_fixed (step_of_nil hnil)]
    · exact ih _

/-- A run that has ended stays as it is. -/
theorem run_of_le {n m : Nat} (hn : (run h n s).pending = []) (hm : n ≤ m) :
    run h m s = run h n s := by
  obtain ⟨k, rfl⟩ := Nat.exists_eq_add_of_le' hm
  rw [run_eq_iterate, run_eq_iterate, Function.iterate_add_apply, ← run_eq_iterate h n]
  exact Function.iterate_fixed (step_of_nil hn) k

theorem toEnd?_of_run {n : Nat} (hn : (run h n s).pending = []) :
    s.toEnd? h = some (run h n s) := by
  induction n generalizing s with
  | zero =>
    rw [run] at hn
    rw [toEnd?, if_pos (List.isEmpty_iff.mpr hn), run]
  | succ n ih =>
    rw [toEnd?, run]
    rw [run] at hn
    split
    · rfl
    · next hpending =>
      rw [if_neg hpending] at hn
      exact ih hn

theorem isSome_toEnd?_iff : (s.toEnd? h).isSome = true ↔ ∃ n, (run h n s).pending = [] := by
  constructor
  · intro hsome
    obtain ⟨last, hlast⟩ := Option.isSome_iff_exists.mp hsome
    refine toEnd?.partial_correctness h (fun s _ => ∃ n, (run h n s).pending = []) ?_ s last hlast
    intro toEnd? ih s last hlast
    split at hlast
    · next hempty => exact ⟨0, List.isEmpty_iff.mp hempty⟩
    · next hpending =>
      obtain ⟨n, hn⟩ := ih _ _ hlast
      exact ⟨n + 1, by rw [run, if_neg hpending]; exact hn⟩
  · rintro ⟨n, hn⟩
    rw [toEnd?_of_run hn, Option.isSome_some]

/-! ### What a step does -/

/-- A search that remembers the names that it found, and finds each name once. -/
structure Recorded (s : InterfaceSearch) : Prop where
  seen : ∀ name, s.seen.contains name = true ↔ ∃ i ∈ s.found, i.fullName = name
  distinct : (s.found.map Ty.fullName).Nodup

theorem recorded_ofPending (pending : List Ty) : (ofPending pending).Recorded where
  seen name := by simp [ofPending]
  distinct := List.nodup_nil

theorem step_cases (h : Hierarchy) (s : InterfaceSearch) : s.pending = [] ∧ s.step h = s
    ∨ ∃ next rest, s.pending = next :: rest
      ∧ (s.seen.contains next.fullName = true ∧ s.step h = { s with pending := rest }
        ∨ s.seen.contains next.fullName = false ∧ s.step h = ⟨(h.interfacesOf next).reverse ++ rest,
            next :: s.found, s.seen.insert next.fullName⟩) := by
  cases hpending : s.pending with
  | nil => exact .inl ⟨rfl, step_of_nil hpending⟩
  | cons next rest =>
    refine .inr ⟨next, rest, rfl, ?_⟩
    rw [step, hpending]
    cases hseen : s.seen.contains next.fullName with
    | true => exact .inl ⟨rfl, if_pos hseen⟩
    | false => exact .inr ⟨rfl, if_neg (by rw [hseen]; exact Bool.false_ne_true)⟩

theorem Recorded.step (hs : s.Recorded) : (s.step h).Recorded := by
  rcases s.step_cases h with ⟨-, heq⟩ | ⟨next, rest, -, ⟨-, heq⟩ | ⟨hnew, heq⟩⟩
  · rwa [heq]
  · rw [heq]
    exact ⟨hs.seen, hs.distinct⟩
  · rw [heq]
    refine ⟨fun name => ?_, ?_⟩
    · simp [Std.HashSet.contains_insert, hs.seen]
    · refine List.nodup_cons.mpr ⟨fun hmem => ?_, hs.distinct⟩
      obtain ⟨i, hi, hname⟩ := List.mem_map.mp hmem
      rw [(hs.seen _).mpr ⟨i, hi, hname⟩] at hnew
      cases hnew

theorem found_subset_of_le {n m : Nat} (hm : n ≤ m) : (run h n s).found ⊆ (run h m s).found := by
  rw [run_eq_iterate, run_eq_iterate]
  induction m, hm using Nat.le_induction with
  | base => exact List.Subset.refl _
  | succ m _ ih =>
    refine List.Subset.trans ih ?_
    rw [Function.iterate_succ_apply']
    rcases ((step h)^[m] s).step_cases h with ⟨-, heq⟩ | ⟨next, rest, -, ⟨-, heq⟩ | ⟨-, heq⟩⟩
    · rw [heq]
      exact List.Subset.refl _
    · rw [heq]
      exact List.Subset.refl _
    · rw [heq]
      exact List.subset_cons_self _ _

/-! ### Ends of searches -/

theorem Recorded.run_ends {n : Nat} (hs : s.Recorded) (names : List String)
    (hnames : ∀ m, ∀ i ∈ (run h m s).found, i.fullName ∈ names)
    (hn : s.pending.length + h.interfaces.length * (names.length - s.found.length) ≤ n) :
    (run h n s).pending = [] := by
  induction n generalizing s with
  | zero => exact List.length_eq_zero_iff.mp (by rw [run]; omega)
  | succ n ih =>
    have hrun : ∀ m, run h (m + 1) s = run h m (s.step h) := fun m => by
      rw [run_eq_iterate, run_eq_iterate, Function.iterate_succ_apply]
    rw [hrun]
    rcases s.step_cases h with ⟨hnil, heq⟩ | ⟨next, rest, hcons, hcases⟩
    · rw [heq, run_of_le (n := 0) hnil (Nat.zero_le _)]
      exact hnil
    refine ih hs.step (fun m => hrun m ▸ hnames (m + 1)) ?_
    rcases hcases with ⟨-, heq⟩ | ⟨-, heq⟩
    · -- A name that was found before only leaves the pending ones.
      rw [hcons, List.length_cons] at hn
      simp only [heq]
      omega
    · -- The name that was found is another one of the names.
      have hlength := h.length_interfacesOf_le next
      have hfound : s.found.length + 1 ≤ names.length := by
        have hsubset : (s.step h).found.map Ty.fullName ⊆ names := by
          intro name hname
          obtain ⟨i, hi, rfl⟩ := List.mem_map.mp hname
          exact hnames 1 i (hrun 0 ▸ hi)
        have hle := (List.subperm_of_subset (hs.step (h := h)).distinct hsubset).length_le
        simpa [heq] using hle
      have hleft : names.length - s.found.length = names.length - (s.found.length + 1) + 1 := by
        omega
      rw [hcons, List.length_cons, hleft, Nat.mul_succ] at hn
      simp only [heq, List.length_append, List.length_reverse, List.length_cons]
      omega

theorem finite_names (bound : Nat) : {name : String | name.length ≤ bound}.Finite := by
  have hletters : Finite Char :=
    Finite.of_injective (fun c : Char => c.val.toFin) fun _ _ h => Char.ext (UInt32.toFin_inj.mp h)
  refine ((List.finite_length_le Char bound).image String.ofList).subset fun name hname => ?_
  exact ⟨name.toList, by rwa [Set.mem_ofPred_eq, String.length_toList], String.ofList_toList⟩

theorem Recorded.ends_iff (hs : s.Recorded) :
    (∃ n, (run h n s).pending = [])
      ↔ ∃ bound, ∀ n, ∀ i ∈ (run h n s).found, i.fullName.length ≤ bound := by
  constructor
  · rintro ⟨n, hn⟩
    refine ⟨(((run h n s).found.map (·.fullName.length)).max?).getD 0, fun m i hi => ?_⟩
    have hfound : i ∈ (run h n s).found := by
      rcases Nat.le_total m n with hle | hle
      · exact found_subset_of_le hle hi
      · rwa [run_of_le hn hle] at hi
    exact List.le_max?_getD_of_mem (List.mem_map_of_mem hfound)
  · rintro ⟨bound, hbound⟩
    have hfinite := finite_names bound
    exact ⟨_, hs.run_ends hfinite.toFinset.toList
      (fun m i hi => by simpa using hbound m i hi) le_rfl⟩

end InterfaceSearch

namespace Hierarchy

/-- The search for the interfaces of some types, after `n` visits at most. -/
def visits (h : Hierarchy) (types : List Ty) (n : Nat) : InterfaceSearch :=
  InterfaceSearch.run h n (.ofPending (types.flatMap h.interfacesOf).reverse)

variable {h : Hierarchy} {types : List Ty}

theorem reachableInterfaces?_of_visits {n : Nat} (hn : (h.visits types n).pending = []) :
    h.reachableInterfaces? types = some (h.visits types n).found.reverse := by
  rw [reachableInterfaces?, InterfaceSearch.toEnd?_of_run hn]
  rfl

theorem isSome_reachableInterfaces?_iff :
    (h.reachableInterfaces? types).isSome = true ↔ ∃ n, (h.visits types n).pending = [] := by
  rw [reachableInterfaces?, Option.isSome_map, InterfaceSearch.isSome_toEnd?_iff]
  rfl

theorem implements_of_no_interfaces {target source : Ty}
    (hnone : (source :: h.baseChain source).flatMap h.interfacesOf = []) :
    h.implements target source = false := by
  have hend : (h.visits (source :: h.baseChain source) 0).pending = [] := by
    rw [visits, hnone]
    rfl
  rw [implements, reachableInterfaces?_of_visits hend]
  rfl

end Hierarchy

end ScriptLowering
