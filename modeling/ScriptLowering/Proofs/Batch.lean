import ScriptLowering.Proofs.Canonical.Declaration
import ScriptLowering.Proofs.Canonical.ConfinedPass
import ScriptLowering.Proofs.Canonical.WorkerPass
import ScriptLowering.Proofs.Lowering.Arising
import ScriptLowering.Proofs.Lowering.Worker

/-!
# Methods of a batch do not notice each other

The methods of a batch share what the session remembers. If different types and methods that arise in
the batch have different names, then every method comes out as it would alone, in a run of its own,
and the batch records what the single runs record (`batchRun_eq_map`), one method after another or in
parallel, whatever turns the workers of the methods take. Nothing depends on the order of the methods
but the order of the outcomes and of the diagnostics.
-/

namespace ScriptLowering

open Lowering Canonical

/-! ### Several methods -/

section

variable {env : Env} {V : Vocabulary env} {α : Type} {work : Cil.MethodBody → Session → α × Session}
  {bodies : List Cil.MethodBody} {s : Session}

theorem eachMethod_eq_map
    (h : ∀ b ∈ bodies, (∃ w : Worker α, w.run env = work b)
      ∧ ∀ s : Session, s.Faithful V → (work b s).2.Faithful V) (hs : s.Faithful V) :
    (eachMethod work bodies s).1 = bodies.map (fun b => (work b .start).1)
      ∧ (eachMethod work bodies s).2.diagnostics.entries = s.diagnostics.entries
        ++ bodies.flatMap fun b => (work b .start).2.diagnostics.entries := by
  induction bodies generalizing s with
  | nil => exact ⟨rfl, (List.append_nil _).symm⟩
  | cons b rest ih =>
    obtain ⟨⟨⟨w, hw⟩, hfaithful⟩, hrest⟩ := List.forall_mem_cons.mp h
    have hend := hfaithful s hs
    have hend' := hfaithful .start Memory.faithful_empty
    rw [← hw] at hend hend'
    obtain ⟨hresult, records, hentries, hentries'⟩ := w.run_eq hend hend'
    rw [hw] at hresult hentries hentries'
    obtain rfl : (work b .start).2.diagnostics.entries = records := hentries'
    obtain ⟨hresults, hrecords⟩ := ih hrest (hfaithful s hs)
    rw [eachMethod, List.map_cons, List.flatMap_cons]
    refine ⟨congrArg₂ List.cons hresult hresults, hrecords.trans ?_⟩
    rw [hentries, List.append_assoc]

theorem interleaved_eachMethod {workers : List (Worker α)}
    (h : workers.map (·.run env) = bodies.map work) :
    Interleaved env workers s (eachMethod work bodies s).1 (eachMethod work bodies s).2 := by
  induction bodies generalizing workers s with
  | nil =>
    rw [List.map_nil, List.map_eq_nil_iff] at h
    rw [h]
    exact .done []
  | cons b rest ih =>
    obtain ⟨w, others, rfl, hw, hothers⟩ := List.map_eq_cons_iff.mp h
    refine .first w ?_
    rw [hw]
    exact .beside (ih hothers)

end

/-! ### Batches -/

section

variable (env : Env) (bodies : List Cil.MethodBody)

/-- Different types that arise in a batch have different names, and so have different methods. -/
structure NamesApart : Prop where
  types : ∀ {t u : Ty}, Arises env bodies t → Arises env bodies u → t.fullName = u.fullName → t = u
  methods : ∀ {m m' : Method}, Called env bodies m → Called env bodies m' →
    m.fullName = m'.fullName → m = m'

variable {env bodies}

/-- What arises in a batch is a vocabulary. -/
def NamesApart.vocabulary (h : NamesApart env bodies) : Vocabulary env :=
  { arising env bodies with
    types_apart := h.types
    methods_apart := h.methods }

section

variable (h : NamesApart env bodies) (pipeline : Pipeline) {order : List Cil.MethodBody}
  (horder : ∀ b ∈ order, b ∈ bodies)
include h horder

theorem NamesApart.lowerAll_of_subset :
    (lowerAll env pipeline order .start).1
        = order.map (fun b => (lowerMethod env pipeline b .start).1)
      ∧ (lowerAll env pipeline order .start).2.diagnostics.entries
        = order.flatMap fun b => (lowerMethod env pipeline b .start).2.diagnostics.entries := by
  have hwork : ∀ b ∈ order, (∃ w : Worker Outcome, w.run env = lowerMethod env pipeline b)
      ∧ ∀ s : Session, s.Faithful h.vocabulary →
        (lowerMethod env pipeline b s).2.Faithful h.vocabulary :=
    fun b hb => ⟨exists_worker_lowerMethod env pipeline b, fun _ hs =>
      faithful_lowerMethod pipeline (arising_covers (horder b hb)) hs⟩
  exact eachMethod_eq_map (s := .start) hwork Memory.faithful_empty

theorem NamesApart.expects {workers : List (Worker Outcome)}
    (hworkers : workers.map (·.run env) = order.map (lowerMethod env pipeline)) :
    List.Forall₂ (·.Expects h.vocabulary .start) workers (order.map fun b =>
      ((lowerMethod env pipeline b .start).1,
        (lowerMethod env pipeline b .start).2.diagnostics.entries)) := by
  induction order generalizing workers with
  | nil =>
    rw [List.map_nil, List.map_eq_nil_iff] at hworkers
    rw [hworkers]
    exact .nil
  | cons b rest ih =>
    obtain ⟨w, others, rfl, hw, hothers⟩ := List.map_eq_cons_iff.mp hworkers
    obtain ⟨hb, hrest⟩ := List.forall_mem_cons.mp horder
    refine .cons ⟨fun s hs _ => ?_, by rw [hw], by rw [hw]; rfl⟩ (ih hrest hothers)
    rw [hw]
    exact faithful_lowerMethod pipeline (arising_covers hb) hs

theorem NamesApart.batchRun {outcomes : List Outcome} {session : Session}
    (hrun : BatchRun env pipeline order outcomes session) :
    outcomes = order.map (fun b => (lowerMethod env pipeline b .start).1)
      ∧ session.diagnostics.entries.Perm
        (order.flatMap fun b => (lowerMethod env pipeline b .start).2.diagnostics.entries) := by
  cases hrun with
  | sequential _ =>
    obtain ⟨houtcomes, hentries⟩ := h.lowerAll_of_subset pipeline horder
    exact ⟨houtcomes, .of_eq hentries⟩
  | parallel _ hworkers hturns =>
    have hends := h.expects pipeline horder hworkers
    obtain ⟨houtcomes, hentries⟩ := hturns.expects Memory.faithful_empty hends
    rw [List.map_map] at houtcomes
    rw [List.flatMap_map] at hentries
    exact ⟨houtcomes, hentries⟩

end

end

/-! ### Methods that share what is remembered -/

/-- A class of the program. -/
def programType : Ty :=
  .named (.plain 40 "App" "P" (.ofFile "One") .classType)

/-- The getter of a text. -/
def textGetter : Method where
  name := "get_Text"
  declaringType := programType
  returnType := Core.standard.string
  parameters := []
  genericArguments := []
  flags := { MethodFlags.empty with isStatic := true, hasSpecialName := true }

/-- A method that reads the text as an object. -/
def reader (name : String) : Cil.MethodBody :=
  let text : Cil.Variable := ⟨"text", Core.standard.object, .localSlot 0, false⟩
  let read : Cil.Expr := .plain .call (.method textGetter) []
  let cast : Cil.Expr := .plain .castclass (.type Core.standard.object) [read]
  { method :=
      { name := name
        declaringType := programType
        returnType := Core.standard.void
        parameters := []
        genericArguments := []
        flags := { MethodFlags.empty with isStatic := true } }
    this? := none
    parameters := []
    locals := [text]
    statements := [.expression (.plain .stloc (.var text) [cast])] }

theorem mentions_reader (name : String) :
    (reader name).mentions
      = [.type programType, .type Core.standard.void, .type Core.standard.object,
        .type Core.standard.object, .type Core.standard.object, .method textGetter] :=
  rfl

theorem called_reader {names : List String} {m : Method}
    (h : Called plainEnv (names.map reader) m) : m = textGetter := by
  cases h with
  | named hb hm =>
    obtain ⟨name, -, rfl⟩ := List.mem_map.mp hb
    simpa [mentions_reader] using hm
  | redirected hb hm hp => cases hp

/-- The types that readers start from. -/
def readerTypes : List Ty :=
  programType :: Core.standard.basic

theorem built_reader {names : List String} {t : Ty} (h : Arises plainEnv (names.map reader) t) :
    Ty.Built plainEnv.core (· ∈ readerTypes) t := by
  have hbasic : ∀ u ∈ Core.standard.basic, u ∈ readerTypes := fun u hu => List.mem_cons_of_mem _ hu
  have hprogram : Ty.Built plainEnv.core (· ∈ readerTypes) programType := .base List.mem_cons_self
  have hstring : Ty.Built plainEnv.core (· ∈ readerTypes) Core.standard.string :=
    .base (hbasic _ (by simp [Core.basic]))
  refine h.built ?_ ?_ ?_ ?_ ?_
  · exact hbasic
  · intro b hb u hu
    obtain ⟨name, -, rfl⟩ := List.mem_map.mp hb
    simp only [mentions_reader, List.mem_cons, Cil.Mention.type.injEq, reduceCtorEq, or_false,
      List.not_mem_nil] at hu
    rcases hu with rfl | rfl | rfl | rfl | rfl
    · exact hprogram
    all_goals exact .base (hbasic _ (by simp [Core.basic]))
  · intro m hm
    rw [called_reader hm]
    refine ⟨?_, ?_⟩
    · simp [Method.types, textGetter, hprogram, hstring]
    · rintro p ⟨⟩
      simp [Property.types, Method.types, textGetter, hprogram, hstring]
  · change ∀ u ∈ readerTypes, _
    decide +kernel
  · change ∀ u ∈ readerTypes, _
    decide +kernel

theorem namesApart_readers (names : List String) : NamesApart plainEnv (names.map reader) where
  types := by
    intro t u ht hu hname
    have hmarks : Ty.Built.Unmarked (· ∈ readerTypes) := by
      intro t ht b
      have hlast : ∀ t ∈ readerTypes, t.letters.getLast? ∉ ['&', '*', ']', '>'].map some := by
        decide +kernel
      exact fun h => hlast t ht (h ▸ by cases b <;> simp [Ty.Builder.mark])
    have hnames : (readerTypes.map Ty.letters).Nodup := by decide +kernel
    exact (built_reader ht).eq_of_letters_eq hmarks
      (fun _ _ ht hu h => List.inj_on_of_nodup_map hnames ht hu h) (built_reader hu)
      (congrArg String.toList hname)
  methods := by
    intro m m' hm hm' _
    rw [called_reader hm, called_reader hm']

end ScriptLowering
