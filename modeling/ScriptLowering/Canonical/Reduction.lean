import ScriptLowering.Script.Checked

/-!
# Reduction of trees

A `Reducer` proposes a replacement for a node. `Reducer.reduceTree` applies it from the root
down: a place is replaced until no replacement is proposed, at most a given number of times, then
its operands follow. A replacement is validated before it takes its place. A failure stops the walk
and leaves the tree as far as it was reduced.
-/

namespace ScriptLowering.Canonical

open Script

/-- A rule on nodes that carries a state along. -/
structure Reducer (σ : Type) where
  name : String
  /-- The replacement for a node, if there is one. -/
  reduct? : Node → σ → Except Error (Option Node) × σ

/-- How a reduction ended. -/
inductive Verdict where
  /-- No place has a replacement left to try; tells whether something was replaced. -/
  | settled (changed : Bool)
  | failed (error : Error)
  /-- The budget was used up. -/
  | unfinished

namespace Verdict

/-- The verdict on a whole, of which a part that came before has settled. -/
def after (v : Verdict) (changed : Bool) : Verdict :=
  match v with
  | settled c => settled (changed || c)
  | v => v

end Verdict

/-- Something that is being reduced, with the state of the reducer. -/
structure Progress (σ α : Type) where
  result : α
  state : σ
  verdict : Verdict

namespace Reducer

variable {σ : Type}

/-- Replaces one node until no replacement is proposed, at most `left` times more. -/
def settle (w : Reducer σ) : Nat → Bool → Node → σ → Progress σ Node
  | left, changed, n, s =>
    match w.reduct? n s with
    | (.error e, s) => ⟨n, s, .failed e⟩
    | (.ok none, s) => ⟨n, s, .settled changed⟩
    | (.ok (some replacement), s) =>
      match left with
      | 0 => ⟨n, s, .failed (.reductionLimit w.name)⟩
      | left + 1 =>
        match replacement.validate with
        | .error e => ⟨n, s, .failed e⟩
        | .ok _ => w.settle left true replacement s

/-- Reduces nodes from left to right, up to the first that does not settle. -/
def reduceEach (f : Node → σ → Progress σ Node) : List Node → σ → Progress σ (List Node)
  | [], s => ⟨[], s, .settled false⟩
  | n :: rest, s =>
    let first := f n s
    match first.verdict with
    | .settled changed =>
      let others := reduceEach f rest first.state
      ⟨first.result :: others.result, others.state, others.verdict.after changed⟩
    | verdict => ⟨first.result :: rest, first.state, verdict⟩

/-- Reduces a tree of at most `budget` levels, each place at most `limit` times. -/
def reduceTree (w : Reducer σ) (limit : Nat) : Nat → Node → σ → Progress σ Node
  | 0, n, s => ⟨n, s, .unfinished⟩
  | budget + 1, n, s =>
    let root := w.settle limit false n s
    match root.verdict with
    | .settled changed =>
      let operands := reduceEach (w.reduceTree limit budget) root.result.operands root.state
      ⟨⟨root.result.form, operands.result⟩, operands.state, operands.verdict.after changed⟩
    | _ => root

/-- A number of levels that covers a tree and what the passes put in its places: each place becomes
at most a few levels, and a chain of operations at most as many as the call had arguments. -/
def levels (n : Node) : Nat :=
  8 * (n.size + 1)

/-- Reduces a tree and tells whether it changed. -/
def run (w : Reducer σ) (limit : Nat) (n : Node) (s : σ) :
    Except Error Bool × Node × σ :=
  let p := w.reduceTree limit (levels n) n s
  match p.verdict with
  | .settled changed => (.ok changed, p.result, p.state)
  | .failed e => (.error e, p.result, p.state)
  | .unfinished => (.error (.reductionLimit w.name), p.result, p.state)

end Reducer

/-- A reducer that replaces given nodes by others; of several entries for a node the first
counts. -/
def substitution (entries : List (Node × Node)) : Reducer Unit where
  name := "rules"
  reduct? n s := (.ok ((entries.find? (·.1 == n)).map (·.2)), s)

/-- A number of levels that covers every tree that a substitution leads to, unless a replacement
contains a node that leads to it again. -/
def substitutionLevels (entries : List (Node × Node)) (n : Node) : Nat :=
  n.size + Node.sizeList (entries.map (·.2)) + 1

end ScriptLowering.Canonical
