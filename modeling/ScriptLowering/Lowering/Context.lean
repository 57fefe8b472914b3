import ScriptLowering.Lowering.Scope
import ScriptLowering.Settings

/-!
# The state of lowering a method

A `Context` is what lowering keeps while it walks one method body: the variables, the constructs
that jumps can leave or continue, whether casts are inserted, and the depth of the walk.
-/

namespace ScriptLowering.Lowering

open Script

/-- A construct that encloses the current statement. -/
inductive JumpTarget where
  /-- A loop, by its index. -/
  | loop (index : Nat)
  | switch
  /-- A protected region, which jumps pass through. -/
  | region
  deriving DecidableEq

/-- The state of lowering a method. -/
structure Context where
  table : Table
  /-- The index of the next loop. -/
  nextLoop : Nat
  /-- The enclosing constructs, the innermost first. -/
  targets : List JumpTarget
  /-- Choices on casts in force, the latest first. -/
  autoCast : List Bool
  /-- The choice on casts when none is in force. -/
  autoCastDefault : Bool
  depth : Nat
  maxDepth : Nat

namespace Context

/-- The state before the first statement. -/
def start (autoCast : Bool) (maxDepth : Nat) : Context where
  table := .empty
  nextLoop := 0
  targets := []
  autoCast := []
  autoCastDefault := autoCast
  depth := 0
  maxDepth := maxDepth

/-- The variables by role, with the counters. -/
abbrev scope (c : Context) : Scope :=
  c.table.toScope

/-- Takes the next loop index. -/
def newLoop (c : Context) : Nat × Context :=
  (c.nextLoop, { c with nextLoop := c.nextLoop + 1 })

/-- Enters a construct. -/
def pushTarget (c : Context) (t : JumpTarget) : Context :=
  { c with targets := t :: c.targets }

/-- Leaves the innermost construct. -/
def popTarget (c : Context) : Context :=
  { c with targets := c.targets.tail }

/-- What a jump out of the innermost loop or switch leaves: a loop by its index, or a switch. -/
def breakTarget? (c : Context) : Option (Option Nat) :=
  c.targets.findSome? fun
    | .loop index => some (some index)
    | .switch => some none
    | .region => none

/-- The index of the innermost loop. -/
def continueTarget? (c : Context) : Option Nat :=
  c.targets.findSome? fun
    | .loop index => some index
    | _ => none

/-- Puts a choice on casts in force. -/
def pushAutoCast (c : Context) (enabled : Bool) : Context :=
  { c with autoCast := enabled :: c.autoCast }

/-- Takes the latest choice on casts back. -/
def popAutoCast (c : Context) : Context :=
  { c with autoCast := c.autoCast.tail }

/-- Whether casts are inserted. -/
def autoCastEnabled (c : Context) : Bool :=
  c.autoCast.head?.getD c.autoCastDefault

/-- Goes one level down. -/
def enter (c : Context) : Except Error Context :=
  if c.depth ≥ c.maxDepth then .error (.recursionLimit c.maxDepth)
  else .ok { c with depth := c.depth + 1 }

/-- Goes one level up. -/
def leave (c : Context) : Context :=
  { c with depth := c.depth - 1 }

end Context

end ScriptLowering.Lowering
