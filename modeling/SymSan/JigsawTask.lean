import Mathlib.Logic.Function.Basic
import SymSan.OrderedMaps
import SymSan.RgdAst

/-!
# Constraints and search tasks

A constraint is the AST of one comparison with the arguments of its compiled
function: input bytes, mapped from their offset to an argument index, and
constants. `finalize` aggregates the constraints of a task: every input offset
gets one cell, and the arguments of each constraint are mapped to the cells.

Conversions of strings to numbers, which introduce made-up inputs, and the size of
the argument array are left out.
-/

namespace JigsawTask

open RgdAst OrderedMaps

/-! ## Constraints -/

structure ArgMap where
  localMap : OrderedMap Nat
  /-- A symbolic argument with its cell, or a constant. -/
  inputArgs : List (Bool × Nat)
  /-- Initial values by offset. -/
  inputs : Nat → Option Nat
  /-- The length of a read at its first offset, 0 at the others. -/
  shapes : Nat → Option Nat

def ArgMap.empty : ArgMap := ⟨.empty, [], fun _ => none, fun _ => none⟩

/-- An input byte without an argument gets the next one. -/
def ArgMap.addInput (a : ArgMap) (offset value : Nat) : ArgMap :=
  match a.localMap.find offset with
  | some _ => a
  | none =>
    { a with
      localMap := a.localMap.insert offset a.inputArgs.length
      inputArgs := a.inputArgs ++ [(true, 0)]
      inputs := Function.update a.inputs offset ((a.inputs offset).or (some value)) }

def ArgMap.setShape (a : ArgMap) (offset shape : Nat) : ArgMap :=
  { a with shapes := Function.update a.shapes offset (some shape) }

def mapByte (buf : Nat → BitVec 8) (length offset : Nat) (a : ArgMap) (i : Nat) : ArgMap :=
  (a.addInput (offset + i) (buf (offset + i)).toNat).setShape (offset + i)
    (if i = 0 then length else 0)

def mapArg (buf : Nat → BitVec 8) (offset length : Nat) (a : ArgMap) : ArgMap :=
  (List.range length).foldl (mapByte buf length offset) a

def ArgMap.pushConst (a : ArgMap) (value : Nat) : ArgMap :=
  { a with inputArgs := a.inputArgs ++ [(false, value)] }

structure Constraint where
  ast : AstNode
  args : ArgMap

/-! ## Tasks -/

structure ConsMeta where
  inputArgs : List (Bool × Nat)
  comparison : AstKind
  /-- Runs of consecutive input bytes: first offset and length. -/
  i2sCandidates : List (Nat × Nat)

structure SearchTask where
  constraints : List (Constraint × ConsMeta)
  /-- The cells: offset and initial value. -/
  inputs : List (Nat × Nat)
  shapes : Nat → Option Nat
  /-- The constraints that a cell occurs in, those on memory comparisons left out. -/
  cmap : Nat → List Nat

/-- What `finalize` has aggregated so far. -/
structure Aggregate where
  symMap : Nat → Option Nat
  inputs : List (Nat × Nat)
  shapes : Nat → Option Nat
  cmap : Nat → List Nat

/-- The cell of an offset; the first constraint with the offset decides about its
initial value and shape. -/
def Aggregate.cell (g : Aggregate) (c : Constraint) (offset : Nat) : Option (Nat × Aggregate) :=
  match g.symMap offset with
  | some cell => some (cell, g)
  | none =>
    (c.args.inputs offset).bind fun value =>
    (c.args.shapes offset).map fun shape =>
      (g.inputs.length, { g with
        symMap := Function.update g.symMap offset (some g.inputs.length)
        inputs := g.inputs ++ [(offset, value)]
        shapes := Function.update g.shapes offset (some shape) })

/-- The loop over the inputs of one constraint. -/
structure Pass where
  aggregate : Aggregate
  inputArgs : List (Bool × Nat)
  candidates : List (Nat × Nat)
  lastOffset : Option Nat
  size : Nat

def isMemcmpKind (k : AstKind) : Bool := decide (k = .memcmp ∨ k = .memcmpN)

def mapInput (i : Nat) (c : Constraint) (comparison : AstKind) (s : Pass)
    (entry : Nat × Nat) : Option Pass :=
  (s.aggregate.cell c entry.1).map fun (cell, g) =>
    let cmap := if isMemcmpKind comparison then g.cmap
      else Function.update g.cmap cell (g.cmap cell ++ [i])
    let gap := match s.lastOffset with
      | some last => decide (last + 1 ≠ entry.1)
      | none => false
    { aggregate := { g with cmap := cmap }
      inputArgs := s.inputArgs.modify entry.2 fun arg => (arg.1, cell)
      candidates := if gap then
          s.candidates ++ [((s.lastOffset.getD 0) + 1 - s.size, s.size)]
        else s.candidates
      lastOffset := some entry.1
      size := if gap then 1 else s.size + 1 }

def mapInputs (i : Nat) (c : Constraint) (comparison : AstKind) :
    List (Nat × Nat) → Pass → Option Pass
  | [], s => some s
  | entry :: rest, s => (mapInput i c comparison s entry).bind (mapInputs i c comparison rest)

/-- The last run of consecutive bytes, which is empty if there is no input. -/
def Pass.lastRun (s : Pass) : Nat × Nat :=
  match s.lastOffset with
  | some last => (last + 1 - s.size, s.size)
  | none => (0, 0)

def finalizeConstraint (i : Nat) (c : Constraint) (comparison : AstKind) (g : Aggregate) :
    Option (ConsMeta × Aggregate) :=
  (mapInputs i c comparison c.args.localMap.entries ⟨g, c.args.inputArgs, [], none, 0⟩).map
    fun s => (⟨s.inputArgs, comparison, s.candidates ++ [s.lastRun]⟩, s.aggregate)

def finalizeFrom : Nat → List (Constraint × AstKind) → Aggregate →
    Option (List (Constraint × ConsMeta) × Aggregate)
  | _, [], g => some ([], g)
  | i, (c, comparison) :: rest, g =>
    (finalizeConstraint i c comparison g).bind fun (cm, g) =>
    (finalizeFrom (i + 1) rest g).map fun (metas, g) => ((c, cm) :: metas, g)

/-- `finalize`, for the constraints of a task with their relational operators. -/
def finalize (constraints : List (Constraint × AstKind)) : Option SearchTask :=
  (finalizeFrom 0 constraints ⟨fun _ => none, [], fun _ => none, fun _ => []⟩).map
    fun (metas, g) => ⟨metas, g.inputs, g.shapes, g.cmap⟩

end JigsawTask
