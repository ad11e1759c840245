import Decompiler.Tree.Builtin

/-!
Settings of a reconstruction.
-/

namespace Decompiler

/-- A family of idioms that can be switched off. -/
inductive Idiom
  | abs
  | ash
  | typeOf
  | minMax
  | booleanMove
  | floatCompare
  | division
  | fieldAccess
deriving DecidableEq, Inhabited, Repr

structure Config where
  /-- The families in use. -/
  allows : Idiom → Bool := fun _ => true
  /-- How deeply regions may be nested. -/
  maxDepth : Nat := 256
  /-- Whether an assignment of the result at the end becomes the value of the routine. -/
  stripResult : Bool := true
  /-- Whether operands are cast to the types that operators expect. -/
  insertCasts : Bool := true
  names : OperatorNames := .standard
  /-- The line width of broken text. -/
  width : Nat := 100

namespace Config

def standard : Config := {}

instance : Inhabited Config := ⟨standard⟩

def reduced : Config := { allows := fun _ => false }

end Config

end Decompiler
