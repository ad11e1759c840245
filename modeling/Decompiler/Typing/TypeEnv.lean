import Decompiler.Machine.Atom

/-!
Types of values and the questions that reconstruction asks about them.
-/

namespace Decompiler

inductive TypeName
  | int
  | uint
  | float
  | symbol
  | object
  | named (name : String)
deriving DecidableEq, Inhabited, Repr

namespace TypeName

def ofName (name : String) : TypeName :=
  if name = "int" then int
  else if name = "uint" then uint
  else if name = "float" then float
  else if name = "symbol" then symbol
  else if name = "object" then object
  else named name

def name : TypeName → String
  | int => "int"
  | uint => "uint"
  | float => "float"
  | symbol => "symbol"
  | object => "object"
  | named name => name

def isInteger : TypeName → Bool
  | int | uint => true
  | _ => false

def isFloat : TypeName → Bool
  | float => true
  | _ => false

end TypeName

/-- The conversion that a value needs before it is used at another type. -/
inductive Coercion
  /-- The value is used as it is. -/
  | none
  /-- The number is converted. -/
  | numeric
  /-- The same bits are read in another way. -/
  | representational
deriving DecidableEq, Inhabited, Repr

/-- Equal types and the type `object` need no conversion, integers and floats a
numeric one, and all other pairs a representational one. -/
def standardCoercion (desired actual : TypeName) : Coercion :=
  if desired = actual ∨ desired = .object then .none
  else if (desired.isFloat && actual.isInteger) || (desired.isInteger && actual.isFloat) then
    .numeric
  else .representational

/-- A field inside a structure: the names that lead to it, and its type. -/
structure FieldAccess where
  path : List String
  type : Option TypeName
deriving DecidableEq, Inhabited, Repr

/-- What is known about names and types in a routine. -/
structure TypeEnv where
  variableType : Variable → Option TypeName
  variableName : Variable → String
  resultType : Option TypeName
  coercion : TypeName → TypeName → Coercion := standardCoercion
  /-- The field at a byte offset into a value of a type, for an access of a given size. -/
  fieldAccess : TypeName → Word → Nat → Option FieldAccess := fun _ _ _ => none
  /-- The string constant at a label. -/
  labelString : String → Option String := fun _ => none

end Decompiler
