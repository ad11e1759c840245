import Decompiler.Machine.Routine
import Decompiler.Typing.TypeEnv

/-!
Type environments given by tables.  Variables are named after the definition they
refer to: `v1-2` is the third write of `v1`, and a read refers to the closest write
before it.  A variable without such a write is an input of the routine.
-/

namespace Decompiler

/-- Declared types, fields and strings.  Of several entries for one key the first
counts. -/
structure TypeTable where
  argTypes : List TypeName := []
  resultType : Option TypeName := none
  registerTypes : List (Register × TypeName) := []
  variableTypes : List (String × TypeName) := []
  fields : List ((String × Word) × FieldAccess) := []
  strings : List (String × String) := []
deriving Inhabited

def Routine.writeSites (r : Routine) (register : Register) : List Nat :=
  (List.range r.code.size).filter fun i =>
    (r.code[i]?.map fun instruction => instruction.op.writes.contains register).getD false

/-- The number of the definition that a variable refers to, none for an input of the
routine. -/
def Routine.definition? (r : Routine) (v : Variable) : Option Nat :=
  let sites := r.writeSites v.register
  match v.access with
  | .write => sites.findIdx? (· == v.site)
  | .read =>
    match (sites.filter (· < v.site)).length with
    | 0 => none
    | n + 1 => some n

/-- The name of a variable: register and definition, `arg0` and so on for arguments,
or the register alone. -/
def Routine.variableName (r : Routine) (v : Variable) : String :=
  match r.definition? v with
  | some n => v.register.name ++ "-" ++ toString n
  | none =>
    match v.register.argument? with
    | some n => "arg" ++ toString n
    | none => v.register.name

def Routine.argumentPosition? (r : Routine) (v : Variable) : Option Nat :=
  if (r.definition? v).isSome then none else v.register.argument?

/-- The type of a variable: by its name, as an argument, by its register, or `float`
for float registers. -/
def TypeTable.variableType (t : TypeTable) (r : Routine) (v : Variable) : Option TypeName :=
  t.variableTypes.lookup (r.variableName v)
    <|> ((r.argumentPosition? v).bind fun n => t.argTypes[n]?)
    <|> t.registerTypes.lookup v.register
    <|> (if v.register.isFloat then some .float else none)

/-- The environment that a table describes for a routine. -/
def TypeTable.env (t : TypeTable) (r : Routine) : TypeEnv where
  variableType := t.variableType r
  variableName := r.variableName
  resultType := t.resultType
  fieldAccess base offset _ := t.fields.lookup (base.name, offset)
  labelString label := t.strings.lookup label

end Decompiler
