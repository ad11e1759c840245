import Decompiler.Machine.RegisterSet
import Decompiler.Number.Binary32
import Decompiler.Number.Word
import Decompiler.Text.Quoted

/-!
Operands of machine operations: register variables and constants.
-/

namespace Decompiler

/-- Whether an instruction reads or writes a register. -/
inductive Access
  | read
  | write
deriving DecidableEq, Inhabited, Repr

/-- One access of a register by one instruction. -/
structure Variable where
  register : Register
  access : Access
  site : Nat
deriving DecidableEq, Inhabited, Repr

namespace Variable

def read (r : Register) (site : Nat) : Variable := ⟨r, .read, site⟩

def write (r : Register) (site : Nat) : Variable := ⟨r, .write, site⟩

def isRead (v : Variable) : Bool := v.access == .read

/-- The register name, the instruction, and `r` or `w`. -/
def text (v : Variable) : String :=
  v.register.name ++ "@" ++ toString v.site ++ (if v.isRead then "r" else "w")

/-- The variable with a given text. -/
def ofText? (s : String) : Option Variable := do
  let [name, rest] := s.splitOn "@" | none
  let access ← [('r', Access.read), ('w', .write)].lookup (← rest.toList.getLast?)
  return ⟨← Register.ofName? name, access, ← (String.ofList rest.toList.dropLast).toNat?⟩

/-- Variables are ordered by register, then reads before writes, then by
instruction. -/
def before (v w : Variable) : Bool :=
  if v.register.index.val ≠ w.register.index.val then
    v.register.index.val < w.register.index.val
  else if v.access ≠ w.access then v.isRead
  else v.site < w.site

/-- Adds a variable to an ordered list without repetition. -/
def insertInto (v : Variable) : List Variable → List Variable
  | [] => [v]
  | w :: ws =>
    if v = w then w :: ws
    else if v.before w then v :: w :: ws
    else w :: insertInto v ws

/-- The variables of a list in order, each once. -/
def sorted (vs : List Variable) : List Variable :=
  vs.foldl (fun acc v => v.insertInto acc) []

end Variable

/-- An operand that cannot be divided further. -/
inductive Atom
  | var (v : Variable)
  | int (w : Word)
  | float (x : Binary32)
  /-- The address of a symbol. -/
  | symbol (name : String)
  /-- The value that a global symbol holds. -/
  | global (name : String)
  /-- The address of static data. -/
  | label (name : String)
  | nil
deriving DecidableEq, Inhabited, Repr

namespace Atom

def falsehood : Atom := .symbol "#f"

def truth : Atom := .symbol "#t"

def var? : Atom → Option Variable
  | var v => some v
  | _ => none

def register? (a : Atom) : Option Register := a.var?.map Variable.register

def word? : Atom → Option Word
  | int w => some w
  | _ => none

def isFalse (a : Atom) : Bool := a == falsehood

def isTrue (a : Atom) : Bool := a == truth

def isConstant (a : Atom) : Bool := a.var?.isNone

/-- The registers that a list of operands reads. -/
def registersOf (atoms : List Atom) : RegisterSet :=
  RegisterSet.ofList (atoms.filterMap register?)

/-- The form of an operand inside the long text of an operation. -/
def text : Atom → String
  | var v => "Var(" ++ v.text ++ ")"
  | int w => "Int(" ++ w.text ++ ")"
  | float x => "Float(" ++ x.text ++ ")"
  | symbol s => "SymbolPtr(" ++ quoted s ++ ")"
  | global s => "SymbolVal(" ++ quoted s ++ ")"
  | label s => "Label(" ++ quoted s ++ ")"
  | nil => "EmptyList"

end Atom

end Decompiler
