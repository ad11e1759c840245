import Decompiler.Machine.Atom

/-!
Conditions of branches and of comparisons whose outcome is stored.
-/

namespace Decompiler

inductive Test
  | always
  | never
  | equal
  | notEqual
  | lessSigned
  | greaterSigned
  | lessEqualSigned
  | greaterEqualSigned
  | lessUnsigned
  | greaterUnsigned
  | lessEqualUnsigned
  | greaterEqualUnsigned
  | zero
  | nonZero
  | truthy
  | falsy
  | lessZero
  | greaterZero
  | lessEqualZero
  | greaterEqualZero
  | floatEqual
  | floatNotEqual
  | floatLess
  | floatLessEqual
  | floatGreater
  | floatGreaterEqual
  | flagSet
  | flagClear
deriving DecidableEq, Inhabited, Repr

namespace Test

/-- The test that holds exactly when this one does not. -/
def negate : Test → Test
  | always => never
  | never => always
  | equal => notEqual
  | notEqual => equal
  | lessSigned => greaterEqualSigned
  | greaterEqualSigned => lessSigned
  | greaterSigned => lessEqualSigned
  | lessEqualSigned => greaterSigned
  | lessUnsigned => greaterEqualUnsigned
  | greaterEqualUnsigned => lessUnsigned
  | greaterUnsigned => lessEqualUnsigned
  | lessEqualUnsigned => greaterUnsigned
  | zero => nonZero
  | nonZero => zero
  | truthy => falsy
  | falsy => truthy
  | lessZero => greaterEqualZero
  | greaterEqualZero => lessZero
  | greaterZero => lessEqualZero
  | lessEqualZero => greaterZero
  | floatEqual => floatNotEqual
  | floatNotEqual => floatEqual
  | floatLess => floatGreaterEqual
  | floatGreaterEqual => floatLess
  | floatGreater => floatLessEqual
  | floatLessEqual => floatGreater
  | flagSet => flagClear
  | flagClear => flagSet

@[simp] theorem negate_negate (t : Test) : t.negate.negate = t := by cases t <;> rfl

/-- The number of operands that are written out. -/
def arity : Test → Nat
  | always | never | flagSet | flagClear => 0
  | zero | nonZero | truthy | falsy | lessZero | greaterZero | lessEqualZero
  | greaterEqualZero => 1
  | _ => 2

/-- Whether the test reads the float flag. -/
def readsFlag : Test → Bool
  | flagSet | flagClear => true
  | _ => false

/-- Whether the test compares floats, directly or through the flag. -/
def isFloat : Test → Bool
  | floatEqual | floatNotEqual | floatLess | floatLessEqual | floatGreater
  | floatGreaterEqual | flagSet | flagClear => true
  | _ => false

/-- Whether the test orders its operand against a zero that is not written out. -/
def comparesToZero : Test → Bool
  | lessZero | greaterZero | lessEqualZero | greaterEqualZero => true
  | _ => false

/-- The operator of the test in an s-expression. -/
def operator : Test → String
  | always => "#t"
  | never => "#f"
  | equal | floatEqual => "="
  | notEqual | floatNotEqual => "!="
  | lessSigned | lessZero | floatLess => "<"
  | greaterSigned | greaterZero | floatGreater => ">"
  | lessEqualSigned | lessEqualZero | floatLessEqual => "<="
  | greaterEqualSigned | greaterEqualZero | floatGreaterEqual => ">="
  | lessUnsigned => "<.u"
  | greaterUnsigned => ">.u"
  | lessEqualUnsigned => "<=.u"
  | greaterEqualUnsigned => ">=.u"
  | zero => "zero?"
  | nonZero => "nonzero?"
  | truthy => "truthy"
  | falsy => "not"
  | flagSet => "fcc"
  | flagClear => "not-fcc"

/-- The name of the test inside the long text of an operation. -/
def name : Test → String
  | always => "Always"
  | never => "Never"
  | equal => "Equal"
  | notEqual => "NotEqual"
  | lessSigned => "LessThanSigned"
  | greaterSigned => "GreaterThanSigned"
  | lessEqualSigned => "LessOrEqualSigned"
  | greaterEqualSigned => "GreaterOrEqualSigned"
  | lessUnsigned => "LessThanUnsigned"
  | greaterUnsigned => "GreaterThanUnsigned"
  | lessEqualUnsigned => "LessOrEqualUnsigned"
  | greaterEqualUnsigned => "GreaterOrEqualUnsigned"
  | zero => "Zero"
  | nonZero => "NonZero"
  | truthy => "Truthy"
  | falsy => "False"
  | lessZero => "LessThanZero"
  | greaterZero => "GreaterThanZero"
  | lessEqualZero => "LessOrEqualZero"
  | greaterEqualZero => "GreaterOrEqualZero"
  | floatEqual => "FloatEqual"
  | floatNotEqual => "FloatNotEqual"
  | floatLess => "FloatLessThan"
  | floatLessEqual => "FloatLessOrEqual"
  | floatGreater => "FloatGreaterThan"
  | floatGreaterEqual => "FloatGreaterOrEqual"
  | flagSet => "FloatFlagTrue"
  | flagClear => "FloatFlagFalse"

def all : List Test :=
  [always, never, equal, notEqual, lessSigned, greaterSigned, lessEqualSigned,
   greaterEqualSigned, lessUnsigned, greaterUnsigned, lessEqualUnsigned,
   greaterEqualUnsigned, zero, nonZero, truthy, falsy, lessZero, greaterZero,
   lessEqualZero, greaterEqualZero, floatEqual, floatNotEqual, floatLess,
   floatLessEqual, floatGreater, floatGreaterEqual, flagSet, flagClear]

def ofName? (s : String) : Option Test := all.find? fun t => t.name == s

end Test

structure Condition where
  test : Test
  args : List Atom
deriving DecidableEq, Inhabited, Repr

namespace Condition

def isAlways (c : Condition) : Bool := c.test == .always

def operandRegisters (c : Condition) : RegisterSet := Atom.registersOf c.args

/-- The registers that the condition reads, the float flag included. -/
def reads (c : Condition) : RegisterSet :=
  if c.test.readsFlag then c.operandRegisters.insert .fcc else c.operandRegisters

def text (c : Condition) : String :=
  "Condition \x7b kind: " ++ c.test.name ++ ", args: [" ++
    ", ".intercalate (c.args.map Atom.text) ++ "] \x7d"

end Condition

end Decompiler
