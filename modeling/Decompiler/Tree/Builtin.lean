/-!
Operators of the reconstructed language and the names they are written with.
-/

namespace Decompiler

/-- An operator that is known by its meaning and not by a value. -/
inductive Builtin
  | toFloatRegister
  | toGeneralRegister
  | add
  | sub
  | mul
  | div
  | mod
  | abs
  | min
  | max
  | ash
  | sqrt
  | floatAbs
  | floatMin
  | floatMax
  | logAnd
  | logIor
  | logXor
  | logNor
  | logNot
  | shiftLeft
  | shiftRightArith
  | shiftRightLogic
  | setLess
  | setLessUnsigned
  | typeOf
  | addressOf
deriving DecidableEq, Inhabited, Repr

namespace Builtin

def name : Builtin → String
  | toFloatRegister => "gpr->fpr"
  | toGeneralRegister => "fpr->gpr"
  | add => "+"
  | sub => "-"
  | mul => "*"
  | div => "/"
  | mod => "mod"
  | abs => "abs"
  | min => "min"
  | max => "max"
  | ash => "ash"
  | sqrt => "sqrtf"
  | floatAbs => "fabs"
  | floatMin => "fmin"
  | floatMax => "fmax"
  | logAnd => "logand"
  | logIor => "logior"
  | logXor => "logxor"
  | logNor => "lognor"
  | logNot => "lognot"
  | shiftLeft => "shl"
  | shiftRightArith => "sar"
  | shiftRightLogic => "shr"
  | setLess => "set-on-less-than"
  | setLessUnsigned => "set-on-less-than-unsigned"
  | typeOf => "rtype-of"
  | addressOf => "&"

end Builtin

/-- The names that operators are written with. -/
def OperatorNames := Builtin → String

namespace OperatorNames

def standard : OperatorNames := Builtin.name

instance : Inhabited OperatorNames := ⟨standard⟩

def rename (names : OperatorNames) (b : Builtin) (name : String) : OperatorNames :=
  fun c => if c = b then name else names c

end OperatorNames

end Decompiler
