import Decompiler.Fold.Cast
import Decompiler.Fold.Operand

/-!
Register-transfer expressions.
-/

namespace Decompiler

/-- The width that is left when a word is shifted up and down again by an amount. -/
def extensionWidth? (amount : Word) : Option Nat :=
  if amount = 32 then some 32
  else if amount = 48 then some 16
  else if amount = 56 then some 8
  else none

/-- The operand of a left shift by a constant amount. -/
def Pool.leftShifted? (p : Pool) (f : FormId) (amount : Word) : Option FormId :=
  match (p.single? f).map p.element with
  | some (.apply (.builtin .shiftLeft) [source, by']) =>
    match (p.single? by').map p.element with
    | some (.atom (.int w)) => if w = amount then some source else none
    | _ => none
  | _ => none

/-- The value of constant sums and differences. -/
def Expression.constant? : Expression → Option Word
  | ⟨.add, [.int a, .int b]⟩ => some (a + b)
  | ⟨.sub, [.int a, .int b]⟩ => some (a - b)
  | _ => none

/-- The label of an address in the static data of a routine. -/
def Expression.staticLabel? : Expression → Option String
  | ⟨.add, [.var base, .label name]⟩ => if base.register = .fp then some name else none
  | ⟨.add, [.label name, .var base]⟩ => if base.register = .fp then some name else none
  | _ => none

namespace Context

/-- Turns a pending division into its quotient or its remainder. -/
def foldDivision (cx : Context) (site : Nat) (e : ElementId) (remainder : Bool) :
    FoldM FormId := do
  match (← get).pool.element e with
  | .divide a b signed at' =>
    let args ← cx.forceInteger at' [a, b] signed
    let f ← FoldM.onPool fun p =>
      (p.replace e (.apply (.builtin (if remainder then .mod else .div)) args)).addForm [e]
    cx.noteForm .expressionFolded site f
    return f
  | _ => FoldM.onPool fun p => p.addForm [e]

/-- Reads the quotient or the remainder of the pending division. -/
def foldQuotient (cx : Context) (site : Nat) (v : Variable) : FoldM FormId := do
  if cx.config.allows .division then
    match ← FoldM.popDivision with
    | some e => cx.foldDivision site e (v.register == .hi)
    | none =>
      cx.note .warning site (v.register.name ++ " read without a pending division")
      cx.atomForm (.var v)
  else cx.atomForm (.var v)

def foldCopy (cx : Context) (site : Nat) (a : Atom) : FoldM FormId :=
  match a with
  | .var v =>
    if v.register = .hi ∨ v.register = .lo then cx.foldQuotient site v
    else cx.operand site a true
  | a => cx.operand site a true

/-- Evaluates constant sums and differences, and addresses of static data. -/
def foldConstant (cx : Context) (site : Nat) (e : Expression) : FoldM (Option FormId) := do
  match e.constant?, e.staticLabel? with
  | some w, _ =>
    let f ← cx.atomForm (.int w)
    cx.note .expressionFolded site w.text
    return some f
  | none, some name =>
    let f ← cx.atomForm (.label name)
    cx.noteForm .expressionFolded site f
    return some f
  | none, none => return none

/-- Two opposite shifts by an amount that leaves a half, a quarter or an eighth of a word
are a conversion to that width. -/
def foldExtension (cx : Context) (site : Nat) (amount : Atom) (value : FormId)
    (signed : Bool) : FoldM (Option FormId) := do
  let p := (← get).pool
  let shifted := amount.word?.bind fun w =>
    (extensionWidth? w).bind fun bits => (p.leftShifted? value w).map fun source => (bits, source)
  match shifted with
  | none => return none
  | some (bits, source) =>
    let name := (if signed then "int" else "uint") ++ toString bits
    let f ← FoldM.addSingle (.cast (.ofName name) source true)
    cx.noteForm .expressionFolded site f
    return some f

/-- A shift to the right, or the conversion that it completes. -/
def shiftRight (cx : Context) (site : Nat) (atoms : List Atom) (args : List FormId)
    (signed : Bool) : FoldM FormId := do
  match ← cx.foldExtension site (atoms.getD 1 default) (args.headD default) signed with
  | some f => return f
  | none => FoldM.applyBuiltin (if signed then .shiftRightArith else .shiftRightLogic) args

/-- Applies an operator whose operands must agree in signedness. -/
def applyMatching (cx : Context) (site : Nat) (b : Builtin) (args : List FormId) :
    FoldM FormId := do
  FoldM.applyBuiltin b (← cx.matchOperands site args)

/-- Moves between register banks show only when the value is not known to be a float. -/
def applyBankMove (cx : Context) (b : Builtin) (args : List FormId) : FoldM FormId := do
  let source := args.headD default
  if (← cx.formType source) = some .float then return source
  FoldM.applyBuiltin b args

def applyOperator (cx : Context) (site : Nat) (e : Expression) (args : List FormId) :
    FoldM FormId := do
  let first := args.headD default
  match e.operator with
  | .identity => return first
  | .toFloatRegister => cx.applyBankMove .toFloatRegister args
  | .toGeneralRegister => cx.applyBankMove .toGeneralRegister args
  | .add => cx.applyMatching site .add args
  | .sub =>
    if (e.args.getD 0 default).word? = some 0 then
      FoldM.applyBuiltin .sub [args.getD 1 default]
    else cx.applyMatching site .sub args
  | .and => cx.applyMatching site .logAnd args
  | .or => cx.applyMatching site .logIor args
  | .xor => cx.applyMatching site .logXor args
  | .nor =>
    if (e.args.getD 1 default).word? = some 0 then FoldM.applyBuiltin .logNot [first]
    else cx.applyMatching site .logNor args
  | .mulSigned => FoldM.applyBuiltin .mul (← cx.forceInteger site args true)
  | .mulUnsigned => FoldM.applyBuiltin .mul (← cx.forceInteger site args false)
  | .neg | .negFloat | .subFloat => FoldM.applyBuiltin .sub args
  | .addFloat => FoldM.applyBuiltin .add args
  | .mulFloat => FoldM.applyBuiltin .mul args
  | .divFloat => FoldM.applyBuiltin .div args
  | .minFloat => FoldM.applyBuiltin .floatMin args
  | .maxFloat => FoldM.applyBuiltin .floatMax args
  | .absFloat => FoldM.applyBuiltin .floatAbs args
  | .sqrtFloat => FoldM.applyBuiltin .sqrt args
  | .intToFloat => FoldM.addSingle (.cast .float first true)
  | .floatToInt => FoldM.addSingle (.cast .int first true)
  | .not => FoldM.applyBuiltin .logNot args
  | .shiftLeft => FoldM.applyBuiltin .shiftLeft args
  | .shiftRightArith => cx.shiftRight site e.args args true
  | .shiftRightLogic => cx.shiftRight site e.args args false
  | .lessSigned => cx.applyMatching site .setLess args
  | .lessUnsigned => cx.applyMatching site .setLessUnsigned args

/-- Folds an expression with the right number of operands. -/
def foldOperator (cx : Context) (site : Nat) (e : Expression) : FoldM FormId := do
  match e.copied? with
  | some a => cx.foldCopy site a
  | none =>
    match ← cx.foldConstant site e with
    | some f => return f
    | none => cx.applyOperator site e (← cx.operands site e.args true)

def arityError (cx : Context) (site : Nat) (e : Expression) : Error :=
  .malformedInput (cx.routine.name ++ ": instruction " ++ toString site ++ ": " ++
    e.operator.mnemonic ++ " takes " ++ toString e.operator.arity ++ " operands, got " ++
    toString e.args.length)

def foldExpression (cx : Context) (site : Nat) (e : Expression) : TryFoldM FormId := do
  if e.args.length ≠ e.operator.arity then
    throw (cx.arityError site e)
  cx.foldOperator site e

end Context

end Decompiler
