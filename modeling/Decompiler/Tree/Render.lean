import Decompiler.Machine.Routine
import Decompiler.Text.Sexp
import Decompiler.Tree.Pool

/-!
The s-expressions of trees and of machine operations.
-/

namespace Decompiler

/-- What the text of a tree depends on besides the tree. -/
structure Vocabulary where
  routine : Routine
  env : TypeEnv
  names : OperatorNames

def loadName (size : Nat) (kind : LoadKind) : String :=
  match kind with
  | .float => "l.f"
  | .signed =>
    match size with
    | 1 => "l.b"
    | 2 => "l.h"
    | 4 => "l.w"
    | 8 => "l.d"
    | 16 => "l.q"
    | n => "l." ++ toString n
  | .unsigned =>
    match size with
    | 1 => "l.bu"
    | 2 => "l.hu"
    | 4 => "l.wu"
    | 8 => "l.d"
    | 16 => "l.q"
    | n => "l." ++ toString n

def storeName (size : Nat) (kind : StoreKind) : String :=
  match kind with
  | .float => "s.f!"
  | .integer =>
    match size with
    | 1 => "s.b!"
    | 2 => "s.h!"
    | 4 => "s.w!"
    | 8 => "s.d!"
    | 16 => "s.q!"
    | n => "s." ++ toString n ++ "!"

/-- A test applied to operands.  Tests that hold always or never are constants, and a
comparison with zero shows the zero. -/
def Test.sexp (t : Test) (args : List Sexp) : Sexp :=
  match t with
  | .always => .atom "#t"
  | .never => .atom "#f"
  | t => .call t.operator (if t.comparesToZero then args ++ [.atom "0"] else args)

namespace Vocabulary

def variableSexp (v : Vocabulary) (x : Variable) : Sexp := .atom (v.env.variableName x)

/-- Symbols are quoted unless they start with a hash sign. -/
def atomSexp (v : Vocabulary) : Atom → Sexp
  | .var x => v.variableSexp x
  | .int w => .atom w.text
  | .float x => .atom x.text
  | .symbol name => .atom (if name.startsWith "#" then name else "'" ++ name)
  | .global name => .atom name
  | .label name => .atom name
  | .nil => .atom "'()"

def expressionSexp (v : Vocabulary) (e : Expression) : Sexp :=
  match e.copied? with
  | some a => v.atomSexp a
  | none => .call e.operator.mnemonic (e.args.map v.atomSexp)

def builtinSexp (v : Vocabulary) (b : Builtin) (args : List Sexp) : Sexp :=
  .call (v.names b) args

/-- An address; an offset of zero is not written. -/
def addressSexp (v : Vocabulary) (base : Sexp) (offset : Word) : Sexp :=
  if offset = 0 then base else v.builtinSexp .add [base, .atom offset.text]

def conditionSexp (v : Vocabulary) (c : Condition) : Sexp := c.test.sexp (c.args.map v.atomSexp)

def targetSexp (v : Vocabulary) (b : BlockId) : Sexp :=
  .atom ((v.routine.labelOf? b).getD (blockName b))

mutual

/-- A machine operation as it is. -/
def operationSexp (v : Vocabulary) : Operation → Sexp
  | .set dst source => .call "set!" [v.variableSexp dst, v.expressionSexp source]
  | .setCondition dst condition => .call "set!" [v.variableSexp dst, v.conditionSexp condition]
  | .load dst base offset size kind =>
    .call "set!" [v.variableSexp dst,
      .call (loadName size kind) [v.addressSexp (v.atomSexp base) offset]]
  | .store base offset value size kind =>
    .call (storeName size kind) [v.addressSexp (v.atomSexp base) offset, v.atomSexp value]
  | .divide a b signed =>
    .call (if signed then "div!" else "divu!") [v.atomSexp a, v.atomSexp b]
  | .floatCompare test a b =>
    .call "set!" [.atom "fcc", test.sexp [v.atomSexp a, v.atomSexp b]]
  | .call callee args _ =>
    .call "call!" (v.variableSexp callee :: args.map v.variableSexp)
  | .branch b => v.branchSexp b
  | .conditionalMove dst source test onZero =>
    .call (if onZero then "cmovz!" else "cmovn!")
      [v.variableSexp dst, v.atomSexp source, v.variableSexp test]
  | .special kind => .call kind.mnemonic []
  | .asm mnemonic dst sources =>
    .call ("." ++ mnemonic) (dst.toList.map v.variableSexp ++ sources.map v.atomSexp)

/-- A branch as it is, with its delay slot. -/
def branchSexp (v : Vocabulary) : Branch → Sexp
  | ⟨condition, likely, target, delay⟩ =>
    .call (if likely then "bl!" else "b!")
      (v.conditionSexp condition :: v.targetSexp target :: v.delaySexps delay)

/-- A delay slot that does something. -/
def delaySexps (v : Vocabulary) : Option Operation → List Sexp
  | none => []
  | some op => if op.isNop then [] else [v.operationSexp op]

end

def instructionSexp (v : Vocabulary) (site : Nat) : Sexp :=
  match v.routine.code[site]? with
  | some instruction => v.operationSexp instruction.op
  | none => .call "invalid-instruction" [.atom (toString site)]

end Vocabulary

/-- The three ways in which an element is written. -/
structure Rendered where
  /-- As a value. -/
  value : Sexp
  /-- As a test, where a truth test of a value is the value. -/
  condition : Sexp
  /-- As statements, where unreachable code follows the exit it belongs to. -/
  statements : List Sexp
deriving Inhabited

namespace Rendered

/-- An element that is written in only one way. -/
def plain (s : Sexp) : Rendered := ⟨s, s, [s]⟩

def formStatements (es : List Rendered) : List Sexp := es.flatMap Rendered.statements

/-- A form as one s-expression. -/
def formSexp (es : List Rendered) : Sexp :=
  match formStatements es with
  | [] => .call "empty" []
  | [s] => s
  | ss => .call "begin" ss

/-- A form whose last element is a test. -/
def formCondition (es : List Rendered) : Sexp :=
  match es.reverse with
  | [] => .call "empty" []
  | [e] => e.condition
  | last :: before => .call "begin" (before.reverse.map Rendered.value ++ [last.condition])

end Rendered

namespace Vocabulary

def stepSexp (form : FormId → Sexp) : PathStep → Sexp
  | .constant w => .atom w.text
  | .computed f => form f
  | .field name => .atom name
  | .placeholder => .atom "_"

def isEmptyForm (p : Pool) (f : FormId) : Bool :=
  match p.elementsOf f with
  | [e] => p.element e == .empty
  | _ => false

/-- Writes an element, given how to write the elements of its child forms. -/
def elementRendered (v : Vocabulary) (p : Pool) (child : ElementId → Rendered)
    (element : Element) : Rendered :=
  let parts := fun (f : FormId) => (p.elementsOf f).map child
  let form := fun (f : FormId) => Rendered.formSexp (parts f)
  let statements := fun (f : FormId) => Rendered.formStatements (parts f)
  let test := fun (f : FormId) => Rendered.formCondition (parts f)
  match element with
  | .atom a => .plain (v.atomSexp a)
  | .text s => .plain (.atom (quoted s))
  | .expression e _ => .plain (v.expressionSexp e)
  | .load base offset size kind _ =>
    .plain (.call (loadName size kind) [v.addressSexp (form base) offset])
  | .store site | .operation site _ | .call site _ | .branch site _ =>
    .plain (v.instructionSexp site)
  | .set dst source _ _ => .plain (.call "set!" [v.variableSexp dst, form source])
  | .setPlace dst source => .plain (.call "set!" [form dst, form source])
  | .divide a b signed _ =>
    .plain (.call (if signed then "div!" else "divu!") [form a, form b])
  | .condition t args _ flipped _ =>
    let args := args.map form
    let value := (t.flippedBy flipped).sexp args
    if t.flippedBy flipped = .truthy then ⟨value, args.headD (.atom "#t"), [value]⟩
    else .plain value
  | .apply head args =>
    let args := args.map form
    .plain (match head with
      | .builtin b => v.builtinSexp b args
      | .test t => t.sexp args
      | .callee f => .list (form f :: args))
  | .cast type source numeric =>
    .plain (.call (if numeric then "the" else "the-as") [.atom type.name, form source])
  | .path base address steps =>
    .plain (.call (if address then "&->" else "->") (form base :: steps.map (stepSexp form)))
  | .loop kind condition body _ =>
    let head := match kind with
      | .whileTrue => "while"
      | .untilTrue => "until"
    .plain (.call head (test condition :: statements body))
  | .condElse arms alternative _ =>
    match arms with
    | [arm] => .plain (.call "if" [test arm.condition, form arm.body, form alternative])
    | arms =>
      let written := arms.map fun arm => Sexp.list (test arm.condition :: statements arm.body)
      .plain (.call "cond" (written ++ [.call "else" (statements alternative)]))
  | .cond arms _ _ _ =>
    match arms with
    | [arm] => .plain (.call "if" [test arm.condition, form arm.body])
    | arms =>
      .plain (.call "cond"
        (arms.map fun arm => Sexp.list (test arm.condition :: statements arm.body)))
  | .chain kind entries _ _ _ =>
    let head := match kind with
      | .conjunction => "and"
      | .disjunction => "or"
    .plain (.call head (entries.map fun entry => test entry.condition))
  | .exit kind code dead _ =>
    let head := match kind with
      | .returns => "return"
      | .breaks => "break"
    let leave := Sexp.call head (if isEmptyForm p code then [] else [form code])
    match dead with
    | none => .plain leave
    | some dead =>
      let all := leave :: statements dead
      ⟨.call "begin" all, .call "begin" all, all⟩
  | .empty => .plain (.call "empty" [])
  | .abs source _ _ => .plain (v.builtinSexp .abs [form source])
  | .ash value amount _ _ _ _ => .plain (v.builtinSexp .ash [form value, form amount])
  | .typeOf value _ _ => .plain (v.builtinSexp .typeOf [form value])
  | .moveFalse dst source onZero _ =>
    .plain (.call (if onZero then "cmove-#f-zero" else "cmove-#f-nonzero")
      [v.variableSexp dst, v.variableSexp source])

def renderWithin (v : Vocabulary) (p : Pool) : Nat → ElementId → Rendered
  | 0, _ => default
  | depth + 1, e => v.elementRendered p (v.renderWithin p depth) (p.element e)

def render (v : Vocabulary) (p : Pool) (e : ElementId) : Rendered :=
  v.renderWithin p p.elements.size e

def renderElements (v : Vocabulary) (p : Pool) (f : FormId) : List Rendered :=
  (p.elementsOf f).map (v.render p)

def elementSexp (v : Vocabulary) (p : Pool) (e : ElementId) : Sexp := (v.render p e).value

def elementCondition (v : Vocabulary) (p : Pool) (e : ElementId) : Sexp :=
  (v.render p e).condition

def formSexp (v : Vocabulary) (p : Pool) (f : FormId) : Sexp :=
  Rendered.formSexp (v.renderElements p f)

def formStatements (v : Vocabulary) (p : Pool) (f : FormId) : List Sexp :=
  Rendered.formStatements (v.renderElements p f)

def formCondition (v : Vocabulary) (p : Pool) (f : FormId) : Sexp :=
  Rendered.formCondition (v.renderElements p f)

def formText (v : Vocabulary) (p : Pool) (f : FormId) : String := (v.formSexp p f).flat

def elementText (v : Vocabulary) (p : Pool) (e : ElementId) : String := (v.elementSexp p e).flat

end Vocabulary

end Decompiler
