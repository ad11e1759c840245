import Decompiler.Config
import Decompiler.Event
import Decompiler.Fold.Stack
import Decompiler.Machine.Liveness
import Decompiler.Tree.Render

/-!
What folding works on.  The context is fixed for a routine; the state holds the tree
built so far, the operand stack and the log, which others may write to as well.  A step that
fails keeps what it has done to the state.
-/

namespace Decompiler

/-- The routine that is reconstructed, what is known about it, and the settings. -/
structure Context where
  routine : Routine
  env : TypeEnv
  config : Config
  /-- The registers live after each instruction. -/
  liveAfter : Array RegisterSet

def Context.of (routine : Routine) (env : TypeEnv) (config : Config) : Context :=
  ⟨routine, env, config, routine.liveAfter⟩

def Context.vocabulary (cx : Context) : Vocabulary := ⟨cx.routine, cx.env, cx.config.names⟩

structure FoldState where
  pool : Pool
  stack : Stack
  log : EventLog
  /-- In verbatim mode nothing is popped and every operation stays as it is. -/
  verbatim : Bool
  /-- What others add to the log in front of the next event. -/
  others : Others := .nobody
deriving Inhabited

/-- Nothing built yet, with the events logged so far. -/
def FoldState.start (log : EventLog) (others : Others := .nobody) : FoldState :=
  ⟨.empty, .empty, log, false, others⟩

/-- Steps that cannot fail. -/
abbrev FoldM := StateM FoldState

/-- Steps that can fail. -/
abbrev TryFoldM := ExceptT Error FoldM

namespace FoldM

def onPool (f : Pool → α × Pool) : FoldM α := fun s =>
  let (a, pool) := f s.pool
  (a, { s with pool })

def changePool (f : Pool → Pool) : FoldM Unit := modify fun s => { s with pool := f s.pool }

def onStack (f : Stack → Stack) : FoldM Unit := modify fun s => { s with stack := f s.stack }

/-- Takes something off the stack, if it can be taken. -/
def take (pop : Pool → Stack → Option (α × Stack)) : FoldM (Option α) := fun s =>
  match pop s.pool s.stack with
  | none => (none, s)
  | some (a, stack) => (some a, { s with stack })

def popRegister (r : Register) (barrier : RegisterSet) (effects : Bool) : FoldM (Option FormId) :=
  take fun p stack => stack.popRegister p r barrier effects

def popTop (r : Register) : FoldM (Option FormId) := take fun _ stack => stack.popTop r

def popDivision : FoldM (Option ElementId) := take fun p stack => stack.popDivision p

/-- Gives back what was taken off the stack since a checkpoint. -/
def restore (saved : Checkpoint) : FoldM Unit := onStack fun stack => stack.restore saved

def addElement (element : Element) : FoldM ElementId := onPool fun p => p.addElement element

def addSingle (element : Element) : FoldM FormId := onPool fun p => p.addSingle element

def applyBuiltin (b : Builtin) (args : List FormId) : FoldM FormId :=
  addSingle (.apply (.builtin b) args)

/-- Pushes a new element as a statement that nothing crosses. -/
def pushNew (element : Element) : FoldM ElementId := do
  let e ← addElement element
  onStack fun stack => stack.pushStatement e true
  return e

/-- Pushes a value; the entry is a sequence point when the value has an effect. -/
def pushValue (dst : Variable) (value : FormId) (notes : SetNotes) : FoldM Unit := do
  let ordered := (← get).pool.formHasEffect value
  onStack fun stack => stack.pushValue dst value ordered notes

/-- Turns the stack into statements and leaves it empty. -/
def takeStatements : FoldM (List ElementId) := fun s =>
  let (es, pool) := s.stack.rewrite s.pool
  (es, { s with pool, stack := .empty })

def takeForm : FoldM FormId := fun s =>
  let (f, pool) := s.stack.rewriteToForm s.pool
  (f, { s with pool, stack := .empty })

/-- The element of a form that has exactly one. -/
def single? (f : FormId) : FoldM (Option (ElementId × Element)) := do
  let p := (← get).pool
  return (p.single? f).map fun e => (e, p.element e)

end FoldM

namespace Context

/-- Logs an event behind what others have added in the meantime. -/
def note (cx : Context) (kind : EventKind) (site : Nat) (message : String) : FoldM Unit :=
  modify fun s => { s with log := (s.log.after s.others).record kind (some cx.routine.name)
                                   (some site) (some message) }

/-- The flat text of a form. -/
def describe (cx : Context) (f : FormId) : FoldM String :=
  return cx.vocabulary.formText (← get).pool f

def noteForm (cx : Context) (kind : EventKind) (site : Nat) (f : FormId) : FoldM Unit := do
  cx.note kind site (← cx.describe f)

/-- The registers that an instruction reads for the last time. -/
def consumed (cx : Context) (verbatim : Bool) (site : Nat) : RegisterSet :=
  if verbatim then ∅ else (cx.routine.code[site]?.map Instruction.consumed).getD ∅

def consumedNow (cx : Context) (site : Nat) : FoldM RegisterSet :=
  return cx.consumed (← get).verbatim site

def isLiveAfter (cx : Context) (site : Nat) (r : Register) : Bool :=
  (cx.liveAfter[site]?.map fun live => live.contains r).getD true

/-- Adds an operand.  A label of a string constant becomes the string. -/
def atomForm (cx : Context) (a : Atom) : FoldM FormId :=
  match a with
  | .label name =>
    match cx.env.labelString name with
    | some text => FoldM.addSingle (.text text)
    | none => FoldM.addSingle (.atom a)
  | a => FoldM.addSingle (.atom a)

/-- What is noted about an assignment. -/
def setNotes (cx : Context) (site : Nat) (dst : Variable) (source : Option Expression) :
    SetNotes :=
  let copied := source.bind Expression.copied?
  let dead := !cx.isLiveAfter site dst.register
  { eliminatedMove := copied.bind Atom.register? == some dst.register
    dead
    deadFalse := dead && (copied.map Atom.isFalse).getD false }

end Context

end Decompiler
