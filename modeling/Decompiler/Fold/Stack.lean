import Decompiler.Tree.Summary

/-!
The operand stack.  Entries are results in program order that no later instruction
has taken yet.  Popping an entry only marks it, so that a match that fails halfway can
be undone.
-/

namespace Decompiler

/-- What waits on the stack. -/
inductive Pending
  /-- A value for a register, with the element that already assigns it if there is one. -/
  | assign (dst : Variable) (source : FormId) (ordered : Bool) (notes : SetNotes)
      (existing : Option ElementId)
  | statement (e : ElementId) (ordered : Bool)
  /-- A division whose quotient or remainder has not been read. -/
  | division (e : ElementId)
deriving DecidableEq, Inhabited, Repr

namespace Pending

/-- The value, if it is for a given register. -/
def valueFor? (r : Register) : Pending → Option FormId
  | assign dst source _ _ _ => if dst.register = r then some source else none
  | _ => none

def division? : Pending → Option ElementId
  | division e => some e
  | _ => none

/-- Whether nothing may be moved across the entry. -/
def isSequencePoint : Pending → Bool
  | assign _ _ ordered _ _ => ordered
  | statement _ ordered => ordered
  | division _ => false

def writes (p : Pool) : Pending → RegisterSet
  | assign dst source _ _ _ => .single dst.register ∪ p.formWrites source
  | statement e _ => p.elementWrites e
  | division e => p.elementWrites e

def reads (p : Pool) : Pending → RegisterSet
  | assign _ source _ _ _ => p.formReadRegisters source
  | statement e _ => p.elementReadRegisters e
  | division e => p.elementReadRegisters e

end Pending

/-- An entry of the stack; a popped entry is not active. -/
structure Entry where
  pending : Pending
  active : Bool
deriving DecidableEq, Inhabited, Repr

/-- The operand stack, the latest entry first. -/
structure Stack where
  entries : List Entry
deriving DecidableEq, Repr

/-- Which entries were active, the oldest first. -/
structure Checkpoint where
  active : List Bool
deriving DecidableEq, Inhabited, Repr

namespace Stack

def empty : Stack := ⟨[]⟩

instance : Inhabited Stack := ⟨empty⟩

def size (s : Stack) : Nat := s.entries.countP Entry.active

def isEmpty (s : Stack) : Bool := !s.entries.any Entry.active

def push (s : Stack) (pending : Pending) : Stack := ⟨⟨pending, true⟩ :: s.entries⟩

def pushValue (s : Stack) (dst : Variable) (source : FormId) (ordered : Bool)
    (notes : SetNotes) : Stack :=
  s.push (.assign dst source ordered notes none)

def pushStatement (s : Stack) (e : ElementId) (ordered : Bool) : Stack :=
  s.push (.statement e ordered)

def pushDivision (s : Stack) (e : ElementId) : Stack := s.push (.division e)

/-- Adds an existing assignment, whose value can be popped; any other element is added as
a statement. -/
def pushExisting (s : Stack) (p : Pool) (e : ElementId) : Stack :=
  match p.element e with
  | .set dst source ordered notes => s.push (.assign dst source ordered notes (some e))
  | other => s.pushStatement e other.isSequencePoint

/-- Remembers which entries are active. -/
def checkpoint (s : Stack) : Checkpoint := ⟨(s.entries.map Entry.active).reverse⟩

/-- Drops the entries above a checkpoint and makes the others as active as they were. -/
def restore (s : Stack) (c : Checkpoint) : Stack :=
  ⟨(s.entries.reverse.zipWith (fun entry active => { entry with active }) c.active).reverse⟩

/-- What the active entries that a search has passed write and read. -/
structure Skipped where
  writes : RegisterSet := ∅
  reads : RegisterSet := ∅

def Skipped.past (p : Pool) (skipped : Skipped) (pending : Pending) : Skipped :=
  ⟨skipped.writes ∪ pending.writes p, skipped.reads ∪ pending.reads p⟩

/-- Takes from a list of entries what the first active one has to offer, if it may be taken and
every active entry above it can be passed. -/
def takeFirstFrom (p : Pool) (offer : Pending → Option α) (may : Skipped → α → Bool)
    (passes : Pending → Bool) : Skipped → List Entry → Option (α × List Entry)
  | _, [] => none
  | skipped, entry :: rest =>
    if !entry.active then
      (takeFirstFrom p offer may passes skipped rest).map fun found => (found.1, entry :: found.2)
    else
      match offer entry.pending with
      | some a => if may skipped a then some (a, { entry with active := false } :: rest) else none
      | none =>
        if passes entry.pending then
          (takeFirstFrom p offer may passes (skipped.past p entry.pending) rest).map fun found =>
            (found.1, entry :: found.2)
        else none

def takeFirst (s : Stack) (p : Pool) (offer : Pending → Option α) (may : Skipped → α → Bool)
    (passes : Pending → Bool) : Option (α × Stack) :=
  (takeFirstFrom p offer may passes {} s.entries).map fun found => (found.1, ⟨found.2⟩)

/-- Whether a value may be popped: without an effect unless effects are allowed, without
a write that the barrier or a skipped entry could see, and without a read that a skipped
entry changes. -/
def mayPop (p : Pool) (r : Register) (barrier : RegisterSet) (effects : Bool) (skipped : Skipped)
    (source : FormId) : Bool :=
  (effects || !p.formHasEffect source) &&
  !(p.formWrites source).intersects barrier &&
  !(p.formWrites source).intersects skipped.reads &&
  !(p.formReadRegisters source).intersects skipped.writes &&
  !skipped.reads.contains r

/-- Pops the latest value of a register.  Entries above it may be skipped when effects are
allowed and none of them is a sequence point. -/
def popRegister (s : Stack) (p : Pool) (r : Register) (barrier : RegisterSet)
    (effects : Bool) : Option (FormId × Stack) :=
  s.takeFirst p (Pending.valueFor? r) (mayPop p r barrier effects) fun pending =>
    effects && !pending.isSequencePoint

/-- Pops the latest division, unless an entry above it is a sequence point or writes what the
division reads. -/
def popDivision (s : Stack) (p : Pool) : Option (ElementId × Stack) :=
  s.takeFirst p Pending.division?
    (fun skipped e => !(p.elementReadRegisters e).intersects skipped.writes) fun pending =>
      !pending.isSequencePoint

/-- Pops the top if it is a value for a given register.  No entry is passed, so no pool is looked
into. -/
def popTop (s : Stack) (r : Register) : Option (FormId × Stack) :=
  s.takeFirst .empty (Pending.valueFor? r) (fun _ _ => true) fun _ => false

/-- The element of a pending entry; a value without one gets a new assignment. -/
def rewritePending (p : Pool) : Pending → ElementId × Pool
  | .assign dst source ordered notes none => p.addElement (.set dst source ordered notes)
  | .assign _ _ _ _ (some e) => (e, p)
  | .statement e _ => (e, p)
  | .division e => (e, p)

/-- The elements of the active entries of a list, in its order. -/
def rewriteEntries : List Entry → Pool → List ElementId × Pool
  | [], p => ([], p)
  | entry :: rest, p =>
    if entry.active then
      let (e, p) := rewritePending p entry.pending
      let (es, p) := rewriteEntries rest p
      (e :: es, p)
    else rewriteEntries rest p

/-- Turns the active entries into statements, the oldest first. -/
def rewrite (s : Stack) (p : Pool) : List ElementId × Pool := rewriteEntries s.entries.reverse p

def rewriteToForm (s : Stack) (p : Pool) : FormId × Pool :=
  let (es, p) := s.rewrite p
  p.addBody es

end Stack

end Decompiler
