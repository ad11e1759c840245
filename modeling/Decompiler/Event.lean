/-!
Events of reconstruction, and logs of them.
-/

namespace Decompiler

inductive EventKind
  /-- A pending value was moved into the expression that reads it. -/
  | expressionFolded
  /-- Several instructions were replaced by one element. -/
  | idiomRecognized
  /-- A region was turned into a control element. -/
  | controlRecognized
  | castInserted
  /-- An operation has no rule and stays as it is. -/
  | literalOperation
  | started
  | completed
  | failed
  | info
  | warning
  | error
deriving DecidableEq, Inhabited, Repr

namespace EventKind

def description : EventKind → String
  | expressionFolded => "expression folded"
  | idiomRecognized => "idiom recognized"
  | controlRecognized => "control structure recognized"
  | castInserted => "cast inserted"
  | literalOperation => "opaque operation"
  | started => "function started"
  | completed => "function completed"
  | failed => "function failed"
  | info => "info"
  | warning => "warning"
  | error => "error"

def isTransformation : EventKind → Bool
  | expressionFolded | idiomRecognized | controlRecognized | castInserted => true
  | _ => false

def isDiagnostic : EventKind → Bool
  | info | warning | error => true
  | _ => false

def all : List EventKind :=
  [expressionFolded, idiomRecognized, controlRecognized, castInserted, literalOperation,
   started, completed, failed, info, warning, error]

end EventKind

/-- An event, with the routine and the instruction it belongs to if there are any. -/
structure Event where
  kind : EventKind
  routine : Option String := none
  site : Option Nat := none
  message : String
deriving DecidableEq, Inhabited, Repr

/-- The kind, the place and the message.  A place needs a routine. -/
def Event.text (e : Event) : String :=
  let head := "[" ++ e.kind.description ++ "] "
  match e.routine, e.site with
  | some routine, some site => head ++ routine ++ "@" ++ toString site ++ ": " ++ e.message
  | some routine, none => head ++ routine ++ ": " ++ e.message
  | none, _ => head ++ e.message

/-- Events in the order in which they were logged. -/
structure EventLog where
  events : Array Event
deriving DecidableEq, Repr

/-- What others that write to the same log add to it in front of the next event of a run, given
the log as it was behind the last one. -/
abbrev Others := EventLog → List Event

def Others.nobody : Others := fun _ => []

namespace EventLog

def empty : EventLog := ⟨#[]⟩

instance : Inhabited EventLog := ⟨empty⟩

def isEmpty (log : EventLog) : Bool := log.events.isEmpty

def size (log : EventLog) : Nat := log.events.size

def toList (log : EventLog) : List Event := log.events.toList

def push (log : EventLog) (e : Event) : EventLog := ⟨log.events.push e⟩

/-- The log behind what others add to it. -/
def after (log : EventLog) (others : Others) : EventLog :=
  ⟨log.events ++ (others log).toArray⟩

@[simp] theorem after_nobody (log : EventLog) : log.after .nobody = log :=
  congrArg EventLog.mk Array.append_empty

/-- Adds an event; without a message of its own it has that of its kind. -/
def record (log : EventLog) (kind : EventKind) (routine : Option String) (site : Option Nat)
    (message : Option String) : EventLog :=
  log.push { kind, routine, site, message := message.getD kind.description }

def append (log other : EventLog) : EventLog := ⟨log.events ++ other.events⟩

def ofKind (log : EventLog) (kind : EventKind) : List Event :=
  log.toList.filter fun e => e.kind == kind

def ofRoutine (log : EventLog) (name : String) : List Event :=
  log.toList.filter fun e => e.routine == some name

def has (log : EventLog) (kind : EventKind) : Bool := log.events.any fun e => e.kind == kind

def count (log : EventLog) (kind : EventKind) : Nat := (log.ofKind kind).length

/-- The kinds that occur, with the number of their events. -/
def countByKind (log : EventLog) : List (EventKind × Nat) :=
  (EventKind.all.map fun kind => (kind, log.count kind)).filter fun entry => entry.2 ≠ 0

/-- The numbers of changes by kind, as texts in ascending order. -/
def summary (log : EventLog) : String :=
  if log.isEmpty then "no events"
  else
    let parts := (log.countByKind.filter fun entry => entry.1.isTransformation).map
      fun entry => toString entry.2 ++ " " ++ entry.1.description
    if parts.isEmpty then toString log.size ++ " events"
    else ", ".intercalate (parts.mergeSort fun a b => decide (a ≤ b))

end EventLog

end Decompiler
