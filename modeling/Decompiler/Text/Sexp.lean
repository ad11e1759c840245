/-!
S-expressions and their two layouts: flat on one line, and broken over indented
lines where a list does not fit.
-/

namespace Decompiler

inductive Sexp
  | atom (text : String)
  | list (items : List Sexp)
deriving Inhabited, Repr

namespace Sexp

/-- A list that starts with an atom. -/
def call (head : String) (args : List Sexp) : Sexp := list (atom head :: args)

/-- The atom that a list starts with. -/
def head? : Sexp → Option String
  | list (atom text :: _) => some text
  | _ => none

mutual

/-- Everything on one line, with one blank between the items of a list. -/
def flat : Sexp → String
  | atom text => text
  | list items => "(" ++ flatItems items ++ ")"

def flatItems : List Sexp → String
  | [] => ""
  | [item] => item.flat
  | item :: rest => item.flat ++ " " ++ flatItems rest

end

def indentation (n : Nat) : String := String.ofList (List.replicate n ' ')

mutual

/-- A list that fits between its column and the width is written flat.  Any other list
has its first item behind the parenthesis and each further item on a line of its own,
two columns in. -/
def prettyAt (width column : Nat) : Sexp → String
  | atom text => text
  | list items =>
    let line := (list items).flat
    if column + line.utf8ByteSize ≤ width then line
    else "(" ++ prettyItems width column items ++ ")"

/-- The items of a broken list that starts at a column. -/
def prettyItems (width column : Nat) : List Sexp → String
  | [] => ""
  | item :: rest => item.prettyAt width (column + 1) ++ prettyRest width (column + 2) rest

/-- Items on lines of their own that start at a column. -/
def prettyRest (width column : Nat) : List Sexp → String
  | [] => ""
  | item :: rest =>
    "\n" ++ indentation column ++ item.prettyAt width column ++ prettyRest width column rest

end

/-- The layout for lines of at most `width` bytes. -/
def pretty (width : Nat) (s : Sexp) : String := s.prettyAt width 0

end Sexp

end Decompiler
