import Decompiler.Text.Sexp

/-!
Reading s-expressions back.  A text is cut into parentheses and atoms, and the white space
between them is skipped.  However an s-expression is laid out, its text has the same tokens,
and the s-expression can be put together again from them.
-/

namespace Decompiler

/-- A notion of white space: the blank and the line break are white, parentheses are not. -/
structure Whitespace where
  isWhite : Char → Bool
  space : isWhite ' ' = true
  newline : isWhite '\n' = true
  opening : isWhite '(' = false
  closing : isWhite ')' = false

inductive Token
  | opening
  | closing
  | atom (text : String)
deriving DecidableEq, Repr

namespace Token

/-- The token of the characters of an atom, if there are any. -/
def ofWord (word : List Char) : List Token :=
  if word = [] then [] else [.atom (String.ofList word)]

/-- Puts one more token to what was read: the items of the lists that are open, the innermost
list and the latest item first. -/
def read : Token → List (List Sexp) → Option (List (List Sexp))
  | opening, lists => some ([] :: lists)
  | atom text, items :: lists => some ((.atom text :: items) :: lists)
  | closing, items :: outer :: lists => some ((.list items.reverse :: outer) :: lists)
  | _, _ => none

def readAll : List Token → List (List Sexp) → Option (List (List Sexp))
  | [], lists => some lists
  | t :: ts, lists => (t.read lists).bind (readAll ts)

theorem readAll_append (ts ts' : List Token) (lists : List (List Sexp)) :
    readAll (ts ++ ts') lists = (readAll ts lists).bind (readAll ts') := by
  induction ts generalizing lists with
  | nil => rfl
  | cons t ts ih =>
    cases h : t.read lists with
    | none => simp [readAll, h]
    | some lists' => simp [readAll, h, ih]

end Token

namespace Whitespace

/-- The characters that Unicode calls white space. -/
def unicode : Whitespace where
  isWhite c := c.toNat ∈ [0x20, 0x85, 0xa0, 0x1680, 0x2028, 0x2029, 0x202f, 0x205f, 0x3000] ||
    (0x9 ≤ c.toNat && c.toNat ≤ 0xd) || (0x2000 ≤ c.toNat && c.toNat ≤ 0x200a)
  space := by decide
  newline := by decide
  opening := by decide
  closing := by decide

/-- A character that is neither white space nor a parenthesis. -/
def IsPlain (w : Whitespace) (c : Char) : Prop := w.isWhite c = false ∧ c ≠ '(' ∧ c ≠ ')'

/-- An atom that can be told from what stands around it. -/
def IsWord (w : Whitespace) (text : String) : Prop := text ≠ "" ∧ ∀ c ∈ text.toList, w.IsPlain c

instance decidableIsPlain (w : Whitespace) (c : Char) : Decidable (w.IsPlain c) :=
  inferInstanceAs (Decidable (w.isWhite c = false ∧ c ≠ '(' ∧ c ≠ ')'))

instance decidableIsWord (w : Whitespace) (text : String) : Decidable (w.IsWord text) :=
  @instDecidableAnd _ _ inferInstance (List.decidableBAll w.IsPlain text.toList)

/-- The tokens of some characters that stand behind a part of an atom. -/
def lex (w : Whitespace) (word : List Char) : List Char → List Token
  | [] => Token.ofWord word
  | c :: rest =>
    if c = '(' then Token.ofWord word ++ .opening :: w.lex [] rest
    else if c = ')' then Token.ofWord word ++ .closing :: w.lex [] rest
    else if w.isWhite c then Token.ofWord word ++ w.lex [] rest
    else w.lex (word ++ [c]) rest

def tokens (w : Whitespace) (text : String) : List Token := w.lex [] text.toList

/-- An atom ends before some characters. -/
def Ends (w : Whitespace) (rest : List Char) : Prop := ∀ c ∈ rest.head?, ¬ w.IsPlain c

/-- A text is read as some tokens wherever an atom can end behind it. -/
def Spells (w : Whitespace) (text : String) (ts : List Token) : Prop :=
  ∀ rest, w.Ends rest → w.lex [] (text.toList ++ rest) = ts ++ w.lex [] rest

variable {w : Whitespace} {text text' : String} {ts ts' : List Token}

theorem ends_closing (rest : List Char) : w.Ends (')' :: rest) := by
  simp [Ends, IsPlain]

variable {c : Char}

theorem ends_white (hc : w.isWhite c = true) (rest : List Char) : w.Ends (c :: rest) := by
  simp [Ends, IsPlain, hc]

theorem lex_opening (rest : List Char) : w.lex [] ('(' :: rest) = .opening :: w.lex [] rest := by
  simp [lex, Token.ofWord]

theorem lex_closing (rest : List Char) : w.lex [] (')' :: rest) = .closing :: w.lex [] rest := by
  simp [lex, Token.ofWord]

theorem lex_white (hc : w.isWhite c = true) (rest : List Char) :
    w.lex [] (c :: rest) = w.lex [] rest := by
  have hopening : c ≠ '(' := by
    rintro rfl
    simp [w.opening] at hc
  have hclosing : c ≠ ')' := by
    rintro rfl
    simp [w.closing] at hc
  simp [lex, Token.ofWord, hopening, hclosing, hc]

theorem lex_plain {chars : List Char} (h : ∀ c ∈ chars, w.IsPlain c) (word rest : List Char) :
    w.lex word (chars ++ rest) = w.lex (word ++ chars) rest := by
  induction chars generalizing word with
  | nil => simp
  | cons c chars ih =>
    obtain ⟨hwhite, hopening, hclosing⟩ := h c List.mem_cons_self
    rw [List.cons_append, lex, if_neg hopening, if_neg hclosing, if_neg (by simp [hwhite]),
      ih fun c hc => h c (List.mem_cons_of_mem _ hc)]
    simp

theorem lex_ends {rest : List Char} (h : w.Ends rest) (word : List Char) :
    w.lex word rest = Token.ofWord word ++ w.lex [] rest := by
  cases rest with
  | nil => simp [lex, Token.ofWord]
  | cons c rest =>
    have hc := h c rfl
    by_cases hopening : c = '('
    · simp [lex, Token.ofWord, hopening]
    · by_cases hclosing : c = ')'
      · simp [lex, Token.ofWord, hclosing]
      · have hwhite : w.isWhite c = true := by
          cases hwhite : w.isWhite c with
          | false => exact absurd ⟨hwhite, hopening, hclosing⟩ hc
          | true => rfl
        simp [lex, Token.ofWord, hopening, hclosing, hwhite]

namespace Spells

theorem empty : w.Spells "" [] := fun rest _ => by simp

theorem word (h : w.IsWord text) : w.Spells text [.atom text] := by
  intro rest hrest
  have hne : text.toList ≠ [] := by simpa using h.1
  rw [lex_plain h.2, lex_ends hrest]
  simp [Token.ofWord, hne]

/-- A list is its items between parentheses. -/
theorem parenthesized (h : w.Spells text ts) :
    w.Spells ("(" ++ text ++ ")") (.opening :: (ts ++ [.closing])) := by
  intro rest hrest
  have hinner := h (')' :: rest) (ends_closing rest)
  rw [lex_closing] at hinner
  simp [lex_opening, hinner]

/-- White space keeps what it separates apart. -/
theorem separated (h : w.Spells text ts) (h' : w.Spells text' ts') (gap : String)
    (hgap : gap ≠ "") (hwhite : ∀ c ∈ gap.toList, w.isWhite c = true) :
    w.Spells (text ++ gap ++ text') (ts ++ ts') := by
  have hskip : ∀ chars rest : List Char, (∀ c ∈ chars, w.isWhite c = true) →
      w.lex [] (chars ++ rest) = w.lex [] rest := by
    intro chars rest hchars
    induction chars with
    | nil => rfl
    | cons c chars ih =>
      rw [List.cons_append, lex_white (hchars c List.mem_cons_self)]
      exact ih fun c hc => hchars c (List.mem_cons_of_mem _ hc)
  intro rest hrest
  have hends : w.Ends (gap.toList ++ (text'.toList ++ rest)) := by
    cases hchars : gap.toList with
    | nil => exact absurd hchars (by simpa using hgap)
    | cons c chars => exact ends_white (hwhite c (by simp [hchars])) _
  have hfirst := h _ hends
  rw [hskip _ _ hwhite, h' rest hrest] at hfirst
  simpa using hfirst

end Spells

end Whitespace

namespace Sexp

mutual

def atoms : Sexp → List String
  | atom text => [text]
  | list items => atomsOf items

def atomsOf : List Sexp → List String
  | [] => []
  | item :: rest => item.atoms ++ atomsOf rest

end

mutual

def tokens : Sexp → List Token
  | atom text => [.atom text]
  | list items => .opening :: (tokensOf items ++ [.closing])

def tokensOf : List Sexp → List Token
  | [] => []
  | item :: rest => item.tokens ++ tokensOf rest

end

variable {w : Whitespace}

mutual

theorem flat_spells : ∀ {s : Sexp}, (∀ text ∈ s.atoms, w.IsWord text) → w.Spells s.flat s.tokens
  | atom text, h => by
    rw [flat, tokens]
    exact .word (h text (by simp [atoms]))
  | list items, h => by
    rw [flat, tokens]
    exact (flatItems_spells (by simpa [atoms] using h)).parenthesized

theorem flatItems_spells : ∀ {items : List Sexp}, (∀ text ∈ atomsOf items, w.IsWord text) →
    w.Spells (flatItems items) (tokensOf items)
  | [], _ => .empty
  | [item], h => by
    rw [flatItems, tokensOf, tokensOf, List.append_nil]
    exact flat_spells fun text htext => h text (by simp [atomsOf, htext])
  | item :: next :: rest, h => by
    rw [flatItems, tokensOf]
    · have hitem : w.Spells item.flat item.tokens :=
        flat_spells fun text htext => h text (by simp [atomsOf, htext])
      have hrest : w.Spells (flatItems (next :: rest)) (tokensOf (next :: rest)) :=
        flatItems_spells fun text htext => h text
          (by rw [atomsOf]; exact List.mem_append_right _ htext)
      exact hitem.separated hrest " " (by simp) (by simp [w.space])
    · simp

end

/-- The gap before an item that stands on a line of its own is white. -/
theorem isWhite_lineBreak (n : Nat) : ∀ c ∈ ("\n" ++ indentation n).toList, w.isWhite c = true := by
  intro c hc
  simp only [indentation, String.toList_append, String.toList_ofList, List.mem_append,
    List.mem_replicate] at hc
  rcases hc with hc | ⟨-, rfl⟩
  · have hbreak : c = '\n' := by simpa using hc
    rw [hbreak]
    exact w.newline
  · exact w.space

mutual

theorem prettyAt_spells (width : Nat) : ∀ {s : Sexp} (column : Nat),
    (∀ text ∈ s.atoms, w.IsWord text) → w.Spells (s.prettyAt width column) s.tokens
  | atom text, column, h => by
    rw [prettyAt, tokens]
    exact .word (h text (by simp [atoms]))
  | list items, column, h => by
    rw [prettyAt]
    split
    · exact flat_spells h
    · rw [tokens]
      exact (prettyItems_spells width column (by simpa [atoms] using h)).parenthesized

theorem prettyItems_spells (width : Nat) : ∀ {items : List Sexp} (column : Nat),
    (∀ text ∈ atomsOf items, w.IsWord text) →
    w.Spells (prettyItems width column items) (tokensOf items)
  | [], _, _ => .empty
  | item :: rest, column, h => by
    rw [prettyItems, tokensOf]
    apply prettyRest_spells width (column + 2)
    · exact prettyAt_spells width (column + 1) fun text htext => h text (by simp [atomsOf, htext])
    · exact fun text htext => h text (by simp [atomsOf, htext])

/-- Items on lines of their own, behind a text. -/
theorem prettyRest_spells (width : Nat) : ∀ {items : List Sexp} (column : Nat) {text : String}
    {ts : List Token}, w.Spells text ts → (∀ text ∈ atomsOf items, w.IsWord text) →
    w.Spells (text ++ prettyRest width column items) (ts ++ tokensOf items)
  | [], column, text, ts, h, _ => by
    simpa [prettyRest, tokensOf] using h
  | item :: rest, column, text, ts, h, hatoms => by
    have hitem : w.Spells (item.prettyAt width column) item.tokens :=
      prettyAt_spells width column fun text htext => hatoms text (by simp [atomsOf, htext])
    have hboth := h.separated hitem ("\n" ++ indentation column) (by simp)
      (isWhite_lineBreak column)
    have hall : w.Spells _ (ts ++ item.tokens ++ tokensOf rest) :=
      prettyRest_spells width column hboth
        fun text htext => hatoms text (by simp [atomsOf, htext])
    simpa [prettyRest, tokensOf, String.append_assoc] using hall

end

theorem tokens_pretty (s : Sexp) (h : ∀ text ∈ s.atoms, w.IsWord text) (width : Nat) :
    w.tokens (s.pretty width) = s.tokens := by
  have hspells := prettyAt_spells width 0 h [] (by simp [Whitespace.Ends])
  simpa [Whitespace.tokens, Whitespace.lex, Token.ofWord, pretty] using hspells

theorem tokens_flat (s : Sexp) (h : ∀ text ∈ s.atoms, w.IsWord text) :
    w.tokens s.flat = s.tokens := by
  have hspells := flat_spells h [] (by simp [Whitespace.Ends])
  simpa [Whitespace.tokens, Whitespace.lex, Token.ofWord] using hspells

mutual

/-- Reading the tokens of an s-expression adds it to the innermost list that is open. -/
theorem readAll_tokens : ∀ (s : Sexp) (items : List Sexp) (lists : List (List Sexp)),
    Token.readAll s.tokens (items :: lists) = some ((s :: items) :: lists)
  | atom text, items, lists => rfl
  | list inner, items, lists => by
    have hinner := readAll_tokensOf inner [] (items :: lists)
    simp [tokens, Token.readAll, Token.readAll_append, Token.read, hinner]

theorem readAll_tokensOf : ∀ (ss items : List Sexp) (lists : List (List Sexp)),
    Token.readAll (tokensOf ss) (items :: lists) = some ((ss.reverse ++ items) :: lists)
  | [], items, lists => rfl
  | s :: ss, items, lists => by
    simp [tokensOf, Token.readAll_append, readAll_tokens s, readAll_tokensOf ss]

end

theorem tokens_inj {s t : Sexp} (h : s.tokens = t.tokens) : s = t := by
  have hs := readAll_tokens s [] []
  rw [h, readAll_tokens t [] []] at hs
  simpa using hs.symm

/-- For every notion of white space: if no atom is empty or has white space or a parenthesis in
it, the tokens of a layout are those of the flat text, whatever the width, and layouts of two
s-expressions, in any two widths, have the same tokens only if the s-expressions are the same. -/
theorem pretty_unambiguous (w : Whitespace) (s t : Sexp) (hs : ∀ text ∈ s.atoms, w.IsWord text)
    (ht : ∀ text ∈ t.atoms, w.IsWord text) (width width' : Nat) :
    w.tokens (s.pretty width) = w.tokens s.flat ∧
      (w.tokens (s.pretty width) = w.tokens (t.pretty width') → s = t) := by
  rw [tokens_pretty s hs, tokens_pretty t ht, tokens_flat s hs]
  exact ⟨rfl, tokens_inj⟩

/-- A list of one item beside an empty list. -/
def besideEmpty : Sexp := call "größer?" [list [atom "arg0"], list []]

/-- The same atoms and parentheses, but with the empty list inside the other one. -/
def aroundEmpty : Sexp := call "größer?" [list [atom "arg0", list []]]

theorem besideEmpty_unambiguous :
    (∀ text ∈ besideEmpty.atoms, Whitespace.unicode.IsWord text) ∧
      (∀ text ∈ aroundEmpty.atoms, Whitespace.unicode.IsWord text) ∧
      Whitespace.unicode.tokens (besideEmpty.pretty 9) =
        Whitespace.unicode.tokens besideEmpty.flat ∧
      Whitespace.unicode.tokens (besideEmpty.pretty 9) ≠
        Whitespace.unicode.tokens (aroundEmpty.pretty 40) := by
  have hbeside : ∀ text ∈ besideEmpty.atoms, Whitespace.unicode.IsWord text := by decide
  have haround : ∀ text ∈ aroundEmpty.atoms, Whitespace.unicode.IsWord text := by decide
  obtain ⟨hflat, hinjective⟩ :=
    pretty_unambiguous Whitespace.unicode besideEmpty aroundEmpty hbeside haround 9 40
  refine ⟨hbeside, haround, hflat, fun heq => ?_⟩
  simpa [besideEmpty, aroundEmpty, call] using hinjective heq

end Sexp

end Decompiler
