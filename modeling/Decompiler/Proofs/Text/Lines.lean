import Decompiler.Proofs.Text.Tokens

/-!
The lines of a layout.  A line has blanks and opening parentheses, then an atom or a list that
is written flat, then closing parentheses.  A list is written flat when it fits by itself, so
the closing parentheses behind it can make its line longer than the width.  Nothing else makes
a line with more than one item too long.
-/

namespace Decompiler

def linesOf (text : String) : List String := (text.toList.splitOn '\n').map String.ofList

theorem linesOf_break (text text' : String) :
    linesOf (text ++ "\n" ++ text') = linesOf text ++ linesOf text' := by
  have hsplit := List.splitOnP_append_cons (p := (· == '\n')) text.toList text'.toList
    (beq_self_eq_true '\n')
  simp [linesOf, List.splitOn_eq_splitOnP, hsplit]

theorem linesOf_eq_singleton {text : String} (h : '\n' ∉ text.toList) : linesOf text = [text] := by
  simp [linesOf, List.splitOn_eq_singleton h]

def repeated (c : Char) (n : Nat) : String := String.ofList (List.replicate n c)

theorem repeated_append (c : Char) (m n : Nat) :
    repeated c m ++ repeated c n = repeated c (m + n) := by
  simp [repeated, ← String.ofList_append]

theorem utf8ByteSize_repeated {c : Char} (hc : c.utf8Size = 1) (n : Nat) :
    (repeated c n).utf8ByteSize = n := by
  induction n with
  | zero => rfl
  | succ n ih =>
    rw [← repeated_append, String.utf8ByteSize_append, ih]
    simp [repeated, hc]

namespace Sexp

mutual

/-- How many lists stand around one another. -/
def depth : Sexp → Nat
  | atom _ => 0
  | list items => depthOf items + 1

def depthOf : List Sexp → Nat
  | [] => 0
  | item :: rest => max item.depth (depthOf rest)

end

/-- Whether an s-expression and every list in it has at most one item. -/
def isSpine : Sexp → Bool
  | atom _ => true
  | list [] => true
  | list [item] => item.isSpine
  | list (_ :: _ :: _) => false

/-- A text on a line, behind blanks and opening parentheses and before closing ones. -/
def framed (indent opened : Nat) (text : String) (closed : Nat) : String :=
  repeated ' ' indent ++ repeated '(' opened ++ text ++ repeated ')' closed

/-- A line has at most one atom: it is made of blanks, opening parentheses, an atom or nothing,
and closing parentheses. -/
def IsSparse (s : Sexp) (line : String) : Prop :=
  ∃ blanks opened closed text, (text = "" ∨ text ∈ s.atoms) ∧
    line = framed blanks opened text closed

/-- A line has an s-expression written flat on it, with some of given atoms, and closing
parentheses up to a bound.  Before these it fits, or it has at most one item. -/
def IsRow (width bound : Nat) (texts : List String) (line : String) : Prop :=
  ∃ indent opened body closed, line = framed indent opened (flat body) closed ∧
    body.atoms ⊆ texts ∧ closed ≤ bound ∧
    (body.isSpine = true ∨ indent + opened + body.flat.utf8ByteSize ≤ width)

variable {s : Sexp} {items : List Sexp} {width indent opened closed : Nat} {line text : String}

theorem depth_le_of_mem {item : Sexp} (h : item ∈ items) : item.depth ≤ depthOf items := by
  induction items with
  | nil => cases h
  | cons first rest ih =>
    rw [depthOf]
    rcases List.mem_cons.1 h with rfl | h
    · exact Nat.le_max_left _ _
    · exact Nat.le_trans (ih h) (Nat.le_max_right _ _)

theorem atoms_subset_of_mem {item : Sexp} (h : item ∈ items) : item.atoms ⊆ atomsOf items := by
  induction items with
  | nil => cases h
  | cons first rest ih =>
    rw [atomsOf]
    rcases List.mem_cons.1 h with rfl | h
    · exact List.subset_append_left _ _
    · exact fun text htext => List.mem_append_right _ (ih h htext)

mutual

theorem flat_not_mem : ∀ {s : Sexp}, (∀ text ∈ s.atoms, '\n' ∉ text.toList) → '\n' ∉ s.flat.toList
  | atom text, h => h text (by simp [atoms])
  | list items, h => by
    have hitems : '\n' ∉ (flatItems items).toList := flatItems_not_mem (by simpa [atoms] using h)
    simpa [flat] using hitems

theorem flatItems_not_mem : ∀ {items : List Sexp}, (∀ text ∈ atomsOf items, '\n' ∉ text.toList) →
    '\n' ∉ (flatItems items).toList
  | [], _ => by simp [flatItems]
  | [item], h => flat_not_mem (s := item) fun text htext => h text (by simp [atomsOf, htext])
  | item :: next :: rest, h => by
    have hitem : '\n' ∉ item.flat.toList :=
      flat_not_mem fun text htext => h text (by simp [atomsOf, htext])
    have hrest : '\n' ∉ (flatItems (next :: rest)).toList :=
      flatItems_not_mem fun text htext => h text
        (by rw [atomsOf]; exact List.mem_append_right _ htext)
    simp [flatItems, hitem, hrest]

end

/-- What is written flat stays on its line. -/
theorem linesOf_framed_flat (h : ∀ text ∈ s.atoms, '\n' ∉ text.toList) :
    linesOf (framed indent opened s.flat closed) = [framed indent opened s.flat closed] := by
  have hflat := flat_not_mem h
  apply linesOf_eq_singleton
  simp [framed, repeated, hflat]

/-- Items on lines of their own leave the line before them as it is, or with the closing
parentheses if there are none. -/
theorem mem_linesOf_prettyRest
    (h : line ∈ linesOf (text ++ prettyRest width indent items ++ repeated ')' closed)) :
    (∃ n ≤ closed, line ∈ linesOf (text ++ repeated ')' n)) ∨
      ∃ item ∈ items, ∃ n ≤ closed,
        line ∈ linesOf (framed indent 0 (item.prettyAt width indent) n) := by
  induction items generalizing text with
  | nil =>
    rw [prettyRest, String.append_empty] at h
    exact .inl ⟨closed, Nat.le_refl _, h⟩
  | cons item rest ih =>
    have hsplit : text ++ prettyRest width indent (item :: rest) ++ repeated ')' closed =
        text ++ "\n" ++ (repeated ' ' indent ++ item.prettyAt width indent ++
          prettyRest width indent rest ++ repeated ')' closed) := by
      simp [prettyRest, indentation, repeated, String.append_assoc]
    rw [hsplit, linesOf_break, List.mem_append] at h
    rcases h with h | h
    · exact .inl ⟨0, Nat.zero_le _, by simpa [repeated] using h⟩
    · rcases ih h with ⟨n, hn, h⟩ | ⟨other, hother, hlines⟩
      · refine .inr ⟨item, List.mem_cons_self, n, hn, ?_⟩
        simpa [framed, repeated] using h
      · exact .inr ⟨other, List.mem_cons_of_mem _ hother, hlines⟩

/-- The lines of a broken list are those of its items, with one more closing parenthesis at
most. -/
theorem mem_linesOf_broken {item : Sexp} {rest : List Sexp}
    (h : line ∈ linesOf (framed indent opened
      ("(" ++ prettyItems width (indent + opened) (item :: rest) ++ ")") closed)) :
    ∃ part ∈ item :: rest, ∃ indent' opened', ∃ n ≤ closed + 1,
      line ∈ linesOf (framed indent' opened' (part.prettyAt width (indent' + opened')) n) := by
  have hsplit : framed indent opened
        ("(" ++ prettyItems width (indent + opened) (item :: rest) ++ ")") closed =
      repeated ' ' indent ++ repeated '(' (opened + 1) ++
        item.prettyAt width (indent + (opened + 1)) ++
        prettyRest width (indent + opened + 2) rest ++ repeated ')' (closed + 1) := by
    have hopen : repeated '(' (opened + 1) = repeated '(' opened ++ "(" :=
      (repeated_append '(' opened 1).symm
    have hclose : repeated ')' (closed + 1) = ")" ++ repeated ')' closed := by
      rw [Nat.add_comm]
      exact (repeated_append ')' 1 closed).symm
    simp [framed, prettyItems, hopen, hclose, String.append_assoc, Nat.add_assoc]
  rw [hsplit] at h
  rcases mem_linesOf_prettyRest h with ⟨n, hn, h⟩ | ⟨part, hpart, n, hn, h⟩
  · exact ⟨item, List.mem_cons_self, indent, opened + 1, n, hn, h⟩
  · exact ⟨part, List.mem_cons_of_mem _ hpart, _, 0, n, hn, h⟩

/-- Every line of a layout is a row. -/
theorem isRow_of_mem_linesOf (width : Nat) : ∀ {s : Sexp} {indent opened closed : Nat},
    (∀ text ∈ s.atoms, '\n' ∉ text.toList) →
    line ∈ linesOf (framed indent opened (s.prettyAt width (indent + opened)) closed) →
    IsRow width (closed + s.depth) s.atoms line
  | atom text, indent, opened, closed, hplain, h => by
    rw [prettyAt, show text = (atom text).flat from (flat.eq_1 text).symm,
      linesOf_framed_flat hplain, List.mem_singleton] at h
    exact ⟨indent, opened, atom text, closed, h, List.Subset.refl _, Nat.le_add_right _ _,
      .inl (by simp [isSpine])⟩
  | list items, indent, opened, closed, hplain, h => by
    rw [prettyAt] at h
    split at h
    · rename_i hfits
      rw [linesOf_framed_flat hplain, List.mem_singleton] at h
      exact ⟨indent, opened, list items, closed, h, List.Subset.refl _, Nat.le_add_right _ _,
        .inr hfits⟩
    · cases items with
      | nil =>
        have hempty : "(" ++ prettyItems width (indent + opened) [] ++ ")" = (list []).flat := by
          simp [prettyItems, flat, flatItems]
        rw [hempty, linesOf_framed_flat hplain, List.mem_singleton] at h
        exact ⟨indent, opened, list [], closed, h, List.Subset.refl _, Nat.le_add_right _ _,
          .inl (by simp [isSpine])⟩
      | cons item rest =>
        obtain ⟨part, hpart, indent', opened', n, hn, hline⟩ := mem_linesOf_broken h
        have hsub : part.atoms ⊆ (list (item :: rest)).atoms := by
          rw [atoms]
          exact atoms_subset_of_mem hpart
        have hdepth := depth_le_of_mem hpart
        obtain ⟨a, b, body, c, htext, hatoms, hclosed, hfits⟩ :=
          isRow_of_mem_linesOf width (fun text htext => hplain text (hsub htext)) hline
        refine ⟨a, b, body, c, htext, fun text htext => hsub (hatoms htext), ?_, hfits⟩
        rw [depth]
        omega
termination_by s => sizeOf s
decreasing_by
  have hsize := List.sizeOf_lt_of_mem hpart
  simp_all only [list.sizeOf_spec]
  omega

/-- What has at most one item is written with all opening parentheses in front. -/
theorem flat_of_isSpine : ∀ {s : Sexp}, s.isSpine = true →
    ∃ n text, (text = "" ∨ text ∈ s.atoms) ∧
      s.flat = repeated '(' n ++ text ++ repeated ')' n
  | atom text, _ => ⟨0, text, .inr (by simp [atoms]), by simp [flat, repeated]⟩
  | list [], _ => ⟨1, "", .inl rfl, rfl⟩
  | list [item], h => by
    obtain ⟨n, text, htext, hflat⟩ := flat_of_isSpine (s := item) (by simpa [isSpine] using h)
    refine ⟨n + 1, text, htext.imp_right fun hmem => by simpa [atoms, atomsOf] using hmem, ?_⟩
    rw [flat, flatItems, hflat, ← repeated_append ')' n 1, Nat.add_comm n 1,
      ← repeated_append '(' 1 n]
    simp [String.append_assoc, repeated]
  | list (_ :: _ :: _), h => by simp [isSpine] at h

theorem utf8ByteSize_framed (indent opened : Nat) (text : String) (closed : Nat) :
    (framed indent opened text closed).utf8ByteSize =
      indent + opened + text.utf8ByteSize + closed := by
  have hspace : ' '.utf8Size = 1 := rfl
  have hopening : '('.utf8Size = 1 := rfl
  have hclosing : ')'.utf8Size = 1 := rfl
  simp [framed, utf8ByteSize_repeated, hspace, hopening, hclosing]

/-- For every s-expression without line breaks in its atoms and every width: a line that is longer
than the width has at most one atom, or it is too long only by closing parentheses, at most as
many as lists stand around one another. -/
theorem overlong_lines_sparse (s : Sexp) (width : Nat)
    (hplain : ∀ text ∈ s.atoms, '\n' ∉ text.toList) :
    ∀ line ∈ linesOf (s.pretty width), width < line.utf8ByteSize → s.IsSparse line ∨
      ∃ start n, line = start ++ repeated ')' n ∧ start.utf8ByteSize ≤ width ∧ n ≤ s.depth := by
  intro line hline hlong
  have hframed : line ∈ linesOf (framed 0 0 (s.prettyAt width (0 + 0)) 0) := by
    simpa [framed, repeated, pretty] using hline
  obtain ⟨indent, opened, body, closed, rfl, hatoms, hclosed, hspine | hfits⟩ :=
    isRow_of_mem_linesOf width hplain hframed
  · obtain ⟨n, text, htext, hflat⟩ := flat_of_isSpine hspine
    refine .inl ⟨indent, opened + n, n + closed, text, htext.imp_right (hatoms ·), ?_⟩
    rw [hflat, framed, framed, ← repeated_append, ← repeated_append]
    simp [String.append_assoc]
  · have hstart := utf8ByteSize_framed indent opened body.flat 0
    refine .inr ⟨framed indent opened body.flat 0, closed, ?_, by omega, by omega⟩
    simp [framed, repeated]

/-- A list of two atoms at the end of another list. -/
def pairAtEnd : Sexp := call "a" [call "b" [atom "c"]]

theorem pairAtEnd_sparse_but_for_end :
    (∀ text ∈ pairAtEnd.atoms, '\n' ∉ text.toList) ∧
      linesOf (pairAtEnd.pretty 7) = ["(a", "  (b c))"] ∧
      ∀ line ∈ linesOf (pairAtEnd.pretty 7), 7 < line.utf8ByteSize → pairAtEnd.IsSparse line ∨
        ∃ start n, line = start ++ repeated ')' n ∧ start.utf8ByteSize ≤ 7 ∧
          n ≤ pairAtEnd.depth := by
  have hplain : ∀ text ∈ pairAtEnd.atoms, '\n' ∉ text.toList := by decide
  exact ⟨hplain, by decide, overlong_lines_sparse pairAtEnd 7 hplain⟩

/-- The inner list fits in seven columns, but not together with the parenthesis that closes the
outer one.  Its line is too long and has two atoms. -/
theorem pairAtEnd_overflows_seven :
    (∀ text ∈ pairAtEnd.atoms, '\n' ∉ text.toList) ∧
      ∃ line ∈ linesOf (pairAtEnd.pretty 7), 7 < line.utf8ByteSize ∧ ¬ pairAtEnd.IsSparse line := by
  refine ⟨by decide, "  (b c))", by decide, by decide, ?_⟩
  rintro ⟨blanks, opened, closed, text, htext, hline⟩
  have hchars := congrArg String.toList hline
  have hb : 'b' ∈ text.toList := by
    have hmem : 'b' ∈ "  (b c))".toList := by decide
    rw [hchars] at hmem
    simpa [framed, repeated] using hmem
  have hc : 'c' ∈ text.toList := by
    have hmem : 'c' ∈ "  (b c))".toList := by decide
    rw [hchars] at hmem
    simpa [framed, repeated] using hmem
  have hnone : ∀ text ∈ "" :: pairAtEnd.atoms, ¬('b' ∈ text.toList ∧ 'c' ∈ text.toList) := by
    decide
  exact hnone text (List.mem_cons.2 htext) ⟨hb, hc⟩

end Sexp

end Decompiler
