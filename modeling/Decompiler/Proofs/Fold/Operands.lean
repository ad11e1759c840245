import Decompiler.Proofs.Fold.Held

/-!
What operands and casts become.  An operand is a value that was popped or a new form of
the atom; a cast is the operand itself or an element over it.
-/

namespace Decompiler

open FoldM List

namespace Context

/-- The element of an operand that is not popped. -/
def atomElement (cx : Context) (a : Atom) : Element :=
  match a with
  | .label name =>
    match cx.env.labelString name with
    | some text => .text text
    | none => .atom a
  | a => .atom a

theorem atomForm_eq (cx : Context) (a : Atom) :
    cx.atomForm a = FoldM.addSingle (cx.atomElement a) := by
  cases a with
  | label name =>
    rw [atomForm, atomElement]
    cases cx.env.labelString name <;> rfl
  | _ => rfl

theorem atomElement_cases (cx : Context) (a : Atom) :
    cx.atomElement a = .atom a ∨ ∃ text, cx.atomElement a = .text text := by
  cases a with
  | label name =>
    rw [atomElement]
    cases cx.env.labelString name with
    | none => exact .inl rfl
    | some text => exact .inr ⟨text, rfl⟩
  | _ => exact .inl rfl

theorem children_atomElement (cx : Context) (a : Atom) : (cx.atomElement a).children = [] := by
  rcases cx.atomElement_cases a with h | ⟨text, h⟩ <;> rw [h] <;> rfl

/-- What popping one of several operands does to the entries. -/
inductive OperandPop (p : Pool) (atoms : List Atom) (consumed : RegisterSet) (effects : Bool)
    (a : Atom) : List Held → Option FormTree → List Held → Prop
  | kept {E : List Held} : OperandPop p atoms consumed effects a E none E
  | popped {r : Register} {E E' : List Held} {t : FormTree} (hreg : a.register? = some r)
      (hconsumed : consumed.contains r = true)
      (honce : (atoms.filterMap Atom.register?).count r = 1)
      (hpops : Held.Pops p r ((Atom.registersOf atoms).erase r) effects E t E') :
      OperandPop p atoms consumed effects a E (some t) E'

/-- What popping operands does to the entries, the last operand first. -/
inductive OperandPops (p : Pool) (atoms : List Atom) (consumed : RegisterSet) (effects : Bool) :
    List Atom → List Held → List (Option FormTree) → List Held → Prop
  | nil {E : List Held} : OperandPops p atoms consumed effects [] E [] E
  | cons {a : Atom} {as : List Atom} {o : Option FormTree} {os : List (Option FormTree)}
      {E E' E'' : List Held} (hrest : OperandPops p atoms consumed effects as E os E')
      (hpop : OperandPop p atoms consumed effects a E' o E'') :
      OperandPops p atoms consumed effects (a :: as) E (o :: os) E''

/-- What stands for an operand: the popped value, or a new form of the atom. -/
inductive OperandTree (cx : Context) (a : Atom) : Option FormTree → FormTree → Prop
  | popped (t : FormTree) : OperandTree cx a (some t) t
  | fresh (f : FormId) (e : ElementId) : OperandTree cx a none (.mk f [⟨e, cx.atomElement a, []⟩])

variable {cx : Context} {s : FoldState} {E : List Held} {hs : List Root} {site : Nat}
  {atoms : List Atom} {consumed : RegisterSet} {effects : Bool} {a : Atom}
  {os : List (Option FormTree)} {t : FormTree} {ts : List FormTree}

theorem popOperand_lists (h : s.Lists E hs) :
    (cx.popOperand site atoms consumed effects a).Ends s fun popped s' => s'.pool = s.pool ∧
      ∃ o E', popped = o.map FormTree.id ∧ OperandPop s.pool atoms consumed effects a E o E' ∧
        s'.Lists E' (o.toList.map .tree ++ hs) := by
  have hkept : ∀ s' : FoldState, s' = s → s'.pool = s.pool ∧ ∃ o E', none = o.map FormTree.id ∧
      OperandPop s.pool atoms consumed effects a E o E' ∧
        s'.Lists E' (o.toList.map .tree ++ hs) := by
    rintro s' rfl
    exact ⟨rfl, none, E, rfl, .kept, h⟩
  unfold popOperand
  split
  · exact hkept s rfl
  · rename_i r hr
    split
    · exact hkept s rfl
    · rename_i hguard
      simp only [Bool.or_eq_true, Bool.not_eq_true', decide_eq_true_eq, not_or, ne_eq,
        Decidable.not_not, Bool.not_eq_false] at hguard
      refine ends_bind.2 (ends_take.2 ⟨fun _ => hkept s rfl, fun f stack hpop => ?_⟩)
      obtain ⟨t, E', rfl, hpops, hlists⟩ := h.popRegister hpop
      exact ⟨rfl, some t, E', rfl, .popped hr hguard.1 hguard.2 hpops, hlists⟩

theorem OperandPops.keep (p : Pool) (atoms : List Atom) (consumed : RegisterSet) (effects : Bool)
    (as : List Atom) (E : List Held) :
    OperandPops p atoms consumed effects as E (as.map fun _ => none) E := by
  induction as with
  | nil => exact .nil
  | cons a as ih => exact .cons ih .kept

theorem OperandPops.length_eq {p : Pool} {as : List Atom} {E' : List Held}
    (h : OperandPops p atoms consumed effects as E os E') : as.length = os.length := by
  induction h with
  | nil => rfl
  | cons hrest hpop ih => rw [length_cons, length_cons, ih]

theorem popOperands_lists (h : s.Lists E hs) :
    (cx.popOperands site atoms consumed effects).Ends s fun popped s' =>
      ∃ os E', popped = os.map (Option.map FormTree.id) ∧
        OperandPops s.pool atoms consumed effects atoms E os E' ∧
        s'.Lists E' ((os.filterMap id).map .tree ++ hs) := by
  unfold popOperands
  rw [ends_bind, ends_get]
  split
  · refine ⟨atoms.map fun _ => none, E, ?_, .keep _ _ _ _ _ _, ?_⟩
    · rw [map_map]
      rfl
    · have hnone : (atoms.map fun _ => (none : Option FormTree)).filterMap id = [] := by
        rw [filterMap_map, filterMap_eq_nil_iff]
        intro a ha
        rfl
      rw [hnone]
      exact h
  · rw [ends_bind]
    -- After some atoms from the end, what was popped so far is in the hands.
    let I : List Atom → List (Option FormId) → FoldState → Prop := fun done out s' =>
      s'.pool = s.pool ∧ ∃ os E', out.reverse = os.map (Option.map FormTree.id) ∧
        OperandPops s.pool atoms consumed effects done.reverse E os E' ∧
        s'.Lists E' ((os.filterMap id).map .tree ++ hs)
    have hrun : (atoms.reverse.mapM (cx.popOperand site atoms consumed effects)).Ends s
        (I atoms.reverse) := by
      refine ends_mapM ?_ ⟨rfl, [], E, rfl, .nil, h⟩
      rintro done out a s' - ⟨hpool, os, E', hout, hpops, hlists⟩
      refine (popOperand_lists hlists).mono fun popped s'' hpopped => ?_
      obtain ⟨hpool', o, E'', rfl, hpop, hlists'⟩ := hpopped
      rw [hpool] at hpop hpool'
      refine ⟨hpool', o :: os, E'', ?_, ?_, ?_⟩
      · rw [reverse_append, hout]
        rfl
      · rw [reverse_append]
        exact .cons hpops hpop
      · rw [← append_assoc, ← map_append] at hlists'
        cases o <;> exact hlists'
    refine hrun.mono fun out s' hI => ?_
    obtain ⟨-, os, E', hout, hpops, hlists⟩ := hI
    rw [reverse_reverse] at hpops
    exact ⟨os, E', hout, hpops, hlists⟩

theorem operandForm_lists {o : Option FormTree} (h : s.Lists E (o.toList.map .tree ++ hs)) :
    (cx.operandForm (a, o.map FormTree.id)).Ends s fun out s' =>
      ∃ t : FormTree, out = (t.id, o.isSome) ∧ OperandTree cx a o t ∧ s'.Lists E (.tree t :: hs) := by
  cases o with
  | some t => exact ⟨t, rfl, .popped t, h⟩
  | none =>
    rw [operandForm]
    simp only [Option.map_none, ends_bind, ends_pure, atomForm_eq]
    have hnone : s.Lists E (([] : List FormTree).map .tree ++ hs) := h
    refine (hnone.addSingle (cx.children_atomElement a)).mono fun f s' hnew => ?_
    obtain ⟨e, hlists⟩ := hnew
    exact ⟨_, rfl, .fresh f e, hlists⟩

theorem operandForms_lists (h : s.Lists E ((os.filterMap id).map .tree ++ hs))
    (hlength : atoms.length = os.length) :
    ((atoms.zip (os.map (Option.map FormTree.id))).mapM cx.operandForm).Ends s fun out s' =>
      ∃ ts : List FormTree, out = (ts.map FormTree.id).zip (os.map Option.isSome) ∧
        List.Forall₂ (fun operand t => OperandTree cx operand.1 operand.2 t) (atoms.zip os) ts ∧
        s'.Lists E (ts.map .tree ++ hs) := by
  induction atoms generalizing os s hs with
  | nil =>
    have hos : os = [] := length_eq_zero_iff.1 hlength.symm
    subst hos
    exact ⟨[], rfl, .nil, h⟩
  | cons a atoms ih =>
    obtain ⟨o, os, rfl⟩ := exists_cons_of_length_eq_add_one hlength.symm
    rw [map_cons, zip_cons_cons, mapM_cons, ends_bind]
    have hfirst : s.Lists E (o.toList.map .tree ++ ((os.filterMap id).map .tree ++ hs)) := by
      rw [← append_assoc, ← map_append]
      cases o <;> exact h
    refine (operandForm_lists hfirst).mono fun out s' hout => ?_
    obtain ⟨t, rfl, htree, hlists⟩ := hout
    rw [ends_bind]
    have hrest := ih (hlists.perm perm_middle.symm) (Nat.succ.inj hlength)
    refine hrest.mono fun out s'' hout => ?_
    obtain ⟨ts, rfl, htrees, hlists'⟩ := hout
    exact ⟨t :: ts, rfl, .cons htree htrees, hlists'.perm perm_middle⟩

/-- What operands become. -/
theorem operandsConsuming_lists (h : s.Lists E hs) :
    (cx.operandsConsuming site atoms consumed effects).Ends s fun out s' =>
      ∃ os E' ts,
        (cx.popOperands site atoms consumed effects s).1 = os.map (Option.map FormTree.id) ∧
        OperandPops s.pool atoms consumed effects atoms E os E' ∧
        List.Forall₂ (fun operand t => OperandTree cx operand.1 operand.2 t) (atoms.zip os) ts ∧
        out = (ts.map FormTree.id).zip (os.map Option.isSome) ∧
        s'.Lists E' (ts.map .tree ++ hs) := by
  have hpop : (cx.popOperands site atoms consumed effects).Ends s _ := popOperands_lists h
  obtain ⟨os, E', hpopped, hpops, hlists⟩ := hpop
  rw [operandsConsuming, ends_bind, FoldM.Ends, hpopped]
  refine (operandForms_lists hlists hpops.length_eq).mono fun out s'' hout => ?_
  obtain ⟨ts, hout, htrees, hlists'⟩ := hout
  exact ⟨os, E', ts, rfl, hpops, htrees, hout, hlists'⟩

theorem operandsMarked_lists (h : s.Lists E hs) :
    (cx.operandsMarked site atoms effects).Ends s fun out s' =>
      ∃ os E' ts,
        (cx.popOperands site atoms (cx.consumed s.verbatim site) effects s).1 =
          os.map (Option.map FormTree.id) ∧
        OperandPops s.pool atoms (cx.consumed s.verbatim site) effects atoms E os E' ∧
        List.Forall₂ (fun operand t => OperandTree cx operand.1 operand.2 t) (atoms.zip os) ts ∧
        out.map Prod.fst = ts.map FormTree.id ∧ s'.Lists E' (ts.map .tree ++ hs) := by
  rw [operandsMarked]
  simp only [ends_bind, ends_consumedNow]
  refine (operandsConsuming_lists h).mono fun out s' hout => ?_
  obtain ⟨os, E', ts, hpopped, hpops, htrees, rfl, hlists⟩ := hout
  refine ⟨os, E', ts, hpopped, hpops, htrees, ?_, hlists⟩
  have hlength := htrees.length_eq
  rw [length_zip, hpops.length_eq, Nat.min_self] at hlength
  exact map_fst_zip (Nat.le_of_eq (by rw [length_map, length_map, hlength]))

/-- A cast of a form: the form itself, or an element over it when its type is known. -/
inductive CastTree (cx : Context) (desired : TypeName) (t : FormTree) : FormTree → Prop
  | same : CastTree cx desired t t
  | cast {p : Pool} {actual : TypeName} (f : FormId) (e : ElementId) (hholds : p.Holds t)
      (htype : cx.env.formType p t.id = some actual) :
      CastTree cx desired t
        (.mk f [⟨e, .cast desired t.id (cx.env.coercion desired actual == .numeric), [t]⟩])

theorem castTo_lists {desired : TypeName} (h : s.Lists E (.tree t :: hs)) :
    (cx.castTo site t.id desired).Ends s fun f s' =>
      ∃ t' : FormTree, t'.id = f ∧ CastTree cx desired t t' ∧ s'.Lists E (.tree t' :: hs) := by
  have hsame : ∃ t' : FormTree, t'.id = t.id ∧ CastTree cx desired t t' ∧
      s.Lists E (.tree t' :: hs) := ⟨t, rfl, .same, h⟩
  unfold castTo
  split
  · exact hsame
  · rw [ends_bind, ends_formType]
    split
    · exact hsame
    · rename_i actual htype
      split
      · exact hsame
      · rw [ends_bind]
        have hone : s.Lists E ([t].map .tree ++ hs) := h
        have hchildren : (Element.cast desired t.id
            (cx.env.coercion desired actual == .numeric)).children = [t].map FormTree.id := rfl
        refine (hone.addSingle hchildren).mono fun f s' hnew => ?_
        obtain ⟨e, hlists⟩ := hnew
        rw [ends_bind, ends_noteForm, ends_note, ends_pure]
        exact ⟨_, rfl, .cast f e (h.holds mem_cons_self) htype, hlists⟩

theorem matchSignedness_lists {first : FormId} (h : s.Lists E (.tree t :: hs)) :
    (cx.matchSignedness site first t.id).Ends s fun f s' =>
      ∃ (t' : FormTree) (desired : TypeName), t'.id = f ∧ desired.isInteger = true ∧
        CastTree cx desired t t' ∧ s'.Lists E (.tree t' :: hs) := by
  have hsame : ∃ (t' : FormTree) (desired : TypeName), t'.id = t.id ∧ desired.isInteger = true ∧
      CastTree cx desired t t' ∧ s.Lists E (.tree t' :: hs) := ⟨t, .int, rfl, rfl, .same, h⟩
  unfold matchSignedness
  simp only [ends_bind, ends_formType]
  split
  · rename_i a b _ _
    split
    · rename_i hintegers
      simp only [Bool.and_eq_true] at hintegers
      refine (castTo_lists h).mono fun f s' hcast => ?_
      obtain ⟨t', ht', hcast, hlists⟩ := hcast
      exact ⟨t', a, ht', hintegers.1.1, hcast, hlists⟩
    · exact hsame
  · exact hsame

theorem matchOperands_lists (h : s.Lists E (ts.map .tree ++ hs)) :
    (cx.matchOperands site (ts.map FormTree.id)).Ends s fun fs s' =>
      ∃ ts', fs = ts'.map FormTree.id ∧
        List.Forall₂
          (fun t t' => ∃ desired : TypeName, desired.isInteger = true ∧ CastTree cx desired t t')
          ts ts' ∧ s'.Lists E (ts'.map .tree ++ hs) := by
  have hrefl : ∀ ts : List FormTree, List.Forall₂
      (fun t t' => ∃ desired : TypeName, desired.isInteger = true ∧ CastTree cx desired t t')
      ts ts := fun ts => forall₂_same.2 fun t _ => ⟨.int, rfl, .same⟩
  match ts with
  | [] => exact ⟨[], rfl, .nil, h⟩
  | [t] => exact ⟨[t], rfl, hrefl [t], h⟩
  | [t, u] =>
    change (cx.matchSignedness site t.id u.id >>= fun f => pure [t.id, f] : FoldM _).Ends _ _
    rw [ends_bind]
    have hsecond : s.Lists E (.tree u :: .tree t :: hs) := h.perm (List.Perm.swap _ _ _)
    refine (matchSignedness_lists hsecond).mono fun f s' hcast => ?_
    obtain ⟨u', desired, rfl, hinteger, hcast, hlists⟩ := hcast
    refine ⟨[t, u'], rfl, .cons ⟨.int, rfl, .same⟩ (.cons ⟨desired, hinteger, hcast⟩ .nil), ?_⟩
    exact hlists.perm (List.Perm.swap _ _ _)
  | t :: u :: v :: ts => exact ⟨t :: u :: v :: ts, rfl, hrefl _, h⟩

theorem forceInteger_lists {signed : Bool} (h : s.Lists E (ts.map .tree ++ hs)) :
    (cx.forceInteger site (ts.map FormTree.id) signed).Ends s fun fs s' =>
      ∃ ts', fs = ts'.map FormTree.id ∧
        List.Forall₂ (CastTree cx (if signed then .int else .uint)) ts ts' ∧
        s'.Lists E (ts'.map .tree ++ hs) := by
  rw [forceInteger]
  induction ts generalizing s hs with
  | nil => exact ⟨[], rfl, .nil, h⟩
  | cons t ts ih =>
    rw [map_cons, mapM_cons]
    refine (castTo_lists h).bind fun f s' hcast => ?_
    obtain ⟨t', rfl, hcast, hlists⟩ := hcast
    refine (ih (hlists.perm perm_middle.symm)).bind fun fs s'' hrest => ?_
    obtain ⟨ts', rfl, hcasts, hlists'⟩ := hrest
    exact ⟨t' :: ts', rfl, .cons hcast hcasts, hlists'.perm perm_middle⟩

end Context

end Decompiler
