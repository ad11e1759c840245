import Decompiler.Proofs.Fold.Failure
import Decompiler.Proofs.Meaning.Division

/-!
The value of a folded expression.  Its operands are popped or are atoms, and what it is folded to
computes its operator on their words.  From integer code comes integer code, and unless operands
clash its value is that of the expression.
-/

namespace Decompiler

open FoldM List

variable {E : List Held} {hs : List Root} {s : FoldState} {p q : Pool} {a : Atom}
  {atoms : List Atom} {os : List (Option FormTree)} {env : TypeEnv} {t : FormTree} {f : FormId}

theorem Register.ne_results_of_isPlain {r : Register} (h : r.isPlain = true) :
    r ≠ .hi ∧ r ≠ .lo := by
  simp only [isPlain, Bool.and_eq_true, bne_iff_ne, ne_eq] at h
  exact ⟨h.1.1.2, h.1.2⟩

theorem Atom.isOrdinary_of_isInteger (h : a.isInteger = true) : a.isOrdinary = true := by
  cases a with
  | var v =>
    obtain ⟨hhi, hlo⟩ := Register.ne_results_of_isPlain h
    simp [isOrdinary, hhi, hlo]
  | float | label => cases h
  | _ => rfl

theorem Atom.value_congr {σ σ' : Registers} (consts : Constants)
    (h : ∀ r, a.register? = some r → σ r = σ' r) : a.value consts σ = a.value consts σ' := by
  cases a with
  | var v => exact h v.register rfl
  | _ => rfl

theorem Atom.value_of_register? {r : Register} (h : a.register? = some r) (consts : Constants)
    (σ : Registers) : a.value consts σ = σ r := by
  cases a with
  | var v =>
    cases h
    rfl
  | _ => cases h

theorem Operator.result_of_isInteger {operator : Operator} (h : operator.isInteger = true)
    (ws : List Word) : operator.result ws = operator.compute ws := by
  cases operator <;> first | rfl | cases h

namespace Expression

variable {e : Expression}

theorem isInteger_args (h : e.isInteger = true) : ∀ a ∈ e.args, a.isInteger = true := by
  simp only [isInteger, Bool.and_eq_true, all_eq_true] at h
  exact h.2

theorem isInteger_operator (h : e.isInteger = true) :
    e.operator.isInteger = true ∧ e.args.length = e.operator.arity := by
  simp only [isInteger, Bool.and_eq_true, beq_iff_eq] at h
  exact h.1

end Expression

theorem FoldState.Lists.owns_entries (h : s.Lists E hs) : s.pool.Owns (E.map Held.root) :=
  h.owns.sublist (sublist_append_right _ _)

theorem FoldState.Lists.holds_trees {ts : List FormTree} (h : s.Lists E (ts.map .tree ++ hs)) :
    ∀ t ∈ ts, s.pool.Holds t :=
  fun _ ht => h.holds (mem_append_left _ (mem_map_of_mem ht))

/-- The values on a stack are of some kind. -/
def WordKind.CoversEntries (K : WordKind env) (p : Pool) (E : List Held) : Prop :=
  ∀ {dst : Variable} {t : FormTree} {ordered : Bool} {notes : SetNotes},
    .value dst t ordered notes ∈ E → K.form p t.id

namespace Pool

variable {ts ts' : List FormTree} {ev : Evaluator} {σ : Registers}

/-- The words of forms in a larger pool are those of their trees. -/
theorem map_wordBy_id (hts : ∀ t ∈ ts, p.Holds t) (hext : p.Extends q) :
    (ts.map FormTree.id).map (q.wordBy ev σ) = ts.map (FormTree.wordBy ev σ) := by
  rw [map_map]
  exact map_congr_left fun t ht => (hts t ht).wordBy_eq_of_extends hext

theorem SameWord.map_wordBy {K : WordKind env}
    (h : List.Forall₂ (q.SameWord K) (ts.map FormTree.id) (ts'.map FormTree.id))
    (hts : ∀ t ∈ ts, p.Holds t) (hext : p.Extends q) (hts' : ∀ t ∈ ts', q.Holds t) :
    ts'.map (FormTree.wordBy ev σ) = ts.map (FormTree.wordBy ev σ) := by
  rw [← map_wordBy_id hts hext, ← map_wordBy_id hts' (.refl q)]
  exact SameWord.map_eval h (.refl q) (q.wordBy_interprets env ev σ)

theorem Holds.single?_element {n : Node FormTree} (h : p.Holds (.mk f [n])) :
    (p.single? f).map p.element = some n.element := by
  have hsingle : p.single? f = some n.id := single?_of_elementsOf h.elementsOf_eq
  rw [hsingle, Option.map_some, (h.node n mem_cons_self).element_eq]

end Pool

namespace Context

variable {cx : Context} {site : Nat} {e : Expression} {K : WordKind cx.env}

/-- Nothing is popped for operands that are no registers. -/
theorem OperandPops.eq_of_constants {as : List Atom} {consumed : RegisterSet} {effects : Bool}
    {E' : List Held} (h : OperandPops p atoms consumed effects as E os E')
    (has : ∀ a ∈ as, a.register? = none) : E' = E := by
  induction h with
  | nil => rfl
  | cons hrest hpop ih =>
    obtain ⟨ha, has⟩ := forall_mem_cons.1 has
    cases hpop with
    | kept => exact ih has
    | popped hreg => cases ha.symm.trans hreg

/-- Only constants are evaluated. -/
theorem foldConstant_found (hargs : ∀ a ∈ e.args, a.isOrdinary = true) :
    (cx.foldConstant site e).Ends s fun found s' =>
      (found = none ∧ s' = s) ∨ ∃ f, found = some f ∧ ∀ a ∈ e.args, a.register? = none := by
  unfold foldConstant
  rw [Expression.staticLabel?_eq_none_of_isOrdinary hargs]
  cases hconstant : e.constant? with
  | none => exact .inl ⟨rfl, rfl⟩
  | some w =>
    exact .inr ⟨_, rfl, (Expression.result_of_constant? hconstant (fun _ => 0) fun _ => 0).2⟩

/-- What was popped for the operands of an instruction, and which entries are left. -/
structure Popped (cx : Context) (site : Nat) (atoms : List Atom) (s : FoldState) (E : List Held)
    (os : List (Option FormTree)) (E' : List Held) : Prop where
  popped_eq : (cx.popOperands site atoms (cx.consumed s.verbatim site) true s).1 =
    os.map (Option.map FormTree.id)
  pops : OperandPops s.pool atoms (cx.consumed s.verbatim site) true atoms E os E'

theorem exists_popped (atoms : List Atom) (h : s.Lists E hs) :
    ∃ os E', cx.Popped site atoms s E os E' := by
  have hpop : (cx.popOperands site atoms (cx.consumed s.verbatim site) true).Ends s _ :=
    popOperands_lists h
  obtain ⟨os, E', hpopped, hpops, -⟩ := hpop
  exact ⟨os, E', hpopped, hpops⟩

/-- The operands of an instruction are in the hands. -/
theorem operands_lists (h : s.Lists E hs) :
    (cx.operands site atoms true).Ends s fun fs s' => ∃ os E' ts, cx.Popped site atoms s E os E' ∧
      fs = List.map FormTree.id ts ∧ s'.Lists E' (ts.map .tree ++ hs) ∧
      List.Forall₂ (fun a t => a.register? = none → FormTree.substance t = []) atoms ts := by
  rw [operands]
  refine (operandsMarked_lists h).bind fun out s' hout => ?_
  obtain ⟨os, E', ts, hpopped, hpops, htrees, hforms, hlists⟩ := hout
  obtain ⟨found, -, hserves⟩ := hpops.takes h.nodup htrees
  exact ⟨os, E', ts, ⟨hpopped, hpops⟩, hforms, hlists, hserves.constant⟩

/-- Folding an expression pops its operands, and leaves a tree in the hands. -/
theorem foldOperator_lists (harity : e.args.length = e.operator.arity)
    (hargs : ∀ a ∈ e.args, a.isOrdinary = true) (h : s.Lists E hs) :
    (cx.foldOperator site e).Ends s fun f s' => ∃ os E' t, cx.Popped site e.args s E os E' ∧
      t.id = f ∧ s'.Lists E' (.tree t :: hs) := by
  unfold foldOperator
  split
  · rename_i a hcopied
    cases Expression.copied?_eq_some hcopied
    rw [foldCopy_eq_operand (hargs a mem_cons_self), operand]
    refine (operands_lists h).bind fun fs s' hfs => ?_
    obtain ⟨os, E', ts, hpopped, rfl, hlists, hconstant⟩ := hfs
    obtain ⟨t, rfl⟩ := length_eq_one_iff.1 hconstant.length_eq.symm
    exact ⟨os, E', t, hpopped, rfl, hlists⟩
  · refine ((foldConstant_carries h).and (foldConstant_found hargs)).bind ?_
    rintro found s' ⟨⟨hcarries, -⟩, ⟨rfl, rfl⟩ | ⟨f, rfl, hconstants⟩⟩
    · dsimp only
      refine (operands_lists h).bind fun fs s' hfs => ?_
      obtain ⟨os, E', ts, hpopped, rfl, hlists, hconstant⟩ := hfs
      refine (applyOperator_carries harity hlists hconstant).mono fun f s'' hcarries => ?_
      obtain ⟨t, ht, hlists', -⟩ := hcarries.exists_single
      exact ⟨os, E', t, hpopped, ht, hlists'⟩
    · obtain ⟨t, ht, hlists, -⟩ := hcarries.exists_single
      obtain ⟨os, E', hpopped⟩ : ∃ os E', cx.Popped site e.args s E os E' := exists_popped _ h
      obtain rfl := hpopped.pops.eq_of_constants hconstants
      exact ⟨os, E', t, hpopped, ht, hlists⟩

def operandWord (ev : Evaluator) (σ : Registers) : Atom × Option FormTree → Word
  | (_, some t) => t.wordBy ev σ
  | (a, none) => a.value ev.consts σ

theorem operandWord_congr {ev : Evaluator} {σ σ' : Registers} {o : Option FormTree}
    (hatom : ∀ r, a.register? = some r → σ r = σ' r) (htree : ∀ t ∈ o, ∀ r ∈ t.reads, σ r = σ' r) :
    operandWord ev σ (a, o) = operandWord ev σ' (a, o) := by
  cases o with
  | none => exact Atom.value_congr ev.consts hatom
  | some t => exact FormTree.wordBy_congr (htree t rfl)

/-- Unless operands clash, popping them changes only their registers, and the word of what stands
for each is the value of the operand. -/
theorem OperandPops.performAll_eq {as : List Atom} {consumed : RegisterSet} {effects : Bool}
    {E' : List Held} (h : OperandPops p atoms consumed effects as E os E') (hE : Held.KeepResults E)
    (hsuffix : as <:+ atoms) (howns : p.Owns (E.map Held.root))
    (hclear : p.clash (as.zip (os.map (Option.map FormTree.id))) = false) (ev : Evaluator)
    (σ : Registers) :
    (∀ q ∉ poppedRegisters as os, Held.performAll ev σ E' q = Held.performAll ev σ E q) ∧
      ∀ operand ∈ as.zip os, operandWord ev (Held.performAll ev σ E') operand =
        operand.1.value ev.consts (Held.performAll ev σ E) := by
  induction h with
  | nil => exact ⟨fun q _ => rfl, by simp⟩
  | @cons a as o os E E' E'' hrest hpop ih =>
    rw [map_cons, zip_cons_cons] at hclear
    obtain ⟨hclear, hunread⟩ := Pool.clash_cons_eq_false hclear
    obtain ⟨hother, hwords⟩ := ih hE ((suffix_cons a as).trans hsuffix) howns hclear
    -- The operand in front has not been touched by popping those behind it.
    have hfront : ∀ r, a.register? = some r →
        Held.performAll ev σ E' r = Held.performAll ev σ E r := by
      intro r hr
      refine hother r fun hpopped => ?_
      obtain ⟨-, honce, hmem⟩ := hrest.of_mem_popped hpopped
      exact not_mem_of_once hsuffix hr honce hmem
    cases hpop with
    | kept =>
      rw [zip_cons_cons]
      exact ⟨hother, forall_mem_cons.2 ⟨Atom.value_congr ev.consts hfront, hwords⟩⟩
    | @popped r E' E'' t hreg hconsumed honce hpops =>
      obtain ⟨hkeeps, hvalue⟩ := hpops.performAll_eq
        (howns.sublist (hrest.sublist.map Held.root)) (hE.sublist hrest.sublist) ev σ
      refine ⟨?_, ?_⟩
      · intro q hq
        rw [poppedRegisters_some hreg, mem_cons, not_or] at hq
        rw [hkeeps q hq.1, hother q hq.2]
      rw [zip_cons_cons]
      refine forall_mem_cons.2 ⟨?_, ?_⟩
      · rw [Atom.value_of_register? hreg, ← hfront r hreg]
        exact hvalue
      · rintro ⟨b, found⟩ hoperand
        obtain ⟨hb, hfound⟩ := of_mem_zip hoperand
        rw [← hwords _ hoperand]
        refine operandWord_congr (fun q hq => hkeeps q ?_) fun u hu q hq => hkeeps q ?_
        · rintro rfl
          exact not_mem_of_once hsuffix hreg honce (mem_filterMap.2 ⟨b, hb, hq⟩)
        · rintro rfl
          cases hu
          obtain ⟨dst, ordered, notes, hmem⟩ := hrest.mem hfound
          have hu : p.Holds u ∧ u.elements.Nodup := howns.of_mem (mem_map.2 ⟨_, hmem, rfl⟩)
          have hentry : (b, some u.id) ∈ as.zip (os.map (Option.map FormTree.id)) := by
            rw [zip_map_right]
            exact mem_map.2 ⟨(b, some u), hoperand, rfl⟩
          exact hunread rfl q hreg b u.id hentry ((hu.1.mem_formReadRegisters hu.2).2 hq)

/-- The words of what was obtained are those of the trees that were popped. -/
theorem map_word_obtained {q : Pool} (hos : ∀ t, some t ∈ os → p.Holds t) (hext : p.Extends q)
    (ev : Evaluator) (σ : Registers) :
    (atoms.zip (os.map (Option.map FormTree.id))).map (Operand.word ev.consts σ (q.wordBy ev σ)) =
      (atoms.zip os).map (operandWord ev σ) := by
  rw [zip_map_right, map_map]
  refine map_congr_left ?_
  rintro ⟨a, o⟩ ho
  cases o with
  | none => rfl
  | some t => exact (hos t (of_mem_zip ho).2).wordBy_eq_of_extends hext

/-- What is obtained for operands is of some kind when the entries on the stack are. -/
theorem obtained_covers (h : s.Lists E hs) (hE : K.CoversEntries s.pool E)
    (hatoms : ∀ a ∈ atoms, K.operand a) :
    ∀ entry ∈ cx.obtained site atoms s, K.Covers s.pool entry := by
  obtain ⟨os, E', hpopped, hpops⟩ := exists_popped atoms h
  rw [obtained, hpopped, zip_map_right]
  intro entry hentry
  obtain ⟨⟨a, o⟩, ho, rfl⟩ := mem_map.1 hentry
  obtain ⟨ha, ho⟩ := of_mem_zip ho
  cases o with
  | some t =>
    obtain ⟨dst, ordered, notes, hheld⟩ := hpops.mem ho
    exact hE hheld
  | none => exact hatoms a ha

namespace Popped

variable {E' : List Held}

theorem holds (h : cx.Popped site atoms s E os E') (hlists : s.Lists E hs) :
    ∀ t, some t ∈ os → s.pool.Holds t := by
  intro t ht
  obtain ⟨dst, ordered, notes, hheld⟩ := h.pops.mem ht
  exact (hlists.owns_entries.of_mem (mem_map.2 ⟨_, hheld, rfl⟩)).1

/-- Unless operands clash, popping them changes only the registers that are taken, and the words
of what was popped are the values of the operands. -/
theorem performAll_eq (h : cx.Popped site atoms s E os E') (hlists : s.Lists E hs)
    (hE : Held.KeepResults E) (hclear : cx.clashes site atoms s = false) (ev : Evaluator)
    (σ : Registers) :
    (∀ q ∉ cx.takes site atoms s, Held.performAll ev σ E' q = Held.performAll ev σ E q) ∧
      (atoms.zip os).map (operandWord ev (Held.performAll ev σ E')) =
        atoms.map (Atom.value ev.consts (Held.performAll ev σ E)) := by
  rw [clashes, h.popped_eq] at hclear
  obtain ⟨hother, hwords⟩ :=
    h.pops.performAll_eq hE (suffix_refl atoms) hlists.owns_entries hclear ev σ
  rw [takes, h.popped_eq, poppedRegisters_map]
  refine ⟨hother, ?_⟩
  have hfirst : (atoms.zip os).map Prod.fst = atoms := map_fst_zip (Nat.le_of_eq h.pops.length_eq)
  conv_rhs => rw [← hfirst]
  rw [map_map]
  exact map_congr_left hwords

end Popped

/-- The trees of operands have the words of what was popped for them. -/
theorem operandsMarked_wordBy (hatoms : ∀ a ∈ atoms, a.isInteger = true)
    (hoperands : ∀ a ∈ atoms, K.operand a) (h : s.Lists E hs) (hE : K.CoversEntries s.pool E) :
    (cx.operandsMarked site atoms true).Ends s fun out s' => ∃ os E' ts,
      cx.Popped site atoms s E os E' ∧ out.map Prod.fst = List.map FormTree.id ts ∧
      s'.Lists E' (ts.map .tree ++ hs) ∧ s.pool.Extends s'.pool ∧
      (∀ f ∈ ts.map FormTree.id, K.form s'.pool f) ∧
      ∀ ev σ, ts.map (FormTree.wordBy ev σ) = (atoms.zip os).map (operandWord ev σ) := by
  have hlabels : ∀ a ∈ atoms, cx.atomElement a = .atom a := fun a ha =>
    atomElement_of_isOrdinary (Atom.isOrdinary_of_isInteger (hatoms a ha))
  refine ((operandsMarked_lists h).and
    (operandsMarked_represents (obtained_covers h hE hoperands) hlabels)).mono ?_
  rintro out s' ⟨⟨os, E', ts, hpopped, hpops, -, hforms, hlists⟩, hext, hrepresents⟩
  have hword : cx.Popped site atoms s E os E' := ⟨hpopped, hpops⟩
  rw [hforms] at hrepresents
  refine ⟨os, E', ts, hword, hforms, hlists, hext,
    (knownWords_of_represents popOperands_registers hrepresents).form, fun ev σ => ?_⟩
  have hvalues := map_eval_of_represents hrepresents (.refl _)
    (s'.pool.wordBy_interprets cx.env ev σ)
  rw [obtained, hpopped, map_word_obtained (hword.holds h) hext,
    Pool.map_wordBy_id hlists.holds_trees (.refl _)] at hvalues
  exact hvalues

/-- What an expression is folded to computes its operator on the words of the operands. -/
theorem foldOperator_wordBy (hcoercion : cx.env.coercion = standardCoercion)
    (he : e.isInteger = true) (hoperands : ∀ a ∈ e.args, K.operand a) (h : s.Lists E hs)
    (hE : K.CoversEntries s.pool E) :
    (cx.foldOperator site e).Ends s fun f s' => ∃ os E' t, cx.Popped site e.args s E os E' ∧
      t.id = f ∧ s'.Lists E' (.tree t :: hs) ∧ K.form s'.pool t.id ∧
      ∀ ev σ, e.operator.compute ((e.args.zip os).map (operandWord ev σ)) =
        some (t.wordBy ev σ) := by
  obtain ⟨hoperator, harity⟩ := Expression.isInteger_operator he
  have hordinary : ∀ a ∈ e.args, a.isOrdinary = true :=
    fun a ha => Atom.isOrdinary_of_isInteger (Expression.isInteger_args he a ha)
  have hword : e.operator.isWord = true := by
    rw [Operator.isWord, hoperator]
    rfl
  have hdenotes : (cx.foldOperator site e).Ends s _ :=
    foldOperator_denotes hcoercion hword harity hordinary (obtained_covers h hE hoperands)
  refine ((foldOperator_lists harity hordinary h).and hdenotes).mono ?_
  rintro f s' ⟨⟨os, E', t, hpopped, rfl, hlists⟩, hext, hmeaning, hform⟩
  refine ⟨os, E', t, hpopped, rfl, hlists, hform hoperator, fun ev σ => ?_⟩
  have hresult := hmeaning.eval_eq (.refl _) (s'.pool.wordBy_interprets cx.env ev σ)
  have htree : s'.pool.Holds t := hlists.holds mem_cons_self
  rw [htree.wordBy_eq, Operator.result_of_isInteger hoperator, obtained, hpopped.popped_eq,
    map_word_obtained (hpopped.holds h) hext] at hresult
  exact hresult

/-- An operand that is not popped stands for its value. -/
theorem atomForm_wordBy (ha : cx.atomElement a = .atom a) (hoperand : K.operand a)
    (h : s.Lists E hs) :
    (cx.atomForm a).Ends s fun f s' => ∃ t, t.id = f ∧ s'.Lists E (.tree t :: hs) ∧
      K.form s'.pool t.id ∧ ∀ ev σ, t.wordBy ev σ = a.value ev.consts σ := by
  have hnone : s.Lists E (([] : List FormTree).map .tree ++ hs) := h
  rw [atomForm_eq]
  refine (hnone.addSingle (cx.children_atomElement a)).mono fun f s' hnew => ?_
  obtain ⟨e, hlists⟩ := hnew
  rw [ha] at hlists
  have htree : s'.pool.Holds _ := hlists.holds mem_cons_self
  refine ⟨_, rfl, hlists, K.atom (.of_holds htree) htree.single?_element hoperand, fun ev σ => ?_⟩
  exact FormTree.wordBy_single f _

end Context

/-- Integer operands that are not known to be floats. -/
def Atom.IsIntegral (env : TypeEnv) (a : Atom) : Prop :=
  a.isInteger = true ∧ ∀ v, a = .var v → env.variableType v ≠ some .float

theorem TypeEnv.NoFloats.isIntegral (h : env.NoFloats (Atom.registersOf atoms))
    (hatoms : ∀ a ∈ atoms, a.isInteger = true) : ∀ a ∈ atoms, a.IsIntegral env := by
  refine fun a ha => ⟨hatoms a ha, ?_⟩
  rintro v rfl
  exact h.variableType_ne v (RegisterSet.mem_ofList.2 (mem_filterMap.2 ⟨_, ha, rfl⟩))

theorem Atom.IsIntegral.atomType_ne (h : a.IsIntegral env) : env.atomType a ≠ some .float := by
  obtain ⟨ha, htype⟩ := h
  cases a with
  | var v => exact htype v rfl
  | float | label => cases ha
  | _ => exact fun hfloat => by cases hfloat

namespace FormTree

/-- Trees of integer code, none of whose variables is known to be a float. -/
inductive Integral (env : TypeEnv) : FormTree → Prop
  | atom {f : FormId} {e : ElementId} {a : Atom} (ha : a.isInteger = true)
      (htype : ∀ v, a = .var v → env.variableType v ≠ some .float) :
      Integral env (.mk f [⟨e, .atom a, []⟩])
  | apply {f : FormId} {e : ElementId} {b : Builtin} {ts : List FormTree}
      (hb : b.Takes ts.length) (hts : ∀ t ∈ ts, Integral env t) :
      Integral env (.mk f [⟨e, .apply (.builtin b) (ts.map FormTree.id), ts⟩])
  | cast {f : FormId} {e : ElementId} {type : TypeName} {numeric : Bool} {t : FormTree}
      (htype : type ≠ .float) (hconvert : ∀ w, ∃ w', type.convert numeric w = some w')
      (ht : Integral env t) : Integral env (.mk f [⟨e, .cast type t.id numeric, [t]⟩])

variable {consts : Constants} {σ : Registers}

theorem mapM_value {ts : List FormTree} (h : ∀ t ∈ ts, t.value consts σ = some (t.word consts σ)) :
    ts.mapM (value consts σ) = some (ts.map (word consts σ)) := by
  apply mapM_eq_some
  rw [forall₂_map_right_iff, forall₂_same]
  exact h

theorem value_of_compute {n : Node FormTree} {w : Word}
    (hkids : ∀ t ∈ n.kids, t.value consts σ = some (t.word consts σ))
    (hw : n.element.compute consts σ (n.kids.map (word consts σ)) = some w) :
    (mk f [n]).value consts σ = some ((mk f [n]).word consts σ) := by
  rw [value_single, mapM_value hkids, word, wordBy_single]
  exact hw.trans (congrArg some (Element.wordBy_of_compute hw).symm)

/-- Integer code always has a value. -/
theorem Integral.value_eq (h : t.Integral env) :
    t.value consts σ = some (t.word consts σ) := by
  induction h with
  | atom ha htype => exact value_of_compute (by simp) rfl
  | apply hb hts ih =>
    obtain ⟨w, hw⟩ := hb _ (length_map _)
    exact value_of_compute ih hw
  | cast htype hconvert ht ih =>
    obtain ⟨w, hw⟩ := hconvert _
    exact value_of_compute (by simpa using ih) hw

end FormTree

/-- Forms of integer code, none of whose variables is known to be a float. -/
inductive Pool.IsIntegral (env : TypeEnv) (p : Pool) : FormId → Prop
  | atom {f : FormId} {a : Atom} (hf : p.Grounded f)
      (helem : (p.single? f).map p.element = some (.atom a)) (ha : a.IsIntegral env) :
      IsIntegral env p f
  | apply {f : FormId} {b : Builtin} {args : List FormId} (hf : p.Grounded f)
      (helem : (p.single? f).map p.element = some (.apply (.builtin b) args))
      (hb : b.Takes args.length) (hargs : ∀ g ∈ args, IsIntegral env p g) : IsIntegral env p f
  | cast {f g : FormId} {type : TypeName} {numeric : Bool} (hf : p.Grounded f)
      (helem : (p.single? f).map p.element = some (.cast type g numeric)) (htype : type ≠ .float)
      (hconvert : ∀ w, ∃ w', type.convert numeric w = some w') (hg : IsIntegral env p g) :
      IsIntegral env p f

namespace Pool.IsIntegral

theorem hasWord (h : p.IsIntegral env f) : p.HasWord env f := by
  induction h with
  | atom hf helem ha => exact (WordKind.words env).atom hf helem ha.atomType_ne
  | apply hf helem hb _ ih => exact (WordKind.words env).apply hf helem hb ih
  | cast hf helem htype hconvert _ ih =>
    exact (WordKind.words env).cast hf helem htype hconvert ih

theorem mono (h : p.IsIntegral env f) (hext : p.Extends q) : q.IsIntegral env f := by
  induction h with
  | atom hf helem ha => exact .atom (hf.mono hext) ((hf.single?_eq hext).trans helem) ha
  | apply hf helem hb _ ih =>
    exact .apply (hf.mono hext) ((hf.single?_eq hext).trans helem) hb ih
  | cast hf helem htype hconvert _ ih =>
    exact .cast (hf.mono hext) ((hf.single?_eq hext).trans helem) htype hconvert ih

theorem shifted {source : FormId} {amount : Word} (h : p.IsIntegral env f)
    (hshift : p.leftShifted? f amount = some source) : p.IsIntegral env source := by
  obtain ⟨by', hshifted, -⟩ := Pool.leftShifted?_eq_some hshift
  cases h with
  | atom hf helem => cases helem.symm.trans hshifted
  | apply hf helem hb hargs =>
    cases helem.symm.trans hshifted
    exact hargs _ mem_cons_self
  | cast hf helem => cases helem.symm.trans hshifted

/-- A tree of such a form is a tree of integer code. -/
theorem toTree (h : p.IsIntegral env t.id) (hholds : p.Holds t) : t.Integral env := by
  generalize hid : t.id = f at h
  induction h generalizing t with
  | atom hf helem ha =>
    subst hid
    obtain ⟨e, kids, ht, hnode⟩ := hholds.exists_element helem
    obtain rfl : kids = [] := map_eq_nil_iff.1 hnode.kids.symm
    rw [ht]
    exact .atom ha.1 ha.2
  | apply hf helem hb hargs ih =>
    subst hid
    obtain ⟨e, kids, ht, hnode⟩ := hholds.exists_element helem
    obtain rfl : _ = kids.map FormTree.id := hnode.kids
    rw [ht]
    rw [length_map] at hb
    exact .apply hb fun u hu => ih u.id (mem_map_of_mem hu) (hnode.below u hu) rfl
  | cast hf helem htype hconvert hg ih =>
    subst hid
    obtain ⟨e, kids, ht, hnode⟩ := hholds.exists_element helem
    obtain ⟨u, rest, rfl, rfl, hnil⟩ := map_eq_cons_iff.1 hnode.kids.symm
    cases map_eq_nil_iff.1 hnil
    rw [ht]
    exact .cast htype hconvert (ih (hnode.below u mem_cons_self) rfl)

end Pool.IsIntegral

/-- Integer code is a kind of words. -/
def WordKind.integers (env : TypeEnv) : WordKind env where
  form p f := p.IsIntegral env f
  operand a := a.IsIntegral env
  hasWord h := h.hasWord
  mono h := h.mono
  int _ := ⟨rfl, fun v hv => by cases hv⟩
  atom := .atom
  apply := .apply
  cast := .cast
  shifted h := h.shifted

namespace FormTree.Integral

theorem isIntegral (h : t.Integral env) (hholds : p.Holds t) : p.IsIntegral env t.id := by
  induction h with
  | atom ha htype => exact .atom (.of_holds hholds) hholds.single?_element ⟨ha, htype⟩
  | @apply f e b ts hb hts ih =>
    refine .apply (.of_holds hholds) hholds.single?_element (by rwa [length_map]) fun g hg => ?_
    obtain ⟨u, hu, rfl⟩ := mem_map.1 hg
    exact ih u hu ((hholds.node _ mem_cons_self).below u hu)
  | cast htype hconvert ht ih =>
    exact .cast (.of_holds hholds) hholds.single?_element htype hconvert
      (ih ((hholds.node _ mem_cons_self).below _ mem_cons_self))

end FormTree.Integral

namespace Held

def Integral (env : TypeEnv) : Held → Prop
  | .value _ t _ _ => t.Integral env
  | _ => False

theorem coversEntries (howns : p.Owns (E.map Held.root)) (hE : ∀ held ∈ E, held.Integral env) :
    (WordKind.integers env).CoversEntries p E := fun hheld =>
  FormTree.Integral.isIntegral (hE _ hheld) (howns.of_mem (mem_map.2 ⟨_, hheld, rfl⟩)).1

theorem keepResults (hE : ∀ held ∈ E, held.Integral env) : KeepResults E :=
  fun _ hn => absurd (hE _ hn) id

end Held

namespace Context

variable {cx : Context} {site : Nat} {source : Expression}

/-- What folding an integer expression does.  Some entries are gone and a tree of integer code
is in the hands.  Unless operands clash, only the registers that were popped change, and the tree
has the value of the expression. -/
theorem foldOperator_yields {e : Expression} (henv : cx.env.NoFloats e.reads)
    (he : e.isInteger = true) (h : s.Lists E hs) (hE : ∀ held ∈ E, held.Integral cx.env) :
    (cx.foldOperator site e).Ends s fun f s' => ∃ (E' : List Held) (t : FormTree), t.id = f ∧
      E'.Sublist E ∧ s'.Lists E' (.tree t :: hs) ∧ t.Integral cx.env ∧
      (cx.clashes site e.args s = false → ∀ consts σ,
        (∀ q ∉ cx.takes site e.args s, Held.run consts σ E' q = Held.run consts σ E q) ∧
        e.value consts (Held.run consts σ E) = some (t.word consts (Held.run consts σ E'))) := by
  have hoperands := henv.isIntegral (Expression.isInteger_args he)
  refine (foldOperator_wordBy (K := .integers cx.env) henv.coercion_eq he hoperands h
    (Held.coversEntries h.owns_entries hE)).mono ?_
  rintro f s' ⟨os, E', t, hpopped, rfl, hlists, hform, hword⟩
  have ht : t.Integral cx.env := hform.toTree (hlists.holds mem_cons_self)
  refine ⟨E', t, rfl, hpopped.pops.sublist, hlists, ht, fun hclear consts σ => ?_⟩
  obtain ⟨hother, hvalues⟩ :=
    hpopped.performAll_eq h (Held.keepResults hE) hclear (.plain consts) σ
  exact ⟨hother, (congrArg e.operator.compute hvalues).symm.trans (hword _ _)⟩

/-- Folding an assignment with the right number of operands does not fail.  What its expression
is folded to is pushed. -/
theorem pushOperation_set (dst : Variable) (hmode : s.verbatim = false)
    (harity : source.args.length = source.operator.arity)
    (hid : t.id = (cx.foldOperator site source s).1)
    (hlists : (cx.foldOperator site source s).2.Lists E (.tree t :: hs)) :
    ∃ (s' : FoldState) (ordered : Bool) (notes : SetNotes),
      (cx.pushOperation site (.set dst source)).run s = (.ok (), s') ∧ s'.verbatim = false ∧
      s'.Lists (.value dst t ordered notes :: E) hs ∧
      s'.pool = (cx.foldOperator site source s).2.pool := by
  let s₁ : FoldState := (cx.foldOperator site source s).2
  let notes := cx.setNotes site dst (some source)
  let held : Held := .value dst t (s₁.pool.formHasEffect t.id) notes
  have hrun : (cx.pushOperation site (.set dst source)).run s = (.ok (),
      ((cx.foldOperator site source >>= fun value => FoldM.pushValue dst value notes) s).2) := by
    rw [run_pushOperation hmode rfl, pushFolded, foldExpression, if_neg (not_not_intro harity)]
    rfl
  refine ⟨_, s₁.pool.formHasEffect t.id, notes, hrun, ?_, ?_, rfl⟩
  · have hadvance := (FoldM.Tame.bind (cx.foldOperator_tame site source)
      fun value => .pushValue dst value notes).advances s
    exact hadvance.mode.trans hmode
  · have hheld : s₁.Lists E (held.root :: hs) := hlists
    change (FoldM.pushValue dst (cx.foldOperator site source s).1 _ s₁).2.Lists (held :: E) hs
    rw [← hid]
    exact hheld.push

/-- What folding an assignment of an integer expression does: its value is pushed onto what is
left of the entries. -/
theorem pushOperation_yields {dst : Variable} (henv : cx.env.NoFloats source.reads)
    (hsource : source.isInteger = true) (h : s.Lists E hs) (hE : ∀ held ∈ E, held.Integral cx.env)
    (hmode : s.verbatim = false) :
    ∃ (s' : FoldState) (E' : List Held) (t : FormTree) (ordered : Bool) (notes : SetNotes),
      (cx.pushOperation site (.set dst source)).run s = (.ok (), s') ∧ s'.verbatim = false ∧
      s'.Lists (.value dst t ordered notes :: E') hs ∧
      (∀ held ∈ Held.value dst t ordered notes :: E', held.Integral cx.env) ∧
      (cx.clashes site source.args s = false → ∀ consts σ,
        (∀ q ∉ cx.takes site source.args s,
          Held.run consts σ E' q = Held.run consts σ E q) ∧
        source.value consts (Held.run consts σ E) =
          some (t.word consts (Held.run consts σ E'))) := by
  have hyields : (cx.foldOperator site source).Ends s _ := foldOperator_yields henv hsource h hE
  obtain ⟨E', t, hid, hsub, hfolded, ht, hvalue⟩ := hyields
  obtain ⟨s', ordered, notes, hrun, hmode', hlists, -⟩ :=
    pushOperation_set dst hmode (Expression.isInteger_operator hsource).2 hid hfolded
  refine ⟨s', E', t, ordered, notes, hrun, hmode', hlists, ?_, hvalue⟩
  exact forall_mem_cons.2 ⟨ht, fun h hh => hE h (hsub.subset hh)⟩

end Context

end Decompiler
