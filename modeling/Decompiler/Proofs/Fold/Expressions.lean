import Decompiler.Proofs.Fold.Taking

/-!
What expressions are made of.  What is folded from operands evaluates them in order and consists
of what they bring; what a rule leaves out (a shift amount, a zero operand, the element of a
division) is of no substance.
-/

namespace Decompiler

open FoldM List

variable {s : FoldState} {E kept : List Held} {T : List Observation} {hs : List Root} {f : FormId}
  {fs : List FormId}

theorem Expression.copied?_eq_some {e : Expression} {a : Atom} (h : e.copied? = some a) :
    e = ⟨.identity, [a]⟩ := by
  unfold copied? at h
  split at h
  · cases h
    rfl
  · cases h

theorem Pool.leftShifted?_eq_some {p : Pool} {f source : FormId} {amount : Word}
    (h : p.leftShifted? f amount = some source) :
    ∃ by', (p.single? f).map p.element =
        some (.apply (.builtin .shiftLeft) [source, by']) ∧
      (p.single? by').map p.element = some (.atom (.int amount)) := by
  unfold Pool.leftShifted? at h
  split at h
  · rename_i source' by' hshift
    split at h
    · rename_i w hamount
      split at h
      · rename_i hw
        cases h
        exact ⟨by', hshift, hw ▸ hamount⟩
      · cases h
    · cases h
  · cases h

/-- The registers of an expression that its value reads.  The address of static data is the
label alone. -/
def Expression.registersRead (e : Expression) : List Register :=
  if e.staticLabel?.isSome then [] else e.args.filterMap Atom.register?

/-- The state keeps some entries and has some forms in its hands, which are made of some
elements one after the other. -/
def FoldState.Carries (s : FoldState) (kept : List Held) (T : List Observation)
    (fs : List FormId) (hs : List Root) : Prop :=
  ∃ ts : List FormTree, ts.map FormTree.id = fs ∧ s.Lists kept (ts.map .tree ++ hs) ∧
    ts.flatMap FormTree.substance = T

/-- Some forms are made of entries that were taken off a stack for operands. -/
def FoldState.Folds (s : FoldState) (operands : List (Option Register)) (read : List Register)
    (E : List Held) (fs : List FormId) (hs : List Root) : Prop :=
  ∃ taken kept T, Held.Takes true operands E taken kept ∧ Brings read taken T ∧
    s.Carries kept T fs hs

namespace FoldState

variable {element : Element} {operands : List (Option Register)} {read : List Register}

theorem Carries.nil (h : s.Lists kept hs) : s.Carries kept [] [] hs := ⟨[], rfl, h, rfl⟩

theorem Carries.toLists (h : s.Carries kept T [] hs) : s.Lists kept hs := by
  obtain ⟨ts, hts, hlists, -⟩ := h
  rw [map_eq_nil_iff.1 hts] at hlists
  exact hlists

theorem Carries.exists_single (h : s.Carries kept T [f] hs) :
    ∃ t : FormTree, t.id = f ∧ s.Lists kept (.tree t :: hs) ∧ t.substance = T := by
  obtain ⟨ts, hts, hlists, hT⟩ := h
  obtain ⟨t, rest, rfl, ht, hrest⟩ := map_eq_cons_iff.1 hts
  rw [map_eq_nil_iff.1 hrest] at hlists hT
  exact ⟨t, ht, hlists, (flatMap_singleton _ _).symm.trans hT⟩

theorem Carries.of_single {t : FormTree} (h : s.Lists kept (.tree t :: hs)) :
    s.Carries kept t.substance [t.id] hs := ⟨[t], rfl, h, flatMap_singleton _ _⟩

theorem Carries.addSingle (h : s.Carries kept T element.children hs) :
    (FoldM.addSingle element).Ends s fun f s' =>
      s'.Carries kept (T ++ element.substance ⟨s.pool.elements.size⟩) [f] hs := by
  obtain ⟨ts, hts, hlists, rfl⟩ := h
  have hnode : (FoldM.addElement element s).2.Lists kept
      ([⟨⟨s.pool.elements.size⟩, element, ts⟩].map .node ++ hs) := hlists.addElement hts.symm
  refine ⟨[_], rfl, hnode.addForm, ?_⟩
  rw [flatMap_singleton, FormTree.substance_single, Node.substance_eq]

/-- A plain element is made of the forms below it. -/
theorem Carries.addPlain (h : s.Carries kept T element.children hs)
    (hplain : element.isPlain = true) :
    (FoldM.addSingle element).Ends s fun f s' => s'.Carries kept T [f] hs := by
  have hnew := h.addSingle
  rw [Element.substance, if_pos hplain, append_nil] at hnew
  exact hnew

theorem Carries.unwrap (h : s.Carries kept T (f :: fs) hs)
    (hsingle : (s.pool.single? f).map s.pool.element = some element)
    (hplain : element.isPlain = true) : s.Carries kept T (element.children ++ fs) hs := by
  obtain ⟨ts, hts, hlists, hT⟩ := h
  obtain ⟨t, ts, rfl, rfl, rfl⟩ := map_eq_cons_iff.1 hts
  have htree : s.pool.Holds t := hlists.holds mem_cons_self
  obtain ⟨e, kids, ht, hnode⟩ := htree.exists_element hsingle
  rw [map_cons, ht] at hlists
  rw [flatMap_cons, ht, FormTree.substance_single, Node.substance_of_isPlain hplain] at hT
  have hopen := (hlists.openTree.sublist (sublist_cons_self _ _)).openNode
  refine ⟨kids ++ ts, ?_, ?_, ?_⟩
  · rw [map_append, hnode.kids]
  · rw [map_append, append_assoc]
    exact hopen.sublist (sublist_cons_self _ _)
  · rw [flatMap_append, hT]

/-- What is made of the forms in the hands is made of the same entries. -/
theorem Folds.then {α : Type} {m : FoldM α} (h : s.Folds operands read E fs hs)
    (out : α → List FormId)
    (hm : ∀ kept T, s.Carries kept T fs hs → m.Ends s fun a s' => s'.Carries kept T (out a) hs) :
    m.Ends s fun a s' => s'.Folds operands read E (out a) hs := by
  obtain ⟨taken, kept, T, htakes, hbrings, hcarries⟩ := h
  exact (hm _ _ hcarries).mono fun a s' ha => ⟨taken, kept, T, htakes, hbrings, ha⟩

theorem Folds.mono {read' : List Register} (h : s.Folds operands read E fs hs)
    (hread : ∀ r ∈ read', r ∈ read) : s.Folds operands read' E fs hs := by
  obtain ⟨taken, kept, T, htakes, hbrings, hcarries⟩ := h
  exact ⟨taken, kept, T, htakes, hbrings.mono hread, hcarries⟩

/-- Constants need no entry. -/
theorem Carries.folds (h : s.Carries E [] fs hs) : s.Folds operands [] E fs hs :=
  ⟨[], E, [], .nothing true operands E, .nothing, h⟩

end FoldState

namespace Context

variable {cx : Context} {site : Nat} {atoms : List Atom} {consumed : RegisterSet} {effects : Bool}
  {a : Atom} {signed : Bool} {b : Builtin} {e : Expression}

section

variable (h : s.Lists E hs)
include h

/-- Operands are taken off the stack and evaluated in order. -/
theorem operandsConsuming_takes :
    (cx.operandsConsuming site atoms consumed effects).Ends s fun out s' => ∃ found kept ts,
      Held.Takes true (atoms.map Atom.register?) E (found.filterMap id) kept ∧
      Serves cx atoms found ts ∧ out.map Prod.fst = ts.map FormTree.id ∧
      s'.Lists kept (ts.map .tree ++ hs) := by
  refine (operandsConsuming_lists h).mono fun out s' hout => ?_
  obtain ⟨os, kept, ts, -, hpops, htrees, rfl, hlists⟩ := hout
  obtain ⟨found, htakes, hserves⟩ := hpops.takes h.nodup htrees
  refine ⟨found, kept, ts, htakes, hserves, map_fst_zip (Nat.le_of_eq ?_), hlists⟩
  rw [length_map, length_map, ← hserves.constant.length_eq, hpops.length_eq]

theorem operands_takes :
    (cx.operands site atoms effects).Ends s fun fs s' => ∃ found kept ts,
      Held.Takes true (atoms.map Atom.register?) E (found.filterMap id) kept ∧
      Serves cx atoms found ts ∧ fs = ts.map FormTree.id ∧ s'.Lists kept (ts.map .tree ++ hs) := by
  rw [operands, operandsMarked]
  simp only [ends_bind, ends_consumedNow, ends_pure]
  exact operandsConsuming_takes h

theorem operandsConsuming_folds :
    (cx.operandsConsuming site atoms consumed effects).Ends s fun out s' =>
      (out.map Prod.fst).length = atoms.length ∧
      s'.Folds (atoms.map Atom.register?) (atoms.filterMap Atom.register?) E (out.map Prod.fst)
        hs := by
  refine (operandsConsuming_takes h).mono fun out s' hout => ?_
  obtain ⟨found, kept, ts, htakes, hserves, hfs, hlists⟩ := hout
  refine ⟨?_, _, kept, _, htakes, hserves.brings, ts, hfs.symm, hlists, rfl⟩
  rw [hfs, length_map, hserves.constant.length_eq]

theorem operandsMarked_folds :
    (cx.operandsMarked site atoms effects).Ends s fun out s' =>
      (out.map Prod.fst).length = atoms.length ∧
      s'.Folds (atoms.map Atom.register?) (atoms.filterMap Atom.register?) E (out.map Prod.fst)
        hs := by
  rw [operandsMarked, ends_bind, ends_consumedNow]
  exact operandsConsuming_folds h

theorem operands_folds :
    (cx.operands site atoms effects).Ends s fun fs s' => fs.length = atoms.length ∧
      s'.Folds (atoms.map Atom.register?) (atoms.filterMap Atom.register?) E fs hs := by
  rw [operands, ends_bind]
  exact operandsMarked_folds h

theorem operand_folds :
    (cx.operand site a effects).Ends s fun f s' =>
      s'.Folds [a.register?] ([a].filterMap Atom.register?) E [f] hs := by
  rw [operand]
  refine (operands_folds h).bind fun fs s' hfs => ?_
  obtain ⟨hlength, hfolds⟩ := hfs
  obtain ⟨f, rfl⟩ := length_eq_one_iff.1 hlength
  exact hfolds

end

theorem atomForm_carries (h : s.Lists kept hs) :
    (cx.atomForm a).Ends s fun f s' => ∃ t, t.id = f ∧ Served cx a none t ∧
      s'.Carries kept t.substance [f] hs := by
  have hnone : s.Lists kept (([] : List FormTree).map .tree ++ hs) := h
  rw [atomForm_eq]
  refine (hnone.addSingle (cx.children_atomElement a)).mono fun f s' hnew => ?_
  obtain ⟨e, hlists⟩ := hnew
  exact ⟨_, rfl, .fresh f e, .of_single hlists⟩

theorem constantForm_carries (h : s.Lists kept hs) (ha : a.register? = none) :
    (cx.atomForm a).Ends s fun f s' => s'.Carries kept [] [f] hs := by
  refine (atomForm_carries h).mono fun f s' hf => ?_
  obtain ⟨t, -, hserved, hcarries⟩ := hf
  rw [hserved.substance_eq_nil ha] at hcarries
  exact hcarries

variable {t : FormTree}

theorem CastTree.substance_eq {desired : TypeName} {t' : FormTree} (h : CastTree cx desired t t') :
    t'.substance = t.substance := by
  cases h with
  | same => rfl
  | cast f e hholds htype =>
    rw [FormTree.substance_single, Node.substance_of_isPlain rfl, flatMap_singleton]

/-- A step that puts forms made of the same in the place of others. -/
theorem carries_of_lists {m : FoldM (List FormId)} {R : FormTree → FormTree → Prop}
    (hR : ∀ t t', R t t' → t'.substance = t.substance) (h : s.Carries kept T fs hs)
    (hm : ∀ ts, fs = ts.map FormTree.id → s.Lists kept (ts.map .tree ++ hs) →
      m.Ends s fun fs' s' => ∃ ts', fs' = ts'.map FormTree.id ∧ List.Forall₂ R ts ts' ∧
        s'.Lists kept (ts'.map .tree ++ hs)) : m.Ends s fun fs' s' => s'.Carries kept T fs' hs := by
  obtain ⟨ts, hts, hlists, rfl⟩ := h
  refine (hm ts hts.symm hlists).mono fun fs' s' hnew => ?_
  obtain ⟨ts', rfl, hall, hlists'⟩ := hnew
  refine ⟨ts', rfl, hlists', ?_⟩
  clear hts hlists hm hlists'
  induction hall with
  | nil => rfl
  | cons hfirst hrest ih => rw [flatMap_cons, flatMap_cons, hR _ _ hfirst, ih]

theorem matchOperands_carries (h : s.Carries kept T fs hs) :
    (cx.matchOperands site fs).Ends s fun fs' s' => s'.Carries kept T fs' hs := by
  refine carries_of_lists ?_ h fun ts hts hlists => hts ▸ matchOperands_lists hlists
  rintro t t' ⟨desired, -, hcast⟩
  exact hcast.substance_eq

theorem forceInteger_carries (h : s.Carries kept T fs hs) :
    (cx.forceInteger site fs signed).Ends s fun fs' s' => s'.Carries kept T fs' hs :=
  carries_of_lists (fun _ _ hcast => hcast.substance_eq) h
    fun _ hts hlists => hts ▸ forceInteger_lists hlists

theorem applyBuiltin_carries (h : s.Carries kept T fs hs) :
    (FoldM.applyBuiltin b fs).Ends s fun f s' => s'.Carries kept T [f] hs :=
  FoldState.Carries.addPlain h rfl

theorem addCast_carries {type : TypeName} {numeric : Bool} (h : s.Carries kept T [f] hs) :
    (FoldM.addSingle (.cast type f numeric)).Ends s fun f' s' => s'.Carries kept T [f'] hs :=
  FoldState.Carries.addPlain h rfl

theorem applyMatching_carries (h : s.Carries kept T fs hs) :
    (cx.applyMatching site b fs).Ends s fun f s' => s'.Carries kept T [f] hs := by
  rw [applyMatching]
  exact (matchOperands_carries h).bind fun fs' s' hfs => applyBuiltin_carries hfs

theorem applyBankMove_carries (h : s.Carries kept T [f] hs) :
    (cx.applyBankMove b [f]).Ends s fun f' s' => s'.Carries kept T [f'] hs := by
  rw [applyBankMove]
  simp only [ends_bind, ends_formType]
  split
  · exact h
  · exact applyBuiltin_carries h

theorem register?_of_word? {w : Word} (h : a.word? = some w) : a.register? = none := by
  cases a <;> first | rfl | cases h

/-- A conversion that replaces two shifts leaves out the shift and its amount. -/
theorem foldExtension_carries {amount : Atom} (h : s.Carries kept T [f] hs) :
    (cx.foldExtension site amount f signed).Ends s fun found s' =>
      match found with
      | some f' => amount.register? = none ∧ s'.Carries kept T [f'] hs
      | none => s' = s := by
  rw [foldExtension, ends_bind, ends_get]
  dsimp only
  split
  · rfl
  · rename_i bits source hshifted
    obtain ⟨w, hw, hshifted⟩ := Option.bind_eq_some_iff.1 hshifted
    obtain ⟨width, -, hshifted⟩ := Option.bind_eq_some_iff.1 hshifted
    obtain ⟨source', hleft, heq⟩ := Option.map_eq_some_iff.1 hshifted
    cases heq
    obtain ⟨by', hshift, hamount⟩ := Pool.leftShifted?_eq_some hleft
    have hboth : s.Carries kept T [source, by'] hs := h.unwrap hshift rfl
    obtain ⟨ts, hts, hlists, rfl⟩ := hboth
    obtain ⟨t, rest, rfl, rfl, hrest⟩ := map_eq_cons_iff.1 hts
    obtain ⟨u, rest, rfl, rfl, hnil⟩ := map_eq_cons_iff.1 hrest
    rw [map_eq_nil_iff] at hnil
    subst hnil
    -- The amount is a constant.
    have hu : u.substance = [] :=
      Pool.Holds.substance_of_leaf (hlists.holds (mem_cons_of_mem _ mem_cons_self))
        hamount rfl rfl
    have hsource : s.Carries kept ([t, u].flatMap FormTree.substance) [t.id] hs := by
      refine ⟨[t], rfl, ?_, ?_⟩
      · exact hlists.sublist (.cons_cons _ (sublist_cons_self _ _))
      · simp [hu]
    refine (addCast_carries hsource).bind fun f' s' hf => ?_
    rw [ends_bind, ends_noteForm, ends_note, ends_pure]
    exact ⟨register?_of_word? hw, hf⟩

theorem shiftRight_carries {b : Atom} {u : FormTree} (h : s.Lists kept (.tree t :: .tree u :: hs))
    (hconstant : b.register? = none → u.substance = []) :
    (cx.shiftRight site [a, b] [t.id, u.id] signed).Ends s fun f s' =>
      s'.Carries kept ([t, u].flatMap FormTree.substance) [f] hs := by
  have hvalue : s.Carries kept t.substance [t.id] (.tree u :: hs) := .of_single h
  rw [shiftRight]
  refine (foldExtension_carries hvalue).bind fun found s' hfound => ?_
  cases found with
  | none =>
    subst hfound
    have hboth : s'.Carries kept ([t, u].flatMap FormTree.substance) [t.id, u.id] hs :=
      ⟨[t, u], rfl, h, rfl⟩
    exact applyBuiltin_carries hboth
  | some f =>
    obtain ⟨hreg, ts, hts, hlists, hT⟩ := hfound
    refine ⟨ts, hts, hlists.sublist ((sublist_cons_self _ _).append_left _), ?_⟩
    change b.register? = none at hreg
    simp [hT, hconstant hreg]

/-- An operator evaluates its operands in order. -/
theorem applyOperator_carries {ts : List FormTree} (harity : e.args.length = e.operator.arity)
    (h : s.Lists kept (ts.map .tree ++ hs))
    (hconstant : List.Forall₂ (fun a t => a.register? = none → t.substance = []) e.args ts) :
    (cx.applyOperator site e (ts.map FormTree.id)).Ends s fun f s' =>
      s'.Carries kept (ts.flatMap FormTree.substance) [f] hs := by
  obtain ⟨operator, args⟩ := e
  have hargs : s.Carries kept (ts.flatMap FormTree.substance) (ts.map FormTree.id) hs :=
    ⟨ts, rfl, h, rfl⟩
  have hforce : ∀ (b : Builtin) (signed : Bool),
      (cx.forceInteger site (ts.map FormTree.id) signed >>= FoldM.applyBuiltin b).Ends s
        fun f s' => s'.Carries kept (ts.flatMap FormTree.substance) [f] hs := by
    intro b signed
    exact (forceInteger_carries hargs).bind fun fs s' hfs => applyBuiltin_carries hfs
  have hone : args.length = 1 → ∃ t, ts = [t] := fun hlength =>
    length_eq_one_iff.1 (hconstant.length_eq.symm.trans hlength)
  have htwo : args.length = 2 → ∃ a b t u, args = [a, b] ∧ ts = [t, u] ∧
      (a.register? = none → t.substance = []) ∧ (b.register? = none → u.substance = []) := by
    intro hlength
    obtain ⟨a, b, rfl⟩ := length_eq_two.1 hlength
    obtain ⟨t, u, rfl⟩ := length_eq_two.1 (hconstant.length_eq.symm.trans hlength)
    simp only [forall₂_cons, forall₂_nil_left_iff, and_true] at hconstant
    exact ⟨a, b, t, u, rfl, rfl, hconstant⟩
  rw [applyOperator]
  cases operator
  case identity =>
    obtain ⟨t, rfl⟩ := hone harity
    exact hargs
  case toFloatRegister | toGeneralRegister =>
    obtain ⟨t, rfl⟩ := hone harity
    exact applyBankMove_carries hargs
  case intToFloat | floatToInt =>
    obtain ⟨t, rfl⟩ := hone harity
    exact addCast_carries hargs
  case sub =>
    obtain ⟨a, b, t, u, rfl, rfl, ht, -⟩ := htwo harity
    dsimp only
    split
    · rename_i hzero
      have hrest : s.Carries kept ([t, u].flatMap FormTree.substance) [u.id] hs := by
        refine ⟨[u], rfl, h.sublist (sublist_cons_self _ _), ?_⟩
        simp [ht (register?_of_word? hzero)]
      exact applyBuiltin_carries hrest
    · exact applyMatching_carries hargs
  case nor =>
    obtain ⟨a, b, t, u, rfl, rfl, -, hu⟩ := htwo harity
    dsimp only
    split
    · rename_i hzero
      have hrest : s.Carries kept ([t, u].flatMap FormTree.substance) [t.id] hs := by
        refine ⟨[t], rfl, h.sublist (.cons_cons _ (sublist_cons_self _ _)), ?_⟩
        simp [hu (register?_of_word? hzero)]
      exact applyBuiltin_carries hrest
    · exact applyMatching_carries hargs
  case shiftRightArith | shiftRightLogic =>
    obtain ⟨a, b, t, u, rfl, rfl, -, hu⟩ := htwo harity
    exact shiftRight_carries h hu
  case add | and | or | xor | lessSigned | lessUnsigned => exact applyMatching_carries hargs
  case mulSigned | mulUnsigned => exact hforce _ _
  all_goals exact applyBuiltin_carries hargs

/-- A division leaves its place to the quotient or the remainder. -/
theorem foldDivision_carries {n : Node FormTree} {remainder : Bool}
    (h : s.Lists kept (.node n :: hs)) :
    (cx.foldDivision site n.id remainder).Ends s fun f s' =>
      s'.Carries kept n.substance [f] hs := by
  have hnode : s.pool.HoldsNode n := h.holds mem_cons_self
  rw [foldDivision, ends_bind, ends_get, hnode.element_eq]
  split
  · rename_i a b signed at' helem
    have hsubstance : n.substance = n.kids.flatMap FormTree.substance :=
      Node.substance_of_isPlain (by rw [helem]; rfl)
    have hkids : s.Carries kept n.substance [a, b] (.spareElement n.id :: hs) := by
      refine ⟨n.kids, ?_, h.openNode.perm perm_middle.symm, hsubstance.symm⟩
      rw [← hnode.kids, helem]
      rfl
    refine (forceInteger_carries hkids).bind fun args s' hargs => ?_
    obtain ⟨ts, rfl, hts, hT⟩ := hargs
    let element : Element :=
      .apply (.builtin (if remainder then .mod else .div)) (ts.map FormTree.id)
    let quotient : Node FormTree := ⟨n.id, element, ts⟩
    have hnew : { s' with pool := s'.pool.replace n.id element }.Lists kept
        ([quotient].map Root.node ++ hs) := (hts.perm perm_middle).replace rfl
    rw [ends_bind, ends_onPool]
    refine ⟨[_], rfl, hnew.addForm, ?_⟩
    rw [flatMap_singleton, FormTree.substance_single, Node.substance_of_isPlain rfl, ← hT]
  · have hform := FoldState.Lists.addForm (show s.Lists kept ([n].map .node ++ hs) from h)
    refine ⟨[_], rfl, hform, ?_⟩
    rw [flatMap_singleton, FormTree.substance_single]

/-- A result of a division is read from the pending one. -/
theorem foldQuotient_folds {v : Variable} (hv : v.register = .hi ∨ v.register = .lo)
    (h : s.Lists E hs) :
    (cx.foldQuotient site v).Ends s fun f s' =>
      s'.Folds [some v.register] [v.register] E [f] hs := by
  have hatom : ∀ {s : FoldState}, s.Lists E hs → (cx.atomForm (.var v)).Ends s fun f s' =>
      s'.Folds [some v.register] [v.register] E [f] hs := by
    intro s h
    refine (atomForm_carries h).mono fun f s' hf => ?_
    obtain ⟨t, -, hserved, hcarries⟩ := hf
    refine ⟨[], E, t.substance, .nothing true _ E, ?_, hcarries⟩
    have hbrings := hserved.brings .nothing
    rw [append_nil, append_nil, append_nil] at hbrings
    exact hbrings
  unfold foldQuotient
  split
  · refine ends_bind.2 (ends_take.2 ⟨fun _ => hatom h, fun e stack hpop => ?_⟩)
    obtain ⟨n, E', rfl, hpops, hlists⟩ := h.popDivision hpop
    obtain ⟨habove, -⟩ := hpops
    refine (foldDivision_carries hlists).mono fun f s' hf => ?_
    refine ⟨_, _, _, .single true _ h.nodup fun held hheld => (habove held hheld).2,
      .single rfl fun r hr => ?_, hf⟩
    rw [mem_singleton.1 hr]
    exact .inr ⟨⟨_, rfl⟩, hv⟩
  · exact hatom h

theorem foldCopy_folds (h : s.Lists E hs) :
    (cx.foldCopy site a).Ends s fun f s' =>
      s'.Folds [a.register?] ([a].filterMap Atom.register?) E [f] hs := by
  unfold foldCopy
  split
  · split
    · rename_i hv
      exact foldQuotient_folds hv h
    · exact operand_folds h
  · exact operand_folds h

theorem foldConstant_carries (h : s.Lists kept hs) :
    (cx.foldConstant site e).Ends s fun value s' =>
      s'.Carries kept [] value.toList hs ∧ (value.isSome = true → e.registersRead = []) := by
  unfold foldConstant
  split
  · rename_i w hconstant
    refine (constantForm_carries h rfl).bind fun f s' hf => ?_
    rw [ends_bind, ends_note, ends_pure]
    refine ⟨hf, fun _ => ?_⟩
    unfold Expression.constant? at hconstant
    split at hconstant <;> first | rfl | cases hconstant
  · rename_i hlabel
    refine (constantForm_carries h rfl).bind fun f s' hf => ?_
    rw [ends_bind, ends_noteForm, ends_note, ends_pure]
    exact ⟨hf, fun _ => by rw [Expression.registersRead, hlabel]; rfl⟩
  · exact ⟨.nil h, fun hsome => by cases hsome⟩

/-- An expression of which nothing is known in advance evaluates its operands in order. -/
theorem foldOperator_folds (harity : e.args.length = e.operator.arity) (h : s.Lists E hs) :
    (cx.foldOperator site e).Ends s fun f s' =>
      s'.Folds (e.args.map Atom.register?) e.registersRead E [f] hs := by
  have hread : ∀ r ∈ e.registersRead, r ∈ e.args.filterMap Atom.register? := by
    intro r hr
    unfold Expression.registersRead at hr
    split at hr
    · cases hr
    · exact hr
  rw [foldOperator]
  split
  · rename_i a hcopied
    rw [Expression.copied?_eq_some hcopied] at hread ⊢
    exact (foldCopy_folds h).mono fun f s' hf => hf.mono hread
  · refine (foldConstant_carries h).bind fun found s' hfound => ?_
    obtain ⟨hcarries, hconstant⟩ := hfound
    cases found with
    | some f =>
      rw [hconstant rfl]
      exact hcarries.folds
    | none =>
      refine (operands_takes hcarries.toLists).bind fun fs s'' hfs => ?_
      obtain ⟨found, kept, ts, htakes, hserves, rfl, hlists⟩ := hfs
      refine (applyOperator_carries harity hlists hserves.constant).mono fun f s₃ hf => ?_
      exact ⟨_, kept, _, htakes, hserves.brings.mono hread, hf⟩

theorem foldExpression_folds (h : s.Lists E hs) :
    (cx.foldExpression site e).Ends s fun f s' =>
      s'.Folds (e.args.map Atom.register?) e.registersRead E [f] hs := by
  unfold foldExpression
  split
  · simp
  · rename_i harity
    rw [TryFoldM.ends_lift]
    exact foldOperator_folds (Decidable.not_not.1 harity) h

end Context

end Decompiler
