import Decompiler.Proofs.Fold.Operations

/-!
The account of operations.  The marks of a tree are those of what it is made of, so entries that
are taken off the stack keep theirs.  Every operation leaves the marks that belong to it, in
verbatim mode and otherwise: a call leaves a call, a store a store, an operation that
stays as it is leaves itself, and what becomes a value leaves nothing.
-/

namespace Decompiler

open List

variable {s : FoldState} {M : Multiset Mark} {C : List (Node FormTree)} {hs : List Root}

/-- The marks that an operation can leave. -/
def Operation.Leaves (site : Nat) (A : Multiset Mark) : Operation → Prop
  | .set _ _ => A = 0
  | .store _ _ _ _ _ => A = {.store}
  | .call _ _ _ => A = {.call}
  | .branch _ => A = {.branch site}
  | .special .nop => A = 0
  | .special _ | .asm _ _ _ => A = {.operation site}
  | .setCondition _ _ | .load _ _ _ _ _ | .divide _ _ _ | .floatCompare _ _ _
  | .conditionalMove _ _ _ _ => A = 0 ∨ A = {.operation site}

def Observation.allMarks (os : List Observation) : Multiset Mark :=
  (os.map fun o => o.2.marks).sum

theorem Element.marks_of_isPlain {element : Element} (h : element.isPlain = true) :
    element.marks = 0 := by
  cases element with
  | apply head args => cases head <;> first | rfl | cases h
  | _ => first | rfl | cases h

namespace Observation

theorem allMarks_append (os os' : List Observation) :
    allMarks (os ++ os') = allMarks os + allMarks os' := by
  rw [allMarks, map_append, sum_append]
  rfl

theorem allMarks_perm {os os' : List Observation} (h : os.Perm os') : allMarks os = allMarks os' :=
  (h.map _).sum_eq

theorem allMarks_flatMap {α : Type} (g : α → List Observation) (as : List α) :
    allMarks (as.flatMap g) = (as.map fun a => allMarks (g a)).sum := by
  rw [allMarks, map_flatMap, flatMap_def, sum_flatten, map_map]
  rfl

theorem allMarks_element (element : Element) (e : ElementId) :
    allMarks (element.substance e) = element.marks := by
  rw [Element.substance]
  split
  · rename_i hplain
    exact (Element.marks_of_isPlain hplain).symm
  · exact sum_singleton

end Observation

/-- The marks of a tree are those of its substance. -/
theorem FormTree.allMarks_substance (t : FormTree) :
    Observation.allMarks t.substance = t.marks := by
  induction t using FormTree.induct with
  | h f nodes ih =>
    rw [substance_mk, marks_mk, Observation.allMarks_flatMap]
    congr 1
    refine map_congr_left fun n hn => ?_
    rw [Node.substance_eq, Observation.allMarks_append, Observation.allMarks_element,
      Observation.allMarks_flatMap, Node.marks, add_comm]
    congr 2
    exact map_congr_left fun t ht => ih n hn t ht

theorem Node.allMarks_substance (n : Node FormTree) :
    Observation.allMarks n.substance = n.marks := by
  have hn := (FormTree.mk default [n]).allMarks_substance
  rw [FormTree.substance_single, FormTree.marks_mk, map_singleton, sum_singleton] at hn
  exact hn

namespace Held

theorem allMarks_substance (held : Held) :
    Observation.allMarks held.substance = held.root.marks := by
  cases held with
  | value dst t ordered notes => exact t.allMarks_substance
  | statement n ordered => exact n.allMarks_substance
  | division n => exact n.allMarks_substance

/-- Taking entries that are no control structures leaves the control structures. -/
theorem Takes.controls_eq {strict : Bool} {operands : List (Option Register)}
    {E taken kept : List Held} (h : Takes strict operands E taken kept)
    (hplain : ∀ held ∈ taken, held.control? = none) : controls E = controls kept := by
  have hnone : taken.filterMap control? = [] := filterMap_eq_nil_iff.2 hplain
  have hlength := (h.perm.filterMap control?).length_eq
  rw [filterMap_append, hnone, append_nil] at hlength
  rw [controls, controls, (h.sublist.filterMap control?).eq_of_length hlength.symm]

end Held

/-- What is made of entries has their marks. -/
theorem Brings.allMarks_eq {read : List Register} {taken : List Held} {T : List Observation}
    (h : Brings read taken T) : Observation.allMarks T = Held.allMarks taken := by
  obtain ⟨fresh, hatoms, hperm⟩ := h.perm
  have hfresh : Observation.allMarks fresh = 0 := by
    refine sum_eq_zero fun A hA => ?_
    obtain ⟨o, ho, rfl⟩ := mem_map.1 hA
    obtain ⟨a, ha⟩ := hatoms o ho
    rw [ha]
    rfl
  rw [Observation.allMarks_perm hperm, Observation.allMarks_append, hfresh, add_zero,
    Observation.allMarks_flatMap, Held.allMarks]
  congr 1
  refine map_congr_left fun held hheld => ?_
  rw [held.allMarks_substance, Held.marks_of_control?_eq_none (h.plain held hheld)]

namespace FoldState

variable {strict : Bool} {operands : List (Option Register)} {read : List Register}
  {E taken kept : List Held} {T own : List Observation} {fs : List FormId} {held : Held}
  (hM : Held.allMarks E + Root.allMarks hs = M)
include hM

/-- What is taken keeps its marks, wherever it goes. -/
theorem allMarks_of_takes (htakes : Held.Takes strict operands E taken kept)
    (hbrings : Brings read taken T) :
    Held.allMarks kept + (Observation.allMarks T + Root.allMarks hs) = M := by
  have hperm : Held.allMarks E = Held.allMarks (kept ++ taken) := (htakes.perm.map _).sum_eq
  rw [← hM, hperm, Held.allMarks_append, hbrings.allMarks_eq, add_assoc]

theorem Folds.gives (hC : Held.controls E = C) (h : s.Folds operands read E fs hs) :
    s.Gives M C fs hs := by
  obtain ⟨taken, kept, T, htakes, hbrings, ts, hts, hlists, rfl⟩ := h
  refine ⟨ts, hts, kept, hlists, ?_, (htakes.controls_eq hbrings.plain).symm.trans hC⟩
  rw [← allMarks_of_takes hM htakes hbrings, Root.allMarks_append, Root.allMarks_trees,
    Observation.allMarks_flatMap]
  simp only [FormTree.allMarks_substance]

theorem Pushed.holds (hC : Held.controls E = C) (h : s.Pushed strict operands read E own held hs) :
    s.Holds (M + Observation.allMarks own) C hs := by
  obtain ⟨taken, kept, T, htakes, hbrings, hlists, hheld, hplain, -⟩ := h
  refine ⟨held :: kept, hlists, ?_, ?_⟩
  · rw [Held.allMarks_cons, Held.marks_of_control?_eq_none hplain, ← held.allMarks_substance, hheld,
      Observation.allMarks_append, ← allMarks_of_takes hM htakes hbrings]
    ac_rfl
  · rw [Held.controls_cons_none hplain, ← htakes.controls_eq hbrings.plain, hC]

end FoldState

theorem Operation.Owns.leaves {site : Nat} {op : Operation} {own : List Observation}
    (h : op.Owns site (own.map Prod.snd)) : op.Leaves site (Observation.allMarks own) := by
  have hmarks : Observation.allMarks own = ((own.map Prod.snd).map Element.marks).sum := by
    rw [map_map]
    rfl
  rw [hmarks]
  generalize own.map Prod.snd = elements at h
  have hplace : ∀ {place : Element}, place.isPlace = true → place.marks = 0 := by
    intro place hplace
    cases place <;> first | rfl | cases hplace
  cases h with
  | nothing hop => cases op <;> first | rfl | exact .inl rfl | cases hop
  | @literal op hop =>
    cases op with
    | special kind => cases kind <;> first | rfl | cases hop
    | _ => first | rfl | exact .inr rfl | cases hop
  | falseMove dst source test onZero => exact .inl rfl
  | load dst base offset size kind h => exact .inl (by simp [hplace h])
  | store base offset value size kind h f g =>
    rw [Leaves, map_cons, sum_cons, hplace h, zero_add]
    rfl
  | _ => rfl

namespace Context

variable {cx : Context} {site : Nat} {atoms : List Atom} {consumed : RegisterSet} {effects : Bool}

theorem operandsConsuming_gives (h : s.Holds M C hs) :
    (cx.operandsConsuming site atoms consumed effects).Ends s fun out s' =>
      (out.map Prod.fst).length = atoms.length ∧ s'.Gives M C (out.map Prod.fst) hs := by
  obtain ⟨E, hE, hM, hC⟩ := h
  exact (operandsConsuming_folds hE).mono fun out s' hout => ⟨hout.1, hout.2.gives hM hC⟩

theorem operandsMarked_gives (h : s.Holds M C hs) :
    (cx.operandsMarked site atoms effects).Ends s fun out s' =>
      (out.map Prod.fst).length = atoms.length ∧ s'.Gives M C (out.map Prod.fst) hs := by
  rw [operandsMarked, FoldM.ends_bind, FoldM.ends_consumedNow]
  exact operandsConsuming_gives h

variable {a : Atom} {flipped : Bool} {test : Test} {op : Operation}

theorem operand_gives (h : s.Holds M C hs) :
    (cx.operand site a effects).Ends s fun f s' => s'.Gives M C [f] hs := by
  obtain ⟨E, hE, hM, hC⟩ := h
  exact (operand_folds hE).mono fun f s' hf => hf.gives hM hC

theorem atomForm_gives (h : s.Holds M C hs) :
    (cx.atomForm a).Ends s fun f s' => s'.Gives M C [f] hs := by
  have hnone : s.Gives M C (cx.atomElement a).children hs := by
    rw [children_atomElement]
    exact .nil h
  have hmarks : (cx.atomElement a).marks = 0 := by
    rcases cx.atomElement_cases a with ha | ⟨text, ha⟩ <;> rw [ha] <;> rfl
  have hnew := hnone.addSingle
  rw [hmarks, add_zero, ← atomForm_eq] at hnew
  exact hnew

theorem castTo_gives {desired : TypeName} {f : FormId} (h : s.Gives M C [f] hs) :
    (cx.castTo site f desired).Ends s fun f' s' => s'.Gives M C [f'] hs := by
  obtain ⟨t, rfl, hgives⟩ := FoldState.gives_cons_iff.1 h
  obtain ⟨E, hE, hM, hC⟩ := hgives.toHolds
  refine (castTo_lists hE).mono fun f' s' hcast => ?_
  obtain ⟨t', rfl, htree, hE'⟩ := hcast
  have hmarks : t'.marks = t.marks := by
    rw [← t'.allMarks_substance, htree.substance_eq, t.allMarks_substance]
  refine ⟨[t'], rfl, E, hE', ?_, hC⟩
  rw [← hM]
  exact congrArg (fun A => Held.allMarks E + (A + Root.allMarks hs)) hmarks

/-- A condition over some forms. -/
theorem addCondition_holds (cx : Context) {fs : List FormId} (h : s.Gives M C fs hs) :
    (FoldM.addSingle (.condition test fs consumed flipped site)).Ends s fun f s' =>
      ∃ t : FormTree, t.id = f ∧ ConditionTree cx site flipped t ∧ s'.Holds M C (.tree t :: hs) := by
  obtain ⟨ts, rfl, hts⟩ := h
  have hchildren : (Element.condition test (ts.map FormTree.id) consumed flipped site).children =
      ts.map FormTree.id := rfl
  refine (hts.addSingle hchildren).mono fun f s' hnew => ?_
  obtain ⟨e, hholds⟩ := hnew
  have hmarks : (Element.condition test (ts.map FormTree.id) consumed flipped site).marks = 0 := rfl
  rw [hmarks, add_zero] at hholds
  exact ⟨_, rfl, .mk f e test _ consumed flipped site ts fun _ => ⟨rfl, rfl⟩, hholds⟩

theorem buildCondition_holds {args : List Atom} (h : s.Holds M C hs) :
    (cx.buildCondition site test args flipped effects).Ends s fun f s' =>
      ∃ t : FormTree, t.id = f ∧ ConditionTree cx site flipped t ∧ s'.Holds M C (.tree t :: hs) := by
  obtain ⟨E, hE, hM, hC⟩ := h
  refine (buildCondition_folds hE).mono fun f s' hf => ?_
  obtain ⟨read, ⟨t, ht, hcondition, taken, kept, htakes, hbrings, hlists⟩, -⟩ := hf
  refine ⟨t, ht, hcondition, kept, hlists, ?_, (htakes.controls_eq hbrings.plain).symm.trans hC⟩
  rw [← FoldState.allMarks_of_takes hM htakes hbrings, Root.allMarks_cons, t.allMarks_substance]
  rfl

theorem pushVerbatim_holds (h : s.Holds M C hs) (hop : op.isNop = false) :
    (pushVerbatim site op).Ends s fun _ s' => ∃ A, op.Leaves site A ∧ s'.Holds (M + A) C hs := by
  have hpush : ∀ element : Element, element.children = [] → element.isControl = false →
      (FoldM.pushNew element).Ends s fun _ s' => s'.Holds (M + element.marks) C hs := by
    intro element hchildren hplain
    have hnone : s.Gives M C element.children hs := by
      rw [hchildren]
      exact .nil h
    exact hnone.pushNew hplain
  have hliteral : (FoldM.pushNew (.operation site op.writes)).Ends s fun _ s' =>
      s'.Holds (M + {.operation site}) C hs := hpush (.operation site op.writes) rfl rfl
  cases op with
  | set dst source =>
    have hnone : s.Gives M C (Element.expression source site).children hs := .nil h
    have hvalue := hnone.addSingle
    rw [show (Element.expression source site).marks = 0 from rfl, add_zero] at hvalue
    rw [pushVerbatim]
    refine hvalue.bind fun f s' hf => ?_
    have hset : s'.Gives M C (Element.set dst f true {}).children hs := hf
    exact (hset.pushNew rfl).bind fun e s'' hnew => ⟨0, rfl, hnew⟩
  | store base offset value size kind =>
    rw [pushVerbatim]
    exact (hpush (.store site) rfl rfl).bind fun e s' hnew => ⟨_, rfl, hnew⟩
  | call callee args result =>
    rw [pushVerbatim]
    exact (hpush (.call site _) rfl rfl).bind fun e s' hnew => ⟨_, rfl, hnew⟩
  | branch b =>
    rw [pushVerbatim]
    exact (hpush (.branch site _) rfl rfl).bind fun e s' hnew => ⟨_, rfl, hnew⟩
  | special kind =>
    cases kind with
    | nop => cases hop
    | trap => exact ⟨_, rfl, hliteral⟩
    | suspend => exact ⟨_, rfl, hliteral⟩
  | asm mnemonic dst sources => exact ⟨_, rfl, hliteral⟩
  | _ => exact ⟨_, .inr rfl, hliteral⟩

/-- An operation leaves its own marks, in either mode. -/
theorem pushOperation_holds (h : s.Holds M C hs) :
    (cx.pushOperation site op).Ends s fun _ s' => ∃ A, op.Leaves site A ∧ s'.Holds (M + A) C hs := by
  unfold pushOperation
  split
  · rename_i hnop
    have hop : op = .special .nop := by
      unfold Operation.isNop at hnop
      split at hnop
      · rfl
      · cases hnop
    subst hop
    rw [TryFoldM.ends_pure]
    exact ⟨0, rfl, by rw [add_zero]; exact h⟩
  · rename_i hop
    have hop : op.isNop = false := by simpa using hop
    rw [TryFoldM.ends_bind, TryFoldM.ends_get]
    split
    · rw [TryFoldM.ends_lift]
      exact pushVerbatim_holds h hop
    · obtain ⟨E, hE, hM, hC⟩ := h
      refine (pushFolded_adds hE hop).mono fun _ s' hadds => ?_
      obtain ⟨read, own, held, hpushed, howns, -⟩ := hadds
      exact ⟨_, howns.leaves, hpushed.holds hM hC⟩

end Context

end Decompiler
