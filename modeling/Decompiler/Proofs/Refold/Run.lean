import Decompiler.Proofs.Refold.Operands
import Mathlib.Data.List.Induction

/-!
What refolding does to a tree.  A run over the elements of a form keeps those that wait on its
stack apart from those still to come, and every value that it takes is one fold of the tree.
-/

namespace Decompiler

open List

variable {p : Pool} {c : Bool} {orderly : Prop} {s : Refolding} {rs : List Root} {r : Routine}

/-- Whether a test holds somewhere along a run. -/
def anyAlong {σ α : Type} (step : σ → α → σ) (test : σ → α → Bool) : σ → List α → Bool
  | _, [] => false
  | s, a :: as => test s a || anyAlong step test (step s a) as

namespace Routine

/-- Whether taking the value of an operand puts an effect of it behind another one, either of
an entry above it or of an operand before. -/
def overtakes (r : Routine) (registers : List Register) (operands : List FormId) (s : Refolding)
    (slot : FormId × Variable) : Bool :=
  let isOther (q : Pending) := (q.valueFor? slot.2.register).isNone
  decide ((r.refoldOperand registers s slot).stack ≠ s.stack) &&
    (s.stack.waiting.dropWhile isOther).head?.any s.pool.acts &&
    ((s.stack.waiting.takeWhile isOther).any s.pool.acts ||
      (operands.takeWhile (· ≠ slot.1)).any fun f => s.pool.actAmong (s.pool.evaluated f))

/-- The same for all operands of a value. -/
def operandsOvertake (r : Routine) (s : Refolding) (source : FormId) : Bool :=
  let slots := s.pool.operandSlots source
  let registers := slots.map fun slot => slot.2.register
  anyAlong (r.refoldOperand registers) (r.overtakes registers (s.pool.operandForms source)) s
    slots.reverse

/-- The same for an element. -/
def elementOvertakes (r : Routine) (s : Refolding) (e : ElementId) : Bool :=
  match s.pool.element e with
  | .set _ source _ _ => r.operandsOvertake s source
  | _ => false

/-- The same for a form, but not for the forms below it. -/
def statementsOvertake (r : Routine) (p : Pool) (f : FormId) : Bool :=
  anyAlong r.refoldElement r.elementOvertakes ⟨p, .empty, false⟩ (p.elementsOf f)

/-- The same for a form and the forms below it, down to a depth. -/
def overtakesWithin (r : Routine) : Nat → Pool × Bool → FormId → Bool
  | 0, _, _ => false
  | depth + 1, (p, changed), f =>
    let (q, changedHere) := r.refoldStatements p f
    r.statementsOvertake p f ||
      anyAlong (r.refoldWithin depth) (r.overtakesWithin depth) (q, changed || changedHere)
        (q.childForms f).reverse

end Routine

/-- Whether refolding a finished tree puts an effect behind another one. -/
def Reconstruction.refoldOvertakes (t : Reconstruction) (r : Routine) : Bool :=
  r.overtakesWithin t.pool.forms.size (t.pool, false) t.root

theorem anyAlong_cons_eq_false {σ α : Type} {step : σ → α → σ} {test : σ → α → Bool} {s : σ} {a : α}
    {as : List α} : anyAlong step test s (a :: as) = false ↔
      test s a = false ∧ anyAlong step test (step s a) as = false := by
  rw [anyAlong, Bool.or_eq_false_iff]

/-- A pool and a flag before and behind a number of folds among some elements and forms. -/
structure Refolded (k : Nat) (es : List ElementId) (fs : List FormId) (p : Pool) (changed : Bool)
    (q : Pool) (changed' : Bool) : Prop where
  changes : p.Changes q es fs
  same : k = 0 → q = p
  flag : changed' = (changed || decide (0 < k))

namespace Refolded

variable {k k' : Nat} {es es' : List ElementId} {fs fs' : List FormId} {q q' : Pool} {c' c'' : Bool}

theorem refl (es : List ElementId) (fs : List FormId) (p : Pool) (c : Bool) :
    Refolded 0 es fs p c p c :=
  ⟨.refl p es fs, fun _ => rfl, by simp⟩

theorem mono (h : Refolded k es fs p c q c') (hes : es ⊆ es') (hfs : fs ⊆ fs') :
    Refolded k es' fs' p c q c' :=
  ⟨h.changes.mono hes hfs, h.same, h.flag⟩

theorem trans (h : Refolded k es fs p c q c') (h' : Refolded k' es' fs' q c' q' c'')
    (hes : es' ⊆ es) (hfs : fs' ⊆ fs) : Refolded (k + k') es fs p c q' c'' := by
  refine ⟨h.changes.trans (h'.changes.mono hes hfs), fun hk => ?_, ?_⟩
  · rw [h'.same (by omega), h.same (by omega)]
  · rw [h'.flag, h.flag, Bool.or_assoc]
    congr 1
    rw [← Bool.decide_or, decide_eq_decide]
    omega

end Refolded

/-- A step makes some folds of a tree and says whether there were any. -/
def FormTree.RefoldsIn (orderly : Prop) (p : Pool) (changed : Bool) (t : FormTree)
    (out : Pool × Bool) : Prop :=
  ∃ k t', t.Refolds orderly k t' ∧ out.1.Owns [.tree t'] ∧
    Refolded k t.elements t.forms p changed out.1 out.2

namespace Refolding

/-- A run over elements of a form keeps some of them on its stack and has others to do; the
pool owns all of them. -/
structure Keeps (s : Refolding) (kept todo : List (Node FormTree)) (rs : List Root) : Prop where
  waiting : s.stack.waiting = (kept.map Node.pending).reverse
  owns : s.pool.Owns ((kept ++ todo).map .node ++ rs)

/-- A run from one state to another makes some folds among the elements of a form. -/
def Leads (orderly : Prop) (f : FormId) (s : Refolding) (ns : List (Node FormTree)) (s' : Refolding)
    (ns' : List (Node FormTree)) : Prop :=
  ∃ k, FormTree.Refolds orderly k (.mk f ns) (.mk f ns') ∧ ns.length = ns'.length + k ∧
    Refolded k (FormTree.mk f ns).elements (FormTree.mk f ns).forms s.pool s.changed s'.pool
      s'.changed

namespace Leads

variable {f : FormId} {s' s'' : Refolding} {ns ns' ns'' : List (Node FormTree)}

theorem refl (f : FormId) (s : Refolding) (ns : List (Node FormTree)) : Leads orderly f s ns s ns :=
  ⟨0, .refl _, rfl, .refl _ _ _ _⟩

theorem trans (h : Leads orderly f s ns s' ns') (h' : Leads orderly f s' ns' s'' ns'') :
    Leads orderly f s ns s'' ns'' := by
  obtain ⟨k, hfolds, hlength, hrefolded⟩ := h
  obtain ⟨k', hfolds', hlength', hrefolded'⟩ := h'
  exact ⟨k + k', hfolds.trans hfolds', by omega,
    hrefolded.trans hrefolded' hfolds.elements_subperm.subset hfolds.forms_subperm.subset⟩

end Leads

end Refolding

variable {m : Node FormTree} {value : FormTree}

/-- Putting the value of an assignment into a form touches no other form. -/
theorem Pool.HoldsNode.changes (h : p.HoldsNode m) (hvalue : m.kids = [value]) (f : FormId) :
    p.Changes (p.setElements f (p.elementsOf value.id)) m.elements [f] := by
  refine (Changes.setElements p f _).mono (fun e he => ?_) (List.Subset.refl _)
  have hheld : p.Holds value := h.below value (hvalue ▸ mem_cons_self)
  rw [hheld.elementsOf_eq] at he
  obtain ⟨w, hw, rfl⟩ := mem_map.1 he
  rw [Node.elements, hvalue, flatMap_singleton, value.elements_eq]
  exact mem_cons_of_mem _ (mem_flatMap.2 ⟨w, hw, mem_cons_self⟩)

/-- The value of an assignment can be put in the place of an operand of another element. -/
theorem Pool.Owns.moveValue {n n' : Node FormTree} {slot : FormTree} {before : List FormTree}
    (h : p.Owns (.node m :: .node n :: rs)) (hvalue : m.kids = [value])
    (hexchange : Node.Exchanges slot (.mk slot.id value.nodes) before n n') :
    (p.setElements slot.id (p.elementsOf value.id)).Owns (.node n' :: rs) := by
  have hm : p.HoldsNode m := h.holds (.node m) mem_cons_self
  have hn : p.HoldsNode n := h.holds (.node n) (by simp)
  have hheld : p.Holds value := hm.below value (hvalue ▸ mem_cons_self)
  have hslot : slot.id ∈ n.forms := hexchange.mem_forms slot.id_mem_forms
  have hforms : [Root.node m].flatMap Root.forms = value.forms := by
    simp [Root.forms, Node.forms, hvalue]
  have helements : m.elements = m.id :: value.elements := by
    rw [Node.elements, hvalue, flatMap_singleton]
  have hroot : [Root.node m].flatMap Root.elements = m.elements := by
    rw [flatMap_singleton]
    rfl
  have hsplit : p.Owns ([.node m] ++ .node n :: rs) := h
  have hopen : p.Owns (.tree value :: .spareForm slot.id ::
      (([] : List (Node FormTree)).map .node ++ [])) := by
    refine ⟨fun r hr => ?_, ?_, ?_⟩
    · rcases mem_cons.1 hr with rfl | hr
      · exact hheld
      · rw [mem_singleton.1 hr]
        exact hn.forms_lt slot.id hslot
    · have hnodup := hsplit.elements
      rw [flatMap_append, hroot, helements, cons_append] at hnodup
      exact (nodup_cons.1 hnodup).2.sublist ((nil_sublist _).append_left _)
    · have hnodup := hsplit.forms
      rw [flatMap_append, hforms] at hnodup
      exact hnodup.sublist
        (((singleton_sublist.2 hslot).trans (sublist_append_left _ _)).append_left _)
  refine hsplit.exchangeBelow hexchange rfl ?_ hopen.spliceForm.tree_holds ?_ ?_
  · rw [hroot, hforms]
    exact (hm.changes hvalue slot.id).mono (subset_append_left _ _)
      (cons_subset.2 ⟨mem_append_right _ slot.id_mem_forms, nil_subset _⟩)
  · rw [hroot, helements, FormTree.elements_mk, ← value.elements_eq]
    exact ((sublist_cons_self m.id _).trans (sublist_append_left _ _)).subperm
  · rw [hforms, FormTree.forms_mk, value.forms_eq]
    have hlast : (value.nodes.flatMap Node.forms ++ [slot.id]).Sublist
        (value.id :: value.nodes.flatMap Node.forms ++ slot.forms) :=
      (sublist_cons_self _ _).append (singleton_sublist.2 slot.id_mem_forms)
    exact (perm_append_singleton _ _).symm.subperm.trans hlast.subperm

theorem Routine.refoldOperand_cases (r : Routine) (registers : List Register) (s : Refolding)
    (slot : FormId × Variable) :
    r.refoldOperand registers s slot = s ∨
      ∃ barrier value stack,
        s.stack.popRegister s.pool slot.2.register barrier true = some (value, stack) ∧
        r.refoldOperand registers s slot =
          ⟨s.pool.setElements slot.1 (s.pool.elementsOf value), stack, true⟩ := by
  unfold Routine.refoldOperand
  dsimp only
  split
  · exact .inl rfl
  · split
    · exact .inl rfl
    · rename_i value stack hpop
      exact .inr ⟨_, value, stack, hpop, rfl⟩

namespace Refolding.Keeps

variable {kept todo rest : List (Node FormTree)} {n : Node FormTree} {after : List FormTree}

theorem owns_one (h : s.Keeps kept todo rs) (hn : n ∈ kept ++ todo) : s.pool.Owns [.node n] :=
  h.owns.one (mem_append_left _ (mem_map_of_mem hn))

/-- A value that is popped is that of an assignment on the stack; those above it stay. -/
theorem exists_popped (h : s.Keeps kept todo rs) {register : Register} {barrier : RegisterSet}
    {value : FormId} {stack : Stack}
    (hpop : s.stack.popRegister s.pool register barrier true = some (value, stack)) :
    ∃ older m newer dst ordered notes, kept = older ++ m :: newer ∧
      m.element = .set dst value ordered notes ∧ dst.register = register ∧
      stack.waiting = ((older ++ newer).map Node.pending).reverse ∧
      ∀ n ∈ newer, n.pending.valueFor? register = none ∧ n.pending.isSequencePoint = false := by
  obtain ⟨older, m, newer, dst, ordered, notes, existing, rfl, hm, hr, hwaiting, hpasses⟩ :=
    Stack.popRegister_of_waiting h.waiting hpop
  exact ⟨older, m, newer, dst, ordered, notes, rfl, Element.eq_set_of_pending hm, hr, hwaiting,
    fun n hn => hpasses.clear n.pending (mem_reverse.2 (mem_map_of_mem hn))⟩

variable {before : List FormTree} {slot : FormTree} {v : Variable}

/-- Where nothing is overtaken, a value that is taken has no effect, or nothing that it is
moved behind has one. -/
theorem quiet_of_overtakes_eq_false {older newer : List (Node FormTree)} {m : Node FormTree}
    {registers : List Register} (h : s.Keeps (older ++ m :: newer) (n :: rest) rs)
    (hoperands : n.HasOperands (before ++ slot :: after))
    (htaken : (r.refoldOperand registers s (slot.id, v)).stack ≠ s.stack)
    (hm : m.pending.valueFor? v.register ≠ none)
    (hnewer : ∀ n ∈ newer, n.pending.valueFor? v.register = none)
    (hclear : r.overtakes registers ((before ++ slot :: after).map FormTree.id) s (slot.id, v) =
      false) :
    performedIn m.evaluated = [] ∨
      performedIn (newer.flatMap Node.evaluated ++ before.flatMap FormTree.evaluated) = [] := by
  have hn : s.pool.Owns [.node n] := h.owns_one (by simp)
  have hown := hoperands.owns hn
  have hbefore : ((before ++ slot :: after).map FormTree.id).takeWhile (· ≠ slot.id) =
      before.map FormTree.id := by
    have hnodup := hown.forms
    rw [Pool.Owns.flatMap_tree_forms] at hnodup
    rw [map_append, map_cons, takeWhile_append_of_pos, takeWhile_cons_of_neg, append_nil]
    · simp
    · intro f hf
      obtain ⟨u, hu, rfl⟩ := mem_map.1 hf
      rw [decide_eq_true_iff]
      intro heq
      exact not_mem_of_nodup_flatMap hnodup (mem_append_left _ hu) u.id_mem_forms
        (heq ▸ slot.id_mem_forms)
  have hwaiting : s.stack.waiting = (newer.map Node.pending).reverse ++
      m.pending :: (older.map Node.pending).reverse := by
    simp [h.waiting]
  have hother : ∀ q ∈ (newer.map Node.pending).reverse, (q.valueFor? v.register).isNone = true := by
    intro q hq
    obtain ⟨w, hw, rfl⟩ := mem_map.1 (mem_reverse.1 hq)
    rw [hnewer w hw]
    rfl
  have hfound : (m.pending.valueFor? v.register).isNone = false := by
    rw [← Bool.not_eq_true, Option.isNone_iff_eq_none]
    exact hm
  have htake : s.stack.waiting.takeWhile (fun q => (q.valueFor? v.register).isNone) =
      (newer.map Node.pending).reverse := by
    rw [hwaiting, takeWhile_append_of_pos hother]
    simp [hfound]
  have hdrop : (s.stack.waiting.dropWhile fun q => (q.valueFor? v.register).isNone).head? =
      some m.pending := by
    rw [hwaiting, dropWhile_append_of_pos hother]
    simp [hfound]
  rw [Routine.overtakes, decide_eq_true htaken, Bool.true_and, hbefore, htake, hdrop,
    Option.any_some, Bool.and_eq_false_iff, Bool.or_eq_false_iff] at hclear
  rcases hclear with hquiet | ⟨habove, hquiet⟩
  · exact .inl ((h.owns_one (by simp)).performedIn_pending hquiet)
  · right
    rw [performedIn_append, append_eq_nil_iff, performedIn, performedIn, filterMap_flatMap,
      filterMap_flatMap, flatMap_eq_nil_iff, flatMap_eq_nil_iff]
    rw [any_eq_false] at habove hquiet
    constructor
    · intro w hw
      have hacts := habove w.pending (mem_reverse.2 (mem_map_of_mem hw))
      exact (h.owns_one (by simp [hw])).performedIn_pending (by simpa using hacts)
    · intro u hu
      have hacts := hquiet u.id (mem_map_of_mem hu)
      have hu' : s.pool.Owns [.tree u] :=
        hown.one (mem_map_of_mem (mem_append_left _ hu))
      exact hu'.performedIn_tree (by simpa using hacts)

section

variable (h : s.Keeps kept (n :: rest) rs)
include h

/-- An operand stays as it is, or an assignment that is kept gives it its value. -/
theorem refoldOperand (hoperands : n.HasOperands (before ++ slot :: after))
    (hread : slot.read? = some v) (registers : List Register) (f : FormId) (hclear : orderly →
      r.overtakes registers ((before ++ slot :: after).map FormTree.id) s (slot.id, v) = false) :
    ∃ kept' n' slot', n'.element = n.element ∧ n'.id = n.id ∧ slot'.id = slot.id ∧
      n'.HasOperands (before ++ slot' :: after) ∧
      (r.refoldOperand registers s (slot.id, v)).Keeps kept' (n' :: rest) rs ∧
      Leads orderly f s (kept ++ n :: rest) (r.refoldOperand registers s (slot.id, v))
        (kept' ++ n' :: rest) := by
  rcases r.refoldOperand_cases registers s (slot.id, v) with
    hsame | ⟨barrier, value, stack, hpop, hnew⟩
  · rw [hsame]
    exact ⟨kept, n, slot, rfl, rfl, rfl, hoperands, h, .refl f s _⟩
  · obtain ⟨older, m, newer, dst, ordered, notes, rfl, hset, hreg, hwaiting, hnewer⟩ :=
      h.exists_popped hpop
    have hm : s.pool.HoldsNode m := h.owns.holds (.node m) (by simp)
    obtain ⟨t, hkids, rfl, ht⟩ := hm.exists_value hset
    obtain ⟨n', hexchange, hoperands'⟩ := hoperands.exchange (.mk slot.id t.nodes)
    have hslot : s.pool.Holds slot :=
      (hoperands.owns (h.owns_one (by simp))).holds (.tree slot) (by simp)
    obtain ⟨e, hleaf⟩ := hslot.eq_of_read? hread
    have hsplit : s.pool.Owns (.node m :: .node n :: ((older ++ newer ++ rest).map .node ++ rs)) := by
      refine h.owns.perm ?_
      simp only [map_append, map_cons, append_assoc, cons_append]
      refine perm_middle.trans (.cons _ ?_)
      rw [← append_assoc, ← append_assoc (older.map Root.node)]
      exact perm_middle
    have htaken : (r.refoldOperand registers s (slot.id, v)).stack ≠ s.stack := by
      intro heq
      have hlength := congrArg List.length (congrArg Stack.waiting heq)
      rw [hnew, hwaiting, h.waiting] at hlength
      simp at hlength
    have hpending : m.pending.valueFor? v.register ≠ none := by
      rw [Node.pending, hset]
      simp [Element.pending, Pending.valueFor?, hreg]
    refine ⟨older ++ newer, n', .mk slot.id t.nodes, hexchange.element_eq, hexchange.id_eq, rfl,
      hoperands', ?_, ?_⟩
    · rw [hnew]
      refine ⟨hwaiting, (hsplit.moveValue hkids hexchange).perm ?_⟩
      simp only [map_append, map_cons, append_assoc, cons_append]
      rw [← append_assoc, ← append_assoc (older.map Root.node)]
      exact perm_middle.symm
    · have hfold : Node.Folds orderly (older ++ m :: (newer ++ n :: rest))
          (older ++ (newer ++ n' :: rest)) := by
        refine .intro older newer rest hset hkids hreg
          (fun w hw => Element.eq_set_of_isSequencePoint (hnewer w hw).2) (hleaf ▸ hexchange)
          fun horderly => ?_
        refine (h.quiet_of_overtakes_eq_false hoperands htaken hpending
          (fun w hw => (hnewer w hw).1) (hclear horderly)).imp_left fun hquiet => ?_
        rw [Node.evaluated, hkids, flatMap_singleton, performedIn_append,
          append_eq_nil_iff] at hquiet
        exact hquiet.1
      rw [append_assoc, append_assoc, hnew]
      refine ⟨1, .step (.here f hfold) (.refl _), hfold.length_eq, ?_, by simp, by simp⟩
      refine (hm.changes hkids slot.id).mono (fun x hx => ?_) (cons_subset.2 ⟨?_, nil_subset _⟩)
      · rw [FormTree.elements_mk]
        exact mem_flatMap.2 ⟨m, by simp, hx⟩
      · rw [FormTree.forms_mk]
        exact mem_cons_of_mem _ (mem_flatMap.2 ⟨n, by simp, hexchange.mem_forms slot.id_mem_forms⟩)

/-- The operands take their values, the last one first. -/
theorem foldl_refoldOperand {ks : List FormTree} {operands : List FormId}
    (hks : n.HasOperands (ks ++ after)) (hids : (ks ++ after).map FormTree.id = operands)
    (registers : List Register) (f : FormId)
    (hclear : orderly → anyAlong (r.refoldOperand registers) (r.overtakes registers operands) s
      (FormTree.readsIn ks).reverse = false) :
    ∃ kept' n', n'.element = n.element ∧ n'.id = n.id ∧
      ((FormTree.readsIn ks).reverse.foldl (r.refoldOperand registers) s).Keeps kept' (n' :: rest)
        rs ∧
      Leads orderly f s (kept ++ n :: rest)
        ((FormTree.readsIn ks).reverse.foldl (r.refoldOperand registers) s)
        (kept' ++ n' :: rest) := by
  induction ks using List.reverseRecOn generalizing s kept n after with
  | nil => exact ⟨kept, n, rfl, rfl, h, .refl f s _⟩
  | append_singleton ks u ih =>
    rw [append_assoc, singleton_append] at hks hids
    cases hread : u.read? with
    | none =>
      have hreads : FormTree.readsIn (ks ++ [u]) = FormTree.readsIn ks := by
        simp [FormTree.readsIn, hread]
      rw [hreads] at hclear ⊢
      exact ih h hks hids hclear
    | some v =>
      have hreads : (FormTree.readsIn (ks ++ [u])).reverse =
          (u.id, v) :: (FormTree.readsIn ks).reverse := by
        simp [FormTree.readsIn, hread]
      rw [hreads] at hclear ⊢
      obtain ⟨kept₁, n₁, u₁, helement₁, hid₁, hu₁, hks₁, hkeeps₁, hleads₁⟩ :=
        h.refoldOperand (r := r) hks hread registers f fun horderly =>
          hids ▸ (anyAlong_cons_eq_false.1 (hclear horderly)).1
      obtain ⟨kept₂, n₂, helement₂, hid₂, hkeeps₂, hleads₂⟩ :=
        ih hkeeps₁ hks₁ (by simpa [hu₁] using hids) fun horderly =>
          (anyAlong_cons_eq_false.1 (hclear horderly)).2
      exact ⟨kept₂, n₂, helement₂.trans helement₁, hid₂.trans hid₁, hkeeps₂, hleads₁.trans hleads₂⟩

theorem refoldOperands {dst : Variable} {source : FormId} {ordered : Bool} {notes : SetNotes}
    (hset : n.element = .set dst source ordered notes) (f : FormId)
    (hclear : orderly → r.operandsOvertake s source = false) :
    ∃ kept' n', n'.element = n.element ∧ n'.id = n.id ∧
      (r.refoldOperands s source).Keeps kept' (n' :: rest) rs ∧
      Leads orderly f s (kept ++ n :: rest) (r.refoldOperands s source) (kept' ++ n' :: rest) := by
  have hn : s.pool.Owns [.node n] := h.owns_one (by simp)
  have hnode : s.pool.HoldsNode n := hn.holds _ mem_cons_self
  obtain ⟨ks, hks, hforms⟩ := hnode.exists_operands hset
  have hslots := (hks.owns hn).operandSlots_eq hforms
  unfold Routine.refoldOperands
  unfold Routine.operandsOvertake at hclear
  rw [hslots] at hclear ⊢
  rw [hforms] at hclear
  rw [← append_nil ks] at hks
  exact h.foldl_refoldOperand hks (by rw [append_nil]) _ f hclear

theorem push : { s with stack := s.stack.push n.pending }.Keeps (kept ++ [n]) rest rs := by
  refine ⟨?_, ?_⟩
  · rw [Stack.waiting_push, h.waiting]
    simp
  · rw [append_assoc, singleton_append]
    exact h.owns

theorem refoldElement (f : FormId) (hclear : orderly → r.elementOvertakes s n.id = false) :
    ∃ kept', (r.refoldElement s n.id).Keeps kept' rest rs ∧
      Leads orderly f s (kept ++ n :: rest) (r.refoldElement s n.id) (kept' ++ rest) := by
  have hnode : s.pool.HoldsNode n := h.owns.holds (.node n) (by simp)
  rw [Routine.elementOvertakes, hnode.element_eq] at hclear
  rw [Routine.refoldElement, hnode.element_eq]
  split
  · rename_i dst source ordered notes hset
    rw [hset] at hclear
    obtain ⟨kept', n', helem, hid, hkeeps, hleads⟩ := h.refoldOperands hset f hclear
    have hnode' : (r.refoldOperands s source).pool.HoldsNode n' :=
      hkeeps.owns.holds (.node n') (by simp)
    have hpush : (r.refoldOperands s source).stack.pushExisting
          (r.refoldOperands s source).pool n.id =
        (r.refoldOperands s source).stack.push n'.pending := by
      rw [Stack.pushExisting, ← hid, hnode'.element_eq, Node.pending, helem, hset]
      rfl
    refine ⟨kept' ++ [n'], ?_, ?_⟩
    · dsimp only
      rw [hpush]
      exact hkeeps.push
    · rw [append_assoc, singleton_append]
      exact hleads
  · rename_i hother
    have hpending : n.pending = .statement n.id true := Element.pending_eq_statement hother
    refine ⟨kept ++ [n], ?_, ?_⟩
    · rw [Stack.pushStatement, ← hpending]
      exact h.push
    · rw [append_assoc, singleton_append]
      exact .refl f s _

end

/-- The elements of a form are refolded one after the other. -/
theorem foldl_refoldElement (h : s.Keeps kept todo rs) (f : FormId) (hclear : orderly →
      anyAlong r.refoldElement r.elementOvertakes s (todo.map Node.id) = false) :
    ∃ kept', ((todo.map Node.id).foldl r.refoldElement s).Keeps kept' [] rs ∧
      Leads orderly f s (kept ++ todo) ((todo.map Node.id).foldl r.refoldElement s) kept' := by
  induction todo generalizing s kept with
  | nil =>
    refine ⟨kept, h, ?_⟩
    rw [append_nil]
    exact .refl f s _
  | cons n todo ih =>
    rw [map_cons] at hclear ⊢
    obtain ⟨kept₁, hkeeps₁, hleads₁⟩ := h.refoldElement (r := r) f fun horderly =>
      (anyAlong_cons_eq_false.1 (hclear horderly)).1
    obtain ⟨kept₂, hkeeps₂, hleads₂⟩ := ih hkeeps₁ fun horderly =>
      (anyAlong_cons_eq_false.1 (hclear horderly)).2
    exact ⟨kept₂, hkeeps₂, hleads₁.trans hleads₂⟩

end Refolding.Keeps

namespace Routine

variable {t : FormTree}

/-- Refolding the elements of a form makes folds of its tree. -/
theorem refoldStatements_refolds (h : p.Owns [.tree t])
    (hclear : orderly → r.statementsOvertake p t.id = false) :
    t.RefoldsIn orderly p false (r.refoldStatements p t.id) := by
  cases t with
  | mk f ns =>
    have hlist : p.elementsOf f = ns.map Node.id := h.tree_holds.elementsOf_eq
    have hstart : Refolding.Keeps ⟨p, .empty, false⟩ [] ns [.spareForm f] := by
      refine ⟨rfl, h.openTree.perm ?_⟩
      rw [append_nil]
      exact (perm_append_singleton _ _).symm
    rw [FormTree.id_mk, statementsOvertake, hlist] at hclear
    obtain ⟨kept, hkeeps, k, hfolds, hlength, hrefolded⟩ := hstart.foldl_refoldElement f hclear
    rw [nil_append] at hfolds hlength hrefolded
    rw [FormTree.id_mk, refoldStatements, hlist, Stack.rewrite_pending hkeeps.waiting]
    dsimp only
    rcases Nat.eq_zero_or_pos k with rfl | hk
    · cases hfolds.eq_of_zero
      rw [if_pos rfl]
      refine ⟨0, .mk f ns, .refl _, ?_, hrefolded⟩
      rw [hrefolded.same rfl]
      exact h
    · have hne : kept.map Node.id ≠ ns.map Node.id := by
        intro heq
        have hsame := congrArg List.length heq
        rw [length_map, length_map] at hsame
        omega
      have hspare := hkeeps.owns.perm perm_append_comm
      rw [append_nil] at hspare
      rw [if_neg hne]
      refine ⟨k, .mk f kept, hfolds, Pool.Owns.setElements (by simpa using hspare), ?_, by omega, ?_⟩
      · refine hrefolded.changes.trans ((Pool.Changes.setElements _ f _).mono (fun e he => ?_)
          fun g hg => ?_)
        · obtain ⟨n, hn, rfl⟩ := mem_map.1 he
          refine hfolds.elements_subperm.subset ?_
          rw [FormTree.elements_mk]
          exact mem_flatMap.2 ⟨n, hn, mem_cons_self⟩
        · rw [mem_singleton.1 hg]
          exact FormTree.id_mem_forms _
      · simp [hk]

variable {us : List FormTree}

/-- A tree below some elements stands below one of them. -/
theorem exists_kid {ns : List (Node FormTree)} {vs : List FormTree} {u : FormTree}
    (h : ns.flatMap Node.kids = us ++ u :: vs) :
    ∃ earlier e element before after later,
      ns = earlier ++ ⟨e, element, before ++ u :: after⟩ :: later ∧
      us = earlier.flatMap Node.kids ++ before ∧ vs = after ++ later.flatMap Node.kids := by
  induction ns generalizing us with
  | nil => simp at h
  | cons n ns ih =>
    obtain ⟨e, element, kids⟩ := n
    rw [flatMap_cons, append_eq_append_iff] at h
    rcases h with ⟨us', rfl, hrest⟩ | ⟨kids', rfl, hrest⟩
    · obtain ⟨earlier, e', element', before, after, later, rfl, rfl, rfl⟩ := ih hrest
      exact ⟨⟨e, element, kids⟩ :: earlier, e', element', before, after, later, rfl, by simp, rfl⟩
    · cases kids' with
      | nil =>
        have hnil : ns.flatMap Node.kids = [] ++ u :: vs := hrest.symm
        obtain ⟨earlier, e', element', before, after, later, rfl, hus, rfl⟩ := ih hnil
        refine ⟨⟨e, element, us ++ []⟩ :: earlier, e', element', before, after, later, rfl, ?_, rfl⟩
        rw [flatMap_cons, append_assoc, ← hus]
        simp
      | cons u' after =>
        rw [cons_append, List.cons.injEq] at hrest
        obtain ⟨rfl, rfl⟩ := hrest
        exact ⟨[], e, element, us, after, ns, rfl, rfl, rfl⟩

/-- What a step does to the trees right below a form, the last one first, it does to the tree. -/
theorem foldl_refolds {step : Pool × Bool → FormId → Pool × Bool}
    {test : Pool × Bool → FormId → Bool}
    (hstep : ∀ p c (u : FormTree), p.Owns [.tree u] → (orderly → test (p, c) u.id = false) →
      u.RefoldsIn orderly p c (step (p, c) u.id))
    {done : List FormTree} (h : p.Owns [.tree t]) (hkids : t.nodes.flatMap Node.kids = us ++ done)
    (hclear : orderly → anyAlong step test (p, c) (us.map FormTree.id).reverse = false) :
    t.RefoldsIn orderly p c ((us.map FormTree.id).reverse.foldl step (p, c)) := by
  induction us using List.reverseRecOn generalizing p c t done with
  | nil => exact ⟨0, t, .refl t, h, .refl _ _ p c⟩
  | append_singleton us u ih =>
    rw [append_assoc, singleton_append] at hkids
    have hlast : ((us ++ [u]).map FormTree.id).reverse = u.id :: (us.map FormTree.id).reverse := by
      simp
    rw [hlast] at hclear ⊢
    obtain ⟨earlier, e, element, before, after, later, hnodes, rfl, rfl⟩ := exists_kid hkids
    cases t with
    | mk f nodes =>
      change nodes = _ at hnodes
      subst hnodes
      have hsub : FormTree.Sub
          (.mk f (earlier ++ ⟨e, element, before ++ u :: after⟩ :: later)) u :=
        FormTree.Sub.self.kid (n := ⟨e, element, before ++ u :: after⟩) (by simp) (by simp)
      obtain ⟨k₁, u', hfolds₁, howns₁, hrefolded₁⟩ := hstep p c u (h.sub hsub) fun horderly =>
        (anyAlong_cons_eq_false.1 (hclear horderly)).1
      have hexchange : Node.Exchanges u u' before ⟨e, element, before ++ u :: after⟩
          ⟨e, element, before ++ u' :: after⟩ := .kid e element before after
      have htree₁ := h.exchangeInTree hexchange hfolds₁.id_eq hrefolded₁.changes howns₁.tree_holds
        hfolds₁.elements_subperm hfolds₁.forms_subperm
      have hkids₁ : (earlier ++ ⟨e, element, before ++ u' :: after⟩ :: later).flatMap Node.kids =
          earlier.flatMap Node.kids ++ before ++ u' :: (after ++ later.flatMap Node.kids) := by
        simp
      obtain ⟨k₂, t', hfolds₂, howns₂, hrefolded₂⟩ := ih htree₁ hkids₁ fun horderly =>
        (anyAlong_cons_eq_false.1 (hclear horderly)).2
      have hinside := hfolds₁.inside f earlier later e element before after
      have hrefolded := hrefolded₁.mono hsub.elements_sublist.subset hsub.forms_sublist.subset
      exact ⟨k₁ + k₂, t', hinside.trans hfolds₂, howns₂,
        hrefolded.trans hrefolded₂ hinside.elements_subperm.subset hinside.forms_subperm.subset⟩

theorem childForms_eq (h : p.Holds t) :
    p.childForms t.id = (t.nodes.flatMap Node.kids).map FormTree.id := by
  rw [Pool.childForms, h.elementsOf_eq, flatMap_map, map_flatMap]
  refine flatMap_congr fun n hn => ?_
  rw [(h.node n hn).element_eq, (h.node n hn).kids]

/-- Refolding a form and the forms below it makes folds of its tree. -/
theorem refoldWithin_refolds (depth : Nat) (h : p.Owns [.tree t])
    (hclear : orderly → r.overtakesWithin depth (p, c) t.id = false) :
    t.RefoldsIn orderly p c (r.refoldWithin depth (p, c) t.id) := by
  induction depth generalizing p c t with
  | zero => exact ⟨0, t, .refl t, h, .refl _ _ p c⟩
  | succ depth ih =>
    rw [overtakesWithin] at hclear
    rw [refoldWithin]
    obtain ⟨k₁, t₁, hfolds₁, howns₁, hrefolded₁⟩ := refoldStatements_refolds h fun horderly =>
      (Bool.or_eq_false_iff.1 (hclear horderly)).1
    have hchildren : (r.refoldStatements p t.id).1.childForms t.id =
        (t₁.nodes.flatMap Node.kids).map FormTree.id := by
      have hforms := childForms_eq howns₁.tree_holds
      rw [hfolds₁.id_eq] at hforms
      exact hforms
    have hflag : Refolded k₁ t.elements t.forms p c (r.refoldStatements p t.id).1
        (c || (r.refoldStatements p t.id).2) :=
      ⟨hrefolded₁.changes, hrefolded₁.same, by rw [hrefolded₁.flag, Bool.false_or]⟩
    dsimp only at hclear ⊢
    rw [hchildren] at hclear ⊢
    obtain ⟨k₂, t₂, hfolds₂, howns₂, hrefolded₂⟩ := foldl_refolds (fun _ _ _ => ih) howns₁
      (append_nil _).symm fun horderly => (Bool.or_eq_false_iff.1 (hclear horderly)).2
    exact ⟨k₁ + k₂, t₂, hfolds₁.trans hfolds₂, howns₂,
      hflag.trans hrefolded₂ hfolds₁.elements_subperm.subset hfolds₁.forms_subperm.subset⟩

end Routine

namespace Reconstruction

/-- The pool of a reconstruction holds a tree for its root. -/
def IsTree (t : Reconstruction) : Prop := ∃ tree, tree.id = t.root ∧ t.pool.Owns [.tree tree]

variable {t : Reconstruction}

/-- Refolding makes a number of folds of the tree and says whether there were any. -/
theorem refold_refolds {tree : FormTree} (r : Routine) (hroot : tree.id = t.root)
    (h : t.pool.Owns [.tree tree]) :
    ∃ k tree', tree.Refolds (t.refoldOvertakes r = false) k tree' ∧ tree'.id = (t.refold r).1.root ∧
      (t.refold r).1.pool.Owns [.tree tree'] ∧ (t.refold r).2 = decide (0 < k) ∧
      (k = 0 → (t.refold r).1 = t) := by
  have hclear : t.refoldOvertakes r = false →
      r.overtakesWithin t.pool.forms.size (t.pool, false) tree.id = false := by
    rw [hroot]
    exact id
  obtain ⟨k, tree', hfolds, howns, hrefolded⟩ := r.refoldWithin_refolds t.pool.forms.size h hclear
  rw [hroot] at howns hrefolded
  refine ⟨k, tree', hfolds, hfolds.id_eq.trans hroot, howns, ?_, fun hk => ?_⟩
  · exact hrefolded.flag.trans (Bool.false_or _)
  · have hpool : (t.refold r).1.pool = t.pool := hrefolded.same hk
    have heq : (t.refold r).1 = { t with pool := (t.refold r).1.pool } := rfl
    rw [heq, hpool]

theorem IsTree.refold (h : t.IsTree) (r : Routine) : (t.refold r).1.IsTree := by
  obtain ⟨tree, hroot, howns⟩ := h
  obtain ⟨k, tree', -, hroot', howns', -, -⟩ := refold_refolds r hroot howns
  exact ⟨tree', hroot', howns'⟩

end Reconstruction

end Decompiler
