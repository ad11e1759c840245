import Decompiler.Proofs.Meaning.Denotation

/-!
Code with divisions.  A division of the machine sets two registers, the quotient and the
remainder.  In folded code it is still a statement that does so, or one of the two is computed
where it is read; which of them is signed is then known from the instruction it comes from.  Until
then it waits on the stack like an assignment, and values are popped from behind it.
-/

namespace Decompiler

open List RegisterSet

/-- The results of dividing two words, signed or not. -/
structure Division where
  quotient : Bool → Word → Word → Word
  remainder : Bool → Word → Word → Word

namespace Division

def truncating : Division where
  quotient signed a b := if signed then a.sdiv b else a / b
  remainder signed a b := if signed then a.srem b else a % b

def perform (D : Division) (signed : Bool) (a b : Word) (σ : Registers) : Registers :=
  Function.update (Function.update σ .lo (D.quotient signed a b)) .hi (D.remainder signed a b)

variable {D : Division} {signed : Bool} {a b : Word} {σ σ' : Registers} {q : Register}

@[simp] theorem perform_hi : D.perform signed a b σ .hi = D.remainder signed a b :=
  Function.update_self ..

@[simp] theorem perform_lo : D.perform signed a b σ .lo = D.quotient signed a b := by
  rw [perform, Function.update_of_ne (by decide), Function.update_self]

theorem perform_of_ne (hhi : q ≠ .hi) (hlo : q ≠ .lo) : D.perform signed a b σ q = σ q := by
  rw [perform, Function.update_of_ne hhi, Function.update_of_ne hlo]

theorem perform_congr (h : σ q = σ' q) : D.perform signed a b σ q = D.perform signed a b σ' q := by
  rw [perform, perform, Function.update_apply, Function.update_apply, Function.update_apply,
    Function.update_apply, h]

end Division

/-- The word of a quotient or a remainder. -/
def Element.divided (D : Division) (signed : Bool) : Element → List Word → Word
  | .apply (.builtin .div) _, [a, b] => D.quotient signed a b
  | .apply (.builtin .mod) _, [a, b] => D.remainder signed a b
  | _, _ => 0

/-- How code is read: what its constants are and how it divides, and for folded code which
quotients and remainders are signed. -/
structure Evaluator where
  consts : Constants
  division : Division
  signed : ElementId → Bool

/-- How code without divisions is read. -/
def Evaluator.plain (consts : Constants) : Evaluator := ⟨consts, .truncating, fun _ => true⟩

/-- The reading of a pool in which quotients and remainders are those of a division. -/
def Evaluator.reading (ev : Evaluator) (p : Pool) : Reading where
  element e := (p.element e).divided ev.division (ev.signed e)
  form _ := 0

def Operation.perform (consts : Constants) (D : Division) (σ : Registers) :
    Operation → Option Registers
  | .divide a b signed => some (D.perform signed (a.value consts σ) (b.value consts σ) σ)
  | op => op.step consts σ

def Routine.perform (r : Routine) (consts : Constants) (D : Division) (σ : Registers) :
    Option Registers :=
  r.code.toList.foldlM (fun σ instr => instr.op.perform consts D σ) σ

namespace Pool

def wordBy (p : Pool) (ev : Evaluator) (σ : Registers) (f : FormId) : Word :=
  p.word (ev.reading p) ev.consts σ f

def perform (p : Pool) (ev : Evaluator) (σ : Registers) (e : ElementId) : Option Registers :=
  match p.element e with
  | .set dst source _ _ => some (Function.update σ dst.register (p.wordBy ev σ source))
  | .divide a b signed _ =>
    some (ev.division.perform signed (p.wordBy ev σ a) (p.wordBy ev σ b) σ)
  | _ => none

def performAll (p : Pool) (ev : Evaluator) (σ : Registers) (es : List ElementId) :
    Option Registers := es.foldlM (p.perform ev) σ

end Pool

theorem Element.wordBy_congr {consts : Constants} {σ σ' : Registers} {element : Element}
    {other : List Word → Word} (h : ∀ v ∈ element.localReads, σ v.register = σ' v.register)
    (ws : List Word) :
    element.wordBy consts σ other ws = element.wordBy consts σ' other ws := by
  unfold wordBy
  split
  · rfl
  · rfl
  · rw [compute_congr h]

namespace FormTree

def wordBy (ev : Evaluator) (σ : Registers) : FormTree → Word :=
  fold fun _ nodes =>
    match nodes with
    | [n] => n.element.wordBy ev.consts σ (n.element.divided ev.division (ev.signed n.id)) n.kids
    | _ => 0

def word (consts : Constants) (σ : Registers) : FormTree → Word := wordBy (.plain consts) σ

variable {ev : Evaluator} {σ σ' : Registers}

theorem wordBy_single (f : FormId) (n : Node FormTree) :
    (mk f [n]).wordBy ev σ = n.element.wordBy ev.consts σ
      (n.element.divided ev.division (ev.signed n.id)) (n.kids.map (wordBy ev σ)) := by
  rw [wordBy, fold_mk, map_singleton]

theorem wordBy_of_ne {f : FormId} {nodes : List (Node FormTree)} (h : ∀ n, nodes ≠ [n]) :
    (mk f nodes).wordBy ev σ = 0 := by
  rw [wordBy, fold_mk]
  rcases nodes with _ | ⟨n, _ | ⟨m, rest⟩⟩
  · rfl
  · exact absurd rfl (h n)
  · rfl

/-- A word depends only on the registers that are read for it. -/
theorem wordBy_congr {t : FormTree} (h : ∀ r ∈ t.reads, σ r = σ' r) :
    t.wordBy ev σ = t.wordBy ev σ' := by
  induction t using FormTree.induct with
  | h f nodes ih =>
    by_cases hsingle : ∃ n, nodes = [n]
    · obtain ⟨n, rfl⟩ := hsingle
      simp only [reads_mk, flatMap_singleton, mem_append, or_imp, forall_and] at h
      have hkids : n.kids.map (wordBy ev σ) = n.kids.map (wordBy ev σ') :=
        map_congr_left fun t ht => ih n mem_cons_self t ht
          fun r hr => h.2 r (mem_flatMap.2 ⟨t, ht, hr⟩)
      rw [wordBy_single, wordBy_single, hkids]
      exact Element.wordBy_congr (fun v hv => h.1 _ (mem_map_of_mem hv)) _
    · have hne : ∀ n, nodes ≠ [n] := fun n hn => hsingle ⟨n, hn⟩
      rw [wordBy_of_ne hne, wordBy_of_ne hne]

end FormTree

namespace Pool

variable {p q : Pool} {ev : Evaluator} {σ : Registers} {t : FormTree}

theorem wordBy_interprets (p : Pool) (env : TypeEnv) (ev : Evaluator) (σ : Registers) :
    p.Interprets env ev.consts σ (p.wordBy ev σ) := p.word_interprets env

variable {reading : Reading}

theorem word_of_single?_eq_none {consts : Constants} {f : FormId} (h : p.single? f = none) :
    p.word reading consts σ f = reading.form f := by
  rw [word]
  cases p.elements.size with
  | zero => rfl
  | succ n => rw [wordWithin, h]

/-- The word of a form is that of its tree, if it is read alike. -/
theorem Holds.word_eq (h : p.Holds t) (helem : ∀ e ∈ t.elements,
      reading.element e = (p.element e).divided ev.division (ev.signed e))
    (hform : ∀ f, reading.form f = 0) : p.word reading ev.consts σ t.id = t.wordBy ev σ := by
  induction t using FormTree.induct with
  | h f nodes ih =>
    have helements : p.elementsOf f = nodes.map Node.id := h.elementsOf_eq
    by_cases hsingle : ∃ n, nodes = [n]
    · obtain ⟨n, rfl⟩ := hsingle
      have hnode : p.HoldsNode n := h.node n mem_cons_self
      rw [FormTree.elements_mk, flatMap_singleton] at helem
      have hkids : n.kids.map (fun u => p.word reading ev.consts σ u.id) =
          n.kids.map (FormTree.wordBy ev σ) := by
        refine map_congr_left fun u hu => ?_
        refine ih n mem_cons_self u hu (hnode.below u hu) fun e he => helem e ?_
        exact mem_cons_of_mem _ (mem_flatMap.2 ⟨u, hu, he⟩)
      rw [(Grounded.of_holds h).word_single (single?_of_elementsOf helements),
        helem n.id mem_cons_self, hnode.element_eq, hnode.kids, map_map,
        FormTree.wordBy_single, ← hkids]
      rfl
    · have hne : ∀ n, nodes ≠ [n] := fun n hn => hsingle ⟨n, hn⟩
      have hnone : p.single? f = none := by
        rw [single?, helements]
        rcases nodes with _ | ⟨n, _ | ⟨m, rest⟩⟩
        · rfl
        · exact absurd rfl (hne n)
        · rfl
      rw [FormTree.wordBy_of_ne hne, FormTree.id_mk, word_of_single?_eq_none hnone, hform]

/-- The word of a form in a larger pool is that of its tree. -/
theorem Holds.wordBy_eq_of_extends (h : p.Holds t) (hext : p.Extends q) :
    q.wordBy ev σ t.id = t.wordBy ev σ := by
  rw [wordBy, (Grounded.of_holds h).word_eq hext]
  refine h.word_eq (fun e he => ?_) fun _ => rfl
  exact congrArg (Element.divided ev.division (ev.signed e))
    (hext.element_eq e (h.elements_lt e he))

theorem Holds.wordBy_eq (h : p.Holds t) : p.wordBy ev σ t.id = t.wordBy ev σ :=
  h.wordBy_eq_of_extends (.refl p)

variable {n : Node FormTree} {r : Register}

theorem Owns.node_of_mem {rs : List Root} (h : p.Owns rs) (hn : .node n ∈ rs) :
    p.HoldsNode n ∧ n.elements.Nodup := by
  have hone : p.Owns [.node n] := h.one hn
  refine ⟨hone.holds _ mem_cons_self, ?_⟩
  have hnodup := hone.elements
  rw [flatMap_singleton] at hnodup
  exact hnodup

theorem HoldsNode.elementsUnder_eq (h : p.HoldsNode n) (hnodup : n.elements.Nodup) :
    p.elementsUnder n.id = n.elements :=
  h.elementsWithin_eq (Pool.length_le_size hnodup h.elements_lt)

/-- What the trees below an element read is read under it. -/
theorem HoldsNode.mem_elementReadRegisters (h : p.HoldsNode n) (hnodup : n.elements.Nodup)
    {t : FormTree} (ht : t ∈ n.kids) (hr : r ∈ t.reads) : r ∈ p.elementReadRegisters n.id := by
  rw [(h.below t ht).reads_eq] at hr
  obtain ⟨e, he, hr⟩ := mem_flatMap.1 hr
  rw [elementReadRegisters, readRegistersOf, mem_ofList, h.elementsUnder_eq hnodup]
  exact mem_flatMap.2 ⟨e, mem_cons_of_mem _ (mem_flatMap.2 ⟨t, ht, he⟩), hr⟩

/-- What an element writes itself is written under it. -/
theorem HoldsNode.mem_elementWrites (h : p.HoldsNode n) (hnodup : n.elements.Nodup)
    (hr : r ∈ n.element.localWrites) : r ∈ p.elementWrites n.id := by
  rw [elementWrites, writesOf, h.elementsUnder_eq hnodup]
  refine mem_foldl_union.2 (.inr ⟨n.id, mem_cons_self, ?_⟩)
  rw [h.element_eq]
  exact hr

end Pool

/-- A division whose operands do not read a register, and which does not write what a value
reads, can be crossed by the assignment of the register. -/
theorem Division.crosses {D : Division} {signed : Bool} {r : Register} {reads : Register → Prop}
    {a b : Registers → Word} (hr : r ≠ .hi ∧ r ≠ .lo) (hreads : ∀ q, reads q → q ≠ .hi ∧ q ≠ .lo)
    (ha : ∀ σ τ : Registers, (∀ q ≠ r, σ q = τ q) → a σ = a τ)
    (hb : ∀ σ τ : Registers, (∀ q ≠ r, σ q = τ q) → b σ = b τ) :
    Crosses r reads fun σ => D.perform signed (a σ) (b σ) σ where
  keeps σ := perform_of_ne hr.1 hr.2
  keeps_reads σ q hq := perform_of_ne (hreads q hq).1 (hreads q hq).2
  unread σ τ hsame q hq := by
    rw [ha σ τ hsame, hb σ τ hsame]
    exact perform_congr (hsame q hq)

namespace Held

/-- Runs the assignment or the division that an entry stands for. -/
def perform (ev : Evaluator) : Held → Registers → Registers
  | .value dst t _ _ => fun σ => Function.update σ dst.register (t.wordBy ev σ)
  | .division ⟨_, .divide _ _ signed _, [a, b]⟩ => fun σ =>
    ev.division.perform signed (a.wordBy ev σ) (b.wordBy ev σ) σ
  | _ => id

def performAll (ev : Evaluator) (σ : Registers) (E : List Held) : Registers :=
  E.foldr (perform ev) σ

/-- Runs entries that are assignments, the latest one last. -/
def run (consts : Constants) (σ : Registers) (E : List Held) : Registers :=
  performAll (.plain consts) σ E

/-- While divisions wait, their results are not assigned. -/
def KeepResults (E : List Held) : Prop :=
  ∀ {dst t ordered notes n}, .value dst t ordered notes ∈ E → .division n ∈ E →
    dst.register ≠ .hi ∧ dst.register ≠ .lo

variable {ev : Evaluator} {σ : Registers} {consts : Constants} {E E' : List Held} {p : Pool}

theorem KeepResults.sublist (h : KeepResults E) (hsub : E'.Sublist E) : KeepResults E' :=
  fun hvalue hn => h (hsub.subset hvalue) (hsub.subset hn)

theorem performAll_cons (held : Held) (E : List Held) :
    performAll ev σ (held :: E) = held.perform ev (performAll ev σ E) := rfl

theorem performAll_append (above below : List Held) :
    performAll ev σ (above ++ below) = above.foldr (perform ev) (performAll ev σ below) :=
  foldr_append

theorem run_value (dst : Variable) (t : FormTree) (ordered : Bool) (notes : SetNotes) :
    run consts σ (.value dst t ordered notes :: E) =
      Function.update (run consts σ E) dst.register (t.word consts (run consts σ E)) := rfl

namespace Pops

variable {r : Register} {barrier : RegisterSet} {effects : Bool} {t : FormTree}

/-- A value that is popped from below a division reads none of its results. -/
theorem unread_results {above below : List Held} {dst : Variable} {ordered : Bool}
    {notes : SetNotes} {e : ElementId} {a b : FormId} {isSigned : Bool} {site : Nat}
    {kids : List FormTree}
    (howns : p.Owns ((above ++ .value dst t ordered notes :: below).map Held.root))
    (hpasses : Stack.Passes p r barrier effects (above.map Held.pending) t.id)
    (hdivision : .division ⟨e, .divide a b isSigned site, kids⟩ ∈ above) :
    ∀ q ∈ t.reads, q ≠ .hi ∧ q ≠ .lo := by
  have htree : p.Holds t ∧ t.elements.Nodup :=
    howns.of_mem (mem_map.2 ⟨_, mem_append_right _ mem_cons_self, rfl⟩)
  obtain ⟨hnode, hnodup⟩ := howns.node_of_mem (mem_map.2 ⟨_, mem_append_left _ hdivision, rfl⟩)
  intro q hq
  have hnot := (hpasses.apart (mem_map_of_mem hdivision)).2 q
    ((htree.1.mem_formReadRegisters htree.2).2 hq)
  have hresult : q ∉ [.hi, .lo] := fun hmem =>
    hnot (hnode.mem_elementWrites hnodup (mem_ofList.2 hmem))
  simpa using hresult

/-- Popping a value changes only its register, and the value is what the register held. -/
theorem performAll_eq (h : Pops p r barrier effects E t E') (howns : p.Owns (E.map Held.root))
    (hE : KeepResults E) (ev : Evaluator) (σ : Registers) :
    (∀ q ≠ r, performAll ev σ E' q = performAll ev σ E q) ∧
      t.wordBy ev (performAll ev σ E') = performAll ev σ E r := by
  cases h with
  | @intro above below dst t ordered notes hdst hpasses =>
    have hcross : ∀ held ∈ above, Crosses r (· ∈ t.reads) (held.perform ev) := by
      intro held hheld
      unfold perform
      split
      · obtain ⟨hne, hunread, hreads⟩ := crosses howns hpasses hheld
        exact .update hne hunread fun σ τ hsame =>
          FormTree.wordBy_congr fun q hq => hsame q fun heq => hreads (heq ▸ hq)
      · rename_i e x y signed site a b
        obtain ⟨hnode, hnodup⟩ := howns.node_of_mem (mem_map.2 ⟨_, mem_append_left _ hheld, rfl⟩)
        have hread := (hpasses.apart (mem_map_of_mem hheld)).1
        have hkid : ∀ u ∈ [a, b], ∀ σ τ : Registers, (∀ q ≠ r, σ q = τ q) →
            u.wordBy ev σ = u.wordBy ev τ := fun u hu σ τ hsame =>
          FormTree.wordBy_congr fun q hq => hsame q fun heq =>
            hread (hnode.mem_elementReadRegisters hnodup hu (heq ▸ hq))
        have hresults := hE (mem_append_right _ mem_cons_self) (mem_append_left _ hheld)
        rw [hdst] at hresults
        exact Division.crosses hresults (unread_results howns hpasses hheld) (hkid a (by simp))
          (hkid b (by simp))
      · exact .id
    obtain ⟨hother, hreads, hvalue⟩ := (Crosses.foldr hcross).moved (performAll ev σ below)
      (t.wordBy ev (performAll ev σ below))
    rw [performAll_append, performAll_append, performAll_cons, perform, hdst]
    refine ⟨hother, ?_⟩
    rw [hvalue]
    exact FormTree.wordBy_congr hreads

end Pops

end Held

end Decompiler
