import Decompiler.Proofs.Order.Overtaking
import Decompiler.Proofs.Refold.Folds
import Decompiler.Refold

/-!
The elements that refolding looks at: which of their child forms are register reads, how they
wait on the stack of a run, and what effects are passed when they are.
-/

namespace Decompiler

open List

variable {n : Node FormTree} {p : Pool}

namespace Pool

def actAmong (p : Pool) (es : List ElementId) : Bool := es.any fun e => (p.element e).effect?.isSome

/-- The operands of a value: the value itself if it is a register read, or its child forms
unless it is a control structure or a condition. -/
def operandForms (p : Pool) (source : FormId) : List FormId :=
  if (p.readOf? source).isSome then [source]
  else
    match (p.single? source).map p.element with
    | none => []
    | some (.condition _ _ _ _ _) => []
    | some element => if element.isControl then [] else element.children

theorem operandSlots_eq (p : Pool) (source : FormId) :
    p.operandSlots source = (p.operandForms source).filterMap fun child =>
      (p.readOf? child).map fun v => (child, v) := by
  unfold operandSlots operandForms
  cases hread : p.readOf? source with
  | some v => simp [hread]
  | none =>
    rw [if_neg (by simp)]
    cases (p.single? source).map p.element with
    | none => rfl
    | some element => cases element <;> rfl

end Pool

/-! Operands of an element -/

/-- Forms that an element is computed from: all its child forms, or those of what stands in its
only child form as the only element. -/
inductive Node.HasOperands : Node FormTree → List FormTree → Prop
  | none (n : Node FormTree) : HasOperands n []
  | kids (e : ElementId) (element : Element) (ks : List FormTree) : HasOperands ⟨e, element, ks⟩ ks
  | inner {n : Node FormTree} {ks : List FormTree} (e : ElementId) (element : Element) (f : FormId)
      (h : HasOperands n ks) : HasOperands ⟨e, element, [.mk f [n]]⟩ ks

/-- An operand can be exchanged, and the others stay. -/
theorem Node.HasOperands.exchange {before after : List FormTree} {old : FormTree}
    (h : n.HasOperands (before ++ old :: after)) (new : FormTree) :
    ∃ n', Node.Exchanges old new before n n' ∧ n'.HasOperands (before ++ new :: after) := by
  generalize hks : before ++ old :: after = ks at h
  induction h with
  | none n => simp at hks
  | kids e element ks =>
    subst hks
    exact ⟨_, .kid e element before after, .kids e element _⟩
  | inner e element f h ih =>
    obtain ⟨n', hexchange, hoperands⟩ := ih hks
    exact ⟨_, .inner e element f hexchange, .inner e element f hoperands⟩

/-- The operands of an element are owned with it. -/
theorem Node.HasOperands.owns {ks : List FormTree} (h : n.HasOperands ks) (howns : p.Owns [.node n]) :
    p.Owns (ks.map .tree) := by
  induction h with
  | none n => exact .nil p
  | kids e element ks =>
    have hopen := howns.openNode.sublist (sublist_cons_self _ _)
    rw [append_nil] at hopen
    exact hopen
  | @inner n ks e element f h ih =>
    have hopen : p.Owns [.tree (.mk f [n])] := howns.openNode.sublist (sublist_cons_self _ _)
    exact ih (hopen.openTree.sublist (sublist_cons_self _ _))

def Element.read? : Element → Option Variable
  | .atom (.var v) => if v.isRead then some v else none
  | _ => none

theorem Element.eq_of_read? {element : Element} {v : Variable} (h : element.read? = some v) :
    element = .atom (.var v) := by
  unfold Element.read? at h
  split at h
  · split at h
    · cases h
      rfl
    · cases h
  · cases h

def FormTree.read? (t : FormTree) : Option Variable :=
  match t.nodes with
  | [n] => n.element.read?
  | _ => none

def FormTree.readsIn (ts : List FormTree) : List (FormId × Variable) :=
  ts.filterMap fun t => t.read?.map fun v => (t.id, v)

namespace Pool

variable {t : FormTree} {source : FormId}

theorem readOf?_eq_bind (p : Pool) (f : FormId) :
    p.readOf? f = ((p.single? f).map p.element).bind Element.read? := by
  rw [readOf?]
  cases (p.single? f).map p.element with
  | none => rfl
  | some element =>
    cases element with
    | atom a => cases a <;> rfl
    | _ => rfl

theorem Holds.readOf?_eq (h : p.Holds t) : p.readOf? t.id = t.read? := by
  rw [readOf?_eq_bind, single?, h.elementsOf_eq, FormTree.read?]
  cases t with
  | mk f nodes =>
    rcases nodes with _ | ⟨n, _ | ⟨m, rest⟩⟩
    · rfl
    · exact congrArg Element.read? (h.node n mem_cons_self).element_eq
    · rfl

theorem Holds.eq_of_read? (h : p.Holds t) {v : Variable} (hread : t.read? = some v) :
    ∃ e, t = .mk t.id [⟨e, .atom (.var v), []⟩] := by
  rcases t with ⟨f, _ | ⟨n, _ | ⟨m, rest⟩⟩⟩
  · cases hread
  · have hatom := Element.eq_of_read? (show n.element.read? = some v from hread)
    have hkids := (h.node n mem_cons_self).kids
    rw [hatom] at hkids
    have hnil := map_eq_nil_iff.1 hkids.symm
    cases n
    cases hatom
    cases hnil
    exact ⟨_, rfl⟩
  · cases hread

variable {dst : Variable} {notes : SetNotes} {ordered : Bool}

/-- An assignment has one tree below it, its value. -/
theorem HoldsNode.exists_value (h : p.HoldsNode n)
    (hset : n.element = .set dst source ordered notes) :
    ∃ value, n.kids = [value] ∧ value.id = source ∧ p.Holds value := by
  have hkids := h.kids
  rw [hset] at hkids
  obtain ⟨value, rest, hcons, hid, hnil⟩ := map_eq_cons_iff.1 hkids.symm
  rw [map_eq_nil_iff.1 hnil] at hcons
  exact ⟨value, hcons, hid, h.below value (hcons ▸ mem_cons_self)⟩

/-- The operands of an assignment can be found in its tree. -/
theorem HoldsNode.exists_operands (h : p.HoldsNode n)
    (hset : n.element = .set dst source ordered notes) :
    ∃ ks, n.HasOperands ks ∧ p.operandForms source = ks.map FormTree.id := by
  obtain ⟨t, hkids, rfl, ht⟩ := h.exists_value hset
  obtain ⟨e, element, kids⟩ := n
  subst hkids
  rw [operandForms]
  by_cases hread : (p.readOf? t.id).isSome
  · exact ⟨[t], .kids e element [t], if_pos hread⟩
  · rw [if_neg hread]
    cases hsingle : p.single? t.id with
    | none => exact ⟨[], .none _, rfl⟩
    | some e' =>
      obtain ⟨w, htree, rfl, hw⟩ := ht.exists_single hsingle
      rw [Option.map_some, hw.element_eq]
      have hnone : ∃ ks, Node.HasOperands ⟨e, element, [t]⟩ ks ∧ [] = ks.map FormTree.id :=
        ⟨[], .none _, rfl⟩
      split
      · exact hnone
      · exact hnone
      · rename_i hsome
        cases hsome
        split
        · exact hnone
        · refine ⟨w.kids, ?_, hw.kids⟩
          rw [htree]
          exact .inner e element t.id (.kids w.id w.element w.kids)

theorem Owns.operandSlots_eq {ks : List FormTree} (h : p.Owns (ks.map .tree))
    (hks : p.operandForms source = ks.map FormTree.id) :
    p.operandSlots source = FormTree.readsIn ks := by
  rw [Pool.operandSlots_eq, hks, filterMap_map]
  refine filterMap_congr fun u hu => ?_
  have hheld : p.Holds u := h.holds (.tree u) (mem_map_of_mem hu)
  rw [Function.comp_apply, hheld.readOf?_eq]

end Pool

/-! What an effect that is passed shows -/

namespace Pool

theorem performedIn_eq_nil {os : List Observation} (hos : ∀ o ∈ os, p.element o.1 = o.2)
    (hquiet : p.actAmong (os.map Prod.fst) = false) : performedIn os = [] := by
  rw [performedIn, filterMap_eq_nil_iff]
  intro o ho
  rw [actAmong, any_map, any_eq_false] at hquiet
  have hnone := hquiet o ho
  rw [Function.comp_apply, hos o ho, Option.not_isSome_iff_eq_none] at hnone
  rw [Observation.performed, hnone]
  rfl

theorem Owns.performedIn_tree {t : FormTree} (h : p.Owns [.tree t])
    (hquiet : p.actAmong (p.evaluated t.id) = false) : performedIn t.evaluated = [] := by
  rw [h.tree_holds.evaluated_eq h.tree_elements_nodup] at hquiet
  exact performedIn_eq_nil h.tree_holds.element_eq_of_evaluated hquiet

theorem Owns.performedIn_node {n : Node FormTree} (h : p.Owns [.node n])
    (hquiet : p.actAmong (p.evaluatedUnder n.id) = false) : performedIn n.evaluated = [] := by
  have hnode : p.HoldsNode n := h.holds _ mem_cons_self
  rw [h.evaluatedUnder_eq] at hquiet
  exact performedIn_eq_nil hnode.element_eq_of_evaluated hquiet

end Pool

namespace Element

/-- How an element waits on the stack of a run. -/
def pending (e : ElementId) : Element → Pending
  | .set dst source ordered notes => .assign dst source ordered notes (some e)
  | _ => .statement e true

variable {e : ElementId} {element : Element}

theorem eq_set_of_pending {dst : Variable} {source : FormId} {ordered : Bool} {notes : SetNotes}
    {existing : Option ElementId}
    (h : element.pending e = .assign dst source ordered notes existing) :
    element = .set dst source ordered notes := by
  cases element with
  | set =>
    cases h
    rfl
  | _ => cases h

theorem pending_eq_statement
    (h : ∀ dst source ordered notes, element ≠ .set dst source ordered notes) :
    element.pending e = .statement e true := by
  cases element with
  | set dst source ordered notes => exact absurd rfl (h dst source ordered notes)
  | _ => rfl

/-- Only an assignment can wait without being a sequence point. -/
theorem eq_set_of_isSequencePoint (h : (element.pending e).isSequencePoint = false) :
    ∃ dst source notes, element = .set dst source false notes := by
  cases element with
  | set dst source ordered notes =>
    cases (show ordered = false from h)
    exact ⟨dst, source, notes, rfl⟩
  | _ => cases h

end Element

def Node.pending (n : Node FormTree) : Pending := n.element.pending n.id

namespace Stack

variable {α : Type}

/-- A value that is popped where elements wait is that of one of them; those above it stay. -/
theorem popRegister_of_waiting {pending : α → Pending} {as : List α} {s stack : Stack}
    {register : Register} {barrier : RegisterSet} {value : FormId}
    (hwaiting : s.waiting = (as.map pending).reverse)
    (h : s.popRegister p register barrier true = some (value, stack)) :
    ∃ older a newer dst ordered notes existing, as = older ++ a :: newer ∧
      pending a = .assign dst value ordered notes existing ∧ dst.register = register ∧
      stack.waiting = ((older ++ newer).map pending).reverse ∧
      Passes p register barrier true (newer.map pending).reverse value := by
  obtain ⟨above, dst, ordered, notes, existing, below, hsplit, hrest, hr, hpasses⟩ :=
    popRegister_eq_some h
  have has : as.map pending =
      below.reverse ++ .assign dst value ordered notes existing :: above.reverse := by
    have hreverse := congrArg List.reverse (hwaiting.symm.trans hsplit)
    simpa using hreverse
  obtain ⟨older, as', rfl, holder, has'⟩ := map_eq_append_iff.1 has
  obtain ⟨a, newer, rfl, ha, hnewer⟩ := map_eq_cons_iff.1 has'
  obtain rfl : (newer.map pending).reverse = above := by
    rw [hnewer, reverse_reverse]
  refine ⟨older, a, newer, dst, ordered, notes, existing, rfl, ha, hr, ?_, hpasses⟩
  rw [map_append, holder, reverse_append, reverse_reverse]
  exact hrest

/-- Elements that wait on a stack are what it is rewritten to. -/
theorem rewrite_pending {id : α → ElementId} {element : α → Element} {as : List α} {s : Stack}
    (h : s.waiting = (as.map fun a => (element a).pending (id a)).reverse) (p : Pool) :
    s.rewrite p = (as.map id, p) := by
  have hentries : waitingIn s.entries.reverse = as.map fun a => (element a).pending (id a) := by
    rw [waitingIn_reverse]
    exact (congrArg List.reverse h).trans (reverse_reverse _)
  clear h
  rw [rewrite]
  generalize s.entries.reverse = entries at hentries
  induction entries generalizing as with
  | nil =>
    rw [map_eq_nil_iff.1 hentries.symm]
    rfl
  | cons entry entries ih =>
    by_cases hactive : entry.active = true
    · rw [waitingIn_cons_active hactive] at hentries
      obtain ⟨a, as, rfl, hpending, hrest⟩ := map_eq_cons_iff.1 hentries.symm
      have hone : rewritePending p entry.pending = (id a, p) := by
        rw [← hpending]
        cases element a <;> rfl
      rw [rewriteEntries, if_pos hactive, hone, map_cons]
      dsimp only
      rw [ih hrest.symm]
    · rw [waitingIn_cons_inactive (by simpa using hactive)] at hentries
      rw [rewriteEntries, if_neg hactive, ih hentries]

end Stack

/-- An entry without an effect shows none. -/
theorem Pool.Owns.performedIn_pending (h : p.Owns [.node n]) (hquiet : p.acts n.pending = false) :
    performedIn n.evaluated = [] := by
  have hnode : p.HoldsNode n := h.holds _ mem_cons_self
  unfold Node.pending Element.pending at hquiet
  split at hquiet
  · rename_i dst source ordered notes hset
    obtain ⟨value, hkids, rfl, hvalue⟩ := hnode.exists_value hset
    have howns : p.Owns [.tree value] := by
      have hopen := h.openNode
      rw [hkids] at hopen
      exact hopen.sublist (sublist_cons_self _ _)
    have hset' : Element.effect? n.element = none := by
      rw [hset]
      rfl
    rw [Node.evaluated, hkids, flatMap_singleton, performedIn_append,
      howns.performedIn_tree hquiet, nil_append, performedIn_cons hset']
    rfl
  · exact h.performedIn_node hquiet

end Decompiler
