import Decompiler.Proofs.Fold.Outcome
import Decompiler.Proofs.Tree.Ownership

/-!
What waits on the stack, as trees.  A state lists some entries and some hands: the
entries are what its stack has waiting, the hands are what the step that runs holds
besides, and the pool owns all of them.
-/

namespace Decompiler

open List

/-- A value of a register may be moved past some entries: none of them has a value of the register
or is a sequence point, and none is in its way. -/
structure Stack.Passes (p : Pool) (r : Register) (barrier : RegisterSet) (effects : Bool)
    (above : List Pending) (f : FormId) : Prop where
  clear : ∀ q ∈ above, q.valueFor? r = none ∧ q.isSequencePoint = false
  may : mayPop p r barrier effects (above.foldl (Skipped.past p) {}) f = true

/-- An entry of the stack with what it stands for. -/
inductive Held
  | value (dst : Variable) (t : FormTree) (ordered : Bool) (notes : SetNotes)
  | statement (n : Node FormTree) (ordered : Bool)
  | division (n : Node FormTree)

namespace Held

def pending : Held → Pending
  | value dst t ordered notes => .assign dst t.id ordered notes none
  | statement n ordered => .statement n.id ordered
  | division n => .division n.id

def root : Held → Root
  | value _ t _ _ => .tree t
  | statement n _ => .node n
  | division n => .node n

/-- The element that an entry becomes when the stack is turned into statements. -/
inductive Settles : Held → Node FormTree → Prop
  | value (dst : Variable) (t : FormTree) (ordered : Bool) (notes : SetNotes) (e : ElementId) :
      Settles (.value dst t ordered notes) ⟨e, .set dst t.id ordered notes, [t]⟩
  | statement (n : Node FormTree) (ordered : Bool) : Settles (.statement n ordered) n
  | division (n : Node FormTree) : Settles (.division n) n

/-- A value can be popped from some entries and leaves others: it is the latest one of its
register, and it may be moved past all entries above it. -/
inductive Pops (p : Pool) (r : Register) (barrier : RegisterSet) (effects : Bool) :
    List Held → FormTree → List Held → Prop
  | intro {above below : List Held} {dst : Variable} {t : FormTree} {ordered : Bool}
      {notes : SetNotes} (hdst : dst.register = r)
      (hpasses : Stack.Passes p r barrier effects (above.map Held.pending) t.id) :
      Pops p r barrier effects (above ++ .value dst t ordered notes :: below) t (above ++ below)

/-- A division can be popped from some entries and leaves others: it is the latest one, and no
entry above it writes what it reads. -/
inductive PopsDivision (p : Pool) : List Held → Node FormTree → List Held → Prop
  | intro {above below : List Held} {n : Node FormTree}
      (habove : ∀ held ∈ above,
        (∀ e, held.pending ≠ .division e) ∧ held.pending.isSequencePoint = false)
      (hreads : (p.elementReadRegisters n.id).intersects
        ((above.map Held.pending).foldl (Stack.Skipped.past p) {}).writes = false) :
      PopsDivision p (above ++ .division n :: below) n (above ++ below)

end Held

/-- What a value is popped from behind is no sequence point. -/
theorem Stack.Passes.free {p : Pool} {r : Register} {barrier : RegisterSet} {effects : Bool}
    {above : List Held} {f : FormId} (h : Passes p r barrier effects (above.map Held.pending) f) :
    ∀ held ∈ above, held.pending.isSequencePoint = false :=
  fun _ hheld => (h.clear _ (mem_map_of_mem hheld)).2

namespace Stack

variable {rest entries : List Entry} {r : Register} {f : FormId} {p : Pool}

def waitingIn (entries : List Entry) : List Pending :=
  (entries.filter Entry.active).map Entry.pending

/-- The active entries, the latest first. -/
def waiting (s : Stack) : List Pending := waitingIn s.entries

variable {entry : Entry} {writes : RegisterSet}

theorem waitingIn_cons_active (h : entry.active = true) :
    waitingIn (entry :: rest) = entry.pending :: waitingIn rest := by
  rw [waitingIn, filter_cons_of_pos h, map_cons]
  rfl

theorem waitingIn_cons_inactive (h : entry.active = false) :
    waitingIn (entry :: rest) = waitingIn rest := by
  rw [waitingIn, filter_cons_of_neg (by simp [h])]
  rfl

theorem waitingIn_append (entries entries' : List Entry) :
    waitingIn (entries ++ entries') = waitingIn entries ++ waitingIn entries' := by
  rw [waitingIn, filter_append, map_append]
  rfl

theorem waitingIn_reverse (entries : List Entry) :
    waitingIn entries.reverse = (waitingIn entries).reverse := by
  rw [waitingIn, filter_reverse, map_reverse]
  rfl

@[simp] theorem waiting_push (s : Stack) (q : Pending) : (s.push q).waiting = q :: s.waiting := rfl

theorem valueFor?_eq_some {q : Pending} (h : q.valueFor? r = some f) :
    ∃ dst ordered notes existing, q = .assign dst f ordered notes existing ∧ dst.register = r := by
  cases q with
  | assign dst source ordered notes existing =>
    rw [Pending.valueFor?] at h
    split at h
    · rename_i hr
      cases h
      exact ⟨dst, ordered, notes, existing, rfl, hr⟩
    · cases h
  | statement e ordered => cases h
  | division e => cases h

theorem Skipped.mem_writes {above : List Pending} {skipped : Skipped} :
    r ∈ (above.foldl (past p) skipped).writes ↔ r ∈ skipped.writes ∨ ∃ q ∈ above, r ∈ q.writes p := by
  have hfold : above.foldl (fun acc q => acc ∪ q.writes p) skipped.writes =
      (above.foldl (past p) skipped).writes := foldl_hom writes fun _ _ => rfl
  rw [← hfold]
  exact RegisterSet.mem_foldl_union

theorem Skipped.mem_reads {above : List Pending} {skipped : Skipped} :
    r ∈ (above.foldl (past p) skipped).reads ↔ r ∈ skipped.reads ∨ ∃ q ∈ above, r ∈ q.reads p := by
  have hfold : above.foldl (fun acc q => acc ∪ q.reads p) skipped.reads =
      (above.foldl (past p) skipped).reads := foldl_hom reads fun _ _ => rfl
  rw [← hfold]
  exact RegisterSet.mem_foldl_union

section

variable {α : Type} {a : α} {offer : Pending → Option α} {may : Skipped → α → Bool}
  {passes : Pending → Bool} {s s' : Stack}

theorem takeFirstFrom_splits {skipped : Skipped}
    (h : takeFirstFrom p offer may passes skipped entries = some (a, rest)) :
    ∃ above q below, entries = above ++ ⟨q, true⟩ :: below ∧ rest = above ++ ⟨q, false⟩ :: below ∧
      offer q = some a ∧ may ((waitingIn above).foldl (Skipped.past p) skipped) a = true ∧
      ∀ q ∈ waitingIn above, offer q = none ∧ passes q = true := by
  induction entries generalizing skipped rest with
  | nil => cases h
  | cons entry entries ih =>
    obtain ⟨pending, active⟩ := entry
    cases active with
    | false =>
      obtain ⟨⟨g, rest'⟩, hfound, heq⟩ := Option.map_eq_some_iff.1 h
      cases heq
      obtain ⟨above, q, below, rfl, rfl, hmore⟩ := ih hfound
      exact ⟨⟨pending, false⟩ :: above, q, below, rfl, rfl, hmore⟩
    | true =>
      rw [takeFirstFrom, if_neg (by simp)] at h
      cases hoffer : offer pending with
      | some a' =>
        rw [hoffer] at h
        obtain ⟨hmay, heq⟩ := Option.ite_none_right_eq_some.1 h
        cases heq
        exact ⟨[], pending, entries, rfl, rfl, hoffer, hmay, by simp [waitingIn]⟩
      | none =>
        rw [hoffer] at h
        obtain ⟨hpasses, hmap⟩ := Option.ite_none_right_eq_some.1 h
        obtain ⟨⟨g, rest'⟩, hfound, heq⟩ := Option.map_eq_some_iff.1 hmap
        cases heq
        obtain ⟨above, q, below, rfl, rfl, hq, hmay, habove⟩ := ih hfound
        exact ⟨⟨pending, true⟩ :: above, q, below, rfl, rfl, hq, hmay,
          forall_mem_cons.2 ⟨⟨hoffer, hpasses⟩, habove⟩⟩

/-- What is taken was offered by an active entry, above which every active entry offered nothing and
could be passed. -/
theorem takeFirst_splits (h : s.takeFirst p offer may passes = some (a, s')) :
    ∃ above q below, s.entries = above ++ ⟨q, true⟩ :: below ∧
      s'.entries = above ++ ⟨q, false⟩ :: below ∧ offer q = some a ∧
      may ((waitingIn above).foldl (Skipped.past p) {}) a = true ∧
      ∀ q ∈ waitingIn above, offer q = none ∧ passes q = true := by
  obtain ⟨⟨a', rest⟩, hfound, heq⟩ := Option.map_eq_some_iff.1 h
  cases heq
  exact takeFirstFrom_splits hfound

theorem takeFirst_eq_some (h : s.takeFirst p offer may passes = some (a, s')) :
    ∃ above q below, s.waiting = above ++ q :: below ∧ s'.waiting = above ++ below ∧
      offer q = some a ∧ may (above.foldl (Skipped.past p) {}) a = true ∧
      ∀ q ∈ above, offer q = none ∧ passes q = true := by
  obtain ⟨above, q, below, hbefore, hafter, hmore⟩ := takeFirst_splits h
  rw [waiting, waiting, hbefore, hafter]
  exact ⟨waitingIn above, q, waitingIn below, waitingIn_append _ _, waitingIn_append _ _, hmore⟩

/-- What is known of a value that was popped: it was the latest one of its register, and it may be
moved past all entries above it. -/
theorem popRegister_eq_some {barrier : RegisterSet} {effects : Bool}
    (h : s.popRegister p r barrier effects = some (f, s')) :
    ∃ above dst ordered notes existing below,
      s.waiting = above ++ .assign dst f ordered notes existing :: below ∧
      s'.waiting = above ++ below ∧ dst.register = r ∧ Passes p r barrier effects above f := by
  obtain ⟨above, q, below, hbefore, hafter, hq, hmay, habove⟩ := takeFirst_eq_some h
  obtain ⟨dst, ordered, notes, existing, rfl, hr⟩ := valueFor?_eq_some hq
  refine ⟨above, dst, ordered, notes, existing, below, hbefore, hafter, hr, fun q hq => ?_, hmay⟩
  exact (habove q hq).imp_right fun h => by simpa using (Bool.and_eq_true_iff.1 h).2

theorem popTop_eq_some (h : s.popTop r = some (f, s')) :
    ∃ dst ordered notes existing,
      s.waiting = .assign dst f ordered notes existing :: s'.waiting ∧ dst.register = r := by
  obtain ⟨above, q, below, hbefore, hafter, hq, -, habove⟩ := takeFirst_eq_some h
  obtain ⟨dst, ordered, notes, existing, rfl, hr⟩ := valueFor?_eq_some hq
  obtain rfl : above = [] := eq_nil_iff_forall_not_mem.2 fun q hq => by cases (habove q hq).2
  exact ⟨dst, ordered, notes, existing, hafter ▸ hbefore, hr⟩

end

theorem division?_eq_some {q : Pending} {e : ElementId} (h : q.division? = some e) :
    q = .division e := by
  cases q <;> cases h
  rfl

/-- Turning entries into statements puts every value into an assignment. -/
theorem rewriteEntries_owns {E : List Held} {rs : List Root}
    (hwaiting : waitingIn entries = E.map Held.pending) (howns : p.Owns (E.map Held.root ++ rs)) :
    ∃ ns, (rewriteEntries entries p).1 = ns.map Node.id ∧
      (rewriteEntries entries p).2.Owns (ns.map .node ++ rs) ∧ List.Forall₂ Held.Settles E ns := by
  induction entries generalizing E p rs with
  | nil =>
    have hE : E = [] := map_eq_nil_iff.1 hwaiting.symm
    subst hE
    exact ⟨[], rfl, howns, .nil⟩
  | cons entry entries ih =>
    by_cases hactive : entry.active = true
    · rw [waitingIn_cons_active hactive] at hwaiting
      obtain ⟨h, E, rfl, hpending, hrest⟩ := map_eq_cons_iff.1 hwaiting.symm
      -- One entry becomes an element, and the other entries follow it.
      suffices hone : ∃ n, (rewritePending p entry.pending).1 = n.id ∧
          (rewritePending p entry.pending).2.Owns (.node n :: (E.map Held.root ++ rs)) ∧
          h.Settles n by
        obtain ⟨n, hn, hown, hsettles⟩ := hone
        obtain ⟨ns, hns, howns', hall⟩ := ih hrest.symm (hown.perm perm_middle.symm)
        refine ⟨n :: ns, ?_, ?_, .cons hsettles hall⟩
        · rw [rewriteEntries, if_pos hactive, map_cons, ← hn, ← hns]
        · rw [rewriteEntries, if_pos hactive]
          exact howns'.perm perm_middle
      rw [← hpending]
      cases h with
      | value dst t ordered notes =>
        have hvalue : p.Owns ([t].map .tree ++ (E.map Held.root ++ rs)) := howns
        exact ⟨_, rfl, hvalue.addElement rfl, .value dst t ordered notes _⟩
      | statement n ordered => exact ⟨n, rfl, howns, .statement n ordered⟩
      | division n => exact ⟨n, rfl, howns, .division n⟩
    · rw [waitingIn_cons_inactive (by simpa using hactive)] at hwaiting
      rw [rewriteEntries, if_neg hactive]
      exact ih hwaiting howns

end Stack

/-- The stack has some entries waiting, and the pool owns them and some hands. -/
def FoldState.Lists (s : FoldState) (E : List Held) (hs : List Root) : Prop :=
  s.stack.waiting = E.map Held.pending ∧ s.pool.Owns (hs ++ E.map Held.root)

namespace FoldState.Lists

variable {s : FoldState} {E : List Held} {hs : List Root} {hs' : List Root} {f : FormId}
  {element : Element} {ts : List FormTree} {stack : Stack}

theorem owns (h : s.Lists E hs) : s.pool.Owns (hs ++ E.map Held.root) := h.2

/-- A change of the pool that gives other hands. -/
theorem onPool {q : Pool} (h : s.Lists E hs) (howns : q.Owns (hs' ++ E.map Held.root)) :
    { s with pool := q }.Lists E hs' := ⟨h.1, howns⟩

theorem perm (h : s.Lists E hs) (hperm : hs.Perm hs') : s.Lists E hs' :=
  ⟨h.1, h.2.perm (hperm.append_right _)⟩

/-- What is no longer needed can be put down. -/
theorem sublist (h : s.Lists E hs) (hsub : hs'.Sublist hs) : s.Lists E hs' :=
  ⟨h.1, h.2.sublist (hsub.append_right _)⟩

theorem holds (h : s.Lists E hs) {r : Root} (hr : r ∈ hs) : s.pool.HoldsRoot r :=
  h.2.holds r (mem_append_left _ hr)

/-- What waits can be put on the stack. -/
theorem push {held : Held} (h : s.Lists E (held.root :: hs)) :
    { s with stack := s.stack.push held.pending }.Lists (held :: E) hs :=
  ⟨congrArg (held.pending :: ·) h.1, h.2.perm perm_middle.symm⟩

variable {ns : List (Node FormTree)} {n : Node FormTree} {e : ElementId} {r : Register}

theorem openTree (h : s.Lists E (.tree (.mk f ns) :: hs)) :
    s.Lists E (.spareForm f :: (ns.map .node ++ hs)) := by
  refine ⟨h.1, ?_⟩
  rw [cons_append, append_assoc]
  exact Pool.Owns.openTree h.2

theorem openNode (h : s.Lists E (.node n :: hs)) :
    s.Lists E (.spareElement n.id :: (n.kids.map .tree ++ hs)) := by
  refine ⟨h.1, ?_⟩
  rw [cons_append, append_assoc]
  exact Pool.Owns.openNode h.2

theorem addElement (h : s.Lists E (ts.map .tree ++ hs))
    (hchildren : element.children = ts.map FormTree.id) :
    (FoldM.addElement element).Ends s fun e s' => s'.Lists E (.node ⟨e, element, ts⟩ :: hs) := by
  apply h.onPool
  have howns := h.owns
  rw [append_assoc] at howns
  exact howns.addElement hchildren

theorem addForm (h : s.Lists E (ns.map .node ++ hs)) :
    (FoldM.onPool fun p => p.addForm (ns.map Node.id)).Ends s fun f s' =>
      s'.Lists E (.tree (.mk f ns) :: hs) := by
  apply h.onPool
  have howns := h.owns
  rw [append_assoc] at howns
  exact howns.addForm

theorem replace (h : s.Lists E (.spareElement e :: (ts.map .tree ++ hs)))
    (hchildren : element.children = ts.map FormTree.id) :
    { s with pool := s.pool.replace e element }.Lists E (.node ⟨e, element, ts⟩ :: hs) := by
  apply h.onPool
  have howns := h.owns
  rw [cons_append, append_assoc] at howns
  exact howns.replace hchildren

theorem setElements (h : s.Lists E (.spareForm f :: (ns.map .node ++ hs))) :
    { s with pool := s.pool.setElements f (ns.map Node.id) }.Lists E (.tree (.mk f ns) :: hs) := by
  apply h.onPool
  have howns := h.owns
  rw [cons_append, append_assoc] at howns
  exact howns.setElements

/-- Elements can be put in front of those of a form. -/
theorem setElements_append {t : FormTree} (h : s.Lists E (ns.map .node ++ .tree t :: hs)) :
    { s with pool := s.pool.setElements t.id (ns.map Node.id ++ s.pool.elementsOf t.id) }.Lists E
      (.tree (.mk t.id (ns ++ t.nodes)) :: hs) := by
  have htree : s.pool.Holds t := h.holds (mem_append_right _ mem_cons_self)
  rw [htree.elementsOf_eq, ← map_append]
  cases t with
  | mk f nodes =>
    apply setElements
    have hopen := (h.perm perm_middle).openTree
    refine hopen.perm (List.Perm.cons _ ?_)
    rw [map_append, append_assoc, ← append_assoc (nodes.map Root.node)]
    rw [← append_assoc]
    exact perm_append_comm.append_right _

theorem replaceSingle (h : s.Lists E (.tree (.mk f [n]) :: hs))
    (hchildren : element.children = n.element.children) :
    { s with pool := s.pool.replace n.id element }.Lists E
      (.tree (.mk f [⟨n.id, element, n.kids⟩]) :: hs) :=
  h.onPool (Pool.Owns.replaceSingle h.owns hchildren)

/-- An element in a form of its own. -/
theorem addSingle (h : s.Lists E (ts.map .tree ++ hs))
    (hchildren : element.children = ts.map FormTree.id) :
    (FoldM.addSingle element).Ends s fun f s' =>
      ∃ e, s'.Lists E (.tree (.mk f [⟨e, element, ts⟩]) :: hs) := by
  have helem := h.addElement hchildren
  have hnode : (FoldM.addElement element s).2.Lists E
      ([⟨(FoldM.addElement element s).1, element, ts⟩].map .node ++ hs) := helem
  exact ⟨_, hnode.addForm⟩

/-- A form of elements, or of an empty one if there are none. -/
theorem addBody (h : s.Lists E (ns.map .node ++ hs)) :
    (FoldM.onPool fun p => p.addBody (ns.map Node.id)).Ends s fun f s' =>
      ∃ ns', s'.Lists E (.tree (.mk f ns') :: hs) ∧
        (ns' = ns ∨ ns = [] ∧ ∃ e, ns' = [⟨e, .empty, []⟩]) := by
  cases ns with
  | nil =>
    have hnone : s.Lists E (([] : List FormTree).map .tree ++ hs) := h
    obtain ⟨e, hlists⟩ := hnone.addSingle (show Element.empty.children = _ from rfl)
    exact ⟨_, hlists, .inr ⟨rfl, e, rfl⟩⟩
  | cons n ns => exact ⟨n :: ns, h.addForm, .inl rfl⟩

variable (h : s.Lists E hs)
include h

theorem takeStatements : FoldM.takeStatements.Ends s fun es s' =>
      ∃ ns, es = ns.map Node.id ∧ s'.Lists [] (ns.map .node ++ hs) ∧
        List.Forall₂ Held.Settles E.reverse ns := by
  have hwaiting : Stack.waitingIn s.stack.entries.reverse = E.reverse.map Held.pending := by
    rw [Stack.waitingIn_reverse, map_reverse, ← h.1]
    rfl
  have howns : s.pool.Owns (E.reverse.map Held.root ++ hs) := by
    apply h.owns.perm
    rw [map_reverse]
    exact perm_append_comm.trans ((reverse_perm _).symm.append_right _)
  obtain ⟨ns, hns, howns', hsettles⟩ := Stack.rewriteEntries_owns hwaiting howns
  refine ⟨ns, hns, ⟨rfl, ?_⟩, hsettles⟩
  rw [map_nil, append_nil]
  exact howns'

theorem takeForm :
    FoldM.takeForm.Ends s fun f s' =>
      ∃ ns, s'.Lists [] (.tree (.mk f ns) :: hs) ∧
        (List.Forall₂ Held.Settles E.reverse ns ∨ E = [] ∧ ∃ e, ns = [⟨e, .empty, []⟩]) := by
  obtain ⟨ns, hns, hlists, hsettles⟩ := h.takeStatements
  obtain ⟨ns', hlists', hbody⟩ := hlists.addBody
  have hform : FoldM.takeForm s = (FoldM.onPool fun p => p.addBody (FoldM.takeStatements s).1)
      (FoldM.takeStatements s).2 := rfl
  rw [hns] at hform
  rw [FoldM.Ends, hform]
  refine ⟨ns', hlists', ?_⟩
  rcases hbody with rfl | ⟨rfl, e, rfl⟩
  · exact .inl hsettles
  · rw [forall₂_nil_right_iff, reverse_eq_nil_iff] at hsettles
    exact .inr ⟨hsettles, e, rfl⟩

/-- Behind a fresh stack, what waited becomes hands. -/
theorem fresh : { s with stack := .empty }.Lists [] (hs ++ E.map Held.root) := by
  refine ⟨rfl, ?_⟩
  rw [map_nil, append_nil]
  exact h.owns

/-- When the stack comes back, the hands that waited on it do so again. -/
theorem unfresh {s' : FoldState} (h' : s'.Lists [] (hs' ++ E.map Held.root)) :
    { s' with stack := s.stack }.Lists E hs' := by
  refine ⟨h.1, ?_⟩
  have howns := h'.owns
  rw [map_nil, append_nil] at howns
  exact howns

/-- Taking an entry off the stack puts what it stands for into the hands. -/
theorem take {above below : List Pending} {q : Pending} (stack : Stack)
    (hwaiting : s.stack.waiting = above ++ q :: below) (hrest : stack.waiting = above ++ below) :
    ∃ upper held lower, E = upper ++ held :: lower ∧ upper.map Held.pending = above ∧
      held.pending = q ∧ { s with stack }.Lists (upper ++ lower) (held.root :: hs) := by
  have hE := h.1
  rw [hwaiting] at hE
  obtain ⟨upper, E', rfl, hupper, hE'⟩ := map_eq_append_iff.1 hE.symm
  obtain ⟨held, lower, rfl, hheld, hlower⟩ := map_eq_cons_iff.1 hE'
  refine ⟨upper, held, lower, rfl, hupper, hheld, ?_, ?_⟩
  · rw [map_append, hupper, hlower]
    exact hrest
  · apply h.owns.perm
    rw [map_append, map_append, map_cons, ← append_assoc, cons_append, ← append_assoc]
    exact perm_middle

theorem popRegister {barrier : RegisterSet} {effects : Bool}
    (hpop : s.stack.popRegister s.pool r barrier effects = some (f, stack)) :
    ∃ t E', t.id = f ∧ Held.Pops s.pool r barrier effects E t E' ∧
      { s with stack }.Lists E' (.tree t :: hs) := by
  obtain ⟨above, dst, ordered, notes, existing, below, hwaiting, hrest, hr, hpasses⟩ :=
    Stack.popRegister_eq_some hpop
  obtain ⟨upper, held, lower, rfl, rfl, hheld, hlists⟩ := h.take stack hwaiting hrest
  cases held with
  | value dst' t ordered' notes' =>
    cases hheld
    exact ⟨t, upper ++ lower, rfl, ⟨hr, hpasses⟩, hlists⟩
  | statement n ordered' => cases hheld
  | division n => cases hheld

theorem popTop (hpop : s.stack.popTop r = some (f, stack)) :
    ∃ dst t ordered notes below, E = .value dst t ordered notes :: below ∧ t.id = f ∧
      dst.register = r ∧ { s with stack }.Lists below (.tree t :: hs) := by
  obtain ⟨dst, ordered, notes, existing, hwaiting, hr⟩ := Stack.popTop_eq_some hpop
  obtain ⟨upper, held, lower, rfl, hupper, hheld, hlists⟩ :=
    h.take stack (show _ = [] ++ _ from hwaiting) rfl
  rw [map_eq_nil_iff] at hupper
  subst hupper
  cases held with
  | value dst' t ordered' notes' =>
    cases hheld
    exact ⟨dst, t, ordered, notes, lower, rfl, rfl, hr, hlists⟩
  | statement n ordered' => cases hheld
  | division n => cases hheld

theorem popDivision (hpop : s.stack.popDivision s.pool = some (e, stack)) :
    ∃ n E', n.id = e ∧ Held.PopsDivision s.pool E n E' ∧
      { s with stack }.Lists E' (.node n :: hs) := by
  obtain ⟨above, q, below, hwaiting, hrest, hq, hmay, habove⟩ := Stack.takeFirst_eq_some hpop
  obtain rfl := Stack.division?_eq_some hq
  obtain ⟨upper, held, lower, rfl, rfl, hheld, hlists⟩ := h.take stack hwaiting hrest
  cases held with
  | value dst' t ordered' notes' => cases hheld
  | statement n ordered' => cases hheld
  | division n =>
    cases hheld
    refine ⟨n, upper ++ lower, rfl, ⟨fun held hmem => ?_, by simpa using hmay⟩, hlists⟩
    obtain ⟨hnone, hfree⟩ := habove held.pending (mem_map_of_mem hmem)
    refine ⟨fun e he => ?_, by simpa using hfree⟩
    rw [he] at hnone
    cases hnone

end FoldState.Lists

end Decompiler
