import Decompiler.Proofs.Flow.Machine
import Decompiler.Proofs.Structure.Deposits

/-!
The blocks of a routine and the trees of a pool as machines.  Control goes from block to
block as their last instructions say.  A tree runs its forms in order, and only the tests
of its control structures execute branches, so what has no control structures runs
silently.
-/

namespace Decompiler

/-- Runs blocks until control reaches a given one. -/
def Routine.flow (r : Routine) (stop : BlockId) : Machine BlockId := fun id =>
  if id = stop then .finish
  else
    match r.terminator id with
    | .error _ => .stuck
    | .ok none => .go (id + 1)
    | .ok (some (site, branch)) =>
      if branch.isJump then .go branch.target
      else .branch site fun taken => if taken then branch.target else id + 1

inductive Task
  | form (f : FormId)
  | element (e : ElementId)
  /-- Runs a form that ends in a condition, and then one of two lists of tasks. -/
  | test (f : FormId) (yes no : List Task)
  /-- Executes the branch of a condition. -/
  | ask (site : Nat) (flipped : Bool) (yes no : List Task)

namespace Task

/-- Tries arms in order, and does something else when no test holds. -/
def arms (other : List Task) : List (FormId × FormId) → List Task
  | [] => other
  | (condition, body) :: rest => [test condition [form body] (arms other rest)]

/-- Tries the entries of a chain up to the first one that decides it. -/
def entries (kind : ChainKind) : List FormId → List Task
  | [] => []
  | [last] => [form last]
  | condition :: rest =>
    match kind with
    | .conjunction => [test condition (entries kind rest) []]
    | .disjunction => [test condition [] (entries kind rest)]

theorem entries_conjunction (condition last : FormId) (rest : List FormId) :
    entries .conjunction (condition :: (rest ++ [last])) =
      [test condition (entries .conjunction (rest ++ [last])) []] := by
  cases rest <;> rfl

theorem entries_disjunction (condition last : FormId) (rest : List FormId) :
    entries .disjunction (condition :: (rest ++ [last])) =
      [test condition [] (entries .disjunction (rest ++ [last]))] := by
  cases rest <;> rfl

end Task

/-- How an element is run.  There is no rule for branches that were left as they are and for
jumps out. -/
def Element.tasks? (e : ElementId) : Element → Option (List Task)
  | .loop .whileTrue test body _ => some [.test test [.form body, .element e] []]
  | .loop .untilTrue test body _ => some [.form body, .test test [] [.element e]]
  | .condElse arms alt _ =>
    some (Task.arms [.form alt] (arms.map fun arm => (arm.condition, arm.body)))
  | .cond arms _ _ _ => some (Task.arms [] (arms.map fun arm => (arm.condition, arm.body)))
  | .chain kind entries _ _ _ => some (Task.entries kind (entries.map ChainEntry.condition))
  | .branch _ _ | .exit _ _ _ _ => none
  | element => some (element.children.map .form)

namespace Pool

/-- How a test is run: what its form computes, the operands of the condition at the end, and
the branch. -/
def testTasks? (p : Pool) (f : FormId) (yes no : List Task) : Option (List Task) :=
  match (p.elementsOf f).getLast?.map p.element with
  | some (.condition _ args _ flipped site) =>
    some ((p.elementsOf f).dropLast.map .element ++ args.map .form ++ [.ask site flipped yes no])
  | _ => none

/-- Runs tasks one after another.  A test holds if its branch is taken, or if it is not and
the condition is flipped. -/
def walk (p : Pool) : Machine (List Task)
  | [] => .finish
  | .form f :: rest => .go ((p.elementsOf f).map .element ++ rest)
  | .element e :: rest =>
    match (p.element e).tasks? e with
    | some tasks => .go (tasks ++ rest)
    | none => .stuck
  | .test f yes no :: rest =>
    match p.testTasks? f yes no with
    | some tasks => .go (tasks ++ rest)
    | none => .stuck
  | .ask site flipped yes no :: rest =>
    .branch site fun taken => (if taken != flipped then yes else no) ++ rest

end Pool

namespace Mark

/-- Marks of elements that are neither control structures nor branches. -/
def isEffect : Mark → Bool
  | call | store | operation _ => true
  | branch _ | control | rewritten => false

/-- Marks of all elements but branches and control structures that were turned into values. -/
def isStructured : Mark → Bool
  | branch _ | rewritten => false
  | call | store | operation _ | control => true

end Mark

def Quiet (A : Multiset Mark) : Prop := ∀ m ∈ A, m.isEffect = true

def Structured (A : Multiset Mark) : Prop := ∀ m ∈ A, m.isStructured = true

theorem quiet_zero : Quiet 0 := fun m hm => absurd hm (Multiset.notMem_zero m)

variable {A B : Multiset Mark}

theorem quiet_add : Quiet (A + B) ↔ Quiet A ∧ Quiet B := by
  simp only [Quiet, Multiset.mem_add, or_imp, forall_and]

theorem structured_add : Structured (A + B) ↔ Structured A ∧ Structured B := by
  simp only [Structured, Multiset.mem_add, or_imp, forall_and]

theorem mem_sum_map {α : Type} {marks : α → Multiset Mark} {as : List α} {m : Mark} :
    m ∈ (as.map marks).sum ↔ ∃ a ∈ as, m ∈ marks a := by
  induction as with
  | nil => simp
  | cons a as ih => rw [List.map_cons, List.sum_cons, Multiset.mem_add, ih, List.exists_mem_cons_iff]

theorem Quiet.of_mem {α : Type} {marks : α → Multiset Mark} {as : List α} {a : α}
    (h : Quiet (as.map marks).sum) (ha : a ∈ as) : Quiet (marks a) :=
  fun m hm => h m (mem_sum_map.2 ⟨a, ha, hm⟩)

theorem Structured.of_mem {α : Type} {marks : α → Multiset Mark} {as : List α} {a : α}
    (h : Structured (as.map marks).sum) (ha : a ∈ as) : Structured (marks a) :=
  fun m hm => h m (mem_sum_map.2 ⟨a, ha, hm⟩)

namespace Pool

variable {p : Pool} {oracle : Nat → Bool} {trace : List Nat}

/-- A task that executes no branches. -/
def RunsSilently (p : Pool) (oracle : Nat → Bool) (task : Task) : Prop :=
  ∀ rest trace, p.walk.Leads oracle (task :: rest, trace) (rest, trace)

variable {rest tasks : List Task} {e : ElementId} {n : Node FormTree}

theorem leads_of_silent (h : ∀ task ∈ tasks, p.RunsSilently oracle task) :
    p.walk.Leads oracle (tasks ++ rest, trace) (rest, trace) := by
  induction tasks with
  | nil => exact .refl _
  | cons task tasks ih =>
    have hfirst := h task List.mem_cons_self (tasks ++ rest) trace
    exact hfirst.trans (ih fun other hother => h other (List.mem_cons_of_mem _ hother))

theorem tasks?_of_quiet {element : Element} (h : Quiet element.marks) :
    element.tasks? e = some (element.children.map .form) := by
  cases element with
  | branch => exact absurd (h _ (Multiset.mem_singleton_self _)) Bool.false_ne_true
  | loop => exact absurd (h _ (Multiset.mem_singleton_self _)) Bool.false_ne_true
  | exit => exact absurd (h _ (Multiset.mem_singleton_self _)) Bool.false_ne_true
  | condElse _ _ rewritten | cond _ _ _ rewritten | chain _ _ _ _ rewritten =>
    have hmark := h _ (Multiset.mem_singleton_self _)
    cases rewritten <;> cases hmark
  | _ => rfl

theorem leads_element (h : (p.element e).tasks? e = some tasks) :
    p.walk.Leads oracle (.element e :: rest, trace) (tasks ++ rest, trace) := by
  apply Machine.Leads.go
  rw [walk, h]

/-- An element without control structures runs silently if the forms below it do. -/
theorem HoldsNode.runsSilently_of_kids (h : p.HoldsNode n) (hquiet : Quiet n.marks)
    (hkids : ∀ t ∈ n.kids, p.RunsSilently oracle (.form t.id)) :
    p.RunsSilently oracle (.element n.id) := by
  intro rest trace
  have htasks : (p.element n.id).tasks? n.id = some (n.kids.map fun t => .form t.id) := by
    rw [h.element_eq, tasks?_of_quiet (quiet_add.1 hquiet).1, h.kids, List.map_map]
    rfl
  refine (leads_element htasks).trans (leads_of_silent fun task htask => ?_)
  obtain ⟨t, ht, rfl⟩ := List.mem_map.1 htask
  exact hkids t ht

/-- A form without control structures runs silently. -/
theorem Holds.runsSilently {t : FormTree} (h : p.Holds t) (hquiet : Quiet t.marks) :
    p.RunsSilently oracle (.form t.id) := by
  induction t using FormTree.induct with
  | h f nodes ih =>
    intro rest trace
    have hform : p.walk (.form f :: rest) =
        .go ((nodes.map fun n => Task.element n.id) ++ rest) := by
      rw [walk, show f = (FormTree.mk f nodes).id from rfl, h.elementsOf_eq, List.map_map]
      rfl
    refine (Machine.Leads.go hform).trans (leads_of_silent fun task htask => ?_)
    obtain ⟨n, hn, rfl⟩ := List.mem_map.1 htask
    have hnode := h.node n hn
    rw [FormTree.marks_mk] at hquiet
    have hnodeQuiet : Quiet n.marks := hquiet.of_mem hn
    refine hnode.runsSilently_of_kids hnodeQuiet fun t ht => ?_
    exact ih n hn t ht (hnode.below t ht) ((quiet_add.1 hnodeQuiet).2.of_mem ht)

theorem HoldsNode.runsSilently (h : p.HoldsNode n) (hquiet : Quiet n.marks) :
    p.RunsSilently oracle (.element n.id) :=
  h.runsSilently_of_kids hquiet fun t ht =>
    (h.below t ht).runsSilently ((quiet_add.1 hquiet).2.of_mem ht)

end Pool

end Decompiler
