import Decompiler.Proofs.Meaning.Pending

/-!
Popping the value of a register from a stack.  The value is used later than it was computed,
behind the entries above it; it is still the value that the register would have held, and nothing
else notices that the assignment is gone.  What forms evaluate to and what statements do is left
open: all that counts is that nothing that is crossed does more than its summary says.
-/

namespace Decompiler

variable {V R : Type*} {q : Pending}

/-- What entries do to a state, which has the registers and a rest, such as the memory: forms have
values and may have effects, and elements that are no values act on the state. -/
structure Actions (V R : Type*) where
  value : FormId → (Register → V) × R → V
  effect : FormId → (Register → V) × R → (Register → V) × R
  act : ElementId → (Register → V) × R → (Register → V) × R

/-- An element changes no more than the registers that it writes, and what these come to depends on
the registers that it reads. -/
structure Actions.Frames (actions : Actions V R) (p : Pool) (e : ElementId) : Prop where
  rest : ∀ σ ρ, (actions.act e (σ, ρ)).2 = ρ
  keeps : ∀ σ ρ, ∀ q ∉ p.elementWrites e, (actions.act e (σ, ρ)).1 q = σ q
  looks : ∀ σ τ ρ, (∀ q ∈ p.elementReadRegisters e, σ q = τ q) →
    ∀ q ∈ p.elementWrites e, (actions.act e (σ, ρ)).1 q = (actions.act e (τ, ρ)).1 q

namespace Pool

/-- An evaluator under which a form depends on the registers that it reads, and on no others. -/
def LooksOnlyAtReads (p : Pool) (eval : FormId → (Register → V) → V) : Prop :=
  ∀ f σ τ, (∀ q ∈ p.formReadRegisters f, σ q = τ q) → eval f σ = eval f τ

end Pool

namespace Pending

def performed (actions : Actions V R) : Pending → (Register → V) × R → (Register → V) × R
  | assign dst source _ _ _, state =>
    (Function.update (actions.effect source state).1 dst.register (actions.value source state),
      (actions.effect source state).2)
  | statement e _, state => actions.act e state
  | division e, state => actions.act e state

/-- An entry does no more than its summary says, if something can be moved across it.  An assigned
value depends on the registers that its form reads and on the rest. -/
def Framed (p : Pool) (actions : Actions V R) : Pending → Prop
  | assign _ source ordered _ _ =>
    (∀ σ τ ρ, (∀ q ∈ p.formReadRegisters source, σ q = τ q) →
      actions.value source (σ, ρ) = actions.value source (τ, ρ)) ∧
    (ordered = false ∨ p.formHasEffect source = false →
      ∀ state, actions.effect source state = state)
  | statement e ordered => ordered = false → actions.Frames p e
  | division e => actions.Frames p e

/-- Whether a value of a register can be moved across an entry that writes the register.  A
division writes two of them. -/
def overwrites (p : Pool) (r : Register) : Pending → Bool
  | assign _ _ _ _ _ => false
  | statement e ordered => !ordered && (p.elementWrites e).contains r
  | division e => (p.elementWrites e).contains r

def isPure (p : Pool) : Pending → Bool
  | assign _ source _ _ _ => !p.formHasEffect source
  | _ => false

/-- Makes the assignment that an entry stands for. -/
def assigned (eval : FormId → (Register → V) → V) : Pending → (Register → V) → Register → V
  | assign dst source _ _ _, σ => Function.update σ dst.register (eval source σ)
  | _, σ => σ

end Pending

namespace Stack

/-- Does what waits on the stack, the oldest first. -/
def perform (actions : Actions V R) (s : Stack) (state : (Register → V) × R) :
    (Register → V) × R := s.waiting.foldr (Pending.performed actions) state

/-- Makes the assignments that wait on the stack, the oldest first. -/
def execute (eval : FormId → (Register → V) → V) (s : Stack) (σ : Register → V) : Register → V :=
  s.waiting.foldr (Pending.assigned eval) σ

variable {p : Pool} {actions : Actions V R} {eval : FormId → (Register → V) → V} {r : Register}
  {barrier : RegisterSet} {effects : Bool} {f : FormId} {above : List Pending}

/-- An entry that is no sequence point and does not assign the register, which neither reads what
is popped nor writes what the popped value reads, can be crossed, and keeps the rest. -/
theorem crosses_of_framed (hframed : q.Framed p actions) (hfree : q.isSequencePoint = false)
    (hother : q.valueFor? r = none) (hover : q.overwrites p r = false)
    (hwrites : ∀ x ∈ p.formReadRegisters f, x ∉ q.writes p) (hreads : r ∉ q.reads p) (ρ : R) :
    (∀ σ, (q.performed actions (σ, ρ)).2 = ρ) ∧
      Crosses r (· ∈ p.formReadRegisters f) fun σ => (q.performed actions (σ, ρ)).1 := by
  have helem : ∀ {e}, actions.Frames p e → r ∉ p.elementWrites e →
      (∀ x ∈ p.formReadRegisters f, x ∉ p.elementWrites e) → r ∉ p.elementReadRegisters e →
      (∀ σ, (actions.act e (σ, ρ)).2 = ρ) ∧
        Crosses r (· ∈ p.formReadRegisters f) fun σ => (actions.act e (σ, ρ)).1 := by
    intro e hframes hr hf hread
    refine ⟨fun σ => hframes.rest σ ρ, fun σ => hframes.keeps σ ρ r hr,
      fun σ x hx => hframes.keeps σ ρ x (hf x hx), fun σ τ hsame x hx => ?_⟩
    by_cases hw : x ∈ p.elementWrites e
    · refine hframes.looks σ τ ρ (fun y hy => hsame y ?_) x hw
      rintro rfl
      exact hread hy
    · rw [hframes.keeps σ ρ x hw, hframes.keeps τ ρ x hw, hsame x hx]
  cases q with
  | assign dst source ordered notes existing =>
    obtain ⟨hvalue, heffect⟩ := hframed
    simp only [Pending.performed, heffect (.inl hfree)]
    refine ⟨fun _ => trivial, .update ?_ ?_ fun σ τ hsame => hvalue σ τ ρ fun x hx => hsame x ?_⟩
    · intro hdst
      simp [Pending.valueFor?, hdst] at hother
    · exact fun hmem => hwrites _ hmem (by simp [Pending.writes])
    · rintro rfl
      exact hreads hx
  | statement e ordered =>
    cases hfree
    exact helem (hframed rfl) (fun hmem => by cases hover.symm.trans hmem) hwrites hreads
  | division e =>
    exact helem hframed (fun hmem => by cases hover.symm.trans hmem) hwrites hreads

/-- Entries that keep the rest change the registers one after the other. -/
theorem foldr_performed {ρ : R} (h : ∀ q ∈ above, ∀ σ, (q.performed actions (σ, ρ)).2 = ρ)
    (σ : Register → V) :
    above.foldr (Pending.performed actions) (σ, ρ) =
      (above.foldr (fun q σ => (q.performed actions (σ, ρ)).1) σ, ρ) := by
  induction above with
  | nil => rfl
  | cons q above ih =>
    rw [List.foldr_cons, ih fun q hq => h q (List.mem_cons_of_mem _ hq)]
    exact Prod.ext rfl (h q List.mem_cons_self _)

/-- A value that is popped is what its register would have held behind all entries.  If it has no
effect of its own, what is left of the entries leaves all else as they would have. -/
theorem popRegister_perform {s s' : Stack} (hframed : ∀ q ∈ s.waiting, q.Framed p actions)
    (hover : ∀ q ∈ s.waiting, q.overwrites p r = false)
    (hpop : s.popRegister p r barrier effects = some (f, s')) (state : (Register → V) × R) :
    actions.value f (s'.perform actions state) = (s.perform actions state).1 r ∧
      ((∀ state, actions.effect f state = state) →
        (s'.perform actions state).2 = (s.perform actions state).2 ∧
        ∀ q ≠ r, (s'.perform actions state).1 q = (s.perform actions state).1 q) := by
  obtain ⟨above, dst, ordered, notes, existing, below, hwaiting, hrest, hdst, hpasses⟩ :=
    popRegister_eq_some hpop
  rw [hwaiting] at hframed hover
  -- The entries above the value are crossed one by one, and so all together.
  have hcross (ρ : R) : (∀ q ∈ above, ∀ σ, (q.performed actions (σ, ρ)).2 = ρ) ∧
      Crosses r (· ∈ p.formReadRegisters f)
        fun σ => above.foldr (fun q σ => (q.performed actions (σ, ρ)).1) σ := by
    have hone (q) (hq : q ∈ above) := crosses_of_framed (hframed q (List.mem_append_left _ hq))
      (hpasses.clear q hq).2 (hpasses.clear q hq).1 (hover q (List.mem_append_left _ hq))
      (hpasses.apart hq).2 (hpasses.apart hq).1 ρ
    exact ⟨fun q hq => (hone q hq).1, .foldr fun q hq => (hone q hq).2⟩
  have hvalue : Pending.Framed p actions (.assign dst f ordered notes existing) :=
    hframed _ (List.mem_append_right _ List.mem_cons_self)
  rw [perform, perform, hwaiting, hrest, List.foldr_append, List.foldr_append, List.foldr_cons,
    Pending.performed, hdst]
  generalize below.foldr (Pending.performed actions) state = before
  rw [foldr_performed (hcross _).1, foldr_performed (hcross _).1]
  obtain ⟨hothers, hsame, -⟩ := (hcross before.2).2.moved before.1 (actions.value f before)
  constructor
  · have hheld := ((hcross (actions.effect f before).2).2.keeps _).trans
      (Function.update_self r (actions.value f before) (actions.effect f before).1)
    exact (hvalue.1 _ _ _ hsame).trans hheld.symm
  · intro heffect
    rw [heffect]
    exact ⟨rfl, hothers⟩

/-- Of assignments without effects. -/
theorem popRegister_execute {s s' : Stack} (hpure : ∀ q ∈ s.waiting, q.isPure p = true)
    (hlocal : p.LooksOnlyAtReads eval)
    (hpop : s.popRegister p r barrier effects = some (f, s')) (σ : Register → V) :
    eval f (s'.execute eval σ) = s.execute eval σ r ∧
      ∀ q ≠ r, s'.execute eval σ q = s.execute eval σ q := by
  let actions : Actions V Unit := ⟨fun f state => eval f state.1, fun _ => id, fun _ => id⟩
  have hexecute (s : Stack) : (s.perform actions (σ, ())).1 = s.execute eval σ :=
    (List.foldr_hom Prod.fst fun q state => by cases q <;> rfl).symm
  have hframed : ∀ q ∈ s.waiting, q.Framed p actions ∧ q.overwrites p r = false := by
    intro q hq
    have hone := hpure q hq
    cases q with
    | assign dst source ordered notes existing =>
      exact ⟨⟨fun σ τ _ => hlocal source σ τ, fun _ _ => rfl⟩, rfl⟩
    | statement e ordered => cases hone
    | division e => cases hone
  obtain ⟨hvalue, hothers⟩ := popRegister_perform (fun q hq => (hframed q hq).1)
    (fun q hq => (hframed q hq).2) hpop (σ, ())
  rw [← hexecute, ← hexecute]
  exact ⟨hvalue, (hothers fun _ => rfl).2⟩

/-- The value that is popped for a register is the one that the register would have held when
all assignments had been made, also behind those that are still made; and every other register
ends as it would have. -/
theorem popRegister_keeps_meaning {s s' : Stack}
    (hpure : ∀ q ∈ s.waiting, q.isPure p = true) (hlocal : p.LooksOnlyAtReads eval)
    (hpop : s.popRegister p r barrier effects = some (f, s')) (σ : Register → V) :
    eval f (s'.execute eval σ) = s.execute eval σ r ∧
      ∀ q ≠ r, s'.execute eval σ q = s.execute eval σ q :=
  popRegister_execute hpure hlocal hpop σ

/-- The forms of a register plus one, of a constant and of another register. -/
def incrementPool : Pool :=
  let p := (Pool.empty.addSingle (.atom (.var (.read ⟨8⟩ 0)))).2
  let p := (p.addSingle (.atom (.int 1))).2
  let p := (p.addSingle (.apply (.builtin .add) [⟨0⟩, ⟨1⟩])).2
  let p := (p.addSingle (.atom (.int 7))).2
  (p.addSingle (.atom (.var (.read ⟨5⟩ 2)))).2

def incrementValue : FormId → Registers → Word
  | ⟨0⟩, σ => σ ⟨8⟩
  | ⟨1⟩, _ => 1
  | ⟨2⟩, σ => σ ⟨8⟩ + 1
  | ⟨3⟩, _ => 7
  | ⟨4⟩, σ => σ ⟨5⟩
  | _, _ => 0

/-- A register that is raised by one, below an assignment that was popped before and one that
still waits. -/
def pendingIncrement (popped : Bool) : Stack :=
  ⟨[⟨.assign (.write ⟨3⟩ 2) ⟨4⟩ false {} none, true⟩,
    ⟨.assign (.write ⟨9⟩ 1) ⟨3⟩ false {} none, false⟩,
    ⟨.assign (.write ⟨8⟩ 0) ⟨2⟩ false {} none, !popped⟩]⟩

theorem incrementValue_looksOnlyAtReads : incrementPool.LooksOnlyAtReads incrementValue := by
  intro f σ τ hsame
  unfold incrementValue
  split
  · exact hsame ⟨8⟩ (by decide)
  · rfl
  · rw [hsame ⟨8⟩ (by decide)]
  · rfl
  · exact hsame ⟨5⟩ (by decide)
  · rfl

theorem pendingIncrement_keeps_meaning :
    (∀ q ∈ (pendingIncrement false).waiting, q.isPure incrementPool = true) ∧
      (pendingIncrement false).popRegister incrementPool ⟨8⟩ ∅ true =
        some (⟨2⟩, pendingIncrement true) ∧
      ∀ σ : Registers,
        incrementValue ⟨2⟩ ((pendingIncrement true).execute incrementValue σ) =
          (pendingIncrement false).execute incrementValue σ ⟨8⟩ ∧
        ∀ q ≠ ⟨8⟩, (pendingIncrement true).execute incrementValue σ q =
          (pendingIncrement false).execute incrementValue σ q := by
  have hpure : ∀ q ∈ (pendingIncrement false).waiting, q.isPure incrementPool = true := by decide
  have hpop : (pendingIncrement false).popRegister incrementPool ⟨8⟩ ∅ true =
      some (⟨2⟩, pendingIncrement true) := by decide
  exact ⟨hpure, hpop, popRegister_keeps_meaning hpure incrementValue_looksOnlyAtReads hpop⟩

end Stack

end Decompiler
