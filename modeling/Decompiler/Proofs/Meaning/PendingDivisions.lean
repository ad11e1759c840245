import Decompiler.Proofs.Meaning.Division
import Decompiler.Proofs.Meaning.Preservation

/-!
What the entries of the stack still have to do when divisions are among them.  A division waits
for one of its results to be read.  Values can be popped from below it, but none that reads a
result, and so taking the division away changes nothing but the two results.
-/

namespace Decompiler

open List RegisterSet

variable {p : Pool} {n : Node FormTree} {r : Register} {E E' : List Held} {effects : Bool}

/-- Two states of the registers that may differ in the results of a division. -/
def SameGeneral (σ τ : Registers) : Prop := ∀ q, q ≠ .hi → q ≠ .lo → σ q = τ q

/-- A tree whose word does not depend on the results of a division. -/
def FormTree.IgnoresResults (t : FormTree) : Prop :=
  ∀ (ev : Evaluator) {σ τ : Registers}, SameGeneral σ τ → t.wordBy ev σ = t.wordBy ev τ

theorem FormTree.ignoresResults_of_unread {t : FormTree} (hhi : .hi ∉ t.reads)
    (hlo : .lo ∉ t.reads) : t.IgnoresResults := by
  intro ev σ τ hsame
  exact wordBy_congr fun q hq => hsame q (fun h => hhi (h ▸ hq)) fun h => hlo (h ▸ hq)

namespace Held

/-- An entry that assigns a word to a general register, or a division of words that is signed as
it is said to be. -/
inductive IsArithmetic (env : TypeEnv) (signed : ElementId → Bool) (p : Pool) : Held → Prop
  | value {dst : Variable} {t : FormTree} {ordered : Bool} {notes : SetNotes}
      (hdst : dst.register.isPlain = true) (ht : p.HasWord env t.id) :
      IsArithmetic env signed p (.value dst t ordered notes)
  | division {e : ElementId} {a b : FormTree} {site : Nat} (ha : p.HasWord env a.id)
      (hb : p.HasWord env b.id) :
      IsArithmetic env signed p (.division ⟨e, .divide a.id b.id (signed e) site, [a, b]⟩)

variable {ev : Evaluator} {σ : Registers} {env : TypeEnv} {signed : ElementId → Bool} {q : Pool}
  {held : Held}

/-- An entry stays what it is in every pool that holds it. -/
theorem IsArithmetic.of_holds (h : held.IsArithmetic env signed p) (hp : p.HoldsRoot held.root)
    (hq : q.HoldsRoot held.root) : held.IsArithmetic env signed q := by
  cases h with
  | value hdst ht => exact .value hdst (ht.of_holds hp hq)
  | @division e a b site ha hb =>
    have hp' : p.HoldsNode _ := hp
    have hq' : q.HoldsNode _ := hq
    exact .division (ha.of_holds (hp'.below a (by simp)) (hq'.below a (by simp)))
      (hb.of_holds (hp'.below b (by simp)) (hq'.below b (by simp)))

theorem keepResults_of_isArithmetic (hE : ∀ held ∈ E, held.IsArithmetic env signed p) :
    KeepResults E := by
  intro dst t ordered notes n hvalue _
  obtain ⟨hplain, -⟩ := hE _ hvalue
  exact Register.ne_results_of_isPlain hplain

/-- There is a division, and the values above the latest one do not depend on results. -/
inductive Shielded : List Held → Prop
  | division {n : Node FormTree} {E : List Held} : Shielded (.division n :: E)
  | value {dst : Variable} {t : FormTree} {ordered : Bool} {notes : SetNotes} {E : List Held}
      (ht : t.IgnoresResults) (hE : Shielded E) : Shielded (.value dst t ordered notes :: E)

namespace Shielded

/-- Values that can be popped do not depend on results, from wherever they are taken. -/
theorem pops {r : Register} {barrier : RegisterSet} {t : FormTree} (h : Shielded E)
    (hpops : Pops p r barrier effects E t E') (howns : p.Owns (E.map Held.root))
    (hE : ∀ held ∈ E, held.IsArithmetic env signed p) : t.IgnoresResults ∧ Shielded E' := by
  cases hpops with
  | @intro above below dst t ordered notes hdst hpasses =>
    have hbelow : ∀ n, .division n ∈ above → t.IgnoresResults := by
      intro n hn
      cases hE _ (mem_append_left _ hn) with
      | division ha hb =>
        have hunread := Pops.unread_results howns hpasses hn
        exact FormTree.ignoresResults_of_unread (fun hhi => (hunread _ hhi).1 rfl)
          fun hlo => (hunread _ hlo).2 rfl
    clear hpasses howns hE
    induction above with
    | nil =>
      cases h with
      | value ht hrest => exact ⟨ht, hrest⟩
    | cons held above ih =>
      cases h with
      | division => exact ⟨hbelow _ mem_cons_self, .division⟩
      | value hu hrest =>
        obtain ⟨ht, hrest'⟩ := ih hrest fun n hn => hbelow n (mem_cons_of_mem _ hn)
        exact ⟨ht, .value hu hrest'⟩

theorem operandPops {atoms as : List Atom} {consumed : RegisterSet} {os : List (Option FormTree)}
    (h : Shielded E) (hpops : Context.OperandPops p atoms consumed effects as E os E')
    (howns : p.Owns (E.map Held.root)) (hE : ∀ held ∈ E, held.IsArithmetic env signed p) :
    (∀ t, some t ∈ os → t.IgnoresResults) ∧ Shielded E' := by
  induction hpops with
  | nil => exact ⟨by simp, h⟩
  | cons hrest hpop ih =>
    obtain ⟨hos, hshielded⟩ := ih h howns hE
    cases hpop with
    | kept => exact ⟨fun t ht => hos t (by simpa using ht), hshielded⟩
    | popped hreg hconsumed honce hpops =>
      obtain ⟨hfirst, hshielded'⟩ := hshielded.pops hpops
        (howns.sublist (hrest.sublist.map Held.root))
        fun held hheld => hE held (hrest.sublist.subset hheld)
      refine ⟨fun t ht => ?_, hshielded'⟩
      rcases mem_cons.1 ht with heq | ht
      · cases heq
        exact hfirst
      · exact hos t ht

/-- What stands above the latest division. -/
theorem above {above below : List Held} (h : Shielded (above ++ below))
    (hnone : ∀ held ∈ above, ∀ e, held.pending ≠ .division e) :
    ∀ held ∈ above, ∃ dst t ordered notes, held = .value dst t ordered notes ∧
      t.IgnoresResults := by
  induction above with
  | nil => simp
  | cons held above ih =>
    cases h with
    | division => exact absurd rfl (hnone _ mem_cons_self _)
    | value ht hrest =>
      refine forall_mem_cons.2 ⟨⟨_, _, _, _, rfl, ht⟩, ih hrest fun held hheld => ?_⟩
      exact hnone held (mem_cons_of_mem _ hheld)

end Shielded

/-- Values that do not depend on results are run alike whatever the results are. -/
theorem foldr_perform_same {above : List Held}
    (h : ∀ held ∈ above, ∃ dst t ordered notes, held = .value dst t ordered notes ∧
      t.IgnoresResults) {τ : Registers} (hsame : SameGeneral σ τ) :
    SameGeneral (above.foldr (perform ev) σ) (above.foldr (perform ev) τ) := by
  induction above with
  | nil => exact hsame
  | cons held above ih =>
    obtain ⟨⟨dst, t, ordered, notes, rfl, ht⟩, habove⟩ := forall_mem_cons.1 h
    have hrest := ih habove
    intro q hhi hlo
    simp only [foldr_cons, perform]
    rw [ht ev hrest, Function.update_apply, Function.update_apply, hrest q hhi hlo]

/-- Values leave the registers alone that they are not for. -/
theorem foldr_perform_of_ne {above : List Held} {q : Register}
    (h : ∀ held ∈ above, ∃ dst t ordered notes, held = .value dst t ordered notes ∧
      q ≠ dst.register) (σ : Registers) : above.foldr (perform ev) σ q = σ q := by
  induction above with
  | nil => rfl
  | cons held above ih =>
    obtain ⟨⟨dst, t, ordered, notes, rfl, hne⟩, habove⟩ := forall_mem_cons.1 h
    simp only [foldr_cons, perform]
    rw [Function.update_of_ne hne, ih habove]

theorem PopsDivision.mem (h : PopsDivision p E n E') : .division n ∈ E := by
  cases h
  simp

theorem PopsDivision.sublist (h : PopsDivision p E n E') : E'.Sublist E := by
  cases h
  exact (sublist_cons_self ..).append_left _

/-- Taking the latest division away changes only the two results, and these can be computed from
the operands where they are then. -/
theorem PopsDivision.performAll_eq {e : ElementId} {a b : FormTree} {isSigned : Bool} {site : Nat}
    (h : PopsDivision p E ⟨e, .divide a.id b.id isSigned site, [a, b]⟩ E')
    (howns : p.Owns (E.map Held.root)) (hE : ∀ held ∈ E, held.IsArithmetic env signed p)
    (hshielded : Shielded E) (ev : Evaluator) (σ : Registers) :
    SameGeneral (performAll ev σ E') (performAll ev σ E) ∧
      performAll ev σ E .lo = ev.division.quotient isSigned (a.wordBy ev (performAll ev σ E'))
        (b.wordBy ev (performAll ev σ E')) ∧
      performAll ev σ E .hi = ev.division.remainder isSigned (a.wordBy ev (performAll ev σ E'))
        (b.wordBy ev (performAll ev σ E')) := by
  cases h with
  | @intro above below _ habove hreads =>
    have hvalues := hshielded.above fun held hheld => (habove held hheld).1
    obtain ⟨hnode, hnodup⟩ := howns.node_of_mem
      (mem_map.2 ⟨_, mem_append_right _ mem_cons_self, rfl⟩)
    have hresult : ∀ q, (q = .hi ∨ q = .lo) → ∀ held ∈ above, ∃ dst t ordered notes,
        held = .value dst t ordered notes ∧ q ≠ dst.register := by
      intro q hq held hheld
      obtain ⟨dst, t, ordered, notes, rfl, -⟩ := hvalues held hheld
      obtain ⟨hplain, -⟩ := hE _ (mem_append_left _ hheld)
      obtain ⟨hhi, hlo⟩ := Register.ne_results_of_isPlain hplain
      refine ⟨dst, t, ordered, notes, rfl, ?_⟩
      rcases hq with rfl | rfl
      · exact hhi.symm
      · exact hlo.symm
    have hoperand : ∀ u ∈ [a, b], ∀ ρ : Registers,
        u.wordBy ev (above.foldr (perform ev) ρ) = u.wordBy ev ρ := by
      intro u hu ρ
      refine FormTree.wordBy_congr fun q hq => foldr_perform_of_ne (fun held hheld => ?_) ρ
      obtain ⟨dst, t, ordered, notes, rfl, -⟩ := hvalues held hheld
      refine ⟨dst, t, ordered, notes, rfl, ?_⟩
      rintro rfl
      refine Stack.not_intersects hreads (hnode.mem_elementReadRegisters hnodup hu hq) ?_
      refine Stack.Skipped.mem_writes.2 (.inr ⟨_, mem_map_of_mem hheld, ?_⟩)
      exact mem_union.2 (.inl (mem_single.2 rfl))
    rw [performAll_append, performAll_append, performAll_cons, perform,
      foldr_perform_of_ne (hresult .lo (.inr rfl)), foldr_perform_of_ne (hresult .hi (.inl rfl)),
      hoperand a (by simp), hoperand b (by simp)]
    refine ⟨foldr_perform_same hvalues fun q hhi hlo => ?_, Division.perform_lo,
      Division.perform_hi⟩
    exact (Division.perform_of_ne hhi hlo).symm

/-- The statement that an entry becomes does what the entry has to do. -/
theorem Settles.perform_eq (h : held.Settles n) (hheld : held.IsArithmetic env signed q)
    (hn : p.HoldsNode n) (σ : Registers) : p.perform ev σ n.id = some (held.perform ev σ) := by
  rw [Pool.perform, hn.element_eq]
  cases h with
  | value dst t ordered notes e =>
    dsimp only
    rw [(hn.below t (by simp)).wordBy_eq]
    rfl
  | statement n ordered => cases hheld
  | division n =>
    cases hheld with
    | @division e a b site ha hb =>
      dsimp only
      rw [(hn.below a (by simp)).wordBy_eq, (hn.below b (by simp)).wordBy_eq]
      rfl

end Held

/-- Running the statements of the stack does what its entries have to do. -/
theorem FoldState.Lists.performAll_eq {s : FoldState} {E : List Held} {env : TypeEnv}
    {signed : ElementId → Bool} (h : s.Lists E [])
    (hE : ∀ held ∈ E, held.IsArithmetic env signed s.pool) (ev : Evaluator) (σ : Registers) :
    (s.stack.rewrite s.pool).2.performAll ev σ (s.stack.rewrite s.pool).1 =
      some (Held.performAll ev σ E) :=
  h.foldlM_rewrite (fun held hheld _ hsettles howns =>
    hsettles.perform_eq (hE held hheld) (howns.holds _ mem_cons_self)) σ

end Decompiler
