import Decompiler.Proofs.Meaning.PendingDivisions

/-!
The words of what is folded when divisions are on the stack.  A division waits with its operands,
and a result that is read is computed from the operands of the division that was popped for it.
-/

namespace Decompiler

open FoldM List

variable {E : List Held} {hs : List Root} {s : FoldState} {p : Pool} {atoms : List Atom}
  {os : List (Option FormTree)} {signed : ElementId → Bool}

/-- A quotient or a remainder of words is a word. -/
theorem Pool.HasWord.of_quotient {env : TypeEnv} {e : ElementId} {b : Builtin}
    {f : FormId} {ts : List FormTree} (hb : b = .mod ∨ b = .div)
    (h : p.Holds (.mk f [⟨e, .apply (.builtin b) (ts.map FormTree.id), ts⟩]))
    (hts : ∀ t ∈ ts, p.HasWord env t.id) : p.HasWord env f := by
  have hgrounded : p.Grounded f := .of_holds h
  refine ⟨hgrounded, ?_⟩
  rw [TypeEnv.formType_apply hgrounded h.single?_element]
  have hresult : b.resultType = fun types => types.findSome? id := by
    rcases hb with rfl | rfl <;> rfl
  rw [hresult]
  intro hfloat
  obtain ⟨type, htype, hfloat⟩ := exists_of_findSome?_eq_some hfloat
  obtain ⟨g, hg, rfl⟩ := mem_map.1 htype
  obtain ⟨t, ht, rfl⟩ := mem_map.1 hg
  exact (hts t ht).type_ne hfloat

/-- The tree that a result of a division is read as, and the entries that are left.  It is the
register itself, or it is computed from the operands of a division that was popped for it. -/
inductive Held.ReadsResult (signed : ElementId → Bool) (p : Pool) (v : Variable) (E : List Held) :
    FormTree → List Held → Prop
  | register {t : FormTree} (hvalue : ∀ ev σ, t.wordBy ev σ = σ v.register) :
      ReadsResult signed p v E t E
  | divided {t a b : FormTree} {e : ElementId} {site : Nat} {E' : List Held}
      (hpops : PopsDivision p E ⟨e, .divide a.id b.id (signed e) site, [a, b]⟩ E')
      (hvalue : ∀ ev σ, t.wordBy ev σ =
        (if v.register == .hi then ev.division.remainder else ev.division.quotient)
          (ev.signed e) (a.wordBy ev σ) (b.wordBy ev σ)) :
      ReadsResult signed p v E t E'

theorem Held.ReadsResult.sublist {signed : ElementId → Bool} {p : Pool} {v : Variable}
    {E' : List Held} {t : FormTree} (h : ReadsResult signed p v E t E') : E'.Sublist E := by
  cases h with
  | register => exact .refl E
  | divided hpops => exact hpops.sublist

theorem Held.coversEntries_of_isArithmetic {env : TypeEnv}
    (hE : ∀ held ∈ E, held.IsArithmetic env signed p) :
    (WordKind.words env).CoversEntries p E := by
  intro dst t ordered notes hheld
  obtain ⟨-, ht⟩ := hE _ hheld
  exact ht

namespace Context

variable {cx : Context} {site : Nat} {isSigned : Bool} {v : Variable}

/-- A division waits on the stack with its operands. -/
theorem pushDivide_wordBy {a b : Atom} (hdivision : cx.config.allows .division = true)
    (hatoms : ∀ c ∈ [a, b], c.IsIntegral cx.env) (h : s.Lists E hs)
    (hE : ∀ held ∈ E, held.IsArithmetic cx.env signed s.pool) :
    (cx.pushDivide site a b isSigned).Ends s fun _ s' => ∃ os E' t u e,
      cx.Popped site [a, b] s E os E' ∧
      s'.Lists (.division ⟨e, .divide t.id u.id isSigned site, [t, u]⟩ :: E') hs ∧
      s'.pool.HasWord cx.env t.id ∧ s'.pool.HasWord cx.env u.id ∧
      s.pool.elements.size ≤ e.index ∧ e.index < s'.pool.elements.size ∧
      ∀ ev σ, ([a, b].zip os).map (operandWord ev σ) = [t.wordBy ev σ, u.wordBy ev σ] := by
  rw [pushDivide, operands]
  simp only [ends_bind, ends_pure]
  refine (operandsMarked_wordBy (K := .words cx.env) (fun c hc => (hatoms c hc).1)
    (fun c hc => (hatoms c hc).atomType_ne) h (Held.coversEntries_of_isArithmetic hE)).mono ?_
  rintro out s' ⟨os, E', ts, hpopped, hforms, hlists, hext, hwords, hvalues⟩
  have hlength : ts.length = 2 := by
    simpa [← hpopped.pops.length_eq] using congrArg length (hvalues ⟨fun _ => 0, .truncating,
      fun _ => true⟩ fun _ => 0)
  obtain ⟨t, u, rfl⟩ := length_eq_two.1 hlength
  rw [hforms]
  have hgrown := s'.pool.extends_addElement (.divide t.id u.id isSigned site)
  have hnode : (FoldM.addElement (.divide t.id u.id isSigned site)).Ends s' fun e s'' =>
      s''.Lists E' ((Held.division ⟨e, .divide t.id u.id isSigned site, [t, u]⟩).root :: hs) :=
    hlists.addElement rfl
  rw [FoldM.addElement, ends_onPool, ends_onStack, if_pos hdivision]
  exact ⟨os, E', t, u, _, hpopped, hnode.push, (hwords _ (by simp)).mono hgrown,
    (hwords _ (by simp)).mono hgrown, hext.elements_le, s'.pool.addElement_lt _,
    fun ev σ => (hvalues ev σ).symm⟩

/-- A quotient or a remainder is computed from the operands of the division in whose place it
is. -/
theorem foldDivision_wordBy {e : ElementId} {a b : FormTree} {remainder : Bool} {at' : Nat}
    (hcoercion : cx.env.coercion = standardCoercion)
    (h : s.Lists E (.node ⟨e, .divide a.id b.id isSigned at', [a, b]⟩ :: hs))
    (ha : s.pool.HasWord cx.env a.id) (hb : s.pool.HasWord cx.env b.id) :
    (cx.foldDivision site e remainder).Ends s fun f s' => ∃ t, t.id = f ∧
      s'.Lists E (.tree t :: hs) ∧ s'.pool.HasWord cx.env t.id ∧
      ∀ ev σ, t.wordBy ev σ = (if remainder then ev.division.remainder else ev.division.quotient)
        (ev.signed e) (a.wordBy ev σ) (b.wordBy ev σ) := by
  have hnode : s.pool.HoldsNode ⟨e, .divide a.id b.id isSigned at', [a, b]⟩ := h.holds mem_cons_self
  have hkids : s.Lists E ([a, b].map .tree ++ .spareElement e :: hs) :=
    h.openNode.perm perm_middle.symm
  have hwords : ∀ f ∈ [a, b].map FormTree.id, (WordKind.words cx.env).form s.pool f := by
    intro f hf
    rcases mem_pair.1 hf with rfl | rfl
    · exact ha
    · exact hb
  rw [foldDivision, ends_bind, ends_get, hnode.element_eq]
  dsimp only
  refine ((forceInteger_lists hkids).and (forceInteger_sameWords hcoercion hwords)).bind ?_
  rintro fs s' ⟨⟨ts, rfl, hcasts, hlists⟩, hext, hsame⟩
  let element : Element :=
    .apply (.builtin (if remainder then .mod else .div)) (ts.map FormTree.id)
  let quotient : Node FormTree := ⟨e, element, ts⟩
  have hnew : { s' with pool := s'.pool.replace e element }.Lists E
      ([quotient].map Root.node ++ hs) := (hlists.perm perm_middle).replace rfl
  have hform := hnew.addForm
  rw [ends_onPool] at hform
  rw [ends_bind, ends_onPool, ends_bind, ends_noteForm, ends_note, ends_pure]
  refine ⟨_, rfl, hform, ?_, fun ev σ => ?_⟩
  · have hfolded : Pool.Holds _ _ := hform.holds mem_cons_self
    refine Pool.HasWord.of_quotient (by cases remainder <;> simp) hfolded fun t ht => ?_
    have hword : s'.pool.HasWord cx.env t.id :=
      Pool.SameWord.forall_form hsame _ (mem_map_of_mem ht)
    exact hword.of_holds (hlists.holds_trees t ht)
      ((hfolded.node quotient mem_cons_self).below t ht)
  · rw [FormTree.wordBy_single,
      Pool.SameWord.map_wordBy hsame hkids.holds_trees hext hlists.holds_trees]
    cases remainder <;> rfl

/-- What a result of a division is read as. -/
theorem foldQuotient_wordBy (hdivision : cx.config.allows .division = true)
    (hcoercion : cx.env.coercion = standardCoercion) (htype : cx.env.variableType v ≠ some .float)
    (h : s.Lists E hs) (hE : ∀ held ∈ E, held.IsArithmetic cx.env signed s.pool) :
    (cx.foldQuotient site v).Ends s fun f s' => ∃ E' t, t.id = f ∧ s'.Lists E' (.tree t :: hs) ∧
      s'.pool.HasWord cx.env t.id ∧ Held.ReadsResult signed s.pool v E t E' := by
  rw [foldQuotient, if_pos hdivision, ends_bind]
  refine ends_take.2 ⟨fun _ => ?_, fun e stack hpop => ?_⟩
  · rw [ends_bind, ends_note]
    have hnoted : ∀ log, FoldState.Lists { s with log } E hs := fun _ => h
    have hoperand : (WordKind.words cx.env).operand (.var v) := htype
    refine (atomForm_wordBy rfl hoperand (hnoted _)).mono fun f s' hatom => ?_
    obtain ⟨t, rfl, hlists, hword, hvalue⟩ := hatom
    exact ⟨E, t, rfl, hlists, hword, .register hvalue⟩
  · obtain ⟨n, E', rfl, hpops, hlists⟩ := h.popDivision hpop
    cases hE _ hpops.mem with
    | @division e a b at' ha hb =>
      refine (foldDivision_wordBy hcoercion hlists ha hb).mono fun f s' hfolded => ?_
      obtain ⟨t, rfl, hlists', hword, hvalue⟩ := hfolded
      exact ⟨E', t, rfl, hlists', hword, .divided hpops hvalue⟩

end Context

end Decompiler
