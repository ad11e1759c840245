import Decompiler.Proofs.Fold.Runs
import Decompiler.Proofs.Meaning.Expressions
import Decompiler.Proofs.Meaning.Processor
import Decompiler.Proofs.Meaning.StraightLine

/-!
Folding the integer code of a block.  What the entries of the stack still have to do agrees with
what a machine has done when it comes to the position reached, on all registers that are live
there.  Folding one more instruction keeps that, unless its operands clash.
-/

namespace Decompiler

open List RegisterSet

variable {E : List Held} {s : FoldState}

namespace Expression

variable {e : Expression}

theorem value_congr {σ σ' : Registers} (consts : Constants) (h : ∀ q ∈ e.reads, σ q = σ' q) :
    e.value consts σ = e.value consts σ' := by
  have hargs : e.args.map (Atom.value consts σ) = e.args.map (Atom.value consts σ') := by
    refine map_congr_left fun a ha => Atom.value_congr consts fun r hr => h r ?_
    exact mem_ofList.2 (mem_filterMap.2 ⟨a, ha, hr⟩)
  rw [value, value, hargs]

theorem exists_value (h : e.isInteger = true) (consts : Constants) (σ : Registers) :
    ∃ w, e.value consts σ = some w := by
  obtain ⟨operator, args⟩ := e
  simp only [isInteger, Bool.and_eq_true, beq_iff_eq] at h
  obtain ⟨⟨hoperator, harity⟩, -⟩ := h
  have hone : args.length = 1 → ∃ a, args = [a] := length_eq_one_iff.1
  have htwo : args.length = 2 → ∃ a b, args = [a, b] := length_eq_two.1
  cases operator
  case identity | neg | not =>
    obtain ⟨a, rfl⟩ := hone harity
    exact ⟨_, rfl⟩
  case add | sub | mulSigned | mulUnsigned | and | or | xor | nor | shiftLeft | shiftRightArith |
      shiftRightLogic | lessSigned | lessUnsigned =>
    obtain ⟨a, b, rfl⟩ := htwo harity
    exact ⟨_, rfl⟩
  all_goals cases hoperator

end Expression

namespace Held

variable {ρ σ : Registers} {E' : List Held} {env : TypeEnv} {p : Pool} {rs : List Root}
  {consts : Constants} {dst : Variable} {notes : SetNotes} {ordered : Bool} {q : Register}
  {source : Expression} {t : FormTree} {w : Word} {ns : List (Node FormTree)}

theorem Settles.step_eq {held : Held} {n : Node FormTree} (h : held.Settles n)
    (hheld : held.Integral env) (howns : p.Owns rs) (hn : .node n ∈ rs) (consts : Constants)
    (σ : Registers) : p.step consts σ n.id = some (held.perform (.plain consts) σ) := by
  have hone : p.Owns [.node n] := howns.one hn
  have hnode : p.HoldsNode n := hone.holds _ mem_cons_self
  cases h with
  | value dst t ordered notes e =>
    obtain ⟨htree, hnodup⟩ := hone.openNode.of_mem (t := t) (by simp)
    rw [Pool.step, hnode.element_eq]
    dsimp only
    rw [htree.value_eq hnodup, FormTree.Integral.value_eq hheld]
    rfl
  | statement n ordered => cases hheld
  | division n => cases hheld

/-- An entry for an assignment does what the assignment does to a register, if the entries below
it do what has been done before to that register and to those that the assignment reads. -/
theorem run_assigned (hreads : ∀ r ∈ source.reads, run consts σ E r = ρ r)
    (hkept : q ≠ dst.register → run consts σ E' q = ρ q)
    (hword : source.value consts (run consts σ E) =
      some (t.word consts (run consts σ E'))) (hw : source.value consts ρ = some w) :
    run consts σ (.value dst t ordered notes :: E') q = Function.update ρ dst.register w q := by
  have hw' : t.word consts (run consts σ E') = w := by
    rw [Expression.value_congr consts hreads, hw] at hword
    exact (Option.some.inj hword).symm
  rw [run_value, hw']
  by_cases hdst : q = dst.register
  · rw [hdst, Function.update_self, Function.update_self]
  · rw [Function.update_of_ne hdst, Function.update_of_ne hdst, hkept hdst]

/-- Statements that do one by one what entries have to do, do it one after the other. -/
theorem Settles.foldlM_eq {step : Registers → ElementId → Option Registers}
    {change : Held → Registers → Registers} (h : List.Forall₂ Held.Settles E ns)
    (hstep : ∀ held ∈ E, ∀ n ∈ ns, held.Settles n → ∀ σ, step σ n.id = some (change held σ))
    (σ : Registers) :
    (ns.map Node.id).foldlM step σ = some (E.foldl (fun σ held => change held σ) σ) := by
  induction h generalizing σ with
  | nil => rfl
  | @cons held n E ns hfirst hrest ih =>
    rw [map_cons, foldlM_cons, hstep held mem_cons_self n mem_cons_self hfirst]
    exact ih (fun held hheld n hn => hstep held (mem_cons_of_mem _ hheld) n
      (mem_cons_of_mem _ hn)) _

/-- The statements that entries become do what the entries have to do. -/
theorem Settles.execute_eq (h : List.Forall₂ Held.Settles E ns) (hE : ∀ held ∈ E, held.Integral env)
    (howns : p.Owns rs) (hns : ∀ n ∈ ns, .node n ∈ rs) (consts : Constants) (σ : Registers) :
    p.execute consts σ (ns.map Node.id) =
      some (E.foldl (fun σ held => held.perform (.plain consts) σ) σ) :=
  Settles.foldlM_eq h (fun held hheld n hn hsettles =>
    hsettles.step_eq (hE held hheld) howns (hns n hn) consts) σ

end Held

/-- Running the statements of the stack does what its entries have to do, if it does so for each
of them. -/
theorem FoldState.Lists.foldlM_rewrite {step : Registers → ElementId → Option Registers}
    {change : Held → Registers → Registers} (h : s.Lists E [])
    (hstep : ∀ held ∈ E, ∀ n, held.Settles n → (s.stack.rewrite s.pool).2.Owns [.node n] →
      ∀ σ, step σ n.id = some (change held σ)) (σ : Registers) :
    (s.stack.rewrite s.pool).1.foldlM step σ = some (E.foldr change σ) := by
  obtain ⟨ns, hes, hlists, hsettles⟩ := h.takeStatements
  have howns : (s.stack.rewrite s.pool).2.Owns (ns.map .node ++ [] ++ []) := hlists.owns
  have hrun : (ns.map Node.id).foldlM step σ =
      some (E.reverse.foldl (fun σ held => change held σ) σ) := by
    refine Held.Settles.foldlM_eq hsettles (fun held hheld n hn hsettles => ?_) σ
    refine hstep held (mem_reverse.1 hheld) n hsettles (howns.one ?_)
    exact mem_append_left _ (mem_append_left _ (mem_map_of_mem hn))
  rw [← hes, foldl_reverse] at hrun
  exact hrun

theorem FoldState.Lists.execute_eq {env : TypeEnv} (h : s.Lists E [])
    (hE : ∀ held ∈ E, held.Integral env) (consts : Constants) (σ : Registers) :
    (s.stack.rewrite s.pool).2.execute consts σ (s.stack.rewrite s.pool).1 =
      some (Held.run consts σ E) :=
  h.foldlM_rewrite (fun held hheld _ hsettles howns =>
    hsettles.step_eq (hE held hheld) howns mem_cons_self consts) σ

namespace Routine

variable {r u : Routine} {q : Register} {x y : Point} {sites : List Nat}

theorem Path.of_annotate (h : u.annotate.Path x sites y) : u.Path x sites y := by
  induction h with
  | refl x => exact .refl x
  | pass hblock hsite _ ih => exact .pass hblock hsite ih
  | follow hblock hnext htarget _ ih => exact .follow hblock hnext htarget ih

theorem Uses.of_annotate (h : u.annotate.Uses q x) : u.Uses q x := by
  cases h with
  | read hblock hsite hcode hread =>
    obtain ⟨base, hbase, hop, -⟩ := annotate_code hcode
    rw [← hop] at hread
    exact .read hblock hsite hbase hread
  | leave hblock hexit hresult => exact .leave hblock hexit hresult

theorem Keeps.of_annotate (h : u.annotate.Keeps q sites) : u.Keeps q sites := by
  intro site hsite base hbase
  have hlt : site < u.annotate.code.size :=
    u.size_annotate.symm ▸ (Array.getElem?_eq_some_iff.1 hbase).1
  have hcode := Array.getElem?_eq_getElem hlt
  obtain ⟨base', hbase', hop, -⟩ := annotate_code hcode
  cases hbase.symm.trans hbase'
  rw [hop]
  exact h site hsite _ hcode

theorem LiveAt.of_annotate (h : u.annotate.LiveAt q x) : u.LiveAt q x := by
  obtain ⟨sites, y, hpath, hkeeps, huses⟩ := h
  exact ⟨sites, y, hpath.of_annotate, hkeeps.of_annotate, huses.of_annotate⟩

/-- What an instruction consumes and does not write is dead behind it. -/
def ConsumesLast (r : Routine) : Prop :=
  ∀ {b : BlockId} {block : Block} {site : Nat} {instr : Instruction} {q : Register},
    r.blocks[b]? = some block → site ∈ block.sites → r.code[site]? = some instr →
      q ∈ instr.consumed → q ∉ instr.op.writes → ¬ r.LiveAt q ⟨b, site + 1⟩

theorem consumesLast_of_assemble {name : String} {program : List Statement}
    (hr : assemble name program = .ok r) : r.ConsumesLast := by
  obtain ⟨u, rfl, hvalid, -⟩ := Draft.finish_eq_ok hr
  intro b block site instr q hblock hsite hcode hq hkeep hlive
  exact hvalid.not_liveAt_of_consumed hblock hsite hcode hq hkeep hlive.of_annotate

/-- Registers that are followed through a block: all that an instruction reads, and all that are
followed behind an instruction that does not write them.  What an instruction consumes and does
not write is not followed any further. -/
structure Follows (r : Routine) (block : Block) (followed : Nat → Register → Prop) : Prop where
  read : ∀ {site : Nat} {instr : Instruction} {q : Register}, site ∈ block.sites →
    r.code[site]? = some instr → q ∈ instr.op.reads → followed site q
  kept : ∀ {site : Nat} {instr : Instruction} {q : Register}, site ∈ block.sites →
    r.code[site]? = some instr → q ∉ instr.op.writes → followed (site + 1) q → followed site q
  dead : ∀ {site : Nat} {instr : Instruction} {q : Register}, site ∈ block.sites →
    r.code[site]? = some instr → q ∈ instr.consumed → q ∉ instr.op.writes → ¬ followed (site + 1) q

theorem ConsumesLast.follows {id : BlockId} {block : Block} (h : r.ConsumesLast)
    (hblock : r.blocks[id]? = some block) :
    r.Follows block fun site q => r.LiveAt q ⟨id, site⟩ where
  read hsite hcode hread := .of_uses (.read hblock hsite hcode hread)
  kept hsite hcode hkeep hlive := .pass hblock hsite hcode hkeep hlive
  dead hsite hcode hq hkeep := h hblock hsite hcode hq hkeep

end Routine

/-- Started from some registers, entries leave in every register that is followed to a position
of a block what a machine has there when it comes to that position. -/
def Processor.AgreesAt {M : Type} (machine : Processor M) (r : Routine) (block : Block)
    (followed : Nat → Register → Prop) (site : Nat) (ρ : Registers) (m : M) (E : List Held) :
    Prop :=
  ∀ q, followed site q → Held.run machine.consts ρ E q =
    machine.registers (machine.reached r block site m) q

theorem Processor.agreesAt_start {M : Type} {machine : Processor M} {r : Routine} {block : Block}
    {followed : Nat → Register → Prop} {ρ : Registers} {m : M}
    (h : ∀ q, followed block.start q → ρ q = machine.registers m q) :
    machine.AgreesAt r block followed block.start ρ m [] := by
  intro q hq
  rw [reached_start]
  exact h q hq

namespace Context

variable {cx : Context} {hs : List Root} {block : Block} {site : Nat} {instr : Instruction}

theorem pushInstruction_eq {op : Operation} {consumed : RegisterSet}
    (hcode : cx.routine.code[site]? = some ⟨op, consumed⟩) :
    cx.pushInstruction site = cx.pushOperation site op := by
  unfold pushInstruction Routine.instruction
  rw [hcode]

def IntegerAt (cx : Context) (site : Nat) : Prop :=
  ∃ instr, cx.routine.code[site]? = some instr ∧ instr.op.isInteger = true ∧
    cx.env.NoFloats instr.op.reads

def clashesNow (cx : Context) (site : Nat) (s : FoldState) : Bool :=
  match cx.routine.code[site]? with
  | some ⟨.set _ source, _⟩ => cx.clashes site source.args s
  | _ => false

/-- Whether operands clash when the instructions at some positions are folded. -/
def sitesClash (cx : Context) : List Nat → FoldState → Bool
  | [], _ => false
  | site :: sites, s =>
    cx.clashesNow site s || cx.sitesClash sites ((cx.pushInstruction site).run s).2

theorem sitesClash_concat {sites : List Nat} {s' : FoldState}
    (hrun : (cx.pushSites sites).run s = (.ok (), s')) :
    cx.sitesClash (sites ++ [site]) s = (cx.sitesClash sites s || cx.clashesNow site s') := by
  induction sites generalizing s with
  | nil =>
    cases hrun
    exact Bool.or_false _
  | cons first sites ih =>
    obtain ⟨_, s₁, hfirst, hrest⟩ := TryFoldM.run_bind_eq_ok hrun
    rw [cons_append, sitesClash, sitesClash, hfirst, ih hrest, Bool.or_assoc]

/-- What is popped for an instruction and not written by it is not followed any further. -/
theorem not_followed_of_takes {followed : Nat → Register → Prop}
    (hfollows : cx.routine.Follows block followed) (hsite : site ∈ block.sites)
    (hcode : cx.routine.code[site]? = some instr) (hmode : s.verbatim = false)
    (hlists : s.Lists E hs) {atoms : List Atom} {q : Register} (hq : q ∈ cx.takes site atoms s)
    (hkeep : q ∉ instr.op.writes) : ¬ followed (site + 1) q := by
  have hconsumed := (mem_takes hlists hq).1
  rw [Context.consumed, hmode, hcode] at hconsumed
  exact hfollows.dead hsite hcode hconsumed hkeep

/-- Folding one instruction keeps the agreement, and what it assigns agrees in any case. -/
theorem pushInstruction_agrees (hsite : site ∈ block.sites) (hinteger : cx.IntegerAt site)
    (hlists : s.Lists E hs) (hE : ∀ held ∈ E, held.Integral cx.env) (hmode : s.verbatim = false) :
    ∃ (s' : FoldState) (dst : Variable) (source : Expression) (t : FormTree) (ordered : Bool)
      (notes : SetNotes) (E' : List Held), cx.routine.SetAt site dst source ∧
      (cx.pushInstruction site).run s = (.ok (), s') ∧ s'.verbatim = false ∧
      s'.Lists (.value dst t ordered notes :: E') hs ∧
      (∀ held ∈ Held.value dst t ordered notes :: E', held.Integral cx.env) ∧
      (cx.clashesNow site s = false → ∀ {followed : Nat → Register → Prop},
        cx.routine.Follows block followed →
        ∀ {M : Type} (machine : Processor M) (ρ : Registers) (m : M),
          machine.AgreesAt cx.routine block followed site ρ m E →
            machine.AgreesAt cx.routine block followed (site + 1) ρ m
              (.value dst t ordered notes :: E') ∧
            t.word machine.consts (Held.run machine.consts ρ E') =
              machine.registers (machine.reached cx.routine block (site + 1) m) dst.register) := by
  obtain ⟨⟨op, consumed⟩, hcode, hop, henv⟩ := hinteger
  obtain ⟨dst, source, rfl, hsource⟩ := Operation.isInteger_eq_set hop
  obtain ⟨s', E', t, ordered, notes, hrun, hmode', hlists', hintegral, hvalue⟩ :=
    pushOperation_yields henv hsource hlists hE hmode
  rw [← pushInstruction_eq hcode] at hrun
  refine ⟨s', dst, source, t, ordered, notes, E', ⟨_, hcode, rfl⟩, hrun, hmode', hlists',
    hintegral, ?_⟩
  intro hclear followed hfollows M machine ρ m hagrees
  rw [clashesNow, hcode] at hclear
  obtain ⟨hother, hword⟩ := hvalue hclear machine.consts ρ
  obtain ⟨w, hw⟩ := Expression.exists_value hsource machine.consts
    (machine.registers (machine.reached cx.routine block site m))
  have hreads : ∀ r ∈ source.reads, Held.run machine.consts ρ E r =
      machine.registers (machine.reached cx.routine block site m) r := fun r hr =>
    hagrees r (hfollows.read hsite hcode hr)
  rw [Processor.AgreesAt, Processor.reached_succ (Block.mem_sites.1 hsite).1 hcode,
    Processor.registers_set hw]
  refine ⟨fun q hq => Held.run_assigned hreads (fun hdst => ?_) hword hw, ?_⟩
  · have hkeep : q ∉ (Operation.set dst source).writes := fun hmem =>
      hdst (RegisterSet.mem_single.1 hmem)
    rw [hother q fun htaken => not_followed_of_takes hfollows hsite hcode hmode hlists htaken
      hkeep hq]
    exact hagrees q (hfollows.kept hsite hcode hkeep hq)
  · rw [Expression.value_congr _ hreads, hw] at hword
    rw [Function.update_self, Option.some.inj hword]

/-- Folding the instructions of a block from one position to another keeps the agreement. -/
theorem pushSites_agrees {k n : Nat} (hstart : block.start ≤ k) (hstop : k + n ≤ block.stop)
    (hinteger : ∀ site, k ≤ site → site < k + n → cx.IntegerAt site) (hlists : s.Lists E hs)
    (hE : ∀ held ∈ E, held.Integral cx.env) (hmode : s.verbatim = false) :
    ∃ (s' : FoldState) (E' : List Held), (cx.pushSites (List.range' k n)).run s = (.ok (), s') ∧
      s'.verbatim = false ∧ s'.Lists E' hs ∧ (∀ held ∈ E', held.Integral cx.env) ∧
      (cx.sitesClash (List.range' k n) s = false → ∀ {followed : Nat → Register → Prop},
        cx.routine.Follows block followed →
        ∀ {M : Type} (machine : Processor M) (ρ : Registers) (m : M),
          machine.AgreesAt cx.routine block followed k ρ m E →
            machine.AgreesAt cx.routine block followed (k + n) ρ m E') := by
  induction n generalizing k s E with
  | zero => exact ⟨s, E, rfl, hmode, hlists, hE, fun _ _ _ _ _ _ _ h => h⟩
  | succ n ih =>
    have hsite : k ∈ block.sites := Block.mem_sites.2 ⟨hstart, by omega⟩
    obtain ⟨s₁, dst, source, t, ordered, notes, E₁, -, hrun₁, hmode₁, hlists₁, hE₁, hagrees₁⟩ :=
      pushInstruction_agrees hsite (hinteger k (Nat.le_refl _) (by omega)) hlists hE
        hmode
    obtain ⟨s₂, E₂, hrun₂, hmode₂, hlists₂, hE₂, hagrees₂⟩ := ih (k := k + 1) (by omega) (by omega)
      (fun site hle hlt => hinteger site (by omega) (by omega)) hlists₁ hE₁ hmode₁
    refine ⟨s₂, E₂, ?_, hmode₂, hlists₂, hE₂, ?_⟩
    · rw [List.range'_succ]
      exact (TryFoldM.run_bind_of_ok hrun₁).trans hrun₂
    · intro hclear followed hfollows M machine ρ m hagrees
      rw [List.range'_succ, sitesClash, hrun₁, Bool.or_eq_false_iff] at hclear
      rw [Nat.add_right_comm] at hagrees₂
      exact hagrees₂ hclear.2 hfollows machine ρ m
        (hagrees₁ hclear.1 hfollows machine ρ m hagrees).1

end Context

end Decompiler
