import Decompiler.Proofs.Machine.Assembling
import Decompiler.Proofs.Meaning.ChainBlocks

/-!
Chains of tests as trees.  A chain runs its captured tests one after another, and gets its word
from the test that decides it or from its last entry.  Where each test decides like a branch, the
word of the chain is the word of the blocks.
-/

namespace Decompiler

open List RegisterSet

variable {t : FormTree} {p : Pool} {rs : List Root} {ts : List FormTree} {id : BlockId}
  {block : Block} {site : Nat} {branch : Branch} {dst : Register}

/-- Runs the statements of a form and evaluates its last element. -/
def Pool.runValue (p : Pool) (consts : Constants) (σ : Registers) (f : FormId) :
    Option Word := do
  let τ ← p.execute consts σ (p.elementsOf f).dropLast
  let e ← (p.elementsOf f).getLast?
  let words ← (p.element e).children.mapM (p.value consts τ)
  (p.element e).compute consts τ words

/-- The word of a chain of forms.  A conjunction goes on while its tests hold, a disjunction while
they do not. -/
def Pool.chainWord (p : Pool) (consts : Constants) (kind : ChainKind) :
    List FormId → Registers → Option Word
  | [], _ => none
  | [last], σ => p.runValue consts σ last
  | f :: next :: rest, σ => do
    let outcome ← p.runTest consts σ f
    if outcome.holds == (kind == .conjunction) then
      p.chainWord consts kind (next :: rest) outcome.registers
    else kind.decided consts outcome.tested

/-- A tree that runs entries and then has the value of another tree. -/
inductive FormTree.Returns (env : TypeEnv) (E : List Held) : FormTree → FormTree → Prop
  | intro {ns : List (Node FormTree)} {f : FormId} {t : FormTree}
      (hE : ∀ held ∈ E, held.Integral env) (ht : t.Integral env)
      (hsettles : List.Forall₂ Held.Settles E.reverse ns) : Returns env E (.mk f (ns ++ t.nodes)) t

variable {env : TypeEnv} {p' : Pool} {f : FormId} {element : Element}

theorem FormTree.Integral.exists_node (h : t.Integral env) : ∃ n, t = .mk t.id [n] := by
  cases h <;> exact ⟨_, rfl⟩

/-- An element has the value of the tree that it makes up. -/
theorem Pool.Owns.compute_eq {n : Node FormTree} (howns : p.Owns rs) (hn : .node n ∈ rs)
    (consts : Constants) (σ : Registers) (f : FormId) :
    ((p.element n.id).children.mapM (p.value consts σ) >>=
      (p.element n.id).compute consts σ) = (FormTree.mk f [n]).value consts σ := by
  have hone : p.Owns [.node n] := howns.one hn
  have hnode : p.HoldsNode n := hone.holds _ mem_cons_self
  rw [FormTree.value_single, hnode.element_eq, hnode.kids, mapM_map]
  have hkids : n.kids.mapM (p.value consts σ ∘ FormTree.id) =
      n.kids.mapM (FormTree.value consts σ) := by
    refine mapM_congr fun t ht => ?_
    obtain ⟨hholds, hnodup⟩ := hone.openNode.of_mem (t := t) (by simp [ht])
    exact hholds.value_eq hnodup
  exact congrArg (· >>= _) hkids

theorem FormTree.Returns.runValue_eq {E : List Held} {u : FormTree} (h : u.Returns env E t)
    (howns : p.Owns rs) (hu : .tree u ∈ rs) (consts : Constants) (σ : Registers) :
    p.runValue consts σ u.id = some (t.word consts (Held.run consts σ E)) := by
  have hone : p.Owns [.tree u] := howns.one hu
  cases h with
  | @intro ns f _ hE ht hsettles =>
    obtain ⟨n, hn⟩ := ht.exists_node
    have hnodes : t.nodes = [n] := by rw [hn, FormTree.nodes_mk]
    have hopen := Pool.Owns.openTree hone
    have hstatements := Held.Settles.run_eq hsettles hE hopen (fun n hn => by simp [hn]) consts σ
    have hvalue := hopen.compute_eq (n := n) (by simp [hnodes]) consts (Held.run consts σ E) t.id
    rw [← hn, ht.value_eq] at hvalue
    rw [Pool.runValue, hone.tree_holds.elementsOf_eq, FormTree.nodes_mk, hnodes, map_append,
      map_singleton, dropLast_concat, getLast?_concat, hstatements]
    exact hvalue

/-- An assignment at the end of a form can give way to its value. -/
theorem Pool.Owns.spliceTrailing_set {ns : List (Node FormTree)} {e : ElementId} {v : Variable}
    {ordered : Bool} {notes : SetNotes}
    (h : p.Owns (.tree (.mk f (ns ++ [⟨e, .set v t.id ordered notes, [t]⟩])) :: rs)) :
    p.trailingSet? f = some v ∧
      (p.spliceTrailing f).Owns (.tree (.mk f (ns ++ t.nodes)) :: rs) := by
  have hholds : p.Holds (.mk f (ns ++ [⟨e, .set v t.id ordered notes, [t]⟩])) :=
    h.holds _ mem_cons_self
  have helements := hholds.elementsOf_eq
  rw [FormTree.nodes_mk, map_append, map_singleton] at helements
  have helem : p.element e = .set v t.id ordered notes :=
    (hholds.node _ (mem_append_right _ mem_cons_self)).element_eq
  have hlast : (p.elementsOf f).getLast? = some e := by
    rw [show p.elementsOf f = _ from helements, getLast?_concat]
  refine ⟨?_, ?_⟩
  · rw [trailingSet?, hlast, Option.bind_some, helem]
    rfl
  · rw [spliceTrailing, hlast, Option.map_some, helem]
    dsimp only
    rw [show p.elementsOf f = _ from helements, dropLast_concat]
    exact (h.takeLast rfl).spliceForm

/-- A new element stands alone in its form. -/
theorem Pool.Owns.addSingle (h : p.Owns (ts.map .tree ++ rs)) (hadd : p.addSingle element = (f, p'))
    (hchildren : element.children = ts.map FormTree.id) :
    p'.Owns (.tree (.mk f [⟨(p.addElement element).1, element, ts⟩]) :: rs) := by
  have hnode : (p.addElement element).2.Owns
      ([⟨(p.addElement element).1, element, ts⟩].map .node ++ rs) := h.addElement hchildren
  have htree := hnode.addForm
  have hform : ((p.addElement element).2.addForm [(p.addElement element).1]).1 = f :=
    congrArg Prod.fst hadd
  have hpool : ((p.addElement element).2.addForm [(p.addElement element).1]).2 = p' :=
    congrArg Prod.snd hadd
  rw [map_singleton, hform, hpool] at htree
  exact htree

/-- The trees that a new element has below it are still there. -/
theorem Pool.Owns.trees_of_addSingle (h : p.Owns (ts.map .tree))
    (hadd : p.addSingle element = (f, p')) (hchildren : element.children = ts.map FormTree.id) :
    ∃ rs, p'.Owns rs ∧ ∀ t ∈ ts, .tree t ∈ rs := by
  rw [← append_nil (ts.map Root.tree)] at h
  have htree := h.addSingle hadd hchildren
  refine ⟨_, (htree.openTree.sublist (sublist_cons_self _ _)).openNode, fun t ht => ?_⟩
  simpa using ht

theorem laysOut_of_assemble {name : String} {program : List Statement} {r : Routine}
    (hr : assemble name program = .ok r) : r.LaysOut program := by
  obtain ⟨labels, code, hresolves, hvalid, rfl⟩ := Draft.finish_eq_ok_iff.1 hr
  exact hresolves.laysOut (Routine.isValid_of_validate hvalid)

namespace Routine

variable {r : Routine} {next : Block} {q : Register} {program : List Statement}

/-- A block that ends in a conditional branch is followed by the next one. -/
theorem LaysOut.next_mem_successors (h : r.LaysOut program) (hblock : r.blocks[id]? = some block)
    (hnext : r.blocks[id + 1]? = some next) (hbranch : r.terminator id = .ok (some (site, branch)))
    (hjump : branch.isJump = false) : id + 1 ∈ block.successors := by
  have hlast := (lastBranch?_of_terminator hblock hbranch).1
  have hlt : id + 1 < r.blocks.size := (Array.getElem?_eq_some_iff.1 hnext).1
  have hleads := h.successors hblock
  rw [← h.id_eq hblock] at hlt ⊢
  generalize block.successors = nexts at hleads ⊢
  cases hleads with
  | leave hsize => exact absurd hsize (Nat.ne_of_lt hlt)
  | jump hends hjump' =>
    cases hlast.symm.trans (lastBranch?_eq_some.2 hends)
    cases hjump.symm.trans hjump'
  | either | skip => exact mem_cons_self
  | next hnone => exact absurd (lastBranch?_eq_some.1 hlast) (hnone branch)

/-- The registers that are followed through a block of a chain: those that are live, but the
register of the value only as far as the block still reads it. -/
def ChainFollowed (r : Routine) (dst : Register) (id : BlockId) (block : Block) (site : Nat)
    (q : Register) : Prop :=
  r.LiveAt q ⟨id, site⟩ ∧ (q = dst → q ∈ liveBefore ∅ (r.blockOps block site))

theorem ConsumesLast.follows_chain (h : r.ConsumesLast) (hblock : r.blocks[id]? = some block) :
    r.Follows block (r.ChainFollowed dst id block) where
  read {site instr q} hsite hcode hread := by
    refine ⟨.of_uses (.read hblock hsite hcode hread), fun _ => ?_⟩
    rw [blockOps_cons (Block.mem_sites.1 hsite).2 hcode, liveBefore]
    exact mem_union.2 (.inr hread)
  kept {site instr q} hsite hcode hkeep hq := by
    refine ⟨.pass hblock hsite hcode hkeep hq.1, fun hdst => ?_⟩
    rw [blockOps_cons (Block.mem_sites.1 hsite).2 hcode, liveBefore]
    exact mem_union.2 (.inl (mem_diff.2 ⟨hq.2 hdst, hkeep⟩))
  dead hsite hcode hq hkeep hlive := h hblock hsite hcode hq hkeep hlive.1

theorem ChainFollowed.ne (h : r.ChainFollowed dst id block block.stop q) : q ≠ dst := by
  intro hdst
  have hmem := h.2 hdst
  rw [blockOps_stop, liveBefore] at hmem
  exact not_mem_empty q hmem

def readsFirst (r : Routine) (q : Register) (id : BlockId) : Bool :=
  r.blocks[id]?.any fun block => (liveBefore ∅ (r.blockOps block block.start)).contains q

/-- What is followed from the start of a block is followed to the end of the block before. -/
theorem ChainFollowed.before (h : r.LaysOut program) (hblock : r.blocks[id]? = some block)
    (hnext : r.blocks[id + 1]? = some next) (hbranch : r.terminator id = .ok (some (site, branch)))
    (hjump : branch.isJump = false) (hfirst : r.readsFirst dst (id + 1) = false)
    (hq : r.ChainFollowed dst (id + 1) next next.start q) :
    r.ChainFollowed dst id block block.stop q := by
  refine ⟨.follow hblock (h.next_mem_successors hblock hnext hbranch hjump) hnext hq.1, ?_⟩
  rintro rfl
  rw [readsFirst, hnext, Option.any_some] at hfirst
  exact absurd (hq.2 rfl) (Bool.eq_false_iff.1 hfirst)

end Routine

namespace Context

variable {cx : Context} {kind : ChainKind} {finish : BlockId} {E : List Held} {M : Type}
  {machine : Processor M} {m : M} {ρ : Registers}

/-- A tree that tests what an entry of a chain tests. -/
def TestsEntry (cx : Context) (kind : ChainKind) (finish : BlockId) (dst : Register) (id : BlockId)
    (t : FormTree) : Prop :=
  ∃ (block : Block) (site : Nat) (branch : Branch) (E : List Held) (ts : List FormTree),
    cx.routine.EntryAt kind finish dst id block site branch ∧
    cx.IntegerTest id block site branch ∧
    t.Tests cx.env branch.condition.test (kind == .conjunction) E ts ∧
    cx.TestsLike block site branch (!branch.falseDefault?.isSome) (some dst) E ts

/-- A tree that has the value that a block leaves in a register. -/
def ReturnsLast (cx : Context) (dst : Register) (id : BlockId) (u : FormTree) : Prop :=
  ∃ (block : Block) (E : List Held) (t : FormTree), cx.routine.blocks[id]? = some block ∧
    u.Returns cx.env E t ∧
    ∀ {followed : Nat → Register → Prop}, cx.routine.Follows block followed →
      ∀ {M : Type} (machine : Processor M) (ρ : Registers) (m : M),
        (∀ q, followed block.start q → ρ q = machine.registers m q) →
        t.word machine.consts (Held.run machine.consts ρ E) =
          machine.registers (machine.reached cx.routine block block.stop m) dst

variable (hconsumes : cx.routine.ConsumesLast)
include hconsumes

/-- A register that a captured test leaves as the machine does in front of the next entry. -/
theorem TestsLike.registers_eq
    (hlike : cx.TestsLike block site branch (!branch.falseDefault?.isSome) (some dst) E ts)
    (hentry : cx.routine.EntryAt kind finish dst id block site branch)
    (hρ : ∀ q, cx.routine.ChainFollowed dst id block block.start q → ρ q = machine.registers m q)
    {q : Register} (hq : cx.routine.ChainFollowed dst id block block.stop q) :
    Held.run machine.consts ρ E q = machine.registers
      (if branch.likely then machine.reached cx.routine block site m
        else machine.executeDelay branch (machine.reached cx.routine block site m)) q := by
  have hne : some dst ≠ some q := fun heq => hq.ne (Option.some.inj heq).symm
  have hreg := (hlike (hconsumes.follows_chain hentry.block_eq) machine ρ m hρ).2 q hq hne
  cases hdefault : branch.falseDefault? with
  | none =>
    rw [hdefault] at hreg
    rw [hreg fun hemit => absurd hemit.symm Bool.false_ne_true,
      Processor.passed_eq fun op hop => (hentry.slotFits hdefault op hop).1]
    rfl
  | some v =>
    have hkeep : q ∉ branch.writes := by
      intro hmem
      obtain ⟨op, hslot, hop⟩ := Branch.mem_writes_iff.1 hmem
      cases (Routine.delaySlot?_of_falseDefault? hdefault).symm.trans hslot
      exact hq.ne ((mem_single.1 hop).trans (hentry.default_eq v hdefault))
    rw [hdefault] at hreg
    rw [Option.isSome_some, Bool.not_true, if_neg Bool.false_ne_true] at hreg
    rw [hreg fun _ => hkeep]
    split
    · rfl
    · rw [Processor.executeDelay_of_not_mem_writes hkeep]

/-- One entry: the captured test decides the chain when the branch does, and with the same word. -/
theorem TestsEntry.chainWord_eq (h : cx.TestsEntry kind finish dst id t) (howns : p.Owns rs)
    (ht : .tree t ∈ rs) (f : FormId) (fs : List FormId) :
    ∃ block site branch, cx.routine.EntryAt kind finish dst id block site branch ∧
      ∀ {M : Type} (machine : Processor M) (ρ : Registers) (m : M),
        (∀ q, cx.routine.ChainFollowed dst id block block.start q →
          ρ q = machine.registers m q) →
        ∃ σ : Registers, (∀ q, cx.routine.ChainFollowed dst id block block.stop q →
          σ q = machine.registers (if branch.likely then machine.reached cx.routine block site m
            else machine.executeDelay branch (machine.reached cx.routine block site m)) q) ∧
          p.chainWord machine.consts kind (t.id :: f :: fs) ρ =
            if machine.holds branch.condition (machine.reached cx.routine block site m) then
              kind.decided machine.consts (branch.condition.args.map (Atom.value machine.consts
                (machine.registers (machine.reached cx.routine block site m))))
            else p.chainWord machine.consts kind (f :: fs) σ := by
  obtain ⟨block, site, branch, E, ts, hentry, htest, htests, hlike⟩ := h
  refine ⟨block, site, branch, hentry, fun machine ρ m hρ => ?_⟩
  refine ⟨Held.run machine.consts ρ E, fun q hq => hlike.registers_eq hconsumes hentry hρ hq, ?_⟩
  have hwords := (hlike (hconsumes.follows_chain hentry.block_eq) machine ρ m hρ).1
  obtain ⟨b, hb⟩ := Condition.exists_truth htest.condition machine.consts
    (machine.registers (machine.reached cx.routine block site m))
  have hdecide := hb
  rw [Condition.truth, ← hwords] at hdecide
  rw [Pool.chainWord, htests.runTest_eq howns ht hdecide, machine.holds_eq hb, hwords]
  cases kind <;> cases b <;> rfl

/-- The word of a chain of trees is the word of the chain of blocks that they were made from. -/
theorem chainWord_eq_of_tests {program : List Statement} (hlays : cx.routine.LaysOut program)
    {b n : Nat} {u : FormTree}
    (hentries : List.Forall₂ (cx.TestsEntry kind finish dst) (List.range' b n) ts)
    (hlast : cx.ReturnsLast dst (b + n) u) (howns : p.Owns rs) (hts : ∀ t ∈ ts ++ [u], .tree t ∈ rs)
    (hfirst : ∀ id ∈ List.range' (b + 1) n, cx.routine.readsFirst dst id = false)
    (hρ : ∀ block, cx.routine.blocks[b]? = some block →
      ∀ q, cx.routine.ChainFollowed dst b block block.start q → ρ q = machine.registers m q) :
    p.chainWord machine.consts kind ((ts ++ [u]).map FormTree.id) ρ =
      machine.chainWord cx.routine kind dst (List.range' b (n + 1)) m := by
  induction n generalizing b ts m ρ with
  | zero =>
    cases hentries
    rw [Nat.add_zero] at hlast
    obtain ⟨block, E, t, hblock, hreturns, hword⟩ := hlast
    have hvalue := hreturns.runValue_eq howns (hts u (by simp)) machine.consts ρ
    rw [hword (hconsumes.follows_chain hblock) machine ρ m (hρ block hblock)] at hvalue
    rw [range'_one, Processor.chainWord, hblock]
    exact hvalue
  | succ n ih =>
    rw [range'_succ] at hentries
    cases hentries with
    | @cons _ t _ ts hfirstEntry hrest =>
      obtain ⟨f, fs, hfs⟩ : ∃ f fs, (ts ++ [u]).map FormTree.id = f :: fs := by
        cases ts <;> exact ⟨_, _, rfl⟩
      obtain ⟨block, site, branch, hentry, hstep⟩ :=
        hfirstEntry.chainWord_eq hconsumes howns (hts t (by simp)) f fs
      obtain ⟨σ, hσ, hchain⟩ := hstep machine ρ m (hρ block hentry.block_eq)
      rw [cons_append, map_cons, hfs, hchain, hentry.chainWord_eq, ← hfs]
      split
      · rfl
      rw [range'_succ] at hfirst
      refine ih hrest (by rwa [Nat.add_right_comm]) (fun t ht => hts t (by simp [ht]))
        (fun id hid => hfirst id (mem_cons_of_mem _ hid)) fun next hnext q hq => hσ q ?_
      exact hq.before hlays hentry.block_eq hnext hentry.terminator_eq hentry.isJump_eq
        (hfirst _ mem_cons_self)

end Context

end Decompiler
