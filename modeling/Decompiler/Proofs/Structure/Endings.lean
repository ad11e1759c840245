import Decompiler.Proofs.Structure.Tame
import Decompiler.Proofs.Structure.Build
import Decompiler.Proofs.Structure.Idioms

/-!
What folding a region leaves on top of the stack.  Whether a chain or a conditional is the
value of a register depends on what its parts assign last.  Some operations assign their
register whatever is folded before them and whatever idioms are in use; when a region ends in
such operations on all its ways, the register that it assigns last can be told from its
instructions alone.
-/

namespace Decompiler

open TryFoldM List

variable {s : FoldState} {hs : List Root} {register : Register}

/-- The latest entry is the value of a register. -/
def Stack.Assigns (s : Stack) (register : Register) : Prop :=
  ∃ dst source ordered notes rest,
    s.waiting = .assign dst source ordered notes none :: rest ∧ dst.register = register

def FormTree.Assigns (t : FormTree) (register : Register) : Prop :=
  ∃ n dst source ordered notes, t.nodes.getLast? = some n ∧
    n.element = .set dst source ordered notes ∧ dst.register = register

/-- Instructions are folded, and the pool owns what waits on the stack and some hands. -/
def FoldState.Sound (s : FoldState) (hs : List Root) : Prop :=
  s.verbatim = false ∧ ∃ E, s.Lists E hs

/-- Forms in the hands of a state; each ends as it must. -/
def FoldState.Keeps (s : FoldState) (ends : List (Option Register)) (fs : List FormId)
    (hs : List Root) : Prop :=
  ∃ ts : List FormTree, ts.map FormTree.id = fs ∧
    List.Forall₂ (fun (e : Option Register) t => ∀ register ∈ e, t.Assigns register) ends ts ∧
      s.Sound (ts.map .tree ++ hs)

variable {p : Pool} {t : FormTree}

theorem Pool.Holds.trailingSet?_eq {register : Register} (h : p.Holds t) (ht : t.Assigns register) :
    ∃ dst, p.trailingSet? t.id = some dst ∧ dst.register = register := by
  obtain ⟨n, dst, source, ordered, notes, hlast, helem, hreg⟩ := ht
  refine ⟨dst, ?_, hreg⟩
  have hnode : p.HoldsNode n := h.node n (mem_of_getLast? hlast)
  rw [trailingSet?, h.elementsOf_eq, getLast?_map, hlast, Option.map_some, Option.bind_some,
    hnode.element_eq, helem]
  rfl

/-- The last element of a form that is held assigns what the pool says. -/
theorem Pool.Holds.assigns {dst : Variable} (h : p.Holds t) (hdst : p.trailingSet? t.id = some dst) :
    t.Assigns dst.register := by
  rw [trailingSet?, h.elementsOf_eq, getLast?_map] at hdst
  obtain ⟨e, he, hset⟩ := Option.bind_eq_some_iff.1 hdst
  obtain ⟨n, hlast, rfl⟩ := Option.map_eq_some_iff.1 he
  have hnode : p.HoldsNode n := h.node n (mem_of_getLast? hlast)
  rw [hnode.element_eq] at hset
  unfold Element.setVariable? at hset
  split at hset
  · rename_i source ordered notes helem
    cases hset
    exact ⟨n, dst, source, ordered, notes, hlast, helem, rfl⟩
  · cases hset

namespace FoldState

theorem Sound.toHolds (h : s.Sound hs) : ∃ M C, s.Holds M C hs := by
  obtain ⟨-, E, hE⟩ := h
  exact ⟨_, _, E, hE, rfl, rfl⟩

theorem Holds.toSound {M : Multiset Mark} {C : List (Node FormTree)} (h : s.Holds M C hs)
    (hmode : s.verbatim = false) : s.Sound hs := by
  obtain ⟨E, hE, -, -⟩ := h
  exact ⟨hmode, E, hE⟩

theorem Sound.sublist {hs' : List Root} (h : s.Sound hs) (hsub : hs'.Sublist hs) : s.Sound hs' := by
  obtain ⟨hmode, E, hE⟩ := h
  exact ⟨hmode, E, hE.sublist hsub⟩

theorem Sound.fresh (h : s.Sound hs) : ∃ hs', { s with stack := .empty }.Sound hs' := by
  obtain ⟨hmode, E, hE⟩ := h
  exact ⟨_, hmode, [], hE.fresh⟩

variable {ends : List (Option Register)} {fs : List FormId}

/-- A form made of a stack that ends in an assignment ends in that assignment. -/
theorem Sound.takeForm_assigns (h : s.Sound hs) (hassigns : s.stack.Assigns register) :
    FoldM.takeForm.Ends s fun f s' =>
      ∃ dst, s'.pool.trailingSet? f = some dst ∧ dst.register = register := by
  obtain ⟨-, E, hE⟩ := h
  obtain ⟨dst, source, ordered, notes, rest, hwaiting, hreg⟩ := hassigns
  obtain ⟨held, below, rfl, hheld, -⟩ := map_eq_cons_iff.1 (hE.1.symm.trans hwaiting)
  refine hE.takeForm.mono fun f s' hform => ?_
  obtain ⟨ns, hlists, hsettles | ⟨hempty, -⟩⟩ := hform
  · have hlasts := Context.forall₂_getLast? hsettles
    rw [getLast?_reverse, head?_cons] at hlasts
    cases hn : ns.getLast? with
    | none =>
      rw [hn] at hlasts
      cases hlasts
    | some n =>
      rw [hn] at hlasts
      cases hlasts with
      | some hlast =>
        cases hlast with
        | value dst' t ordered' notes' e =>
          cases hheld
          have htree : s'.pool.Holds (.mk f ns) := hlists.holds mem_cons_self
          exact htree.trailingSet?_eq ⟨_, dst, _, ordered, notes, hn, rfl, hreg⟩
        | statement => cases hheld
        | division => cases hheld
  · cases hempty

theorem Keeps.length_eq (h : s.Keeps ends fs hs) : fs.length = ends.length := by
  obtain ⟨ts, rfl, hts, -⟩ := h
  rw [length_map, hts.length_eq]

/-- Forms that must all end by assigning a register do. -/
theorem Keeps.trailing (h : s.Keeps ends fs hs) (hall : ∀ e ∈ ends, e = some register) :
    ∀ f ∈ fs, ∃ dst, s.pool.trailingSet? f = some dst ∧ dst.register = register := by
  obtain ⟨ts, rfl, hts, -, E, hE⟩ := h
  have hassigns : ∀ t ∈ ts, t.Assigns register := by
    clear hE
    induction hts with
    | nil => simp
    | cons hfirst hrest ih =>
      rw [forall_mem_cons] at hall ⊢
      exact ⟨hfirst register hall.1, ih hall.2⟩
  intro f hf
  obtain ⟨t, ht, rfl⟩ := mem_map.1 hf
  exact (hE.holds (mem_append_left _ (mem_map_of_mem ht))).trailingSet?_eq (hassigns t ht)

end FoldState

/-- A step that leaves a sound state sound, if it succeeds. -/
def TryFoldM.KeepsSound {α : Type} (m : TryFoldM α) : Prop :=
  ∀ s hs, s.Sound hs → m.Ends s fun _ s' => s'.Sound hs

namespace TryFoldM

variable {α β : Type}

namespace KeepsSound

theorem pure (a : α) : (Pure.pure a : TryFoldM α).KeepsSound := fun _ _ hsound =>
  ends_pure.2 hsound

theorem bind {m : TryFoldM β} {k : β → TryFoldM α} (hm : m.KeepsSound)
    (hk : ∀ b, (k b).KeepsSound) : (m >>= k).KeepsSound := by
  intro s hs hsound
  rw [ends_bind]
  exact fun b hb => hk b _ hs (hm s hs hsound b hb)

theorem forM {f : β → TryFoldM PUnit} (hf : ∀ b, (f b).KeepsSound) (bs : List β) :
    (bs.forM f).KeepsSound := by
  induction bs with
  | nil => exact pure _
  | cons b bs ih => exact bind (hf b) fun _ => ih

theorem mapM {f : β → TryFoldM α} (hf : ∀ b, (f b).KeepsSound) (bs : List β) :
    (bs.mapM f).KeepsSound := by
  induction bs with
  | nil => exact pure _
  | cons b bs ih =>
    rw [mapM_cons]
    exact bind (hf b) fun _ => bind ih fun _ => pure _

end KeepsSound

theorem Deposits.keepsSound {m : TryFoldM α} {P : α → Deposit} (h : m.Deposits P)
    (hadvances : m.Advances) : m.KeepsSound := by
  intro s hs hsound
  obtain ⟨M, C, hholds⟩ := hsound.toHolds
  intro a ha
  obtain ⟨A, D, -, hholds'⟩ := h s M C hs hholds a ha
  exact hholds'.toSound ((hadvances s a ha).mode.trans hsound.1)

variable {R : FormTree → Prop} {m : TryFoldM FormId}

/-- A form that is built is in the hands of a sound state. -/
theorem Builds.sound (h : m.Builds R) (hadvances : m.Advances) (hsound : s.Sound hs) :
    m.Ends s fun f s' => ∃ t : FormTree, t.id = f ∧ s'.Sound (.tree t :: hs) := by
  obtain ⟨M, C, hholds⟩ := hsound.toHolds
  intro f hf
  obtain ⟨t, ht, -, hholds'⟩ := h s M C hs hholds f hf
  exact ⟨t, ht, hholds'.toSound ((hadvances s f hf).mode.trans hsound.1)⟩

/-- A form that is built stays in the hands, with what it ends in. -/
theorem Builds.keeps (h : m.Builds R) (hadvances : m.Advances) {e : Option Register}
    (hassigns : ∀ register ∈ e, m.Ends s fun f s' =>
      ∃ dst, s'.pool.trailingSet? f = some dst ∧ dst.register = register) (hsound : s.Sound hs) :
    m.Ends s fun f s' => ∃ t : FormTree, t.id = f ∧ (∀ register ∈ e, t.Assigns register) ∧
      s'.Sound (.tree t :: hs) := by
  intro f hf
  obtain ⟨t, rfl, hsound'⟩ := h.sound hadvances hsound f hf
  refine ⟨t, rfl, fun register hreg => ?_, hsound'⟩
  obtain ⟨dst, hdst, rfl⟩ := hassigns register hreg t.id hf
  obtain ⟨-, E, hE⟩ := hsound'
  exact (hE.holds mem_cons_self).assigns hdst

theorem Builds.keepsSound (h : m.Builds R) (hadvances : m.Advances) : m.KeepsSound := by
  intro s hs hsound
  refine (h.sound hadvances hsound).mono fun f s' hbuilt => ?_
  obtain ⟨t, -, hsound'⟩ := hbuilt
  exact hsound'.sublist (sublist_cons_self _ _)

/-- On a stack of its own, a step that assigns a register last builds a form that does. -/
theorem KeepsSound.ends_assigns {m : TryFoldM Unit} {register : Register} (h : m.KeepsSound)
    (hassigns : ∀ s hs, s.Sound hs → m.Ends s fun _ s' => s'.stack.Assigns register)
    (hsound : s.Sound hs) :
    (onFreshStack do
      m
      FoldM.takeForm).Ends s fun f s' =>
        ∃ dst, s'.pool.trailingSet? f = some dst ∧ dst.register = register := by
  obtain ⟨hs', hfresh⟩ := hsound.fresh
  rw [ends_onFreshStack, ends_bind]
  intro a ha
  exact ends_lift.2 ((h _ hs' hfresh a ha).takeForm_assigns (hassigns _ hs' hfresh a ha))

end TryFoldM

namespace Context

variable {cx : Context} {depth : Nat} {id : BlockId}

/-- The register that an operation assigns last, whatever was folded before it. -/
def assigned? (cx : Context) (site : Nat) : Operation → Option Register
  | .set dst _ | .setCondition dst _ | .load dst _ _ _ _ => some dst.register
  | .call _ _ result =>
    (result.filter fun dst => cx.isLiveAfter site dst.register).map Variable.register
  | _ => none

/-- The register that the last of some instructions assigns. -/
def assignedBefore? (cx : Context) (start stop : Nat) : Option Register :=
  if start < stop then
    cx.routine.code[stop - 1]?.bind fun instr => cx.assigned? (stop - 1) instr.op
  else none

/-- The register that a block assigns last, up to the branch that ends it. -/
def bodyEnd? (cx : Context) (id : BlockId) : Option Register :=
  match cx.routine.block id, cx.routine.terminator id with
  | .ok block, .ok terminator =>
    cx.assignedBefore? block.start ((terminator.map Prod.fst).getD block.stop)
  | _, _ => none

/-- The register that a block without a branch assigns last. -/
def blockEnd? (cx : Context) (id : BlockId) : Option Register :=
  match cx.routine.terminator id with
  | .ok none => cx.bodyEnd? id
  | _ => none

theorem pushValue_assigns (s : FoldState) (dst : Variable) (f : FormId) (notes : SetNotes) :
    (FoldM.pushValue dst f notes).Ends s fun _ s' => s'.stack.Assigns dst.register :=
  ⟨dst, f, _, notes, _, rfl, rfl⟩

variable {site start stop : Nat} {instr : Instruction}

theorem pushOperation_assigns {op : Operation} (h : cx.assigned? site op = some register)
    (hmode : s.verbatim = false) :
    (cx.pushOperation site op).Ends s fun _ s' => s'.stack.Assigns register := by
  have hop : op.isNop = false := by
    cases op with
    | special kind => cases h
    | _ => rfl
  unfold pushOperation
  rw [if_neg (by simp [hop]), ends_bind, ends_get, hmode, if_neg Bool.false_ne_true]
  cases op with
  | set dst source =>
    cases h
    rw [pushFolded, ends_bind]
    exact fun f _ => ends_lift.2 (pushValue_assigns _ dst f _)
  | setCondition dst condition =>
    cases h
    rw [pushFolded, ends_bind]
    exact fun f _ => ends_lift.2 (pushValue_assigns _ dst f _)
  | load dst base offset size kind =>
    cases h
    rw [pushFolded, ends_bind]
    exact fun f _ => ends_lift.2 (pushValue_assigns _ dst f _)
  | call callee args result =>
    obtain ⟨dst, hdst, rfl⟩ := Option.map_eq_some_iff.1 h
    rw [pushFolded, pushCall, ends_lift]
    refine FoldM.ends_true.bind fun forms s' _ => ?_
    dsimp only
    rw [hdst]
    exact ⟨dst, _, true, {}, _, rfl, rfl⟩
  | _ => cases h

theorem pushInstruction_assigns (hcode : cx.routine.code[site]? = some instr)
    (h : cx.assigned? site instr.op = some register) (hmode : s.verbatim = false) :
    (cx.pushInstruction site).Ends s fun _ s' => s'.stack.Assigns register := by
  unfold pushInstruction
  rw [Routine.instruction_eq_ok.2 hcode]
  exact pushOperation_assigns h hmode

theorem pushSites_append (sites sites' : List Nat) :
    cx.pushSites (sites ++ sites') = (do cx.pushSites sites; cx.pushSites sites') := by
  simp only [pushSites, forM_eq_forM, forM_append]

theorem range'_eq_append (h : start < stop) :
    List.range' start (stop - start) = List.range' start (stop - 1 - start) ++ [stop - 1] := by
  obtain ⟨n, rfl⟩ := Nat.exists_eq_add_of_lt h
  have hsize : start + n + 1 - start = n + 1 := by omega
  have hsize' : start + n + 1 - 1 - start = n := by omega
  rw [hsize, hsize', range'_1_concat]
  rfl

theorem pushSites_assigns (h : cx.assignedBefore? start stop = some register)
    (hmode : s.verbatim = false) :
    (cx.pushSites (List.range' start (stop - start))).Ends s fun _ s' =>
      s'.stack.Assigns register := by
  unfold assignedBefore? at h
  split at h
  · rename_i hlt
    obtain ⟨instr, hcode, hassigned⟩ := Option.bind_eq_some_iff.1 h
    rw [range'_eq_append hlt, pushSites_append]
    refine ((pushSites_bounded _).tame.advances s).bind fun _ s' hs' => ?_
    change (cx.pushInstruction (stop - 1) >>= fun _ => pure ()).Ends s' _
    simp only [ends_bind, ends_pure]
    exact pushInstruction_assigns hcode hassigned (hs'.mode.trans hmode)
  · cases h

theorem pushBlockBody_found (id : BlockId) (s : FoldState) :
    (cx.pushBlockBody id).Ends s fun found _ => cx.routine.terminator id = .ok found := by
  unfold pushBlockBody
  simp only [ends_bind, ends_ofExcept, ends_pure]
  exact fun block _ found hfound _ _ => hfound

theorem pushBlockBody_assigns (h : cx.bodyEnd? id = some register) (hmode : s.verbatim = false) :
    (cx.pushBlockBody id).Ends s fun _ s' => s'.stack.Assigns register := by
  unfold bodyEnd? at h
  split at h
  · rename_i block terminator hblock hterm
    unfold pushBlockBody
    simp only [ends_bind, ends_ofExcept, ends_pure]
    intro block' hblock' terminator' hterminator'
    cases hblock.symm.trans hblock'
    cases hterm.symm.trans hterminator'
    exact pushSites_assigns h hmode
  · cases h

theorem blockEnd?_eq_some (h : cx.blockEnd? id = some register) :
    cx.routine.terminator id = .ok none ∧ cx.bodyEnd? id = some register := by
  unfold blockEnd? at h
  split at h
  · rename_i hterm
    exact ⟨hterm, h⟩
  · cases h

theorem pushBlock_assigns (h : cx.blockEnd? id = some register) (hmode : s.verbatim = false) :
    (cx.pushBlock id).Ends s fun _ s' => s'.stack.Assigns register := by
  obtain ⟨hterm, hbody⟩ := blockEnd?_eq_some h
  unfold pushBlock
  rw [ends_bind]
  intro found hrun
  cases hterm.symm.trans (pushBlockBody_found id s found hrun)
  exact ends_pure.2 (pushBlockBody_assigns hbody hmode none hrun)

/-- The last instruction of a block is what the block assigns last. -/
theorem assigned?_of_blockEnd? {block : Block} (h : cx.blockEnd? id = some register)
    (hblock : cx.routine.blocks[id]? = some block)
    (hcode : cx.routine.code[block.stop - 1]? = some instr) :
    cx.assigned? (block.stop - 1) instr.op = some register := by
  obtain ⟨hterm, hbody⟩ := blockEnd?_eq_some h
  rw [bodyEnd?, Routine.block_eq_ok.2 hblock, hterm] at hbody
  dsimp only [Option.map_none, Option.getD_none] at hbody
  unfold assignedBefore? at hbody
  split at hbody
  · rwa [hcode, Option.bind_some] at hbody
  · cases hbody

theorem pushIdiom_assigns (s : FoldState) (site : Nat) (dst : Variable) (element : Element) :
    (cx.pushIdiom site dst element).Ends s fun _ s' => s'.stack.Assigns dst.register := by
  rw [pushIdiom]
  refine FoldM.ends_true.bind fun f s' _ => ?_
  exact FoldM.ends_true.bind fun _ s'' _ => pushValue_assigns s'' dst f _

/-- An idiom assigns last what the last of its blocks would. -/
theorem applyIdiom_assigns {shape : IdiomShape} (hshape : cx.routine.HasShape id shape)
    (h : cx.blockEnd? (id + shape.size - 1) = some register) (s : FoldState) :
    (cx.applyIdiom id shape).Ends s fun _ s' => s'.stack.Assigns register := by
  cases shape with
  | typeOf shape =>
    obtain ⟨block, instr, dst, base, offset, size, kind, hblock, hsize, hcode, hop, hdst⟩ :=
      (Routine.matchTypeOf_layout hshape).third
    have hstop : block.start = block.stop - 1 := by
      rw [Block.size] at hsize
      omega
    rw [hstop] at hcode
    have hassigned := assigned?_of_blockEnd? h hblock hcode
    rw [hop] at hassigned
    cases hassigned
    rw [hdst]
    unfold applyIdiom applyTypeOf
    simp only [ends_bind, ends_lift, FoldM.ends_consumedNow]
    split
    · simp
    · simp only [ends_bind, ends_ofExcept, ends_lift]
      intro block' _ _ _
      exact FoldM.ends_true.mono fun f s' _ => pushIdiom_assigns s' _ _ _
  | ash shape =>
    obtain ⟨block, -, hblock, hsize, -, instr, dst, source, hcode, hop, -, hdst⟩ :=
      (Routine.matchAsh_shiftsAt hshape).right
    have hstop : block.start + 1 = block.stop - 1 := by
      rw [Block.size] at hsize
      omega
    rw [hstop] at hcode
    have hassigned := assigned?_of_blockEnd? h hblock hcode
    rw [hop] at hassigned
    cases hassigned
    rw [hdst]
    unfold applyIdiom applyAsh
    simp only [ends_bind, ends_lift, FoldM.ends_consumedNow]
    split
    · simp
    · simp only [ends_bind, ends_lift, FoldM.ends_consumedNow]
      intro _ _
      exact FoldM.ends_true.mono fun f s' _ => pushIdiom_assigns s' _ _ _
  | abs shape =>
    exact absurd (blockEnd?_eq_some h).1 (Routine.matchAbs_testsAt hshape).ne_none

end Context

end Decompiler
