import Decompiler.Proofs.Meaning.Captures

/-!
Chains of tests on the machine.  Each entry branches to the end of the chain, and the register
that holds the value of the chain must be right there.  An entry that sets the register to false
in its delay slot sees to that, and so does one that tests the register.  Any other entry relies
on the false word that an earlier slot has left.
-/

namespace Decompiler

variable {r : Routine} {block : Block} {site : Nat} {branch : Branch}

/-- The word that a chain gets from the test that decides it. -/
def ChainKind.decided (consts : Constants) (tested : List Word) : ChainKind → Option Word
  | .conjunction => some (consts .falsehood)
  | .disjunction => tested.head?

/-- The word of a chain of blocks on the machine: what the first test gives that is taken, or what
the last block leaves in a register. -/
def Processor.chainWord {M : Type} (machine : Processor M) (r : Routine) (kind : ChainKind)
    (dst : Register) : List BlockId → M → Option Word
  | [], _ => none
  | [last], m => r.blocks[last]?.map fun block =>
    machine.registers (machine.reached r block block.stop m) dst
  | id :: next :: rest, m =>
    match r.blocks[id]?, r.terminator id with
    | some block, .ok (some (site, branch)) =>
      let tested := machine.reached r block site m
      if machine.holds branch.condition tested then
        kind.decided machine.consts
          (branch.condition.args.map (Atom.value machine.consts (machine.registers tested)))
      else
        machine.chainWord r kind dst (next :: rest)
          (if branch.likely then tested else machine.executeDelay branch tested)
    | _, _ => none

/-- A block whose branch is an entry of a chain. -/
structure Routine.EntryAt (r : Routine) (kind : ChainKind) (finish : BlockId) (dst : Register)
    (id : BlockId) (block : Block) (site : Nat) (branch : Branch) : Prop where
  block_eq : r.blocks[id]? = some block
  terminator_eq : r.terminator id = .ok (some (site, branch))
  target_eq : branch.target = finish
  isJump_eq : branch.isJump = false
  kind_eq : branch.chainKind? = some kind
  default_eq : ∀ v, branch.falseDefault? = some v → v.register = dst
  slotFits : branch.falseDefault? = none → branch.SlotFits

/-- Whether the code of a block up to a position leaves a register alone. -/
def Routine.keepsUpTo (r : Routine) (block : Block) (site : Nat) (q : Register) : Bool :=
  (List.range' block.start (site - block.start)).all fun k =>
    r.code[k]?.all fun instr => !instr.op.writes.contains q

/-- Whether a register is right on every way out of the entries of a chain.  It is known to be
false from a delay slot that has run to the next instruction that writes it. -/
def Routine.exitsHold (r : Routine) (dst : Register) : Bool → List BlockId → Bool
  | _, [] => true
  | known, id :: rest =>
    match r.blocks[id]?, r.terminator id with
    | some block, .ok (some (site, branch)) =>
      let still := known && r.keepsUpTo block site dst
      if branch.falseDefault?.isSome then r.exitsHold dst (still || !branch.likely) rest
      else
        let kept := still && !branch.writes.contains dst
        (branch.onlyTested? == some dst || kept) && r.exitsHold dst kept rest
    | _, _ => false

theorem Branch.onlyTested?_eq_some {branch : Branch} {q : Register}
    (h : branch.onlyTested? = some q) :
    ∃ v : Variable, branch.condition.args = [.var v] ∧ v.register = q := by
  unfold onlyTested? at h
  split at h
  · rename_i v hargs
    exact ⟨v, hargs, Option.some.inj h⟩
  · cases h

namespace Processor

variable {M : Type} {machine : Processor M} {q : Register}

theorem reached_of_keepsUpTo (h : r.keepsUpTo block site q = true) (m : M) :
    machine.registers (machine.reached r block site m) q = machine.registers m q := by
  refine executeSites_keeps (fun k hk instr hcode => ?_) m
  have hkept := List.all_eq_true.1 h k hk
  rw [hcode, Option.all_some, Bool.not_eq_true'] at hkept
  exact Bool.eq_false_iff.1 hkept

theorem executeDelay_of_not_mem_writes (h : q ∉ branch.writes) (m : M) :
    machine.registers (machine.executeDelay branch m) q = machine.registers m q :=
  executeDelay_keeps (fun op hop hmem => h (Branch.mem_writes_iff.2 ⟨op, hop, hmem⟩)) m

end Processor

namespace Routine

variable {kind : ChainKind} {finish id : BlockId} {dst : Register} {M : Type}
  {machine : Processor M} {m : M}

namespace EntryAt

variable (h : r.EntryAt kind finish dst id block site branch)
include h

/-- Running the delay slot of an entry with a default makes its register false. -/
theorem registers_default (hdefault : branch.falseDefault?.isSome = true) (m : M) :
    kind = .conjunction ∧
      machine.registers (machine.executeDelay branch m) dst = machine.consts .falsehood := by
  obtain ⟨v, hv⟩ := Option.isSome_iff_exists.1 hdefault
  have hkind := h.kind_eq
  rw [Branch.chainKind?, if_pos hdefault] at hkind
  refine ⟨(Option.some.inj hkind).symm, ?_⟩
  rw [Processor.executeDelay, delaySlot?_of_falseDefault? hv, ← h.default_eq v hv]
  exact machine.execute_set rfl

/-- What an entry without a default tests. -/
theorem test_eq (hdefault : branch.falseDefault? = none) :
    (kind = .conjunction ∧ branch.condition.test = .falsy) ∨
      (kind = .disjunction ∧ branch.condition.test = .truthy) := by
  have hkind := h.kind_eq
  rw [Branch.chainKind?, hdefault, Option.isSome_none, if_neg Bool.false_ne_true] at hkind
  split at hkind
  · rename_i htest
    exact .inl ⟨(Option.some.inj hkind).symm, htest⟩
  · rename_i htest
    exact .inr ⟨(Option.some.inj hkind).symm, htest⟩
  · cases hkind

/-- A taken test of the register itself leaves the right word in it. -/
theorem decided_of_onlyTested (hdefault : branch.falseDefault? = none)
    (htested : branch.onlyTested? = some dst) (hholds : machine.holds branch.condition m = true) :
    kind.decided machine.consts
        (branch.condition.args.map (Atom.value machine.consts (machine.registers m))) =
      some (machine.registers (machine.executeDelay branch m) dst) := by
  obtain ⟨v, hargs, rfl⟩ := Branch.onlyTested?_eq_some htested
  have hoperand : v.register ∈ branch.condition.operandRegisters := by
    refine RegisterSet.mem_ofList.2 ?_
    rw [hargs]
    exact List.mem_singleton.2 rfl
  have hkeep : v.register ∉ branch.writes := (h.slotFits hdefault).not_mem_writes hoperand
  rw [Processor.executeDelay_of_not_mem_writes hkeep, hargs]
  rcases h.test_eq hdefault with ⟨rfl, htest⟩ | ⟨rfl, -⟩
  · have htruth : branch.condition.truth machine.consts (machine.registers m) =
        some (machine.registers m v.register == machine.consts .falsehood) := by
      rw [Condition.truth, htest, hargs]
      rfl
    rw [machine.holds_eq htruth] at hholds
    rw [eq_of_beq hholds]
    rfl
  · rfl

theorem chainWord_eq (n : Nat) (m : M) :
    machine.chainWord r kind dst (List.range' id (n + 2)) m =
      if machine.holds branch.condition (machine.reached r block site m) then
        kind.decided machine.consts (branch.condition.args.map
          (Atom.value machine.consts (machine.registers (machine.reached r block site m))))
      else
        machine.chainWord r kind dst (List.range' (id + 1) (n + 1))
          (if branch.likely then machine.reached r block site m
            else machine.executeDelay branch (machine.reached r block site m)) := by
  rw [List.range'_succ, List.range'_succ, Processor.chainWord, h.block_eq, h.terminator_eq]

/-- One entry: on the way out the register is right, and on the way to the next entry it is false
if that is known. -/
theorem exit_holds {known : Bool} {rest : List BlockId}
    (hholds : r.exitsHold dst known (id :: rest) = true) (hknown : known = true →
      kind = .conjunction ∧ machine.registers m dst = machine.consts .falsehood) :
    (machine.holds branch.condition (machine.reached r block site m) = true →
      kind.decided machine.consts (branch.condition.args.map
        (Atom.value machine.consts (machine.registers (machine.reached r block site m)))) =
      some (machine.registers
        (machine.executeDelay branch (machine.reached r block site m)) dst)) ∧
    ∃ known', r.exitsHold dst known' rest = true ∧ (known' = true → kind = .conjunction ∧
      machine.registers (if branch.likely then machine.reached r block site m
        else machine.executeDelay branch (machine.reached r block site m)) dst =
          machine.consts .falsehood) := by
  rw [exitsHold, h.block_eq, h.terminator_eq] at hholds
  dsimp only at hholds
  generalize hstill : (known && r.keepsUpTo block site dst) = still at hholds
  -- What is still known in front of the branch.
  have hfalse : still = true → kind = .conjunction ∧
      machine.registers (machine.reached r block site m) dst = machine.consts .falsehood := by
    rintro rfl
    rw [Bool.and_eq_true] at hstill
    rw [Processor.reached_of_keepsUpTo hstill.2]
    exact hknown hstill.1
  generalize machine.reached r block site m = tested at hfalse ⊢
  cases hdefault : branch.falseDefault?.isSome with
  | true =>
    obtain ⟨hkind, hset⟩ : kind = .conjunction ∧ machine.registers
        (machine.executeDelay branch tested) dst = machine.consts .falsehood :=
      h.registers_default hdefault tested
    rw [if_pos hdefault] at hholds
    refine ⟨fun _ => ?_, _, hholds, ?_⟩
    · rw [hset, hkind]
      rfl
    · cases hlikely : branch.likely with
      | false => exact fun _ => ⟨hkind, hset⟩
      | true => simpa using hfalse
  | false =>
    rw [hdefault, if_neg Bool.false_ne_true, Bool.and_eq_true] at hholds
    have hnone : branch.falseDefault? = none := Option.not_isSome_iff_eq_none.1 (by simp [hdefault])
    have hkept : (still && !branch.writes.contains dst) = true → kind = .conjunction ∧
        machine.registers tested dst = machine.consts .falsehood ∧
        machine.registers (machine.executeDelay branch tested) dst = machine.consts .falsehood := by
      intro hkept
      rw [Bool.and_eq_true, Bool.not_eq_true'] at hkept
      obtain ⟨hkind, hword⟩ := hfalse hkept.1
      refine ⟨hkind, hword, ?_⟩
      rw [Processor.executeDelay_of_not_mem_writes (Bool.eq_false_iff.1 hkept.2), hword]
    refine ⟨fun htaken => ?_, _, hholds.2, fun hkeeps => ?_⟩
    · rcases Bool.or_eq_true_iff.1 hholds.1 with honly | hkeeps
      · exact h.decided_of_onlyTested hnone (eq_of_beq honly) htaken
      · obtain ⟨rfl, -, hset⟩ := hkept hkeeps
        rw [hset]
        rfl
    · obtain ⟨hkind, hword, hset⟩ := hkept hkeeps
      refine ⟨hkind, ?_⟩
      split
      · exact hword
      · exact hset

end EntryAt

/-- On every way through a chain the register ends up with the word of the chain. -/
theorem exists_runsTo_of_exitsHold (machine : Processor M) (m : M) {b n : Nat} {known : Bool}
    (hentries : ∀ id, b ≤ id → id < b + n →
      ∃ block site branch, r.EntryAt kind (b + n + 1) dst id block site branch)
    (hlast : ∃ block, r.blocks[b + n]? = some block ∧ r.terminator (b + n) = .ok none)
    (hholds : r.exitsHold dst known (List.range' b n) = true) (hknown : known = true →
      kind = .conjunction ∧ machine.registers m dst = machine.consts .falsehood) :
    ∃ m', machine.RunsTo r (b + n + 1) b m m' ∧
      machine.chainWord r kind dst (List.range' b (n + 1)) m =
        some (machine.registers m' dst) := by
  induction n generalizing b known m with
  | zero =>
    obtain ⟨block, hblock, hnone⟩ := hlast
    refine ⟨_, .next (Nat.ne_of_lt (Nat.lt_succ_self b)) hblock hnone (.arrived _), ?_⟩
    rw [List.range'_one, Processor.chainWord]
    exact congrArg (Option.map _) hblock
  | succ n ih =>
    obtain ⟨block, site, branch, hentry⟩ := hentries b (Nat.le_refl b) (by omega)
    have hne : b ≠ b + (n + 1) + 1 := by omega
    rw [List.range'_succ] at hholds
    obtain ⟨hexit, known', hrest, hnext⟩ := hentry.exit_holds hholds hknown
    rw [hentry.chainWord_eq]
    cases htaken : machine.holds branch.condition (machine.reached r block site m) with
    | true =>
      refine ⟨_, .taken hne hentry.block_eq hentry.terminator_eq hentry.target_eq htaken, ?_⟩
      rw [if_pos rfl]
      exact hexit htaken
    | false =>
      have hshift : b + 1 + n = b + (n + 1) := by omega
      obtain ⟨m', hruns, hword⟩ := ih _ (b := b + 1)
        (by
          rw [hshift]
          exact fun id hle hlt => hentries id (by omega) hlt)
        (by rwa [hshift]) hrest hnext
      rw [hshift] at hruns
      refine ⟨m', .passed hne hentry.block_eq hentry.terminator_eq htaken hruns, ?_⟩
      rw [if_neg Bool.false_ne_true]
      exact hword

end Routine

end Decompiler
