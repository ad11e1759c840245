import Decompiler.Machine.Assembly
import Mathlib.Data.List.Induction

/-!
Where the statements of a program stand, counted in instructions, and what a draft holds of
them.  A program is drafted from its first statement to its last, so every fact here is kept
by one more statement at the end.
-/

namespace Decompiler

open List

namespace Statement

def addsInstruction : Statement → Bool
  | resultIn _ | label _ => false
  | _ => true

def label? : Statement → Option String
  | label name => some name
  | _ => none

end Statement

def instructionCount (program : List Statement) : Nat :=
  program.countP Statement.addsInstruction

/-- A statement of a program with so many instructions in front of it. -/
def PlacedAt (program : List Statement) (statement : Statement) (site : Nat) : Prop :=
  ∃ before after, program = before ++ statement :: after ∧ instructionCount before = site

/-- A branch statement with so many instructions in front of it. -/
def BranchesAt (program : List Statement) (site : Nat) : Prop :=
  ∃ test args target likely delay,
    PlacedAt program (.branch test args target likely delay) site

/-- A block starts at the first instruction, at a label, and behind a branch statement. -/
def StartsBlock (program : List Statement) (site : Nat) : Prop :=
  site = 0 ∨ (∃ name, PlacedAt program (.label name) site) ∨
    ∃ before, site = before + 1 ∧ BranchesAt program before

/-- What is drafted for a statement.  Only branch statements wait for a label, and only an
operation that is taken as it is can be a branch already. -/
def Drafts (site : Nat) : Statement → DraftOperation → Prop
  | .branch test args target likely delay, op =>
    op = .branch ⟨test, args.map (Operand.atom site)⟩ likely target
      (delay.map (Delay.operation site))
  | .operation raw, op => op = .ready raw
  | _, op => ∃ ready, op = .ready ready ∧ ready.branch? = none

def drafted (program : List Statement) : Draft := program.foldl Draft.add .empty

variable {program : List Statement} {statement other : Statement} {site : Nat} {name : String}

theorem drafted_concat (program : List Statement) (statement : Statement) :
    drafted (program ++ [statement]) = (drafted program).add statement := by
  simp [drafted]

theorem instructionCount_concat (program : List Statement) (statement : Statement) :
    instructionCount (program ++ [statement]) =
      instructionCount program + if statement.addsInstruction then 1 else 0 := by
  simp [instructionCount, countP_append, countP_singleton]

theorem placedAt_nil : ¬ PlacedAt [] statement site := by
  rintro ⟨before, after, h, -⟩
  simp at h

/-- A statement of a longer program stands in front of the last one, or is the last one. -/
theorem placedAt_concat :
    PlacedAt (program ++ [other]) statement site ↔
      PlacedAt program statement site ∨ statement = other ∧ site = instructionCount program := by
  constructor
  · rintro ⟨before, after, h, hcount⟩
    rcases eq_nil_or_concat after with rfl | ⟨init, last, rfl⟩
    · obtain ⟨rfl, hlast⟩ := append_inj' h rfl
      exact .inr ⟨(singleton_inj.1 hlast).symm, hcount.symm⟩
    · rw [concat_eq_append, ← cons_append, ← append_assoc] at h
      obtain ⟨rfl, -⟩ := append_inj' h rfl
      exact .inl ⟨before, init, rfl, hcount⟩
  · rintro (⟨before, after, rfl, hcount⟩ | ⟨rfl, rfl⟩)
    · exact ⟨before, after ++ [other], by simp, hcount⟩
    · exact ⟨program, [], rfl, rfl⟩

theorem PlacedAt.mem (h : PlacedAt program statement site) : statement ∈ program := by
  obtain ⟨before, after, rfl, -⟩ := h
  simp

theorem exists_placedAt (h : statement ∈ program) : ∃ site, PlacedAt program statement site := by
  obtain ⟨before, after, rfl⟩ := append_of_mem h
  exact ⟨_, before, after, rfl, rfl⟩

theorem PlacedAt.le (h : PlacedAt program statement site) : site ≤ instructionCount program := by
  obtain ⟨before, after, rfl, rfl⟩ := h
  simp [instructionCount, countP_append]

theorem PlacedAt.lt (h : PlacedAt program statement site)
    (hadds : statement.addsInstruction = true) : site < instructionCount program := by
  obtain ⟨before, after, rfl, rfl⟩ := h
  simp only [instructionCount, countP_append, countP_cons, hadds]
  simp

theorem BranchesAt.lt (h : BranchesAt program site) : site < instructionCount program := by
  obtain ⟨test, args, target, likely, delay, hplaced⟩ := h
  exact hplaced.lt rfl

namespace Draft

/-- Adding a statement either leaves the operations as they are or adds the one that is drafted
for it. -/
theorem add_ops (d : Draft) (statement : Statement) :
    (statement.addsInstruction = false ∧ (d.add statement).ops = d.ops) ∨
      statement.addsInstruction = true ∧
        ∃ op, (d.add statement).ops = d.ops.push op ∧ Drafts d.ops.size statement op := by
  cases statement with
  | resultIn r => exact .inl ⟨rfl, rfl⟩
  | label name => exact .inl ⟨rfl, rfl⟩
  | branch test args target likely delay => exact .inr ⟨rfl, _, rfl, rfl⟩
  | operation op => exact .inr ⟨rfl, _, rfl, rfl⟩
  | set | setCondition | load | store | divide | floatCompare | call | conditionalMove | special
  | asm => exact .inr ⟨rfl, _, rfl, _, rfl, rfl⟩

theorem add_labels (d : Draft) (statement : Statement) :
    (d.add statement).labels.toList =
      d.labels.toList ++ (statement.label?.map fun name => (name, d.ops.size)).toList := by
  cases statement with
  | label name => exact Array.toList_push
  | resultIn | branch | operation | set | setCondition | load | store | divide | floatCompare
  | call | conditionalMove | special | asm => exact (append_nil _).symm

end Draft

theorem size_ops_drafted (program : List Statement) :
    (drafted program).ops.size = instructionCount program := by
  induction program using List.reverseRecOn with
  | nil => rfl
  | append_singleton program statement ih =>
    rw [drafted_concat, instructionCount_concat]
    rcases (drafted program).add_ops statement with ⟨hadds, hops⟩ | ⟨hadds, op, hops, -⟩
    · simp [hops, hadds, ih]
    · simp [hops, hadds, ih]

/-- The names that are defined, in order. -/
theorem map_labels_drafted (program : List Statement) :
    (drafted program).labels.toList.map Prod.fst = program.filterMap Statement.label? := by
  induction program using List.reverseRecOn with
  | nil => rfl
  | append_singleton program statement ih =>
    rw [drafted_concat, Draft.add_labels, map_append, ih, filterMap_append]
    cases hlabel : statement.label? <;> simp [hlabel]

theorem label?_eq_some : statement.label? = some name ↔ statement = .label name := by
  cases statement <;> simp [Statement.label?]

theorem mem_labels_drafted :
    (name, site) ∈ (drafted program).labels.toList ↔ PlacedAt program (.label name) site := by
  induction program using List.reverseRecOn with
  | nil => simp [drafted, Draft.empty, placedAt_nil]
  | append_singleton program statement ih =>
    have hnew : (name, site) ∈
        (statement.label?.map fun name => (name, instructionCount program)).toList ↔
          .label name = statement ∧ site = instructionCount program := by
      simp [label?_eq_some, @eq_comm _ (Statement.label name), @eq_comm _ site]
    rw [drafted_concat, Draft.add_labels, mem_append, ih, placedAt_concat, size_ops_drafted, hnew]

/-- What is drafted at a position comes from the statement there. -/
theorem exists_placedAt_of_op {op : DraftOperation} (h : (drafted program).ops[site]? = some op) :
    ∃ statement, PlacedAt program statement site ∧ Drafts site statement op := by
  induction program using List.reverseRecOn with
  | nil => simp [drafted, Draft.empty] at h
  | append_singleton program statement ih =>
    rw [drafted_concat] at h
    have hearlier : (drafted program).ops[site]? = some op →
        ∃ st, PlacedAt (program ++ [statement]) st site ∧ Drafts site st op := by
      intro hop
      obtain ⟨st, hplaced, hdrafts⟩ := ih hop
      exact ⟨st, placedAt_concat.2 (.inl hplaced), hdrafts⟩
    rcases (drafted program).add_ops statement with ⟨-, hops⟩ | ⟨-, new, hops, hdrafts⟩
    · rw [hops] at h
      exact hearlier h
    · rw [hops, Array.getElem?_push] at h
      split at h
      · rename_i hsite
        cases h
        subst hsite
        exact ⟨statement, placedAt_concat.2 (.inr ⟨rfl, size_ops_drafted program⟩), hdrafts⟩
      · exact hearlier h

/-- A statement that adds an instruction is drafted at its position. -/
theorem PlacedAt.exists_op (h : PlacedAt program statement site)
    (hadds : statement.addsInstruction = true) :
    ∃ op, (drafted program).ops[site]? = some op ∧ Drafts site statement op := by
  induction program using List.reverseRecOn with
  | nil => exact absurd h placedAt_nil
  | append_singleton program other ih =>
    rw [drafted_concat]
    have hkept : ∀ op, (drafted program).ops[site]? = some op →
        ((drafted program).add other).ops[site]? = some op := by
      intro op hop
      rcases (drafted program).add_ops other with ⟨-, hops⟩ | ⟨-, new, hops, -⟩
      · rw [hops, hop]
      · have hsite := (Array.getElem?_eq_some_iff.1 hop).1
        rw [hops, Array.getElem?_push, if_neg (Nat.ne_of_lt hsite), hop]
    rcases placedAt_concat.1 h with hplaced | ⟨rfl, rfl⟩
    · obtain ⟨op, hop, hdrafts⟩ := ih hplaced
      exact ⟨op, hkept op hop, hdrafts⟩
    · rcases (drafted program).add_ops statement with ⟨hnot, -⟩ | ⟨-, new, hops, hdrafts⟩
      · rw [hadds] at hnot
        cases hnot
      · rw [size_ops_drafted] at hdrafts
        refine ⟨new, ?_, hdrafts⟩
        rw [hops, Array.getElem?_push, if_pos (size_ops_drafted program).symm]

/-- A branch that waits for a label comes from a branch statement. -/
theorem branchesAt_iff :
    BranchesAt program site ↔
      ((drafted program).ops[site]?.map DraftOperation.isBranch).getD false = true := by
  constructor
  · rintro ⟨test, args, target, likely, delay, hplaced⟩
    obtain ⟨op, hop, rfl⟩ := hplaced.exists_op rfl
    simp [hop, DraftOperation.isBranch]
  · intro h
    cases hop : (drafted program).ops[site]? with
    | none => simp [hop] at h
    | some op =>
      obtain ⟨statement, hplaced, hdrafts⟩ := exists_placedAt_of_op hop
      simp only [hop, Option.map_some, Option.getD_some] at h
      cases statement with
      | branch test args target likely delay => exact ⟨test, args, target, likely, delay, hplaced⟩
      | operation raw =>
        cases hdrafts
        cases h
      | resultIn | label | set | setCondition | load | store | divide | floatCompare | call
      | conditionalMove | special | asm =>
        obtain ⟨ready, rfl, -⟩ := hdrafts
        cases h

theorem exists_branch_of_op {condition : Condition} {likely : Bool} {target : String}
    {delay : Option Operation}
    (h : (drafted program).ops[site]? = some (.branch condition likely target delay)) :
    ∃ test args slot, PlacedAt program (.branch test args target likely slot) site ∧
      condition = ⟨test, args.map (Operand.atom site)⟩ ∧
        delay = slot.map (Delay.operation site) := by
  have hbranches : BranchesAt program site := by
    rw [branchesAt_iff, h]
    rfl
  obtain ⟨test, args, target, likely, slot, hplaced⟩ := hbranches
  obtain ⟨op, hop, rfl⟩ := hplaced.exists_op rfl
  rw [h] at hop
  cases hop
  exact ⟨test, args, slot, hplaced, rfl, rfl⟩

/-- An operation that is taken as it is and is a branch comes from such a statement. -/
theorem placedAt_raw_iff {b : Branch} :
    PlacedAt program (.operation (.branch b)) site ↔
      (drafted program).ops[site]? = some (.ready (.branch b)) := by
  constructor
  · intro hplaced
    obtain ⟨op, hop, rfl⟩ := hplaced.exists_op rfl
    exact hop
  · intro hop
    obtain ⟨statement, hplaced, hdrafts⟩ := exists_placedAt_of_op hop
    cases statement with
    | branch => cases hdrafts
    | operation raw =>
      cases hdrafts
      exact hplaced
    | resultIn | label | set | setCondition | load | store | divide | floatCompare | call
    | conditionalMove | special | asm =>
      obtain ⟨ready, hready, hnone⟩ := hdrafts
      cases hready
      cases hnone

/-- The positions where the draft starts blocks. -/
theorem startsBlock_drafted :
    (drafted program).startsBlock site = true ↔ StartsBlock program site := by
  have hlabel : ((drafted program).labels.any fun l => l.2 == site) = true ↔
      ∃ name, PlacedAt program (.label name) site := by
    simp only [← mem_labels_drafted, Array.any_eq_true', beq_iff_eq, Prod.exists,
      Array.mem_toList_iff]
    constructor
    · rintro ⟨name, i, hmem, rfl⟩
      exact ⟨name, hmem⟩
    · rintro ⟨name, hmem⟩
      exact ⟨name, site, hmem, rfl⟩
  rw [Draft.startsBlock, Bool.or_eq_true, Bool.or_eq_true, hlabel, beq_iff_eq, or_assoc,
    ← branchesAt_iff]
  cases site with
  | zero => simp [StartsBlock]
  | succ before => simp [StartsBlock]

instance decidableStartsBlock (program : List Statement) (site : Nat) :
    Decidable (StartsBlock program site) :=
  decidable_of_iff _ startsBlock_drafted

/-- The number of blocks: one for each position where a block starts, and the epilogue. -/
def blockCount (program : List Statement) : Nat :=
  ((List.range (instructionCount program)).filter fun i => StartsBlock program i).length + 1

theorem starts_drafted (program : List Statement) :
    (drafted program).starts =
      (List.range (instructionCount program)).filter fun i => StartsBlock program i := by
  rw [Draft.starts, size_ops_drafted]
  apply filter_congr
  intro i _
  rw [Bool.eq_iff_iff, startsBlock_drafted, decide_eq_true_eq]

theorem exists_of_assembles {check : Routine → Bool}
    (h : (assemble name program).toOption.any check = true) :
    ∃ r, assemble name program = .ok r ∧ check r = true := by
  obtain ⟨r, hr, hcheck⟩ := (Option.any_eq_true _ _).1 h
  cases hassemble : assemble name program with
  | error e =>
    rw [hassemble] at hr
    cases hr
  | ok r' =>
    rw [hassemble] at hr
    cases hr
    exact ⟨r, rfl, hcheck⟩

end Decompiler
