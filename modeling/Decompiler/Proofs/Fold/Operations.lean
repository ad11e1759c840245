import Decompiler.Proofs.Fold.Conditions
import Decompiler.Proofs.Fold.Tame

/-!
What operations are made of.  An operation takes entries off the stack and pushes one that
consists of what they bring, in the order in which the operation evaluates its operands, and
behind that of elements of its own.
-/

namespace Decompiler

open TryFoldM List RegisterSet

variable {s : FoldState} {read : List Register} {E : List Held} {f : FormId} {hs : List Root}

namespace Operation

/-- The operands that can be taken off the stack, in the order in which they are evaluated
then.  A store evaluates its value before its base. -/
def evaluates : Operation → List Atom
  | set _ source => source.args
  | setCondition _ condition => condition.args
  | load _ base _ _ _ => [base]
  | store base _ value _ _ => [value, base]
  | divide a b _ => [a, b]
  | floatCompare _ a b => [a, b]
  | call callee args _ => .var callee :: args.map .var
  | conditionalMove dst _ test _ => [.var test, .var dst]
  | branch _ | special _ | asm _ _ _ => []

/-- Whether operands are taken off the stack in the opposite order of their evaluation, the
last one first. -/
def isStrict : Operation → Bool
  | store _ _ _ _ _ => false
  | _ => true

/-- Whether an operation can become a value without an element of its own. -/
def isComputed : Operation → Bool
  | set _ _ | setCondition _ _ | divide _ _ _ | floatCompare _ _ _
  | conditionalMove _ _ _ _ => true
  | _ => false

/-- Whether an operation can be left as it is. -/
def mayStay : Operation → Bool
  | floatCompare _ _ _ | conditionalMove _ _ _ _ | asm _ _ _ => true
  | special kind => kind != .nop
  | _ => false

/-- The elements of its own that an operation at a position brings. -/
inductive Owns (site : Nat) : Operation → List Element → Prop
  | nothing {op : Operation} (h : op.isComputed = true) : Owns site op []
  | literal {op : Operation} (h : op.mayStay = true) : Owns site op [.operation site op.writes]
  | falseMove (dst : Variable) (source : Atom) (test : Variable) (onZero : Bool) :
      Owns site (.conditionalMove dst source test onZero) [.moveFalse dst test onZero site]
  | load (dst : Variable) (base : Atom) (offset : Word) (size : Nat) (kind : LoadKind)
      {place : Element} (h : place.isPlace = true) :
      Owns site (.load dst base offset size kind) [place]
  | constantStore (base : Atom) (offset : Word) (value : Atom) (size : Nat) (kind : StoreKind) :
      Owns site (.store base offset value size kind) [.store site]
  | store (base : Atom) (offset : Word) (value : Atom) (size : Nat) (kind : StoreKind)
      {place : Element} (h : place.isPlace = true) (f g : FormId) :
      Owns site (.store base offset value size kind) [place, .setPlace f g]
  | call (callee : Variable) (args : List Variable) (result : Option Variable) (f : FormId)
      (fs : List FormId) : Owns site (.call callee args result) [.apply (.callee f) fs]
  | branch (b : Branch) : Owns site (.branch b) [.branch site (Operation.branch b).writes]

end Operation

/-- Whether an element stands for an operation by its position alone, without its operands. -/
def Element.isIndexed : Element → Bool
  | .operation _ _ | .store _ | .branch _ _ => true
  | _ => false

/-- Whether an entry is no sequence point whatever it holds: a division, and a comparison of
floats. -/
def Pending.isDeferred : Pending → Bool
  | assign dst _ _ _ _ => dst.register = .fcc
  | statement _ _ => false
  | division _ => true

namespace Held

/-- An entry with an effect is a sequence point or deferred. -/
def Guarded (held : Held) : Prop :=
  held.pending.isSequencePoint = true ∨ held.pending.isDeferred = true ∨
    ∀ o ∈ held.substance, o.2.effect? = none

/-- The element that stands as an entry, unless it is a value. -/
def element? : Held → Option Element
  | value _ _ _ _ => none
  | statement n _ => some n.element
  | division n => some n.element

def assigned : Held → RegisterSet
  | value dst _ _ _ => .single dst.register
  | statement n _ => n.element.localWrites
  | division n => n.element.localWrites

end Held

/-- Some forms are made of entries that were taken off a stack and of elements of their own. -/
def FoldState.Made (s : FoldState) (strict : Bool) (operands : List (Option Register))
    (read : List Register) (E : List Held) (own : List Observation) (fs : List FormId)
    (hs : List Root) : Prop :=
  ∃ taken kept T, Held.Takes strict operands E taken kept ∧ Brings read taken T ∧
    s.Carries kept (T ++ own) fs hs

/-- An entry that was made of others and of elements of its own stands on top of those that
were kept. -/
def FoldState.Pushed (s : FoldState) (strict : Bool) (operands : List (Option Register))
    (read : List Register) (E : List Held) (own : List Observation) (held : Held)
    (hs : List Root) : Prop :=
  ∃ taken kept T, Held.Takes strict operands E taken kept ∧ Brings read taken T ∧
    s.Lists (held :: kept) hs ∧ held.substance = T ++ own ∧ held.control? = none ∧ held.Guarded

namespace Context

/-- An operation reads a register although the entry that it pushes does not show it: the element
that stands there keeps its position only, or it is a move that keeps its destination, or static
data is addressed by its label, or a test of the float flag leaves out either the flag or its
operands. -/
inductive Hides (cx : Context) : Operation → Option Element → Register → Prop
  | indexed (op : Operation) {element : Element} (h : element.isIndexed = true) (r : Register) :
      Hides cx op (some element) r
  | kept (dst : Variable) (source : Atom) (test : Variable) (onZero : Bool) (site : Nat) :
      Hides cx (.conditionalMove dst source test onZero) (some (.moveFalse dst test onZero site))
        dst.register
  | label (dst : Variable) {source : Expression} (h : source.staticLabel?.isSome = true)
      (r : Register) : Hides cx (.set dst source) none r
  | flag (dst : Variable) {condition : Condition} (h : condition.test.readsFlag = true)
      {r : Register} (hr : r = .fcc ∨ cx.config.allows .floatCompare = true) :
      Hides cx (.setCondition dst condition) none r
  | compared {test : Test} (h : test.readsFlag = true) (a b : Atom) (r : Register) :
      Hides cx (.floatCompare test a b) none r

/-- The registers that an operation writes, apart from a result of a call that nothing reads. -/
def liveWrites (cx : Context) (site : Nat) : Operation → RegisterSet
  | .call _ _ result =>
    Variable.optionalRegister (result.filter fun dst => cx.isLiveAfter site dst.register)
  | op => op.writes

/-- An operation has been folded into an entry.  Its own elements are new, what it reads is shown
or brought or hidden, and the entry assigns what it writes. -/
def Adds (cx : Context) (site : Nat) (op : Operation) (n : Nat) (E : List Held)
    (hs : List Root) (s : FoldState) : Prop :=
  ∃ read own held,
    s.Pushed op.isStrict (op.evaluates.map Atom.register?) read E own held hs ∧
    op.Owns site (own.map Prod.snd) ∧ (∀ o ∈ own, n ≤ o.1.index) ∧
    (∀ r ∈ op.reads, r ∈ read ∨ (∃ o ∈ own, o.Reads r) ∨ cx.Hides op held.element? r) ∧
    held.assigned = cx.liveWrites site op

end Context

namespace FoldState

variable {strict : Bool} {operands : List (Option Register)} {own : List Observation}
  {fs : List FormId} {element : Element}

theorem Folds.made (h : s.Folds operands read E fs hs) : s.Made true operands read E [] fs hs := by
  obtain ⟨taken, kept, T, htakes, hbrings, hcarries⟩ := h
  exact ⟨taken, kept, T, htakes, hbrings, by rw [append_nil]; exact hcarries⟩

/-- Nothing was taken yet. -/
theorem Made.nil (strict : Bool) (operands : List (Option Register)) (h : s.Lists E hs) :
    s.Made strict operands [] E [] [] hs :=
  ⟨[], E, [], .nothing strict operands E, .nothing, .nil h⟩

theorem Made.addSingle (h : s.Made strict operands read E own element.children hs) :
    (FoldM.addSingle element).Ends s fun f s' =>
      s'.Made strict operands read E (own ++ element.substance ⟨s.pool.elements.size⟩) [f] hs := by
  obtain ⟨taken, kept, T, htakes, hbrings, hcarries⟩ := h
  refine ⟨taken, kept, T, htakes, hbrings, ?_⟩
  rw [← append_assoc]
  exact hcarries.addSingle

theorem Made.push (dst : Variable) (ordered : Bool) (notes : SetNotes)
    (h : s.Made strict operands read E own [f] hs)
    (hguarded : ∀ t, s.pool.Holds t → t.elements.Nodup → t.id = f →
      (Held.value dst t ordered notes).Guarded) :
    ∃ held, held.element? = none ∧ held.assigned = .single dst.register ∧
      { s with stack := s.stack.pushValue dst f ordered notes }.Pushed strict operands read E own
        held hs := by
  obtain ⟨taken, kept, T, htakes, hbrings, hcarries⟩ := h
  obtain ⟨t, rfl, hlists, hT⟩ := hcarries.exists_single
  have hheld : s.Lists kept ((Held.value dst t ordered notes).root :: hs) := hlists
  exact ⟨.value dst t ordered notes, rfl, rfl, taken, kept, T, htakes, hbrings, hheld.push, hT, rfl,
    hguarded t hheld.owns.tree_holds hheld.owns.tree_elements_nodup rfl⟩

/-- A value with an effect is pushed as a sequence point. -/
theorem Made.pushValue {dst : Variable} {notes : SetNotes}
    (h : s.Made strict operands read E own [f] hs) :
    (FoldM.pushValue dst f notes).Ends s fun _ s' => ∃ held, held.element? = none ∧
      held.assigned = .single dst.register ∧ s'.Pushed strict operands read E own held hs := by
  apply h.push
  intro t hholds hnodup hid
  cases hpure : s.pool.formHasEffect f with
  | true => exact .inl rfl
  | false =>
    refine .inr (.inr fun o ho => ?_)
    exact hholds.effect?_eq_none hnodup (hid ▸ hpure) o (mem_filter.1 ho).1

theorem Made.addElement (h : s.Made strict operands read E own element.children hs) :
    (FoldM.addElement element).Ends s fun e s' => ∃ taken kept T node,
      Held.Takes strict operands E taken kept ∧ Brings read taken T ∧ node.id = e ∧
      node.element = element ∧ s'.Lists kept (.node node :: hs) ∧
      node.substance = T ++ (own ++ element.substance ⟨s.pool.elements.size⟩) := by
  obtain ⟨taken, kept, T, htakes, hbrings, ts, hts, hlists, hT⟩ := h
  refine ⟨taken, kept, T, ⟨⟨s.pool.elements.size⟩, element, ts⟩, htakes, hbrings, rfl, rfl,
    hlists.addElement hts.symm, ?_⟩
  rw [Node.substance_eq, hT, append_assoc]

/-- A new statement that is no control structure. -/
theorem Made.pushNew (h : s.Made strict operands read E own element.children hs)
    (hcontrol : element.isControl = false) :
    (FoldM.pushNew element).Ends s fun _ s' => ∃ held, held.element? = some element ∧
      held.assigned = element.localWrites ∧
      s'.Pushed strict operands read E (own ++ element.substance ⟨s.pool.elements.size⟩) held
        hs := by
  rw [FoldM.pushNew]
  refine h.addElement.bind fun e s' hnode => ?_
  obtain ⟨taken, kept, T, node, htakes, hbrings, rfl, rfl, hlists, hT⟩ := hnode
  have hheld : s'.Lists kept ((Held.statement node true).root :: hs) := hlists
  exact ⟨.statement node true, rfl, rfl, taken, kept, T, htakes, hbrings, hheld.push, hT,
    if_neg (by rw [hcontrol]; exact Bool.false_ne_true), .inl rfl⟩

end FoldState

namespace Context

variable {cx : Context} {kept : List Held} {T : List Observation} {site n : Nat} {op : Operation}
  {held : Held} {dst : Variable} {offset : Word} {size : Nat} {notes : SetNotes}

theorem mem_registersOf {atoms : List Atom} {r : Register} :
    r ∈ Atom.registersOf atoms ↔ r ∈ atoms.filterMap Atom.register? := mem_ofList

variable {standing : Option Element} {base : FormId} {kind : LoadKind} {a b : Atom}

/-- An operation was folded without an element of its own. -/
theorem adds_value (h : ∃ held, held.element? = standing ∧ held.assigned = cx.liveWrites site op ∧
      s.Pushed op.isStrict (op.evaluates.map Atom.register?) read E [] held hs)
    (hop : op.isComputed = true) (hreads : ∀ r ∈ op.reads, r ∈ read ∨ cx.Hides op standing r) :
    cx.Adds site op n E hs s := by
  obtain ⟨held, rfl, hwrites, hpushed⟩ := h
  refine ⟨read, [], held, hpushed, .nothing hop, by simp, fun r hr => ?_, hwrites⟩
  exact (hreads r hr).imp_right .inr

/-- An operation brought one element of its own. -/
theorem adds_element {element : Element} {m : Nat}
    (h : ∃ held, held.element? = standing ∧ held.assigned = cx.liveWrites site op ∧
      s.Pushed op.isStrict (op.evaluates.map Atom.register?) read E (element.substance ⟨m⟩) held
        hs) (hplain : element.isPlain = false) (howns : op.Owns site [element]) (hm : n ≤ m)
    (hreads : ∀ r ∈ op.reads, r ∈ read ∨ (∃ v ∈ element.localReads, v.register = r) ∨
      cx.Hides op standing r) : cx.Adds site op n E hs s := by
  obtain ⟨held, rfl, hwrites, hpushed⟩ := h
  have hown : element.substance ⟨m⟩ = [(⟨m⟩, element)] :=
    if_neg (by rw [hplain]; exact Bool.false_ne_true)
  rw [hown] at hpushed
  refine ⟨read, _, held, hpushed, howns, by simpa using hm, fun r hr => ?_, hwrites⟩
  rcases hreads r hr with hread | hread | hhides
  · exact .inl hread
  · exact .inr (.inl ⟨_, mem_cons_self, hread⟩)
  · exact .inr (.inr hhides)

/-- A new statement without operands. -/
theorem pushNew_adds (element : Element) (h : s.Lists E hs) (hchildren : element.children = [])
    (hcontrol : element.isControl = false) (hplain : element.isPlain = false)
    (howns : op.Owns site [element])
    (hreads : ∀ r ∈ op.reads, (∃ v ∈ element.localReads, v.register = r) ∨
      cx.Hides op (some element) r) (hwrites : element.localWrites = cx.liveWrites site op) :
    (FoldM.pushNew element).Ends s fun _ s' => cx.Adds site op s.pool.elements.size E hs s' := by
  have hnone :
      s.Made op.isStrict (op.evaluates.map Atom.register?) [] E [] element.children hs := by
    rw [hchildren]
    exact .nil _ _ h
  exact (hnone.pushNew hcontrol).mono fun e s' hnew =>
    adds_element (hwrites ▸ hnew) hplain howns (Nat.le_refl _) fun r hr => .inr (hreads r hr)

theorem pushLiteral_adds (h : s.Lists E hs) (hop : op.mayStay = true) :
    (cx.pushLiteral site op).Ends s fun _ s' => cx.Adds site op s.pool.elements.size E hs s' := by
  have hwrites : op.writes = cx.liveWrites site op := by
    cases op <;> first | rfl | cases hop
  rw [pushLiteral]
  exact (pushNew_adds (.operation site op.writes) h rfl rfl rfl (.literal hop)
    (fun r _ => .inr (.indexed op rfl r)) hwrites).bind fun e s' hnew => hnew

theorem pushMove_adds {test : Variable} {source : Atom} {onZero : Bool} (h : s.Lists E hs) :
    (cx.pushMove site dst source test onZero).Ends s fun _ s' =>
      cx.Adds site (.conditionalMove dst source test onZero) s.pool.elements.size E hs s' := by
  have hreads : ∀ r ∈ (Operation.conditionalMove dst source test onZero).reads,
      r ∈ test.register :: dst.register :: source.register?.toList := by
    intro r hr
    rcases mem_union.1 hr with hr | hr
    · rw [mem_registersOf] at hr
      cases hsource : source.register? <;> simp_all
    · rcases mem_pair.1 (mem_ofList.1 hr) with rfl | rfl <;> simp
  have houtcome := cx.pushMove_outcome site dst source test onZero s
  intro a ha
  rcases hrun : (cx.pushMove site dst source test onZero).run s with ⟨result, s'⟩
  rw [hrun] at houtcome ha
  cases houtcome with
  | @kept element helem log =>
    unfold unpairedMove at helem
    split at helem
    · rename_i hfalse
      obtain rfl : source = .falsehood := eq_of_beq hfalse
      subst helem
      refine pushNew_adds _ h rfl rfl rfl (.falseMove ..) (fun r hr => ?_) rfl
      rcases mem_pair.1 (hreads r hr) with rfl | rfl
      · exact .inl ⟨test, mem_cons_self, rfl⟩
      · exact .inr (.kept ..)
    · subst helem
      exact pushNew_adds _ h rfl rfl rfl (.literal rfl) (fun r _ => .inr (.indexed _ rfl r)) rfl
  | refused => cases ha
  | @recognized stack element hfound message notes =>
    obtain ⟨hfolds, hplain⟩ := hfound.folds h
    have hmade := hfolds.made.addSingle
    rw [nil_append, Element.substance, if_pos hplain] at hmade
    exact adds_value hmade.pushValue rfl fun r hr => .inl (hreads r hr)

theorem fieldPath?_ends :
    (cx.fieldPath? base offset size).Ends s fun path s' =>
      s' = s ∧ ∀ steps, path = some steps → steps.filterMap PathStep.form? = [] := by
  unfold fieldPath?
  split
  · refine ⟨rfl, ?_⟩
    rintro steps ⟨⟩
  · rw [FoldM.ends_bind, FoldM.ends_formType]
    refine ⟨rfl, ?_⟩
    intro steps hsteps
    obtain ⟨access, -, rfl⟩ := Option.map_eq_some_iff.1 hsteps
    rw [filterMap_map, filterMap_eq_nil_iff]
    intro name _
    rfl

/-- A place in memory comes behind its base. -/
theorem memoryPlace_carries (h : s.Carries kept T [base] hs) :
    (cx.memoryPlace site base offset size kind).Ends s fun f s' => ∃ place : Element,
      place.isPlace = true ∧
      s'.Carries kept (T ++ [(⟨s.pool.elements.size⟩, place)]) [f] hs := by
  rw [memoryPlace]
  refine fieldPath?_ends.bind fun path s' hpath => ?_
  obtain ⟨rfl, hfields⟩ := hpath
  cases path with
  | some steps =>
    have hbase : s'.Carries kept T (Element.path base false steps).children hs := by
      rw [Element.children, hfields steps rfl]
      exact h
    simp only [FoldM.ends_bind, FoldM.ends_noteForm, FoldM.ends_note, FoldM.ends_pure]
    exact ⟨_, rfl, hbase.addSingle⟩
  | none =>
    have hbase : s'.Carries kept T (Element.load base offset size kind site).children hs := h
    exact ⟨_, rfl, hbase.addSingle⟩

theorem pushLoad_adds {base : Atom} (h : s.Lists E hs) :
    (cx.foldLoad site base offset size kind >>= fun value =>
      FoldM.pushValue dst value notes).Ends s fun _ s' =>
        cx.Adds site (.load dst base offset size kind) s.pool.elements.size E hs s' := by
  have hoperand : (cx.operand site base true).Tame :=
    .bind (cx.operands_tame site _ _) fun _ => .pure _
  rw [foldLoad, FoldM.ends_bind]
  refine ((operand_folds h).and (hoperand.advances s)).bind fun f s' hf => ?_
  obtain ⟨⟨taken, kept, T, htakes, hbrings, hcarries⟩, hadvance⟩ := hf
  refine (memoryPlace_carries hcarries).mono fun f' s'' hplace => ?_
  obtain ⟨place, hisPlace, hcarries'⟩ := hplace
  have hmade : s''.Made true [base.register?] ([base].filterMap Atom.register?) E
      [(⟨s'.pool.elements.size⟩, place)] [f'] hs := ⟨taken, kept, T, htakes, hbrings, hcarries'⟩
  refine hmade.pushValue.mono fun _ s₃ hnew => ?_
  obtain ⟨held, -, hwrites, hpushed⟩ := hnew
  exact ⟨_, _, held, hpushed, .load dst base offset size kind hisPlace,
    by simpa using hadvance.size, fun r hr => .inl (mem_registersOf.1 hr), hwrites⟩

/-- A store evaluates its value, its base and the place, and then stores. -/
theorem pushStore_adds {base value : Atom} {kind : StoreKind} (h : s.Lists E hs) :
    (cx.pushStore site base offset value size kind).Ends s fun _ s' =>
      cx.Adds site (.store base offset value size kind) s.pool.elements.size E hs s' := by
  unfold pushStore
  split
  · exact (pushNew_adds (.store site) h rfl rfl rfl (.constantStore ..)
      (fun r _ => .inr (.indexed _ rfl r)) rfl).bind fun e s' hnew => hnew
  · refine ((operands_takes h).and ((cx.operands_tame site _ _).advances s)).bind fun fs s' hfs => ?_
    obtain ⟨⟨found, kept, ts, htakes, hserves, rfl, hlists⟩, hadvance⟩ := hfs
    obtain ⟨t, u, taken, rfl, htakes, hbrings⟩ := hserves.swap htakes
    have hbase : s'.Carries kept t.substance [t.id] (.tree u :: hs) := .of_single hlists
    refine ((memoryPlace_carries hbase).and ((cx.memoryPlace_tame site _ _ _ _).advances s')).bind
      fun f s'' hplace => ?_
    obtain ⟨⟨place, hisPlace, hcarries⟩, hadvance'⟩ := hplace
    obtain ⟨v, rfl, hlists', hv⟩ := hcarries.exists_single
    have hmade : s''.Made false [value.register?, base.register?]
        ([value, base].filterMap Atom.register?) E [(⟨s'.pool.elements.size⟩, place)]
        (Element.setPlace v.id u.id).children hs := by
      refine ⟨taken, kept, _, htakes, hbrings, [u, v], rfl, hlists'.perm (List.Perm.swap _ _ _), ?_⟩
      simp [hv]
    refine (hmade.pushNew rfl).bind fun e s₃ hnew => ?_
    obtain ⟨held, -, hwrites, hpushed⟩ := hnew
    refine ⟨_, _, held, hpushed, .store base offset value size kind hisPlace v.id u.id, ?_,
      fun r hr => .inl ?_, hwrites⟩
    · refine forall_mem_cons.2 ⟨hadvance.size, forall_mem_singleton.2 ?_⟩
      exact (hadvance.trans hadvance').size
    · have hperm : [base, value].Perm [value, base] := List.Perm.swap _ _ _
      exact (hperm.filterMap _).mem_iff.1 (mem_registersOf.1 hr)

theorem pushCall_adds {callee : Variable} {args : List Variable} {result : Option Variable}
    (h : s.Lists E hs) :
    (cx.pushCall site callee args result).Ends s fun _ s' =>
      cx.Adds site (.call callee args result) s.pool.elements.size E hs s' := by
  rw [pushCall]
  refine ((operands_folds h).and ((cx.operands_tame site _ _).advances s)).bind fun fs s' hfs => ?_
  obtain ⟨⟨hlength, hfolds⟩, hadvance⟩ := hfs
  obtain ⟨f, fs, rfl⟩ := exists_cons_of_length_eq_add_one hlength
  have hcall : s'.Made true ((Operation.call callee args result).evaluates.map Atom.register?)
      ((Atom.var callee :: args.map Atom.var).filterMap Atom.register?) E []
      (Element.apply (.callee f) fs).children hs := hfolds.made
  have hreads : ∀ r ∈ (Operation.call callee args result).reads,
      r ∈ (Atom.var callee :: args.map Atom.var).filterMap Atom.register? := by
    intro r hr
    have hall : (Atom.var callee :: args.map Atom.var).filterMap Atom.register? =
        callee.register :: args.map Variable.register := by
      rw [← map_cons, ← map_cons, filterMap_map]
      exact congrFun filterMap_eq_map _
    rw [hall]
    exact mem_ofList.1 hr
  -- The call comes behind its operands, as a value and as a statement.
  have hadds : ∀ {s'' : FoldState} {standing : Option Element}, (∃ held : Held,
      held.element? = standing ∧
      held.assigned = cx.liveWrites site (.call callee args result) ∧
      s''.Pushed true ((Operation.call callee args result).evaluates.map Atom.register?)
        ((Atom.var callee :: args.map Atom.var).filterMap Atom.register?) E
        ((Element.apply (.callee f) fs).substance ⟨s'.pool.elements.size⟩) held hs) →
        cx.Adds site (.call callee args result) s.pool.elements.size E hs s'' :=
    fun hnew => adds_element hnew rfl (.call ..) hadvance.size fun r hr => .inl (hreads r hr)
  dsimp only
  split
  · rename_i dst hlive
    refine hcall.addSingle.bind fun value s'' hvalue => ?_
    rw [FoldM.ends_onStack]
    obtain ⟨held, hstanding, hwrites, hpushed⟩ := hvalue.push dst true {} fun _ _ _ _ => .inl rfl
    exact hadds ⟨held, hstanding, by rw [hwrites, liveWrites, hlive]; rfl, hpushed⟩
  · rename_i hdead
    refine (hcall.pushNew rfl).bind fun e s'' hnew => ?_
    obtain ⟨held, hstanding, hwrites, hpushed⟩ := hnew
    exact hadds ⟨held, hstanding, by rw [hwrites, liveWrites, hdead]; rfl, hpushed⟩

theorem pushDivide_adds {signed : Bool} (h : s.Lists E hs) :
    (cx.pushDivide site a b signed).Ends s fun _ s' =>
      cx.Adds site (.divide a b signed) s.pool.elements.size E hs s' := by
  rw [pushDivide]
  refine (operands_folds h).bind fun fs s' hfs => ?_
  obtain ⟨hlength, hfolds⟩ := hfs
  obtain ⟨f, g, rfl⟩ := length_eq_two.1 hlength
  have hdivide : s'.Made true ((Operation.divide a b signed).evaluates.map Atom.register?)
      ([a, b].filterMap Atom.register?) E [] (Element.divide f g signed site).children hs :=
    hfolds.made
  refine hdivide.addElement.bind fun e s'' hnode => ?_
  obtain ⟨taken, kept, T, node, htakes, hbrings, rfl, helem, hlists, hT⟩ := hnode
  have hreads : ∀ r ∈ (Operation.divide a b signed).reads, r ∈ [a, b].filterMap Atom.register? ∨
      cx.Hides (.divide a b signed) (some node.element) r :=
    fun r hr => .inl (mem_registersOf.1 hr)
  have hwrites : node.element.localWrites = cx.liveWrites site (.divide a b signed) := by
    rw [helem]
    rfl
  rw [FoldM.ends_onStack]
  split
  · have hheld : s''.Lists kept ((Held.division node).root :: hs) := hlists
    exact adds_value ⟨.division node, rfl, hwrites, taken, kept, T, htakes, hbrings, hheld.push,
      hT, rfl, .inr (.inl rfl)⟩ rfl hreads
  · have hheld : s''.Lists kept ((Held.statement node true).root :: hs) := hlists
    have hcontrol : (Held.statement node true).control? = none := by
      rw [Held.control?, helem]
      rfl
    exact adds_value ⟨.statement node true, rfl, hwrites, taken, kept, T, htakes, hbrings,
      hheld.push, hT, hcontrol, .inl rfl⟩ rfl hreads

theorem pushFloatCompare_adds {test : Test} (h : s.Lists E hs) :
    (cx.pushFloatCompare site test a b).Ends s fun _ s' =>
      cx.Adds site (.floatCompare test a b) s.pool.elements.size E hs s' := by
  unfold pushFloatCompare
  split
  · refine (buildCondition_folds h).bind fun f s' hf => ?_
    obtain ⟨read, hfolds, hread⟩ := hf
    rw [FoldM.ends_onStack]
    refine adds_value (hfolds.folds.made.push (.write .fcc site) false {}
      fun _ _ _ _ => .inr (.inl rfl)) rfl fun r hr => ?_
    rcases hread with rfl | ⟨hflag, -, -⟩
    · exact .inl (mem_registersOf.1 hr)
    · exact .inr (.compared hflag a b r)
  · exact pushLiteral_adds h rfl

theorem pushSet_adds {source : Expression}
    (h : s.Folds (source.args.map Atom.register?) source.registersRead E [f] hs) :
    (FoldM.pushValue dst f notes).Ends s fun _ s' => cx.Adds site (.set dst source) n E hs s' := by
  refine h.made.pushValue.mono fun _ s' hnew => adds_value hnew rfl fun r hr => ?_
  rw [Expression.registersRead]
  split
  · rename_i hlabel
    exact .inr (.label dst hlabel r)
  · exact .inl (mem_registersOf.1 hr)

theorem pushCondition_adds {condition : Condition}
    (h : cx.FoldsCondition site false (condition.args.map Atom.register?) read E hs f s)
    (hread : read = condition.args.filterMap Atom.register? ∨
      condition.test.readsFlag = true ∧ cx.config.allows .floatCompare = true ∧ read = [.fcc]) :
    (FoldM.pushValue dst f notes).Ends s fun _ s' =>
      cx.Adds site (.setCondition dst condition) n E hs s' := by
  refine h.folds.made.pushValue.mono fun _ s' hnew => adds_value hnew rfl fun r hr => ?_
  change r ∈ condition.reads at hr
  rcases hread with rfl | ⟨hflag, hallows, -⟩
  · unfold Condition.reads at hr
    split at hr
    · rename_i hflag
      rcases mem_insert.1 hr with hr | rfl
      · exact .inl (mem_registersOf.1 hr)
      · exact .inr (.flag dst hflag (.inl rfl))
    · exact .inl (mem_registersOf.1 hr)
  · exact .inr (.flag dst hflag (.inr hallows))

/-- Folding an operation adds it to the stack. -/
theorem pushFolded_adds (h : s.Lists E hs) (hop : op.isNop = false) :
    (cx.pushFolded site op).Ends s fun _ s' => cx.Adds site op s.pool.elements.size E hs s' := by
  cases op with
  | set dst source =>
    rw [pushFolded]
    refine (foldExpression_folds h).bind fun f s' hf => ?_
    rw [ends_lift]
    exact pushSet_adds hf
  | setCondition dst condition =>
    simp only [pushFolded, ends_bind, ends_lift]
    refine (buildCondition_folds h).mono fun f s' hf => ?_
    obtain ⟨read, hfolds, hread⟩ := hf
    exact pushCondition_adds hfolds hread
  | load dst base offset size kind =>
    simp only [pushFolded, ends_bind, ends_lift]
    exact pushLoad_adds h
  | store base offset value size kind =>
    rw [pushFolded, ends_lift]
    exact pushStore_adds h
  | divide a b signed =>
    rw [pushFolded, ends_lift]
    exact pushDivide_adds h
  | floatCompare test a b =>
    rw [pushFolded, ends_lift]
    exact pushFloatCompare_adds h
  | call callee args result =>
    rw [pushFolded, ends_lift]
    exact pushCall_adds h
  | conditionalMove dst source test onZero =>
    exact pushMove_adds h
  | branch b =>
    simp only [pushFolded, ends_bind, ends_lift, FoldM.ends_note]
    exact pushNew_adds (.branch site _) h rfl rfl rfl (.branch b)
      (fun r _ => .inr (.indexed _ rfl r)) rfl
  | special kind =>
    rw [pushFolded, ends_lift]
    cases kind with
    | nop => cases hop
    | trap => exact pushLiteral_adds h rfl
    | suspend => exact pushLiteral_adds h rfl
  | asm mnemonic dst sources =>
    rw [pushFolded, ends_lift]
    exact pushLiteral_adds h rfl

theorem pushOperation_adds (h : s.Lists E hs) (hmode : s.verbatim = false) (hop : op.isNop = false) :
    (cx.pushOperation site op).Ends s fun _ s' => cx.Adds site op s.pool.elements.size E hs s' := by
  rw [pushOperation, if_neg (by rw [hop]; exact Bool.false_ne_true), ends_bind,
    ends_get, if_neg (by rw [hmode]; exact Bool.false_ne_true)]
  exact pushFolded_adds h hop

end Context

end Decompiler
