import Decompiler.Proofs.Fold.Expressions
import Decompiler.Proofs.Fold.Runs
import Decompiler.Proofs.Meaning.Integers
import Decompiler.Proofs.Meaning.Interpretation

/-!
The rules for expressions denote what the machine computes.  Whatever is on the stack, the form
that a rule gives stands for the result of the operation on the words of its operands, popped or
not: constants that were evaluated, operands that were left out or cast, and shifts that became a
conversion make no difference.
-/

namespace Decompiler

open FoldM List

variable {env : TypeEnv} {p q : Pool} {f g : FormId} {fs gs : List FormId} {e : Expression}

namespace Word

variable {amount : Word} {bits m n : Nat}

theorem shiftLeft_sshiftRight (x : Word) (h : n + m = 64) (hm : 0 < m) :
    (x <<< n).sshiftRight n = (x.setWidth m).signExtend 64 := by
  apply BitVec.eq_of_getLsbD_eq
  intro i hi
  rw [BitVec.getLsbD_sshiftRight, BitVec.getLsbD_signExtend]
  have hword : ¬ 64 ≤ i := by omega
  by_cases hlow : i < m
  · have hin : n + i < 64 := by omega
    have hback : ¬ n + i < n := by omega
    simp [hi, hword, hlow, hin, hback]
  · have hout : ¬ n + i < 64 := by omega
    have hsign : (x <<< n).msb = (x.setWidth m).msb := by
      have hlast : 63 - n = m - 1 := by omega
      have hin : ¬ 63 < n := by omega
      have hpart : m - 1 < m := by omega
      rw [BitVec.msb_eq_getLsbD_last, BitVec.msb_eq_getLsbD_last, BitVec.getLsbD_shiftLeft,
        BitVec.getLsbD_setWidth]
      simp [hlast, hin, hpart]
    simp [hi, hword, hlow, hout, hsign]

theorem shiftLeft_ushiftRight (x : Word) (h : n + m = 64) :
    (x <<< n) >>> n = (x.setWidth m).setWidth 64 := by
  apply BitVec.eq_of_getLsbD_eq
  intro i hi
  by_cases hlow : i < m
  · have hin : n + i < 64 := by omega
    have hback : ¬ n + i < n := by omega
    simp [hi, hlow, hin, hback]
  · have hout : ¬ n + i < 64 := by omega
    simp [hlow, hout]

variable (h : extensionWidth? amount = some bits)
include h

theorem extensionWidth?_eq_some :
    amount = 32 ∧ bits = 32 ∨ amount = 48 ∧ bits = 16 ∨ amount = 56 ∧ bits = 8 := by
  unfold extensionWidth? at h
  split at h
  · rename_i hamount
    exact .inl ⟨hamount, (Option.some.inj h).symm⟩
  · split at h
    · rename_i hamount
      exact .inr (.inl ⟨hamount, (Option.some.inj h).symm⟩)
    · split at h
      · rename_i hamount
        exact .inr (.inr ⟨hamount, (Option.some.inj h).symm⟩)
      · cases h

/-- Shifting up and down again by an amount that leaves a part of the word is a conversion to
the width of that part. -/
theorem convert_extension (signed : Bool) (x : Word) :
    (TypeName.ofName ((if signed then "int" else "uint") ++ toString bits)).convert true x =
      (if signed then Operator.shiftRightArith else .shiftRightLogic).compute
        [x <<< shiftAmount amount, amount] := by
  have hcases := extensionWidth?_eq_some h
  have hsum : shiftAmount amount + bits = 64 ∧ 0 < bits := by
    rcases hcases with ⟨rfl, rfl⟩ | ⟨rfl, rfl⟩ | ⟨rfl, rfl⟩ <;> decide
  cases signed with
  | true =>
    have hconvert : (TypeName.ofName ("int" ++ toString bits)).convert true x =
        some ((x.setWidth bits).signExtend 64) := by
      rcases hcases with ⟨-, rfl⟩ | ⟨-, rfl⟩ | ⟨-, rfl⟩ <;> rfl
    rw [← shiftLeft_sshiftRight x hsum.1 hsum.2] at hconvert
    exact hconvert
  | false =>
    have hconvert : (TypeName.ofName ("uint" ++ toString bits)).convert true x =
        some ((x.setWidth bits).setWidth 64) := by
      rcases hcases with ⟨-, rfl⟩ | ⟨-, rfl⟩ | ⟨-, rfl⟩ <;> rfl
    rw [← shiftLeft_ushiftRight x hsum.1] at hconvert
    exact hconvert

/-- The types of such conversions are not that of floats. -/
theorem extension_ne_float (signed : Bool) :
    TypeName.ofName ((if signed then "int" else "uint") ++ toString bits) ≠ .float := by
  intro hfloat
  have hconvert := convert_extension h signed 0
  rw [hfloat] at hconvert
  cases signed <;> cases hconvert

end Word

namespace TypeEnv

/-- The type of a form is found from its element and the types right below it. -/
theorem formTypeWithin_congr {depth depth' : Nat}
    (helem : (q.single? f).map q.element = (p.single? f).map p.element)
    (hbelow : ∀ e ∈ p.elementsOf f, ∀ g ∈ (p.element e).children,
      env.formTypeWithin q depth g = env.formTypeWithin p depth' g) :
    env.formTypeWithin q (depth + 1) f = env.formTypeWithin p (depth' + 1) f := by
  rw [formTypeWithin, formTypeWithin, helem]
  cases hsingle : p.single? f with
  | none => rfl
  | some e =>
    have hkids := hbelow e (Pool.mem_of_single? hsingle)
    rw [Option.map_some]
    cases helem : p.element e with
    | abs source consumed site =>
      rw [helem] at hkids
      exact hkids source mem_cons_self
    | ash value amount signed consumed clobbered site =>
      rw [helem] at hkids
      exact hkids value mem_cons_self
    | apply head args =>
      rw [helem] at hkids
      cases head with
      | builtin b => exact congrArg b.resultType (map_congr_left hkids)
      | _ => rfl
    | atom a => cases a <;> rfl
    | _ => rfl

theorem formTypeWithin_goesDownAs (hext : p.Extends q) :
    p.GoesDownAs (env.formTypeWithin q) (env.formTypeWithin p) :=
  fun _ _ _ hf hbelow => formTypeWithin_congr (hf.single?_eq hext) hbelow

theorem formTypeWithin_of_empty (h : p.elementsOf f = []) :
    env.formTypeWithin p 1 f = env.formTypeWithin p 0 f := by
  have hnone : p.single? f = none := by
    rw [Pool.single?, h]
  simp only [formTypeWithin, hnone, Option.map_none]

/-- The type of a finite form is the same in a larger pool. -/
theorem formType_extends (h : p.Grounded f) (hext : p.Extends q) :
    env.formType q f = env.formType p f :=
  h.larger_eq (formTypeWithin_goesDownAs (.refl p)) (formTypeWithin_goesDownAs hext)
    (fun _ => formTypeWithin_of_empty) (fun _ => rfl) hext

/-- A tree has the same type in all pools that hold it. -/
theorem formType_of_holds {t : FormTree} (hp : p.Holds t) (hq : q.Holds t) :
    env.formType q t.id = env.formType p t.id := by
  have hsame : ∀ (depth : Nat) {t : FormTree}, p.Holds t → q.Holds t →
      env.formTypeWithin q depth t.id = env.formTypeWithin p depth t.id := by
    intro depth
    induction depth with
    | zero => exact fun _ _ => rfl
    | succ depth ih =>
      intro t hp hq
      refine formTypeWithin_congr ?_ fun e he g hg => ?_
      · rw [Pool.single?, Pool.single?, hp.elementsOf_eq, hq.elementsOf_eq]
        rcases hnodes : t.nodes with _ | ⟨n, _ | ⟨m, rest⟩⟩
        · rfl
        · have hn : n ∈ t.nodes := hnodes ▸ mem_cons_self
          exact congrArg some ((hq.node n hn).element_eq.trans (hp.node n hn).element_eq.symm)
        · rfl
      · rw [hp.elementsOf_eq] at he
        obtain ⟨n, hn, rfl⟩ := mem_map.1 he
        rw [(hp.node n hn).element_eq, (hp.node n hn).kids] at hg
        obtain ⟨u, hu, rfl⟩ := mem_map.1 hg
        exact ih ((hp.node n hn).below u hu) ((hq.node n hn).below u hu)
  have hlarge : ∀ {p : Pool}, p.Holds t → ∀ depth, p.elements.size ≤ depth →
      env.formTypeWithin p depth t.id = env.formType p t.id := fun h _ hdepth =>
    (Pool.Grounded.of_holds h).deeper_eq (formTypeWithin_goesDownAs (.refl _))
      (fun _ => formTypeWithin_of_empty) hdepth
  rw [← hlarge hq _ (Nat.le_max_right p.elements.size q.elements.size),
    ← hlarge hp _ (Nat.le_max_left p.elements.size q.elements.size), hsame _ hp hq]

/-- The type of an operation comes from the types of its operands. -/
theorem formType_apply (h : p.Grounded f) {b : Builtin} {args : List FormId}
    (helem : (p.single? f).map p.element = some (.apply (.builtin b) args)) :
    env.formType p f = b.resultType (args.map (env.formType p)) := by
  obtain ⟨e, hsingle, happly⟩ := Option.map_eq_some_iff.1 helem
  have hargs : args.map (env.formType p) = args.map (env.formTypeWithin p (p.elements.size - 1)) := by
    refine map_congr_left fun g hg => ?_
    refine h.child_eq (formTypeWithin_goesDownAs (.refl p)) (fun _ => formTypeWithin_of_empty)
      (Pool.mem_of_single? hsingle) ?_
    rw [happly]
    exact hg
  rw [hargs, formType]
  obtain ⟨n, hn⟩ := h.exists_size hsingle
  rw [hn, formTypeWithin, helem]
  rfl

theorem formType_cast (h : p.Grounded f) {type : TypeName} {source : FormId} {numeric : Bool}
    (helem : (p.single? f).map p.element = some (.cast type source numeric)) :
    env.formType p f = some type := by
  obtain ⟨e, hsingle, -⟩ := Option.map_eq_some_iff.1 helem
  obtain ⟨n, hn⟩ := h.exists_size hsingle
  rw [formType, hn, formTypeWithin, helem]

def atomType (env : TypeEnv) : Atom → Option TypeName
  | .var v => env.variableType v
  | .float _ => some .float
  | .symbol _ => some .symbol
  | _ => none

theorem formType_atom (h : p.Grounded f) {a : Atom}
    (helem : (p.single? f).map p.element = some (.atom a)) :
    env.formType p f = env.atomType a := by
  obtain ⟨e, hsingle, -⟩ := Option.map_eq_some_iff.1 helem
  obtain ⟨n, hn⟩ := h.exists_size hsingle
  rw [formType, hn, formTypeWithin, helem]
  cases a <;> rfl

end TypeEnv

namespace Pool

/-- A finite form that is not known to be a float. -/
structure HasWord (p : Pool) (env : TypeEnv) (f : FormId) : Prop where
  grounded : p.Grounded f
  type_ne : env.formType p f ≠ some .float

theorem HasWord.mono (h : p.HasWord env f) (hext : p.Extends q) : q.HasWord env f where
  grounded := h.grounded.mono hext
  type_ne := by
    rw [TypeEnv.formType_extends h.grounded hext]
    exact h.type_ne

theorem HasWord.of_holds {t : FormTree} (h : p.HasWord env t.id) (hp : p.Holds t)
    (hq : q.Holds t) : q.HasWord env t.id where
  grounded := .of_holds hq
  type_ne := by
    rw [TypeEnv.formType_of_holds hp hq]
    exact h.type_ne

end Pool

/-- A kind of forms and of operands that integer arithmetic stays within. -/
structure WordKind (env : TypeEnv) where
  form : Pool → FormId → Prop
  operand : Atom → Prop
  hasWord : ∀ {p : Pool} {f : FormId}, form p f → p.HasWord env f
  mono : ∀ {p q : Pool} {f : FormId}, form p f → p.Extends q → form q f
  int : ∀ w : Word, operand (.int w)
  atom : ∀ {p : Pool} {f : FormId} {a : Atom}, p.Grounded f →
    (p.single? f).map p.element = some (.atom a) → operand a → form p f
  apply : ∀ {p : Pool} {f : FormId} {b : Builtin} {args : List FormId}, p.Grounded f →
    (p.single? f).map p.element = some (.apply (.builtin b) args) → b.Takes args.length →
    (∀ g ∈ args, form p g) → form p f
  cast : ∀ {p : Pool} {f g : FormId} {type : TypeName} {numeric : Bool}, p.Grounded f →
    (p.single? f).map p.element = some (.cast type g numeric) → type ≠ .float →
    (∀ w, ∃ w', type.convert numeric w = some w') → form p g → form p f
  shifted : ∀ {p : Pool} {f source : FormId} {amount : Word}, form p f →
    p.leftShifted? f amount = some source → form p source

/-- All words are of one kind. -/
def WordKind.words (env : TypeEnv) : WordKind env where
  form p f := p.HasWord env f
  operand a := env.atomType a ≠ some .float
  hasWord h := h
  mono h := h.mono
  int _ := fun hfloat => by cases hfloat
  atom hf helem ha := by
    refine ⟨hf, ?_⟩
    rw [TypeEnv.formType_atom hf helem]
    exact ha
  apply hf helem hb hargs := by
    refine ⟨hf, ?_⟩
    rw [TypeEnv.formType_apply hf helem]
    intro hfloat
    obtain ⟨g, hg, hfloat⟩ := mem_map.1 (hb.resultType hfloat)
    exact (hargs g hg).type_ne hfloat
  cast hf helem htype _ _ := by
    refine ⟨hf, ?_⟩
    rw [TypeEnv.formType_cast hf helem]
    exact fun hfloat => htype (Option.some.inj hfloat)
  shifted h hshift := by
    obtain ⟨by', helem, -⟩ := Pool.leftShifted?_eq_some hshift
    obtain ⟨e, hsingle, happly⟩ := Option.map_eq_some_iff.1 helem
    refine ⟨h.grounded.child (Pool.mem_of_single? hsingle) ?_, fun hfloat => h.type_ne ?_⟩
    · rw [happly]
      exact mem_cons_self
    · rw [TypeEnv.formType_apply h.grounded helem, map_cons, hfloat]
      rfl

/-- An operand that was popped or is an atom is of some kind. -/
def WordKind.Covers (K : WordKind env) (p : Pool) : Atom × Option FormId → Prop
  | (_, some f) => K.form p f
  | (a, none) => K.operand a

namespace Pool

variable {K : WordKind env}

/-- A form is of some kind and stands for a given word. -/
structure IsWordOf (p : Pool) (K : WordKind env) (f : FormId)
    (meaning : Constants → Registers → (FormId → Word) → Option Word) : Prop where
  form : K.form p f
  denotes : p.Denotes env f meaning

/-- The second form stands for the same word as the first. -/
structure SameWord (p : Pool) (K : WordKind env) (f g : FormId) : Prop where
  form : K.form p g
  denotes : p.Denotes env g fun _ _ eval => some (eval f)

theorem SameWord.refl (h : K.form p f) : p.SameWord K f f := ⟨h, ⟨fun _ _ => rfl⟩⟩

theorem SameWord.mono (h : p.SameWord K f g) (hext : p.Extends q) : q.SameWord K f g :=
  ⟨K.mono h.form hext, h.denotes.mono hext⟩

theorem SameWord.forall_form (h : List.Forall₂ (p.SameWord K) fs gs) : ∀ g ∈ gs, K.form p g := by
  induction h with
  | nil => simp
  | cons hfirst _ ih => exact forall_mem_cons.2 ⟨hfirst.form, ih⟩

theorem SameWord.map_eval (h : List.Forall₂ (p.SameWord K) fs gs) {consts : Constants}
    {σ : Registers} {eval : FormId → Word} (hext : p.Extends q)
    (heval : q.Interprets env consts σ eval) : gs.map eval = fs.map eval := by
  induction h with
  | nil => rfl
  | cons hfirst _ ih =>
    rw [map_cons, map_cons, ih, Option.some.inj (hfirst.denotes.eval_eq hext heval)]

/-- Operands are of some kind, and those that are constants stand for them. -/
def KnownWords (p : Pool) (K : WordKind env) (atoms : List Atom) (fs : List FormId) : Prop :=
  List.Forall₂ (fun a f => K.form p f ∧
    ∀ w, a.word? = some w → p.Denotes env f fun _ _ _ => some w) atoms fs

theorem KnownWords.form {atoms : List Atom} (h : p.KnownWords K atoms fs) :
    ∀ f ∈ fs, K.form p f := by
  induction h with
  | nil => simp
  | cons hfirst _ ih => exact forall_mem_cons.2 ⟨hfirst.1, ih⟩

end Pool

def Operator.isWord (operator : Operator) : Bool :=
  operator.isInteger || operator == .toFloatRegister || operator == .toGeneralRegister

/-- Operands that are neither addresses of static data nor results of a division. -/
def Atom.isOrdinary : Atom → Bool
  | .var v => v.register != .hi && v.register != .lo
  | .label _ => false
  | _ => true

/-- The word of an operand, which was popped or is an atom. -/
def Operand.word (consts : Constants) (σ : Registers) (eval : FormId → Word) :
    Atom × Option FormId → Word
  | (_, some f) => eval f
  | (a, none) => a.value consts σ

theorem Expression.staticLabel?_eq_none_of_isOrdinary (h : ∀ a ∈ e.args, a.isOrdinary = true) :
    e.staticLabel? = none := by
  unfold staticLabel?
  split
  · cases h _ (mem_cons_of_mem _ mem_cons_self)
  · cases h _ mem_cons_self
  · rfl

theorem Expression.result_of_constant? {w : Word} (h : e.constant? = some w) (consts : Constants)
    (σ : Registers) :
    e.operator.result (e.args.map (Atom.value consts σ)) = some w ∧
      ∀ a ∈ e.args, a.register? = none := by
  unfold constant? at h
  split at h
  · exact ⟨h, fun a ha => by rcases mem_pair.1 ha with rfl | rfl <;> rfl⟩
  · exact ⟨h, fun a ha => by rcases mem_pair.1 ha with rfl | rfl <;> rfl⟩
  · cases h

/-- A form stands for an operand. -/
structure Pool.Represents (p : Pool) (K : WordKind env) (entry : Atom × Option FormId)
    (f : FormId) : Prop where
  form : K.form p f
  denotes : p.Denotes env f fun consts σ eval => some (Operand.word consts σ eval entry)

theorem Pool.Represents.mono {K : WordKind env} {entry : Atom × Option FormId}
    (h : p.Represents K entry f) (hext : p.Extends q) : q.Represents K entry f :=
  ⟨K.mono h.form hext, h.denotes.mono hext⟩

namespace Context

/-- The operands of an instruction, each with the form that is popped for it if there is one. -/
def obtained (cx : Context) (site : Nat) (atoms : List Atom) (s : FoldState) :
    List (Atom × Option FormId) :=
  atoms.zip (cx.popOperands site atoms (cx.consumed s.verbatim site) true s).1

/-- An operand is no label and not known to be a float. -/
def IsWord (cx : Context) (p : Pool) : Atom × Option FormId → Prop
  | (_, some f) => p.HasWord cx.env f
  | (a, none) => cx.env.atomType a ≠ some .float

variable {cx : Context} {s : FoldState} {site : Nat} {signed effects : Bool} {b : Builtin}
  {a : Atom} {atoms : List Atom} {consumed : RegisterSet} {K : WordKind cx.env}

/-- A new form has its element in every larger pool. -/
theorem addSingle_new {element : Element} (h : ∀ g ∈ element.children, s.pool.Grounded g) :
    (FoldM.addSingle element).Ends s fun f s' => s.pool.Extends s'.pool ∧
      ∀ {q : Pool}, s'.pool.Extends q →
        q.Grounded f ∧ (q.single? f).map q.element = some element := by
  rw [FoldM.addSingle, ends_onPool]
  exact ⟨s.pool.extends_addSingle _, fun hext =>
    ⟨(Pool.Grounded.addSingle h).mono hext, hext.single?_addSingle⟩⟩

section

variable (hcoercion : cx.env.coercion = standardCoercion)
include hcoercion

/-- A cast to a type of integers keeps the word of its operand. -/
theorem castTo_sameWord {desired : TypeName} (hdesired : desired.isInteger = true)
    (hf : K.form s.pool f) :
    (cx.castTo site f desired).Ends s fun g s' =>
      s.pool.Extends s'.pool ∧ s'.pool.SameWord K f g := by
  have hsame : s.pool.Extends s.pool ∧ s.pool.SameWord K f f := ⟨.refl _, .refl hf⟩
  unfold castTo
  split
  · exact hsame
  · rw [ends_bind, ends_formType]
    split
    · exact hsame
    · rename_i actual htype
      split
      · exact hsame
      · have hinteger : desired ≠ .float := by
          rintro rfl
          cases hdesired
        have hactual : actual ≠ .float := by
          rintro rfl
          exact (K.hasWord hf).type_ne htype
        have hbits : (cx.env.coercion desired actual == .numeric) = false := by
          rw [hcoercion]
          exact beq_false_of_ne (standardCoercion_ne_numeric hinteger hactual)
        rw [hbits]
        refine (addSingle_new fun g hg => mem_singleton.1 hg ▸ (K.hasWord hf).grounded).bind ?_
        rintro g s' ⟨hgrown, hnew⟩
        rw [ends_bind, ends_noteForm, ends_note, ends_pure]
        obtain ⟨hgrounded, helem⟩ := hnew (.refl _)
        refine ⟨hgrown, K.cast hgrounded helem hinteger (fun w => ⟨w, rfl⟩) (K.mono hf hgrown),
          ⟨fun hext heval => ?_⟩⟩
        obtain ⟨hgrounded, helem⟩ := hnew hext
        exact congrArg some (heval.cast hgrounded helem rfl).symm

/-- Operands that must agree in signedness keep their words. -/
theorem matchOperands_sameWords (hfs : ∀ f ∈ fs, K.form s.pool f) :
    (cx.matchOperands site fs).Ends s fun gs s' =>
      s.pool.Extends s'.pool ∧ List.Forall₂ (s'.pool.SameWord K) fs gs := by
  have hsame : s.pool.Extends s.pool ∧ List.Forall₂ (s.pool.SameWord K) fs fs :=
    ⟨.refl _, forall₂_same.2 fun f hf => .refl (hfs f hf)⟩
  unfold matchOperands
  split
  · rename_i first second
    have hsecond := hfs second (by simp)
    rw [ends_bind, matchSignedness]
    simp only [ends_bind, ends_formType, ends_pure]
    split
    · split
      · rename_i hintegers
        simp only [Bool.and_eq_true] at hintegers
        refine (castTo_sameWord hcoercion hintegers.1.1 hsecond).mono fun g s' hcast => ?_
        exact ⟨hcast.1, .cons (.refl (K.mono (hfs first (by simp)) hcast.1)) (.cons hcast.2 .nil)⟩
      · exact hsame
    · exact hsame
  · exact hsame

/-- Operands that are cast to integers keep their words. -/
theorem forceInteger_sameWords (hfs : ∀ f ∈ fs, K.form s.pool f) :
    (cx.forceInteger site fs signed).Ends s fun gs s' =>
      s.pool.Extends s'.pool ∧ List.Forall₂ (s'.pool.SameWord K) fs gs := by
  rw [forceInteger]
  induction fs generalizing s with
  | nil => exact ⟨.refl _, .nil⟩
  | cons f fs ih =>
    rw [mapM_cons, ends_bind]
    have hdesired : (if signed then TypeName.int else .uint).isInteger = true := by
      cases signed <;> rfl
    refine (castTo_sameWord hcoercion hdesired (hfs f mem_cons_self)).mono fun g s' hcast => ?_
    refine (ih fun f hf => K.mono (hfs f (mem_cons_of_mem _ hf)) hcast.1).bind ?_
    rintro gs s'' ⟨hext, hrest⟩
    exact ⟨hcast.1.trans hext, .cons (hcast.2.mono hext) hrest⟩

end

/-- An operator of integer arithmetic computes on the words of its operands. -/
theorem applyBuiltin_isWordOf (hgs : List.Forall₂ (s.pool.SameWord K) fs gs)
    (hb : b.Takes fs.length) :
    (FoldM.applyBuiltin b gs).Ends s fun f s' => s.pool.Extends s'.pool ∧
      s'.pool.IsWordOf K f fun _ _ eval => b.compute (fs.map eval) := by
  have hforms := Pool.SameWord.forall_form hgs
  have hkids : ∀ g ∈ (Element.apply (.builtin b) gs).children, s.pool.Grounded g :=
    fun g hg => (K.hasWord (hforms g hg)).grounded
  refine (addSingle_new hkids).mono ?_
  rintro f s' ⟨hgrown, hnew⟩
  have hform : K.form s'.pool f := by
    obtain ⟨hgrounded, helem⟩ := hnew (.refl _)
    exact K.apply hgrounded helem (hgs.length_eq ▸ hb) fun g hg => K.mono (hforms g hg) hgrown
  refine ⟨hgrown, hform, ⟨fun {q consts σ eval} hext heval => ?_⟩⟩
  obtain ⟨hgrounded, helem⟩ := hnew hext
  obtain ⟨w, hw⟩ := hb (fs.map eval) (length_map ..)
  have hargs : b.compute (gs.map eval) = some w := by
    rw [Pool.SameWord.map_eval hgs (hgrown.trans hext) heval, hw]
  rw [heval.apply hgrounded helem (K.hasWord (K.mono hform hext)).type_ne hargs, hw]

theorem applyBuiltin_isWordOf_same (hfs : ∀ f ∈ fs, K.form s.pool f) (hb : b.Takes fs.length) :
    (FoldM.applyBuiltin b fs).Ends s fun f s' => s.pool.Extends s'.pool ∧
      s'.pool.IsWordOf K f fun _ _ eval => b.compute (fs.map eval) :=
  applyBuiltin_isWordOf (forall₂_same.2 fun f hf => .refl (hfs f hf)) hb

section

variable (hcoercion : cx.env.coercion = standardCoercion) (hfs : ∀ f ∈ fs, K.form s.pool f)
  (hb : b.Takes fs.length)
include hcoercion hfs hb

theorem applyMatching_isWordOf :
    (cx.applyMatching site b fs).Ends s fun f s' => s.pool.Extends s'.pool ∧
      s'.pool.IsWordOf K f fun _ _ eval => b.compute (fs.map eval) := by
  rw [applyMatching]
  refine (matchOperands_sameWords hcoercion hfs).bind ?_
  rintro gs s' ⟨hext, hgs⟩
  exact (applyBuiltin_isWordOf hgs hb).mono fun f s'' hf => ⟨hext.trans hf.1, hf.2⟩

theorem applyForced_isWordOf :
    (cx.forceInteger site fs signed >>= FoldM.applyBuiltin b).Ends s fun f s' =>
      s.pool.Extends s'.pool ∧ s'.pool.IsWordOf K f fun _ _ eval => b.compute (fs.map eval) := by
  refine (forceInteger_sameWords hcoercion hfs).bind ?_
  rintro gs s' ⟨hext, hgs⟩
  exact (applyBuiltin_isWordOf hgs hb).mono fun f s'' hf => ⟨hext.trans hf.1, hf.2⟩

end

/-- A move between register banks keeps the bits of a word. -/
theorem applyBankMove_denotes (hb : b.isBankMove = true) (hf : s.pool.HasWord cx.env f) :
    (cx.applyBankMove b [f]).Ends s fun g s' => s.pool.Extends s'.pool ∧
      s'.pool.Denotes cx.env g fun _ _ eval => some (eval f) := by
  rw [applyBankMove, ends_bind, ends_formType, headD_cons, if_neg hf.type_ne]
  refine (addSingle_new fun g hg => mem_singleton.1 hg ▸ hf.grounded).mono ?_
  rintro g s' ⟨hgrown, hnew⟩
  refine ⟨hgrown, ⟨fun hext heval => ?_⟩⟩
  obtain ⟨hgrounded, helem⟩ := hnew hext
  exact congrArg some (heval.move hgrounded hb helem).symm

/-- The word of a left shift by a constant. -/
theorem leftShifted?_eval {source : FormId} {amount : Word} (hf : p.HasWord env f)
    (hshift : p.leftShifted? f amount = some source) {consts : Constants} {σ : Registers}
    {eval : FormId → Word} (hext : p.Extends q) (heval : q.Interprets env consts σ eval) :
    eval f = eval source <<< Word.shiftAmount amount := by
  obtain ⟨by', helem, hamount⟩ := Pool.leftShifted?_eq_some hshift
  obtain ⟨e, hsingle, happly⟩ := Option.map_eq_some_iff.1 helem
  have hby : p.Grounded by' :=
    hf.grounded.child (Pool.mem_of_single? hsingle) (by rw [happly]; simp [Element.children])
  have hword : eval by' = amount := heval.atom (hby.mono hext) ((hby.single?_eq hext).trans hamount)
  refine heval.apply (hf.grounded.mono hext) ((hf.grounded.single?_eq hext).trans helem)
    (hf.mono hext).type_ne ?_
  rw [map_cons, map_cons, map_nil, hword]
  rfl

/-- The conversion that completes two shifts is the second one of them. -/
theorem foldExtension_isWordOf {amount : Atom} (hf : K.form s.pool f) :
    (cx.foldExtension site amount f signed).Ends s fun found s' =>
      (found = none ∧ s' = s) ∨ ∃ g w, found = some g ∧ amount.word? = some w ∧
        s.pool.Extends s'.pool ∧ s'.pool.IsWordOf K g fun _ _ eval =>
          (if signed then Operator.shiftRightArith else .shiftRightLogic).compute [eval f, w] := by
  rw [foldExtension, ends_bind, ends_get]
  dsimp only
  split
  · exact .inl ⟨rfl, rfl⟩
  · rename_i bits source hshifted
    obtain ⟨w, hw, hshifted⟩ := Option.bind_eq_some_iff.1 hshifted
    obtain ⟨width, hwidth, hshifted⟩ := Option.bind_eq_some_iff.1 hshifted
    obtain ⟨source', hleft, heq⟩ := Option.map_eq_some_iff.1 hshifted
    cases heq
    have hsource := K.shifted hf hleft
    have hconvert : ∀ x : Word, ∃ w', (TypeName.ofName
        ((if signed then "int" else "uint") ++ toString bits)).convert true x = some w' := by
      intro x
      rw [Word.convert_extension hwidth signed x]
      cases signed <;> exact ⟨_, rfl⟩
    refine (addSingle_new fun g hg => mem_singleton.1 hg ▸ (K.hasWord hsource).grounded).bind ?_
    rintro g s' ⟨hgrown, hnew⟩
    rw [ends_bind, ends_noteForm, ends_note, ends_pure]
    refine .inr ⟨g, w, rfl, hw, hgrown, ?_, ⟨fun {q consts σ eval} hext heval => ?_⟩⟩
    · obtain ⟨hgrounded, helem⟩ := hnew (.refl _)
      exact K.cast hgrounded helem (Word.extension_ne_float hwidth signed) hconvert
        (K.mono hsource hgrown)
    · obtain ⟨hgrounded, helem⟩ := hnew hext
      obtain ⟨w', hw'⟩ := hconvert (eval source)
      rw [leftShifted?_eval (K.hasWord hf) hleft (hgrown.trans hext) heval,
        ← Word.convert_extension hwidth signed, hw', heval.cast hgrounded helem hw']

theorem shiftRight_isWordOf {b : Atom} (signed : Bool)
    (hfs : s.pool.KnownWords K [a, b] [f, g]) :
    (cx.shiftRight site [a, b] [f, g] signed).Ends s fun h s' => s.pool.Extends s'.pool ∧
      s'.pool.IsWordOf K h fun _ _ eval =>
        (if signed then Operator.shiftRightArith else .shiftRightLogic).compute [eval f, eval g] := by
  obtain _ | ⟨⟨hf, -⟩, _ | ⟨⟨hg, hamount⟩, -⟩⟩ := hfs
  rw [shiftRight]
  refine (foldExtension_isWordOf hf).bind ?_
  rintro found s' (⟨rfl, rfl⟩ | ⟨h, w, rfl, hw, hext, hform, hdenotes⟩)
  · have hboth : ∀ h ∈ [f, g], K.form s'.pool h := by simp [hf, hg]
    cases signed with
    | true => exact applyBuiltin_isWordOf_same hboth (Builtin.takes_two fun _ _ => ⟨_, rfl⟩)
    | false => exact applyBuiltin_isWordOf_same hboth (Builtin.takes_two fun _ _ => ⟨_, rfl⟩)
  · refine ⟨hext, hform, ⟨fun hext' heval => ?_⟩⟩
    rw [← Option.some.inj ((hamount w hw).eval_eq (hext.trans hext') heval)]
    exact hdenotes.eval_eq hext' heval

/-- An operator on integers gives a word, that of the machine operation on the words of its
operands. -/
theorem applyOperator_isWordOf (hcoercion : cx.env.coercion = standardCoercion)
    (hoperator : e.operator.isInteger = true) (harity : e.args.length = e.operator.arity)
    (hfs : s.pool.KnownWords K e.args fs) :
    (cx.applyOperator site e fs).Ends s fun f s' => s.pool.Extends s'.pool ∧
      s'.pool.IsWordOf K f fun _ _ eval => e.operator.result (fs.map eval) := by
  obtain ⟨operator, args⟩ := e
  have hwords := hfs.form
  have hone : args.length = 1 → ∃ f, fs = [f] := fun hlength =>
    length_eq_one_iff.1 (hfs.length_eq.symm.trans hlength)
  have htwo : args.length = 2 → ∃ a b f g, args = [a, b] ∧ fs = [f, g] := by
    intro hlength
    obtain ⟨a, b, rfl⟩ := length_eq_two.1 hlength
    obtain ⟨f, g, rfl⟩ := length_eq_two.1 (hfs.length_eq.symm.trans hlength)
    exact ⟨a, b, f, g, rfl, rfl⟩
  rw [applyOperator]
  cases operator
  case identity =>
    obtain ⟨f, rfl⟩ := hone harity
    exact ⟨.refl _, hwords f mem_cons_self, ⟨fun _ _ => rfl⟩⟩
  case neg | not =>
    obtain ⟨f, rfl⟩ := hone harity
    exact applyBuiltin_isWordOf_same hwords (Builtin.takes_one fun _ => ⟨_, rfl⟩)
  case add | and | or | xor | lessSigned | lessUnsigned =>
    obtain ⟨a, b, f, g, rfl, rfl⟩ := htwo harity
    exact applyMatching_isWordOf hcoercion hwords (Builtin.takes_two fun _ _ => ⟨_, rfl⟩)
  case mulSigned | mulUnsigned =>
    obtain ⟨a, b, f, g, rfl, rfl⟩ := htwo harity
    exact applyForced_isWordOf hcoercion hwords (Builtin.takes_two fun _ _ => ⟨_, rfl⟩)
  case shiftLeft =>
    obtain ⟨a, b, f, g, rfl, rfl⟩ := htwo harity
    exact applyBuiltin_isWordOf_same hwords (Builtin.takes_two fun _ _ => ⟨_, rfl⟩)
  case shiftRightArith =>
    obtain ⟨a, b, f, g, rfl, rfl⟩ := htwo harity
    exact shiftRight_isWordOf true hfs
  case shiftRightLogic =>
    obtain ⟨a, b, f, g, rfl, rfl⟩ := htwo harity
    exact shiftRight_isWordOf false hfs
  case sub =>
    obtain ⟨a, b, f, g, rfl, rfl⟩ := htwo harity
    dsimp only
    split
    · rename_i hzero
      obtain _ | ⟨⟨-, hf⟩, -⟩ := hfs
      have hsecond : ∀ h ∈ [g], K.form s.pool h := fun h hh => hwords h (by simp_all)
      refine (applyBuiltin_isWordOf_same (b := .sub) hsecond
        (Builtin.takes_one fun _ => ⟨_, rfl⟩)).mono ?_
      rintro h s' ⟨hext, hform, hdenotes⟩
      refine ⟨hext, hform, ⟨fun {q consts σ eval} hext' heval => ?_⟩⟩
      rw [← hdenotes.eval_eq hext' heval, map_cons,
        ← Option.some.inj ((hf 0 hzero).eval_eq (hext.trans hext') heval)]
      exact congrArg some (BitVec.zero_sub (eval g))
    · exact applyMatching_isWordOf hcoercion hwords (Builtin.takes_two fun _ _ => ⟨_, rfl⟩)
  case nor =>
    obtain ⟨a, b, f, g, rfl, rfl⟩ := htwo harity
    dsimp only
    split
    · rename_i hzero
      obtain _ | ⟨-, _ | ⟨⟨-, hg⟩, -⟩⟩ := hfs
      have hfirst : ∀ h ∈ [f], K.form s.pool h := fun h hh => hwords h (by simp_all)
      refine (applyBuiltin_isWordOf_same (b := .logNot) hfirst
        (Builtin.takes_one fun _ => ⟨_, rfl⟩)).mono ?_
      rintro h s' ⟨hext, hform, hdenotes⟩
      refine ⟨hext, hform, ⟨fun {q consts σ eval} hext' heval => ?_⟩⟩
      rw [← hdenotes.eval_eq hext' heval, map_cons, map_cons,
        ← Option.some.inj ((hg 0 hzero).eval_eq (hext.trans hext') heval)]
      exact congrArg (fun w => some (~~~w)) BitVec.or_zero
    · exact applyMatching_isWordOf hcoercion hwords (Builtin.takes_two fun _ _ => ⟨_, rfl⟩)
  all_goals cases hoperator

/-- An operator denotes the machine operation on the words of its operands.  Only what is moved to
a float register is no longer taken for a word. -/
theorem applyOperator_denotes (hcoercion : cx.env.coercion = standardCoercion)
    (hoperator : e.operator.isWord = true) (harity : e.args.length = e.operator.arity)
    (hfs : s.pool.KnownWords K e.args fs) :
    (cx.applyOperator site e fs).Ends s fun f s' => s.pool.Extends s'.pool ∧
      s'.pool.Denotes cx.env f (fun _ _ eval => e.operator.result (fs.map eval)) ∧
      (e.operator.isInteger = true → K.form s'.pool f) := by
  by_cases hinteger : e.operator.isInteger = true
  · refine (applyOperator_isWordOf hcoercion hinteger harity hfs).mono ?_
    rintro f s' ⟨hext, hform, hdenotes⟩
    exact ⟨hext, hdenotes, fun _ => hform⟩
  · obtain ⟨operator, args⟩ := e
    have hmoves : ∀ b : Builtin, b.isBankMove = true → args.length = 1 → ∃ f, fs = [f] ∧
        (cx.applyBankMove b [f]).Ends s fun g s' => s.pool.Extends s'.pool ∧
          s'.pool.Denotes cx.env g fun _ _ eval => some (eval f) := by
      intro b hb hlength
      obtain ⟨f, rfl⟩ := length_eq_one_iff.1 (hfs.length_eq.symm.trans hlength)
      exact ⟨f, rfl, applyBankMove_denotes hb (K.hasWord (hfs.form f mem_cons_self))⟩
    rw [applyOperator]
    cases operator
    case toFloatRegister =>
      obtain ⟨f, rfl, hmove⟩ := hmoves .toFloatRegister rfl harity
      exact hmove.mono fun g s' hg => ⟨hg.1, hg.2, fun h => absurd h hinteger⟩
    case toGeneralRegister =>
      obtain ⟨f, rfl, hmove⟩ := hmoves .toGeneralRegister rfl harity
      exact hmove.mono fun g s' hg => ⟨hg.1, hg.2, fun h => absurd h hinteger⟩
    all_goals simp [Operator.isWord, Operator.isInteger] at hoperator hinteger

/-- Popping operands leaves the pool alone, and only registers are popped. -/
theorem popOperands_ends :
    (cx.popOperands site atoms consumed effects).Ends s fun popped s' => s'.pool = s.pool ∧
      List.Forall₂ (fun a o => a.register? = none → o = none) atoms popped := by
  unfold popOperands
  rw [ends_bind, ends_get]
  split
  · rw [ends_pure, forall₂_map_right_iff, forall₂_same]
    exact ⟨rfl, fun _ _ _ => rfl⟩
  · refine (ends_mapM (I := fun done out s' => s'.pool = s.pool ∧
      List.Forall₂ (fun a o => a.register? = none → o = none) done out) ?_ ⟨rfl, .nil⟩).bind ?_
    · rintro done out a s' - ⟨hpool, hout⟩
      refine FoldM.Ends.mono (Q := fun o s'' => s''.pool = s'.pool ∧ (a.register? = none → o = none))
        ?_ fun o s'' ho => ⟨ho.1.trans hpool, rel_append hout (.cons ho.2 .nil)⟩
      unfold popOperand
      split
      · exact ⟨rfl, fun _ => rfl⟩
      · rename_i r hr
        have hreg : ∀ o : Option FormId, a.register? = none → o = none := by
          intro o hnone
          rw [hr] at hnone
          cases hnone
        split
        · exact ⟨rfl, hreg _⟩
        · exact ends_bind.2 (ends_take.2 ⟨fun _ => ⟨rfl, hreg _⟩, fun _ _ _ =>
            ⟨rfl, hreg _⟩⟩)
    · rintro popped s' ⟨hpool, hpopped⟩
      rw [ends_pure, ← forall₂_reverse_iff, reverse_reverse]
      exact ⟨hpool, hpopped⟩

theorem popOperands_pool : (cx.popOperands site atoms consumed effects s).2.pool = s.pool :=
  (show (cx.popOperands site atoms consumed effects).Ends s _ from popOperands_ends).1

theorem popOperands_registers :
    List.Forall₂ (fun a o => a.register? = none → o = none) atoms
      (cx.popOperands site atoms consumed effects s).1 :=
  (show (cx.popOperands site atoms consumed effects).Ends s _ from popOperands_ends).2

variable {entries : List (Atom × Option FormId)} {popped : List (Option FormId)}

/-- An operand that is not popped becomes a form of its own. -/
theorem operandForms_represents (hentries : ∀ entry ∈ entries, K.Covers s.pool entry)
    (hlabels : ∀ entry ∈ entries, cx.atomElement entry.1 = .atom entry.1) :
    (entries.mapM cx.operandForm).Ends s fun out s' => s.pool.Extends s'.pool ∧
      List.Forall₂ (s'.pool.Represents K) entries (out.map Prod.fst) := by
  refine ends_mapM (I := fun done out s' => s.pool.Extends s'.pool ∧
    List.Forall₂ (s'.pool.Represents K) done (out.map Prod.fst)) ?_ ⟨.refl _, .nil⟩
  rintro done out entry s' hdone ⟨hext, hout⟩
  have hmem : entry ∈ entries := hdone.subset (by simp)
  simp only [map_append]
  obtain ⟨a, o⟩ := entry
  cases o with
  | some f =>
    exact ⟨hext, rel_append hout (.cons ⟨K.mono (hentries _ hmem) hext, ⟨fun _ _ => rfl⟩⟩ .nil)⟩
  | none =>
    rw [operandForm, atomForm_eq, hlabels _ hmem]
    refine (addSingle_new fun g hg => by cases hg).bind ?_
    rintro f s'' ⟨hgrown, hnew⟩
    obtain ⟨hgrounded, helem⟩ := hnew (.refl _)
    refine ⟨hext.trans hgrown, rel_append (hout.imp fun entry f hf => hf.mono hgrown)
      (.cons ⟨K.atom hgrounded helem (hentries _ hmem), ⟨fun hext' heval => ?_⟩⟩ .nil)⟩
    obtain ⟨hgrounded, helem⟩ := hnew hext'
    exact congrArg some (heval.atom hgrounded helem).symm

/-- The forms of the operands stand for what was obtained. -/
theorem operandsMarked_represents
    (hentries : ∀ entry ∈ cx.obtained site atoms s, K.Covers s.pool entry)
    (hlabels : ∀ a ∈ atoms, cx.atomElement a = .atom a) :
    (cx.operandsMarked site atoms true).Ends s fun out s' => s.pool.Extends s'.pool ∧
      List.Forall₂ (s'.pool.Represents K) (cx.obtained site atoms s) (out.map Prod.fst) := by
  have hpool : (cx.popOperands site atoms (cx.consumed s.verbatim site) true s).2.pool = s.pool :=
    popOperands_pool
  rw [← hpool] at hentries
  have hforms := operandForms_represents hentries
    fun entry hentry => hlabels _ (of_mem_zip hentry).1
  rw [hpool] at hforms
  exact hforms

/-- A constant is never popped, so its form stands for it. -/
theorem knownWords_of_represents {K : WordKind env}
    (hpopped : List.Forall₂ (fun a o => a.register? = none → o = none) atoms popped)
    (hfs : List.Forall₂ (p.Represents K) (atoms.zip popped) fs) : p.KnownWords K atoms fs := by
  induction hpopped generalizing fs with
  | nil =>
    cases hfs
    exact .nil
  | @cons a o atoms popped ho _ ih =>
    rw [zip_cons_cons] at hfs
    obtain _ | ⟨hf, hrest⟩ := hfs
    refine .cons ⟨hf.form, fun w hw => ?_⟩ (ih hrest)
    have hdenotes := hf.denotes
    rw [ho (register?_of_word? hw)] at hdenotes
    cases a with
    | int w' =>
      cases hw
      exact hdenotes
    | _ => cases hw

/-- What is obtained for operands that are no registers are the operands themselves. -/
theorem map_word_of_constants
    (hpopped : List.Forall₂ (fun a o => a.register? = none → o = none) atoms popped)
    (hatoms : ∀ a ∈ atoms, a.register? = none) (consts : Constants) (σ : Registers)
    (eval : FormId → Word) :
    (atoms.zip popped).map (Operand.word consts σ eval) = atoms.map (Atom.value consts σ) := by
  induction hpopped with
  | nil => rfl
  | @cons a o atoms popped ho _ ih =>
    rw [zip_cons_cons, map_cons, map_cons, ho (hatoms a mem_cons_self),
      ih fun a ha => hatoms a (mem_cons_of_mem _ ha)]
    rfl

theorem map_eval_of_represents {K : WordKind env} {consts : Constants} {σ : Registers}
    {eval : FormId → Word} (h : List.Forall₂ (p.Represents K) entries fs) (hext : p.Extends q)
    (heval : q.Interprets env consts σ eval) :
    fs.map eval = entries.map (Operand.word consts σ eval) := by
  induction h with
  | nil => rfl
  | cons hf _ ih =>
    rw [map_cons, map_cons, ih, Option.some.inj (hf.denotes.eval_eq hext heval)]

theorem atomElement_of_isOrdinary (h : a.isOrdinary = true) : cx.atomElement a = .atom a := by
  cases a with
  | label name => cases h
  | _ => rfl

/-- Constant sums and differences have the word that the machine computes. -/
theorem foldConstant_isWordOf (K : WordKind cx.env) (hargs : ∀ a ∈ e.args, a.isOrdinary = true) :
    (cx.foldConstant site e).Ends s fun found s' =>
      (found = none ∧ s' = s) ∨ ∃ f, found = some f ∧ s.pool.Extends s'.pool ∧
        s'.pool.IsWordOf K f fun consts σ eval =>
          e.operator.result ((cx.obtained site e.args s).map (Operand.word consts σ eval)) := by
  unfold foldConstant
  rw [Expression.staticLabel?_eq_none_of_isOrdinary hargs]
  cases hconstant : e.constant? with
  | none => exact .inl ⟨rfl, rfl⟩
  | some w =>
    dsimp only
    rw [atomForm_eq]
    refine (addSingle_new fun g hg => by cases hg).bind ?_
    rintro f s' ⟨hgrown, hnew⟩
    rw [ends_bind, ends_note, ends_pure]
    obtain ⟨hgrounded, helem⟩ := hnew (.refl _)
    refine .inr ⟨f, rfl, hgrown, K.atom hgrounded helem (K.int w), ⟨?_⟩⟩
    intro q consts σ eval hext heval
    obtain ⟨hgrounded, helem⟩ := hnew hext
    obtain ⟨hresult, hregisters⟩ := Expression.result_of_constant? hconstant consts σ
    rw [obtained, map_word_of_constants popOperands_registers hregisters, hresult]
    exact congrArg some (heval.atom hgrounded helem).symm

theorem foldCopy_eq_operand (ha : a.isOrdinary = true) :
    cx.foldCopy site a = cx.operand site a true := by
  unfold foldCopy
  split
  · rename_i v
    simp only [Atom.isOrdinary, Bool.and_eq_true, bne_iff_ne, ne_eq] at ha
    rw [if_neg (by simp [ha.1, ha.2])]
  · rfl

/-- Every rule denotes the machine operation on the words of the operands that were obtained. -/
theorem foldOperator_denotes (hcoercion : cx.env.coercion = standardCoercion)
    (hoperator : e.operator.isWord = true) (harity : e.args.length = e.operator.arity)
    (hargs : ∀ a ∈ e.args, a.isOrdinary = true)
    (hentries : ∀ entry ∈ cx.obtained site e.args s, K.Covers s.pool entry) :
    (cx.foldOperator site e).Ends s fun f s' => s.pool.Extends s'.pool ∧
      s'.pool.Denotes cx.env f (fun consts σ eval =>
        e.operator.result ((cx.obtained site e.args s).map (Operand.word consts σ eval))) ∧
      (e.operator.isInteger = true → K.form s'.pool f) := by
  have hoperands : (cx.operands site e.args true).Ends s fun fs s' => s.pool.Extends s'.pool ∧
      List.Forall₂ (s'.pool.Represents K) (cx.obtained site e.args s) fs :=
    operandsMarked_represents hentries fun a ha => atomElement_of_isOrdinary (hargs a ha)
  unfold foldOperator
  cases hcopied : e.copied? with
  | some a =>
    cases Expression.copied?_eq_some hcopied
    dsimp only
    rw [foldCopy_eq_operand (hargs a mem_cons_self), operand]
    refine hoperands.bind ?_
    rintro fs s' ⟨hext, hfs⟩
    have hknown := knownWords_of_represents popOperands_registers hfs
    have hone : fs.length = 1 := hknown.length_eq.symm
    obtain ⟨f, rfl⟩ := length_eq_one_iff.1 hone
    rw [ends_pure]
    refine ⟨hext, ⟨fun hext' heval => ?_⟩, fun _ => hknown.form f mem_cons_self⟩
    rw [← map_eval_of_represents hfs hext' heval]
    rfl
  | none =>
    dsimp only
    refine (foldConstant_isWordOf K hargs).bind ?_
    rintro found s' (⟨rfl, rfl⟩ | ⟨f, rfl, hext, hform, hdenotes⟩)
    · dsimp only
      refine hoperands.bind ?_
      rintro fs s'' ⟨hext, hfs⟩
      refine (applyOperator_denotes hcoercion hoperator harity
        (knownWords_of_represents popOperands_registers hfs)).mono ?_
      rintro f s₃ ⟨hext', hdenotes, hform⟩
      refine ⟨hext.trans hext', ⟨fun hext₂ heval => ?_⟩, hform⟩
      rw [← map_eval_of_represents hfs (hext'.trans hext₂) heval]
      exact hdenotes.eval_eq hext₂ heval
    · exact ⟨hext, hdenotes, fun _ => hform⟩

/-- An expression on words is folded, whatever is on the stack, and under every interpretation
the form that it gives has the word which the machine computes from those of the operands. -/
theorem foldExpression_denotes {e : Expression} (hcoercion : cx.env.coercion = standardCoercion)
    (hoperator : e.operator.isWord = true) (harity : e.args.length = e.operator.arity)
    (hargs : ∀ a ∈ e.args, a.isOrdinary = true)
    (hoperands : ∀ entry ∈ cx.obtained site e.args s, cx.IsWord s.pool entry) :
    ∃ f s', (cx.foldExpression site e).run s = (.ok f, s') ∧ s.pool.Extends s'.pool ∧
      ∀ (consts : Constants) (σ : Registers) (eval : FormId → Word),
        s'.pool.Interprets cx.env consts σ eval →
          e.operator.result ((cx.obtained site e.args s).map (Operand.word consts σ eval)) =
            some (eval f) := by
  have hcovers : ∀ entry ∈ cx.obtained site e.args s,
      (WordKind.words cx.env).Covers s.pool entry := by
    rintro ⟨a, _ | f⟩ hentry <;> exact hoperands _ hentry
  have hfold := foldOperator_denotes hcoercion hoperator harity hargs hcovers
  refine ⟨_, _, ?_, hfold.1, fun consts σ eval heval => hfold.2.1.eval_eq (.refl _) heval⟩
  rw [foldExpression, if_neg (not_not.2 harity)]
  rfl

/-- A register that is shifted up by 48 bits waits in another register. -/
def pendingShift : FoldState where
  pool := (((Pool.empty.addSingle (.atom (.var (.read ⟨4⟩ 0)))).2.addSingle
    (.atom (.int 48))).2.addSingle (.apply (.builtin .shiftLeft) [⟨0⟩, ⟨1⟩])).2
  stack := ⟨[⟨.assign (.write ⟨8⟩ 0) ⟨2⟩ false {} none, true⟩]⟩
  log := .empty
  verbatim := false

/-- A routine whose only instruction reads the shifted register for the last time. -/
def shifting : Context := untyped { Routine.empty "shift" with code := #[⟨default, .single ⟨8⟩⟩] }

/-- Shifting it down again gives the sign extension of its low half word. -/
theorem shifted_halfword_denotes :
    shifting.obtained 0 [.var (.read ⟨8⟩ 0), .int 48] pendingShift =
        [(.var (.read ⟨8⟩ 0), some ⟨2⟩), (.int 48, none)] ∧
      pendingShift.pool.HasWord shifting.env ⟨2⟩ ∧
      ∃ f s', (shifting.foldExpression 0
          ⟨.shiftRightArith, [.var (.read ⟨8⟩ 0), .int 48]⟩).run pendingShift = (.ok f, s') ∧
        (s'.pool.single? f).map s'.pool.element = some (.cast (.named "int16") ⟨0⟩ true) ∧
        ∀ (reading : Reading) (consts : Constants) (σ : Registers),
          some ((s'.pool.word reading consts σ ⟨2⟩).sshiftRight 48) =
            some (s'.pool.word reading consts σ f) := by
  have hobtained : shifting.obtained 0 [.var (.read ⟨8⟩ 0), .int 48] pendingShift =
      [(.var (.read ⟨8⟩ 0), some ⟨2⟩), (.int 48, none)] := rfl
  have hword : pendingShift.pool.HasWord shifting.env ⟨2⟩ := by
    refine ⟨.addSingle fun g hg => ?_, by decide⟩
    rcases List.mem_pair.1 hg with rfl | rfl
    · exact (Pool.Grounded.addSingle fun g hg => by cases hg).mono (Pool.extends_addSingle _ _)
    · exact Pool.Grounded.addSingle fun g hg => by cases hg
  have hwords : ∀ entry ∈ shifting.obtained 0 [.var (.read ⟨8⟩ 0), .int 48] pendingShift,
      shifting.IsWord pendingShift.pool entry := by
    rw [hobtained]
    intro entry hentry
    rcases List.mem_pair.1 hentry with rfl | rfl
    · exact hword
    · exact fun hfloat => by cases hfloat
  obtain ⟨f, s', hrun, -, hdenotes⟩ := @foldExpression_denotes shifting pendingShift 0
    ⟨.shiftRightArith, [.var (.read ⟨8⟩ 0), .int 48]⟩ rfl rfl rfl (by decide) hwords
  refine ⟨hobtained, hword, f, s', hrun, ?_, fun reading consts σ => ?_⟩
  · cases hrun
    rfl
  · exact hdenotes consts σ _ (s'.pool.word_interprets shifting.env)

end Context

end Decompiler
