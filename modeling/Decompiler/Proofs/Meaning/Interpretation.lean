import Decompiler.Proofs.Meaning.Values
import Decompiler.Proofs.Tree.Grounded

/-!
What forms stand for, apart from how they came about.  An interpretation of a pool gives a word
to every form, such that operands have their own values and integer arithmetic computes; what
else there is in the pool may stand for anything.  Every pool has such interpretations.
-/

namespace Decompiler

/-- The result of an operator on words.  A move between register banks keeps the bits. -/
def Operator.result : Operator → List Word → Option Word
  | .toFloatRegister, [a] | .toGeneralRegister, [a] => some a
  | operator, ws => operator.compute ws

def Builtin.isBankMove : Builtin → Bool
  | .toFloatRegister | .toGeneralRegister => true
  | _ => false

namespace Pool

/-- Words for the forms of a pool.  The operators of integer arithmetic are also those of floats,
so they are bound to compute on words only where the result is not known to be a float. -/
structure Interprets (p : Pool) (env : TypeEnv) (consts : Constants) (σ : Registers)
    (eval : FormId → Word) : Prop where
  atom : ∀ {f : FormId} {a : Atom}, p.Grounded f →
    (p.single? f).map p.element = some (.atom a) → eval f = a.value consts σ
  apply : ∀ {f : FormId} {b : Builtin} {args : List FormId} {w : Word}, p.Grounded f →
    (p.single? f).map p.element = some (.apply (.builtin b) args) →
    env.formType p f ≠ some .float → b.compute (args.map eval) = some w → eval f = w
  move : ∀ {f g : FormId} {b : Builtin}, p.Grounded f → b.isBankMove = true →
    (p.single? f).map p.element = some (.apply (.builtin b) [g]) → eval f = eval g
  cast : ∀ {f g : FormId} {type : TypeName} {numeric : Bool} {w : Word}, p.Grounded f →
    (p.single? f).map p.element = some (.cast type g numeric) →
    type.convert numeric (eval g) = some w → eval f = w

/-- However a pool grows, a form stands for a given word. -/
structure Denotes (p : Pool) (env : TypeEnv) (f : FormId)
    (meaning : Constants → Registers → (FormId → Word) → Option Word) : Prop where
  eval_eq : ∀ {q : Pool} {consts : Constants} {σ : Registers} {eval : FormId → Word},
    p.Extends q → q.Interprets env consts σ eval → meaning consts σ eval = some (eval f)

theorem Denotes.mono {p q : Pool} {env : TypeEnv} {f : FormId}
    {meaning : Constants → Registers → (FormId → Word) → Option Word}
    (h : p.Denotes env f meaning) (hext : p.Extends q) : q.Denotes env f meaning :=
  ⟨fun hext' heval => h.eval_eq (hext.trans hext') heval⟩

end Pool

/-- What elements outside of integer arithmetic are read as, given the words below them, and
what forms are that do not have exactly one element. -/
structure Reading where
  element : ElementId → List Word → Word
  form : FormId → Word

/-- The word of an element, given those of its child forms and what it is read as if it is not
integer arithmetic. -/
def Element.wordBy (consts : Constants) (σ : Registers) (other : List Word → Word) :
    Element → List Word → Word
  | .apply (.builtin .toFloatRegister) _, [w] | .apply (.builtin .toGeneralRegister) _, [w] => w
  | element, ws => (element.compute consts σ ws).getD (other ws)

theorem Element.wordBy_of_compute {consts : Constants} {σ : Registers} {element : Element}
    {other : List Word → Word} {ws : List Word} {w : Word}
    (h : element.compute consts σ ws = some w) : element.wordBy consts σ other ws = w := by
  unfold wordBy
  split
  · cases h
  · cases h
  · rw [h]
    rfl

namespace Pool

variable (reading : Reading) (consts : Constants) (σ : Registers)

def wordWithin (p : Pool) : Nat → FormId → Word
  | 0, f => reading.form f
  | depth + 1, f =>
    match p.single? f with
    | none => reading.form f
    | some e => (p.element e).wordBy consts σ (reading.element e)
        ((p.element e).children.map (p.wordWithin depth))

def word (p : Pool) (f : FormId) : Word := p.wordWithin reading consts σ p.elements.size f

variable {reading consts σ} {p q : Pool} {f : FormId}

theorem wordWithin_goesDownAs (hext : p.Extends q) :
    p.GoesDownAs (q.wordWithin reading consts σ) (p.wordWithin reading consts σ) := by
  intro depth depth' f hf hbelow
  have hsame : q.single? f = p.single? f := by
    rw [single?, single?, hext.elementsOf_eq f hf.form_lt]
  rw [wordWithin, wordWithin, hsame]
  cases hsingle : p.single? f with
  | none => rfl
  | some e =>
    have he := mem_of_single? hsingle
    dsimp only
    rw [hext.element_eq e (hf.element_lt he), List.map_congr_left fun g hg => hbelow e he g hg]

theorem wordWithin_of_empty (h : p.elementsOf f = []) :
    p.wordWithin reading consts σ 1 f = p.wordWithin reading consts σ 0 f := by
  have hnone : p.single? f = none := by
    rw [single?, h]
  simp only [wordWithin, hnone]

/-- The word of a finite form is the same in a larger pool. -/
theorem Grounded.word_eq (h : p.Grounded f) (hext : p.Extends q) :
    q.word reading consts σ f = p.word reading consts σ f :=
  h.larger_eq (wordWithin_goesDownAs (.refl p)) (wordWithin_goesDownAs hext)
    (fun _ => wordWithin_of_empty) (fun _ => rfl) hext

/-- The word of a finite form comes from those right below it. -/
theorem Grounded.word_single (h : p.Grounded f) {e : ElementId} (he : p.single? f = some e) :
    p.word reading consts σ f =
      (p.element e).wordBy consts σ (reading.element e)
        ((p.element e).children.map (p.word reading consts σ)) := by
  have hbelow : (p.element e).children.map (p.word reading consts σ) =
      (p.element e).children.map (p.wordWithin reading consts σ (p.elements.size - 1)) :=
    List.map_congr_left fun g hg => h.child_eq (wordWithin_goesDownAs (.refl p))
      (fun _ => wordWithin_of_empty) (mem_of_single? he) hg
  rw [hbelow, word]
  obtain ⟨n, hn⟩ := h.exists_size he
  rw [hn, wordWithin, he]
  rfl

theorem Grounded.word_of_compute (h : p.Grounded f) {element : Element} {w : Word}
    (helem : (p.single? f).map p.element = some element)
    (hcompute : element.compute consts σ (element.children.map (p.word reading consts σ)) =
      some w) : p.word reading consts σ f = w := by
  obtain ⟨e, he, rfl⟩ := Option.map_eq_some_iff.1 helem
  rw [h.word_single he]
  exact Element.wordBy_of_compute hcompute

/-- In every reading, the words of the forms are an interpretation. -/
theorem word_interprets (p : Pool) (env : TypeEnv) :
    p.Interprets env consts σ (p.word reading consts σ) where
  atom hf helem := hf.word_of_compute helem rfl
  apply hf helem _ hcompute := hf.word_of_compute helem hcompute
  move {f g b} hf hb helem := by
    obtain ⟨e, he, hmove⟩ := Option.map_eq_some_iff.1 helem
    rw [hf.word_single he, hmove]
    cases b with
    | toFloatRegister | toGeneralRegister => rfl
    | _ => cases hb
  cast hf helem hconvert := hf.word_of_compute helem hconvert

end Pool

end Decompiler
