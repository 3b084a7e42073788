import ChunkGuard.Mode.Classes
import ChunkGuard.Mode.Grammar

/-!
# Clauses letter by letter

A `Clause.Spelling` is the text of one clause, taken apart into its letters. Everything here is read
off these letters: the classes that the clause names, the operator that counts, and the rights that it
lists. `Clause.Spelling.clause` is the clause itself.
-/

namespace ChunkGuard

/-- The letter for a class. -/
def UserClass.letter : UserClass → Char
  | .user => 'u'
  | .group => 'g'
  | .others => 'o'

/-- The letter for a right that is listed without a condition. -/
def Right.letter : Right → Char
  | .read => 'r'
  | .write => 'w'
  | .execute => 'x'

instance (kind : Char → Bool) (text : List Char) : Decidable (Mode.Only kind text) :=
  List.decidableBAll (fun c => kind c = true) text

namespace Clause

/-- The letters of one clause. -/
structure Spelling where
  classes : List Char
  operators : List Char
  rights : List Char
  separators : List Char
  classes_only : Mode.Only isClass classes
  operators_only : Mode.Only isOperator operators
  operators_ne : operators ≠ []
  rights_only : Mode.Only isRight rights
  rights_ne : rights ≠ []
  separators_only : Mode.Only isSeparator separators

namespace Spelling

/-- The letters in a row. -/
def text (p : Spelling) : List Char := p.classes ++ p.operators ++ p.rights ++ p.separators

/-- Of several operators the last one counts. -/
def operator (p : Spelling) : Char := p.operators.getLast p.operators_ne

/-- The change that the operator stands for. -/
def change (p : Spelling) : Change :=
  match p.operator with
  | '+' => .add
  | '-' => .remove
  | _ => .assign

/-- The clause that is written. -/
def clause (p : Spelling) : Clause := ofLetters p.classes p.change p.rights

/-- Whether the class is named: by its own letter, or with the other two where none of the three has
its letter. -/
def names (p : Spelling) (k : UserClass) : Bool :=
  k.letter ∈ p.classes || !('u' ∈ p.classes || 'g' ∈ p.classes || 'o' ∈ p.classes)

/-- Whether the class is meant by its own letter, by the letter for all classes, or by no letter at
all. -/
def means (p : Spelling) (k : UserClass) : Bool :=
  k.letter ∈ p.classes || 'a' ∈ p.classes || p.classes.isEmpty

/-- Whether the right is listed. The right to execute may be listed for the case only that the file may
be executed. -/
def lists (p : Spelling) (executable : Bool) (r : Right) : Bool :=
  r.letter ∈ p.rights || r = .execute && 'X' ∈ p.rights && executable

/-- What becomes of a bit that is listed or not. -/
def turns (p : Spelling) (listed old : Bool) : Bool :=
  match p.operator with
  | '+' => old || listed
  | '-' => old && !listed
  | _ => listed

theorem isOperator_operator (p : Spelling) : isOperator p.operator :=
  p.operators_only _ (List.getLast_mem _)

/-- The operator is the one that the scan looks for. -/
theorem change?_operator (p : Spelling) : p.operators.getLast?.bind change? = some p.change := by
  rw [List.getLast?_eq_some_getLast p.operators_ne, Option.bind_some]
  have hoperator : (change? p.operator).isSome := p.isOperator_operator
  show change? p.operator = some p.change
  unfold change
  unfold change? at hoperator ⊢
  split at hoperator
  next h => rw [h]; rfl
  next h => rw [h]; rfl
  next h => rw [h]; rfl
  next => cases hoperator

/-- The right is turned as the change turns a bit. -/
theorem turns_eq (p : Spelling) (listed old : Bool) :
    p.turns listed old = p.change.onBit listed old := by
  unfold turns change
  split
  · exact Bool.or_comm ..
  · exact Bool.and_comm ..
  · rfl

/-- The clause names the classes that its letters do. -/
theorem names_clause (p : Spelling) (k : UserClass) : p.clause.names k = p.names k := by
  cases k <;> exact Bool.or_comm ..

/-- The letter for all classes counts only where no class has its own letter. -/
theorem names_ne_means_iff (p : Spelling) (k : UserClass) :
    p.names k ≠ p.means k ↔
      'a' ∈ p.classes ∧ k.letter ∉ p.classes ∧ ∃ k' : UserClass, k'.letter ∈ p.classes := by
  have hletters : (∃ k' : UserClass, k'.letter ∈ p.classes) ↔
      'u' ∈ p.classes ∨ 'g' ∈ p.classes ∨ 'o' ∈ p.classes := by
    constructor
    · rintro ⟨_ | _ | _, h⟩
      · exact .inl h
      · exact .inr (.inl h)
      · exact .inr (.inr h)
    · rintro (h | h | h)
      · exact ⟨.user, h⟩
      · exact ⟨.group, h⟩
      · exact ⟨.others, h⟩
  rw [hletters]
  by_cases hsome : 'u' ∈ p.classes ∨ 'g' ∈ p.classes ∨ 'o' ∈ p.classes
  · have hne : p.classes ≠ [] := by
      rintro hnil
      simp [hnil] at hsome
    have hown : ('u' ∈ p.classes || 'g' ∈ p.classes || 'o' ∈ p.classes : Bool) = true := by
      simpa [or_assoc] using hsome
    have hnames : p.names k = decide (k.letter ∈ p.classes) := by
      rw [names, hown, Bool.not_true, Bool.or_false]
    by_cases hk : k.letter ∈ p.classes <;> by_cases ha : 'a' ∈ p.classes <;>
      simp [hnames, means, hk, ha, hsome, hne]
  · -- Without a letter of their own all classes are named, and by no letters or the one for all.
    have hall : 'a' ∈ p.classes ∨ p.classes = [] := by
      by_cases hne : p.classes = []
      · exact .inr hne
      refine .inl ?_
      obtain ⟨c, hc⟩ := List.exists_mem_of_ne_nil _ hne
      have hclass := p.classes_only c hc
      simp only [isClass, Bool.or_eq_true, decide_eq_true_eq] at hclass
      obtain ((rfl | rfl) | rfl) | rfl := hclass
      · exact absurd (.inl hc) hsome
      · exact absurd (.inr (.inl hc)) hsome
      · exact absurd (.inr (.inr hc)) hsome
      · exact hc
    have hmeans : p.means k = true := by
      obtain ha | hnil := hall
      · simp [means, ha]
      · simp [means, hnil]
    have hnames : p.names k = true := by
      simp only [not_or] at hsome
      simp [names, hsome]
    simp [hmeans, hnames, hsome]

/-- The clause names the rights that its letters do. -/
theorem has_named_clause (p : Spelling) (r : Right) :
    p.clause.change.named.has r = (r.letter ∈ p.rights : Bool) := by
  cases r <;> rfl

end Spelling

end Clause

/-- The texts of clauses are those of their letters. -/
theorem Mode.isClause_iff {text : List Char} :
    IsClause text ↔ ∃ p : Clause.Spelling, text = p.text := by
  constructor
  · rintro ⟨classes, operators, rights, separators, htext, hclasses, hne, hoperators, hne', hrights,
      hseparators⟩
    exact ⟨⟨classes, operators, rights, separators, hclasses, hoperators, hne, hrights, hne',
      hseparators⟩, htext⟩
  · rintro ⟨p, htext⟩
    exact ⟨p.classes, p.operators, p.rights, p.separators, htext, p.classes_only, p.operators_ne,
      p.operators_only, p.rights_ne, p.rights_only, p.separators_only⟩

end ChunkGuard
