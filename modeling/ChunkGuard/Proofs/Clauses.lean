import ChunkGuard.Mode.Classes
import ChunkGuard.Mode.Grammar
import Mathlib.Data.List.TakeWhile

/-!
# Symbolic modes as rows of clauses

`Clause.Row` says which clauses a text is made up of, without a word on how it is read, and
`Clause.scanAll?_eq_some` that the scan finds exactly these. So two texts joined by a comma are read
as the clauses of the first and then those of the second (`Mode.Reads.join`). A symbolic mode is what
its clauses make of a mode that changes nothing (`Mode.ofString_symbolic`), and for each class only
the last clause that names it counts (`Clause.of_foldl_amend`).
-/

namespace ChunkGuard

/-! ## Characters of one kind -/

namespace Mode

variable {kind other : Char → Bool} {front rest text : List Char}

/-- The text doesn't begin with a character of the kind. -/
def Stops (kind : Char → Bool) (text : List Char) : Prop := ∀ c ∈ text.head?, kind c = false

/-- What is taken while characters are of a kind is of that kind only. -/
theorem only_takeWhile : Only kind (text.takeWhile kind) :=
  fun _ hc => List.mem_takeWhile_imp hc

/-- Texts of one kind make up a text of that kind. -/
theorem Only.append (hfront : Only kind front) (hrest : Only kind rest) :
    Only kind (front ++ rest) :=
  List.forall_mem_append.mpr ⟨hfront, hrest⟩

/-- Nothing is taken where the kind stops. -/
theorem Stops.takeWhile_eq (h : Stops kind text) : text.takeWhile kind = [] := by
  cases text with
  | nil => rfl
  | cons c _ => rw [List.takeWhile_cons, h c rfl]; rfl

/-- Nothing is dropped where the kind stops. -/
theorem Stops.dropWhile_eq (h : Stops kind text) : text.dropWhile kind = text := by
  cases text with
  | nil => rfl
  | cons c _ => rw [List.dropWhile_cons, h c rfl]; rfl

/-- Just the characters of the kind are taken. -/
theorem Only.takeWhile_append (hfront : Only kind front) (hrest : Stops kind rest) :
    (front ++ rest).takeWhile kind = front := by
  rw [List.takeWhile_append_of_pos hfront, hrest.takeWhile_eq, List.append_nil]

/-- Just the characters of the kind are dropped. -/
theorem Only.dropWhile_append (hfront : Only kind front) (hrest : Stops kind rest) :
    (front ++ rest).dropWhile kind = rest := by
  rw [List.dropWhile_append_of_pos hfront, hrest.dropWhile_eq]

/-- Characters of one kind stop another one. -/
theorem Only.stops (hfront : Only kind front) (hne : front ≠ [])
    (hapart : ∀ c, kind c → other c = false) : Stops other (front ++ rest) := by
  obtain ⟨c, _, rfl⟩ := List.exists_cons_of_ne_nil hne
  rintro _ ⟨⟩
  exact hapart c (hfront c List.mem_cons_self)

end Mode

namespace Clause

open Mode (Only Stops only_takeWhile)

variable {text front rest s t separators : List Char} {c : Clause} {cs ds : List Clause}

/-- A letter for a class is nothing else. -/
theorem apart_of_isClass {c : Char} (h : isClass c) :
    isOperator c = false ∧ isRight c = false ∧ isSeparator c = false := by
  simp only [isClass, Bool.or_eq_true, decide_eq_true_eq] at h
  obtain ((rfl | rfl) | rfl) | rfl := h <;> decide

/-- An operator is nothing else. -/
theorem apart_of_isOperator {c : Char} (h : isOperator c) :
    isClass c = false ∧ isRight c = false ∧ isSeparator c = false := by
  unfold isOperator change? at h
  split at h <;> first | decide | cases h

/-- A letter for a right is nothing else. -/
theorem apart_of_isRight {c : Char} (h : isRight c) :
    isClass c = false ∧ isOperator c = false ∧ isSeparator c = false := by
  simp only [isRight, Bool.or_eq_true, decide_eq_true_eq] at h
  obtain (((rfl | rfl) | rfl) | rfl) | rfl := h <;> decide

/-! ## Rows of clauses -/

/-- The text is a clause and what follows it up to the next one. -/
inductive Written : List Char → Clause → Prop where
  | mk {classes operators rights separators : List Char} {change : Change}
      (hclasses : Only isClass classes) (hoperators : Only isOperator operators)
      (hchange : operators.getLast?.bind change? = some change) (hrights : Only isRight rights)
      (hne : rights ≠ []) (hseparators : Only isSeparator separators) :
      Written (classes ++ operators ++ rights ++ separators) (ofLetters classes change rights)

/-- The text is the clauses, one after the other. -/
inductive Row : List Char → List Clause → Prop where
  | nil : Row [] []
  | cons {front rest : List Char} {c : Clause} {cs : List Clause} (hfront : Written front c)
      (hrest : Row rest cs) : Row (front ++ rest) (c :: cs)

/-- Where the text goes on, it is with a clause. -/
def Leads (text : List Char) : Prop := ∀ c ∈ text.head?, isClass c ∨ isOperator c

/-- Operators that stand for a change are not missing. -/
theorem ne_nil_of_change {operators : List Char} {change : Change}
    (h : operators.getLast?.bind change? = some change) : operators ≠ [] := by
  rintro rfl
  cases h

/-- A clause begins with a class or an operator. -/
theorem Written.leads (h : Written front c) : Leads (front ++ rest) := by
  obtain @⟨classes, operators, rights, separators, _, hclasses, hoperators, hchange, -, -, -⟩ := h
  intro x hx
  cases classes with
  | nil =>
      obtain ⟨_, _, rfl⟩ := List.exists_cons_of_ne_nil (ne_nil_of_change hchange)
      cases hx
      exact .inr (hoperators x List.mem_cons_self)
  | cons =>
      cases hx
      exact .inl (hclasses x List.mem_cons_self)

/-- A clause is not empty. -/
theorem Written.ne_nil (h : Written front c) : front ≠ [] := by
  obtain ⟨-, -, -, -, hne, -⟩ := h
  simp [hne]

/-- A clause has a letter for a right. -/
theorem Written.exists_right (h : Written front c) : ∃ x ∈ front, isRight x := by
  obtain @⟨_, _, rights, _, _, -, -, -, hrights, hne, -⟩ := h
  obtain ⟨x, hx⟩ := List.exists_mem_of_ne_nil rights hne
  exact ⟨x, by simp [hx], hrights x hx⟩

/-- More separators after a clause are part of what follows it. -/
theorem Written.append (h : Written front c) (hseparators : Only isSeparator separators) :
    Written (front ++ separators) c := by
  obtain ⟨hclasses, hoperators, hchange, hrights, hne, hown⟩ := h
  rw [List.append_assoc]
  exact .mk hclasses hoperators hchange hrights hne (hown.append hseparators)

/-- A row of clauses begins as its first one does. -/
theorem Row.leads (h : Row text cs) : Leads text := by
  cases h with
  | nil => rintro _ ⟨⟩
  | cons hfront _ => exact hfront.leads

/-- Where there is a clause, there is a letter for a right. -/
theorem Row.exists_right (h : Row text cs) (hne : cs ≠ []) : ∃ x ∈ text, isRight x := by
  cases h with
  | nil => exact absurd rfl hne
  | cons hfront _ =>
      obtain ⟨x, hx, hright⟩ := hfront.exists_right
      exact ⟨x, List.mem_append_left _ hx, hright⟩

/-- Rows joined by separators make up a row. -/
theorem Row.join (hs : Row s cs) (hne : cs ≠ []) (hseparators : Only isSeparator separators)
    (ht : Row t ds) : Row (s ++ separators ++ t) (cs ++ ds) := by
  induction hs with
  | nil => exact absurd rfl hne
  | @cons front rest c cs hfront hrest ih =>
      cases hrest with
      | nil =>
          rw [List.append_nil]
          exact .cons (hfront.append hseparators) ht
      | cons =>
          have hjoined := Row.cons hfront (ih (List.cons_ne_nil _ _))
          simpa only [List.append_assoc, List.cons_append] using hjoined

/-! ## The scan -/

/-- What the scan of one clause takes is the clause, and it leaves the rest. -/
theorem written_of_scan? (h : scan? text = some (c, rest)) :
    ∃ front, text = front ++ rest ∧ Written front c := by
  obtain ⟨change, hchange, h⟩ := Option.bind_eq_some_iff.mp h
  dsimp only at h
  split at h
  next => cases h
  next hne =>
    cases h
    let operators := text.dropWhile isClass
    let rights := operators.dropWhile isOperator
    let separators := rights.dropWhile isRight
    refine ⟨text.takeWhile isClass ++ operators.takeWhile isOperator ++ rights.takeWhile isRight ++
      separators.takeWhile isSeparator, ?_, ?_⟩
    · simp only [List.append_assoc, List.takeWhile_append_dropWhile, operators, rights, separators]
    · exact .mk only_takeWhile only_takeWhile hchange only_takeWhile
        (fun hnil => hne (List.isEmpty_iff.mpr hnil)) only_takeWhile

/-- A clause is scanned up to where the next one begins. -/
theorem Written.scan?_append (h : Written front c) (hleads : Leads rest) :
    scan? (front ++ rest) = some (c, rest) := by
  obtain @⟨classes, operators, rights, separators, change, hclasses, hoperators, hchange, hrights,
    hne, hseparators⟩ := h
  have hstop : Stops isSeparator rest := fun x hx =>
    (hleads x hx).elim (apart_of_isClass · |>.2.2) (apart_of_isOperator · |>.2.2)
  have hrest : Stops isRight (separators ++ rest) := by
    by_cases hsep : separators = []
    · subst hsep
      exact fun x hx => (hleads x hx).elim (apart_of_isClass · |>.2.1) (apart_of_isOperator · |>.2.1)
    · refine hseparators.stops hsep fun x hx => Bool.eq_false_iff.mpr fun hright => ?_
      rw [(apart_of_isRight hright).2.2] at hx
      cases hx
  have hrights' : Stops isOperator (rights ++ (separators ++ rest)) :=
    hrights.stops hne fun _ hx => (apart_of_isRight hx).2.1
  have hoperators' : Stops isClass (operators ++ (rights ++ (separators ++ rest))) :=
    hoperators.stops (ne_nil_of_change hchange) fun _ hx => (apart_of_isOperator hx).1
  have hfull : rights.isEmpty = false := by simpa using hne
  simp only [scan?, List.append_assoc, hclasses.takeWhile_append hoperators',
    hclasses.dropWhile_append hoperators', hoperators.takeWhile_append hrights',
    hoperators.dropWhile_append hrights', hrights.takeWhile_append hrest,
    hrights.dropWhile_append hrest, hseparators.dropWhile_append hstop, hchange, hfull]
  rfl

/-- A text that is scanned is the row of the clauses found. -/
theorem row_of_scanAll? {fuel : Nat} (h : scanAll? fuel text = some cs) : Row text cs := by
  induction fuel generalizing text cs with
  | zero =>
      cases text with
      | nil => cases h; exact .nil
      | cons => cases h
  | succ fuel ih =>
      cases text with
      | nil => cases h; exact .nil
      | cons x text =>
          obtain ⟨⟨c, rest⟩, hscan, h⟩ := Option.bind_eq_some_iff.mp h
          obtain ⟨cs', hrest, h⟩ := Option.bind_eq_some_iff.mp h
          cases h
          obtain ⟨front, htext, hfront⟩ := written_of_scan? hscan
          rw [htext]
          exact .cons hfront (ih hrest)

/-- A row is scanned with fuel for each of its characters, for no clause is empty. -/
theorem Row.scanAll? (h : Row text cs) {fuel : Nat} (hfuel : text.length ≤ fuel) :
    scanAll? fuel text = some cs := by
  induction h generalizing fuel with
  | nil => cases fuel <;> rfl
  | @cons front rest c cs hfront hrest ih =>
      obtain ⟨x, front', rfl⟩ := List.exists_cons_of_ne_nil hfront.ne_nil
      cases fuel with
      | zero => simp at hfuel
      | succ fuel =>
          have hlength : rest.length ≤ fuel := by
            simp only [List.length_append, List.length_cons] at hfuel
            omega
          have hrest' := ih hlength
          have hscan := hfront.scan?_append hrest.leads
          rw [List.cons_append] at hscan ⊢
          simp only [Clause.scanAll?, hscan, Option.bind_eq_bind, Option.bind_some, hrest']
          rfl

/-- The scan finds the clauses that the text is made up of. -/
theorem scanAll?_eq_some {fuel : Nat} (hfuel : text.length ≤ fuel) :
    scanAll? fuel text = some cs ↔ Row text cs :=
  ⟨row_of_scanAll?, fun h => h.scanAll? hfuel⟩

/-! ## The clauses that count -/

/-- The last clause of a kind stands in for a default, if there is one. -/
theorem getD_getLast?_filter {α : Type} (cs : List Clause) (named : Clause → Bool)
    (value : Clause → α) (x y : α) :
    ((cs.filter named).getLast?.map value).getD x =
      if cs.any named then ((cs.filter named).getLast?.map value).getD y else x := by
  cases hlast : (cs.filter named).getLast? with
  | none =>
      have hnone : cs.any named = false := by
        rw [List.getLast?_eq_none_iff, List.filter_eq_nil_iff] at hlast
        exact List.any_eq_false.mpr hlast
      rw [hnone]
      rfl
  | some c =>
      obtain ⟨hmem, hnamed⟩ := List.mem_filter.mp (List.mem_of_getLast? hlast)
      rw [List.any_eq_true.mpr ⟨c, hmem, hnamed⟩]
      rfl

/-- What each clause replaces if it is of a kind is as the last one of the kind says. -/
theorem foldl_amend_eq {α : Type} (part : Mode → α) {named : Clause → Bool} {value : Clause → α}
    (hstep : ∀ m c, part (amend m c) = if named c then value c else part m) (cs : List Clause)
    (m : Mode) :
    part (cs.foldl amend m) = ((cs.filter named).getLast?.map value).getD (part m) := by
  induction cs generalizing m with
  | nil => rfl
  | cons c cs ih =>
      rw [List.foldl_cons, ih, hstep, List.filter_cons]
      split
      next => rw [List.getLast?_cons]; cases (cs.filter named).getLast? <;> rfl
      next => rfl

/-- Of the clauses that name a class the last one says how it changes. -/
theorem of_foldl_amend (cs : List Clause) (m : Mode) (k : UserClass) :
    (cs.foldl amend m).of k = ((cs.filter (·.names k)).getLast?.map (·.change)).getD (m.of k) :=
  foldl_amend_eq (·.of k) (fun m c => of_amend m c k) cs m

/-- Of the clauses that name others the last one says how the sticky bit changes. -/
theorem sticky_foldl_amend (cs : List Clause) (m : Mode) :
    (cs.foldl amend m).sticky =
      ((cs.filter (·.names .others)).getLast?.map fun c => (c.change.change, c.sticky)).getD
        m.sticky :=
  foldl_amend_eq (·.sticky) (fun _ _ => rfl) cs m

/-- Clauses don't change of which kind the mode is. -/
theorem symbolic_foldl_amend (cs : List Clause) (m : Mode) :
    (cs.foldl amend m).symbolic = m.symbolic := by
  induction cs generalizing m with
  | nil => rfl
  | cons c cs ih => rw [List.foldl_cons, ih]; rfl

end Clause

namespace Mode

variable {text s t : List Char} {cs ds : List Clause} {m : Mode}

/-! ## Symbolic modes -/

/-- The text is the clauses after blanks. -/
def Reads (text : List Char) (cs : List Clause) : Prop :=
  ∃ before row, text = before ++ row ∧ Only Text.isBlank before ∧ Clause.Row row cs

/-- The clauses of a symbolic mode. -/
def clauses? (text : List Char) : Option (List Clause) :=
  let row := text.dropWhile Text.isBlank
  Clause.scanAll? row.length row

/-- Whether a clause of the symbolic mode names the class. -/
def names (text : String) (k : UserClass) : Bool :=
  (clauses? text.toList).any (·.any (·.names k))

/-- The clauses found are those that the text is read as. -/
theorem clauses?_eq_some : clauses? text = some cs ↔ Reads text cs := by
  rw [clauses?, Clause.scanAll?_eq_some (Nat.le_refl _)]
  constructor
  · exact fun h => ⟨_, _, List.takeWhile_append_dropWhile.symm, only_takeWhile, h⟩
  · rintro ⟨before, row, rfl, hbefore, hrow⟩
    have hstop : Stops Text.isBlank row := by
      intro x hx
      have hsep : Clause.isSeparator x = false :=
        (hrow.leads x hx).elim (Clause.apart_of_isClass · |>.2.2)
          (Clause.apart_of_isOperator · |>.2.2)
      exact (Bool.or_eq_false_iff.mp hsep).2
    rwa [hbefore.dropWhile_append hstop]

/-- Symbolic modes joined by a comma are read as the clauses of both. -/
theorem Reads.join (hs : Reads s cs) (hne : cs ≠ []) (ht : Reads t ds) :
    Reads (s ++ ',' :: t) (cs ++ ds) := by
  obtain ⟨before, row, rfl, hbefore, hrow⟩ := hs
  obtain ⟨blanks, row', rfl, hblanks, hrow'⟩ := ht
  have hseparators : Only Clause.isSeparator (',' :: blanks) := by
    refine List.forall_mem_cons.mpr ⟨rfl, fun x hx => ?_⟩
    rw [Clause.isSeparator, hblanks x hx, Bool.or_true]
  refine ⟨before, row ++ (',' :: blanks) ++ row', ?_, hbefore, hrow.join hne hseparators hrow'⟩
  simp only [List.append_assoc, List.cons_append]

/-- A symbolic mode is what at least one clause makes of one that changes nothing. -/
theorem symbolic?_eq_some :
    symbolic? text = some m ↔
      ∃ cs, Reads text cs ∧ cs ≠ [] ∧ cs.foldl Clause.amend { symbolic := true } = m := by
  have hread : symbolic? text = (clauses? text).bind fun cs =>
      if cs.isEmpty then none else some (cs.foldl Clause.amend { symbolic := true }) := rfl
  simp only [hread, Option.bind_eq_some_iff, clauses?_eq_some, Option.ite_none_left_eq_some,
    List.isEmpty_iff, Option.some.injEq, ne_eq]

/-! ## Octal modes have no letters -/

/-- A character of another kind isn't dropped. -/
theorem mem_dropWhile {kind : Char → Bool} {x : Char} (hx : x ∈ text) (hnot : kind x = false) :
    x ∈ text.dropWhile kind := by
  rw [← List.takeWhile_append_dropWhile (p := kind) (l := text), List.mem_append] at hx
  refine hx.resolve_left fun h => ?_
  rw [List.mem_takeWhile_imp h] at hnot
  cases hnot

/-- A character that is no blank stays in the text without blanks around it. -/
theorem mem_trim {x : Char} (hx : x ∈ text) (hnot : Text.isBlank x = false) : x ∈ trim text :=
  List.mem_reverse.mpr (mem_dropWhile (List.mem_reverse.mpr (mem_dropWhile hx hnot)) hnot)

/-- A text with a letter for a right is no octal mode. -/
theorem octal?_eq_none {x : Char} (hx : x ∈ text) (hright : Clause.isRight x) :
    octal? text = none := by
  obtain ⟨-, hoperator, hseparator⟩ := Clause.apart_of_isRight hright
  have htrim := mem_trim hx (Bool.or_eq_false_iff.mp hseparator).2
  have hdigit : Text.isOctalDigit x = false := by
    simp only [Clause.isRight, Bool.or_eq_true, decide_eq_true_eq] at hright
    obtain (((rfl | rfl) | rfl) | rfl) | rfl := hright <;> decide
  have hmem : x ∈ if (trim text).head? = some '+' then (trim text).tail else trim text := by
    split
    next hplus =>
      obtain ⟨tail, htail⟩ := List.head?_eq_some_iff.mp hplus
      rw [htail] at htrim ⊢
      refine (List.mem_cons.mp htrim).resolve_left ?_
      rintro rfl
      cases hoperator
    next => exact htrim
  unfold octal?
  dsimp only
  rw [if_neg]
  intro hall
  rw [List.all_eq_true.mp hall x hmem] at hdigit
  cases hdigit

/-- An octal mode is not symbolic. -/
theorem symbolic_of_octal? (h : octal? text = some m) : m.symbolic = false := by
  unfold octal? at h
  dsimp only at h
  generalize (if (trim text).head? = some '+' then (trim text).tail else trim text) = digits at h
  split at h
  next =>
    split at h
    next => cases h; rfl
    next => split at h <;> cases h; rfl
    next => cases h
  next => cases h

/-- A symbolic mode says that it is one. -/
theorem symbolic_of_symbolic? (h : symbolic? text = some m) : m.symbolic = true := by
  obtain ⟨cs, -, -, rfl⟩ := symbolic?_eq_some.mp h
  exact Clause.symbolic_foldl_amend ..

/-- No text is of both kinds, for symbolic modes have letters for rights. -/
theorem octal?_eq_none_of_symbolic? (h : symbolic? text = some m) : octal? text = none := by
  obtain ⟨cs, ⟨before, row, rfl, -, hrow⟩, hne, -⟩ := symbolic?_eq_some.mp h
  obtain ⟨x, hx, hright⟩ := hrow.exists_right hne
  exact octal?_eq_none (List.mem_append_right _ hx) hright

/-- A mode is octal or symbolic, in no particular order. -/
theorem parse?_eq_some : parse? text = some m ↔ octal? text = some m ∨ symbolic? text = some m := by
  rw [parse?]
  cases hoctal : octal? text with
  | none => simp
  | some m' =>
      have hnot : symbolic? text ≠ some m := fun h => by
        rw [octal?_eq_none_of_symbolic? h] at hoctal
        cases hoctal
      simp [hnot]

/-- A mode of a text is one of its characters. -/
theorem ofString_eq_ok {text : String} : ofString text = .ok m ↔ parse? text.toList = some m := by
  unfold ofString
  cases parse? text.toList <;> simp

/-- A text is a symbolic mode if it is a row of clauses after blanks, and the mode is what the clauses
make of one that changes nothing. -/
theorem ofString_symbolic {text : String} :
    (ofString text = .ok m ∧ m.symbolic) ↔
      ∃ cs, Reads text.toList cs ∧ cs ≠ [] ∧ cs.foldl Clause.amend { symbolic := true } = m := by
  rw [ofString_eq_ok, parse?_eq_some, ← symbolic?_eq_some]
  constructor
  · rintro ⟨hoctal | h, hsymbolic⟩
    · rw [symbolic_of_octal? hoctal] at hsymbolic
      cases hsymbolic
    · exact h
  · intro h
    exact ⟨.inr h, symbolic_of_symbolic? h⟩

end Mode

end ChunkGuard
