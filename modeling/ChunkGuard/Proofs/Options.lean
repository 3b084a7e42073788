import ChunkGuard.Command.Format
import ChunkGuard.Proofs.Ends
import Mathlib.Data.List.TakeWhile

/-!
# Options and parameters of commands

What a call of `Command.Format.parse` gives is told from its words alone (`Format.verdict`), whatever
was parsed before. What it leaves behind are the options that it came to before the first word that
the format doesn't know (`Format.note`), also where it fails. So after any calls an option was given
exactly if one of them came to it (`Format.parse_after`).
-/

namespace ChunkGuard.Command

variable {word o : String}

/-! ## Words that are options -/

/-- Whether the word begins with a dash and has more. -/
def isOption (word : String) : Bool := 1 < word.length && word.toList.head? = some '-'

/-- A word is an option if it names one. -/
theorem isOption_eq (word : String) : isOption word = (option? word).isSome := by
  rw [isOption, option?, ← String.length_toList]
  split
  next hlist => simp [hlist]
  next hother =>
    match hlist : word.toList with
    | [] => rfl
    | [_] => rfl
    | first :: c :: rest =>
        have hdash : first ≠ '-' := by
          rintro rfl
          exact hother c rest hlist
        simp [hdash]

/-- The option is the word after its dash. -/
theorem eq_of_option? (h : option? word = some o) : word = "-" ++ o := by
  rw [option?] at h
  split at h
  next hlist =>
    cases h
    rw [← String.toList_inj, hlist]
    simp
  next => cases h

/-- An option is its name after a dash. -/
theorem option?_eq_some : option? word = some o ↔ isOption word ∧ word = "-" ++ o := by
  rw [isOption_eq]
  refine ⟨fun h => ⟨Option.isSome_of_mem h, eq_of_option? h⟩, ?_⟩
  rintro ⟨his, rfl⟩
  obtain ⟨o', ho'⟩ := Option.isSome_iff_exists.mp his
  obtain rfl : o = o' := by simpa using eq_of_option? ho'
  exact ho'

/-! ## One call -/

namespace Format

variable {f g : Format} {words parameters : List String}

/-- Whether the word is a parameter or an option that is declared. -/
def knows (f : Format) (word : String) : Bool :=
  !isOption word || f.options.any (word = "-" ++ ·)

/-- The options in the words up to the first word that isn't known are noted as given. -/
def note (f : Format) (words : List String) : Format :=
  { f with given := ((words.takeWhile f.knows).filterMap option?).reverse ++ f.given }

/-- The parameters among the words, or what is wrong with the words. -/
def verdict (f : Format) (words : List String) : Except ArgumentError (List String) :=
  match words.find? (!f.knows ·) with
  | some word => .error (.illegalOption word)
  | none =>
    let parameters := words.filter (!isOption ·)
    if f.least ≤ parameters.length ∧ parameters.length ≤ f.most then .ok parameters
    else .error (.parameterCount f.name)

/-- A word that is no option is always known. -/
theorem knows_of_option?_eq_none (h : option? word = none) : f.knows word = true := by
  rw [knows, isOption_eq, h]
  rfl

/-- An option is known if it was declared. -/
theorem knows_of_option?_eq_some (h : option? word = some o) :
    f.knows word = decide (o ∈ f.options) := by
  obtain ⟨his, rfl⟩ := option?_eq_some.mp h
  rw [knows, his, Bool.not_true, Bool.false_or, Bool.eq_iff_iff, List.any_eq_true, decide_eq_true_eq]
  simp

/-- Words that are no options are passed over. -/
theorem note_cons_of_option?_eq_none (h : option? word = none) :
    f.note (word :: words) = f.note words := by
  rw [note, List.takeWhile_cons_of_pos (knows_of_option?_eq_none h), List.filterMap_cons_none h]
  rfl

/-- A declared option is noted. -/
theorem note_cons_of_mem (h : option? word = some o) (hdeclared : o ∈ f.options) :
    f.note (word :: words) = { f with given := o :: f.given }.note words := by
  have hknows : f.knows word = true := by rw [knows_of_option?_eq_some h, decide_eq_true hdeclared]
  rw [note, List.takeWhile_cons_of_pos hknows, List.filterMap_cons_some h, List.reverse_cons,
    List.append_assoc]
  rfl

/-- Nothing is noted from an unknown word on. -/
theorem note_cons_of_not_knows (h : f.knows word = false) : f.note (word :: words) = f := by
  rw [note, List.takeWhile_cons_of_neg (Bool.eq_false_iff.mp h)]
  rfl

/-- If all words are known, all options among them are noted. -/
theorem note_of_knows (h : ∀ word ∈ words, f.knows word) :
    f.note words = { f with given := (words.filterMap option?).reverse ++ f.given } := by
  rw [note, List.takeWhile_eq_self_iff.mpr h]

/-- Words are sorted one after the other, up to an option that isn't declared. -/
theorem ends_scan_words (words : List String) (f : Format) :
    Ends (scan words) f
      (fun parameters g => words.find? (!f.knows ·) = none ∧
        parameters = words.filter (!isOption ·) ∧ g = f.note words)
      (fun e g => ∃ word, words.find? (!f.knows ·) = some word ∧ e = .illegalOption word ∧
        g = f.note words) := by
  induction words generalizing f with
  | nil => exact ⟨rfl, rfl, rfl⟩
  | cons word rest ih =>
      rw [scan]
      cases hoption : option? word with
      | none =>
          have his : isOption word = false := by rw [isOption_eq, hoption]; rfl
          have hfind := List.find?_cons_of_neg (p := (!f.knows ·)) (a := word) (l := rest)
            (by rw [knows_of_option?_eq_none hoption]; decide)
          simp only [ends_bind, ends_pure, hfind, note_cons_of_option?_eq_none hoption,
            List.filter_cons, his]
          refine (ih f).mono ?_ fun e g he => he
          rintro parameters g ⟨hnone, rfl, rfl⟩
          exact ⟨hnone, rfl, rfl⟩
      | some o =>
          have his : isOption word = true := (option?_eq_some.mp hoption).1
          have hknows := knows_of_option?_eq_some (f := f) hoption
          simp only [ends_bind, ends_get, ends_set, ends_ite, ends_throw]
          refine ⟨fun hdeclared => ?_, fun hdeclared => ?_⟩
          · have hfind := List.find?_cons_of_neg (p := (!f.knows ·)) (a := word) (l := rest)
              (by rw [hknows, decide_eq_true hdeclared]; decide)
            simp only [hfind, note_cons_of_mem hoption hdeclared, List.filter_cons, his]
            exact ih { f with given := o :: f.given }
          · have hunknown : f.knows word = false := by rw [hknows, decide_eq_false hdeclared]
            exact ⟨word, List.find?_cons_of_pos (by rw [hunknown]; rfl), rfl,
              (note_cons_of_not_knows hunknown).symm⟩

/-- A call gives what its words call for, and notes options whether it succeeds or not. -/
theorem parse_eq_leaving (arguments : List String) (start : Nat) (f : Format) :
    parse arguments start f =
      leaving (f.note (arguments.drop start)) (f.verdict (arguments.drop start)) := by
  refine Ends.eq_leaving ?_
  rw [parse, ends_bind]
  refine (ends_scan_words _ f).mono ?_ ?_
  · rintro parameters g ⟨hnone, rfl, rfl⟩
    simp only [ends_bind, ends_get, ends_ite, ends_throw, ends_pure, verdict, hnone, and_true]
    refine ⟨fun hcount => if_neg ?_, fun hcount => if_pos ?_⟩
    · change _ < f.least ∨ f.most < _ at hcount
      omega
    · change ¬(_ < f.least ∨ f.most < _) at hcount
      omega
  · rintro e g ⟨word, hfind, rfl, rfl⟩
    exact ⟨by rw [verdict, hfind], rfl⟩

/-- Without an unknown word to find all words are known. -/
theorem find?_eq_none_iff_knows :
    words.find? (!f.knows ·) = none ↔ ∀ word ∈ words, f.knows word := by
  simp

/-- A call succeeds if all words are known and the parameters are neither too few nor too many. -/
theorem verdict_eq_ok : f.verdict words = .ok parameters ↔
    (∀ word ∈ words, f.knows word) ∧ parameters = words.filter (!isOption ·) ∧
      f.least ≤ parameters.length ∧ parameters.length ≤ f.most := by
  rw [verdict, ← find?_eq_none_iff_knows]
  cases hfind : words.find? (!f.knows ·) with
  | some word => simp
  | none =>
      dsimp only
      by_cases hcount : f.least ≤ (words.filter (!isOption ·)).length ∧
          (words.filter (!isOption ·)).length ≤ f.most
      · rw [if_pos hcount, Except.ok.injEq]
        constructor
        · rintro rfl
          exact ⟨rfl, rfl, hcount⟩
        · exact fun h => h.2.1.symm
      · rw [if_neg hcount]
        refine ⟨nofun, ?_⟩
        rintro ⟨-, rfl, hcount'⟩
        exact absurd hcount' hcount

/-- A call fails for its first unknown word, or else for the number of its parameters. -/
theorem verdict_eq_error {e : ArgumentError} : f.verdict words = .error e ↔
    (∃ word, words.find? (!f.knows ·) = some word ∧ e = .illegalOption word) ∨
      (∀ word ∈ words, f.knows word) ∧
        ¬(f.least ≤ (words.filter (!isOption ·)).length ∧
          (words.filter (!isOption ·)).length ≤ f.most) ∧ e = .parameterCount f.name := by
  rw [verdict, ← find?_eq_none_iff_knows]
  cases hfind : words.find? (!f.knows ·) with
  | some word => simp [eq_comm]
  | none =>
      dsimp only
      by_cases hcount : f.least ≤ (words.filter (!isOption ·)).length ∧
          (words.filter (!isOption ·)).length ≤ f.most
      · simp [hcount]
      · rw [if_neg hcount, Except.error.injEq]
        simp [hcount, eq_comm]

/-! ## Any calls -/

/-- The format after a call. -/
def next (f : Format) (call : List String × Nat) : Format :=
  match parse call.1 call.2 f with
  | .ok _ g => g
  | .error _ g => g

/-- The format after calls. -/
def after (f : Format) (calls : List (List String × Nat)) : Format := calls.foldl next f

/-- A call notes the words from its position on. -/
theorem next_eq (f : Format) (call : List String × Nat) :
    f.next call = f.note (call.1.drop call.2) := by
  rw [next, parse_eq_leaving]
  cases f.verdict (call.1.drop call.2) <;> rfl

/-- Only which options were given may change. -/
theorem exists_after_eq (f : Format) (calls : List (List String × Nat)) :
    ∃ given, f.after calls = { f with given := given } := by
  induction calls generalizing f with
  | nil => exact ⟨f.given, rfl⟩
  | cons call calls ih =>
      obtain ⟨given, hgiven⟩ := ih (f.next call)
      exact ⟨given, hgiven.trans (by rw [next_eq]; rfl)⟩

/-- Whether the call comes to the option before it comes to one that isn't declared. -/
def meets (f : Format) (call : List String × Nat) (o : String) : Bool :=
  isOption ("-" ++ o) && "-" ++ o ∈ (call.1.drop call.2).takeWhile f.knows

/-- After a call the options given are those from before and those that it met. -/
theorem mem_given_next {call : List String × Nat} :
    o ∈ (f.next call).given ↔ o ∈ f.given ∨ f.meets call o := by
  rw [next_eq]
  simp only [note, meets, List.mem_append, List.mem_reverse, List.mem_filterMap, option?_eq_some,
    Bool.and_eq_true, decide_eq_true_eq]
  constructor
  · rintro (⟨word, hword, his, rfl⟩ | hgiven)
    · exact .inr ⟨his, hword⟩
    · exact .inl hgiven
  · rintro (hgiven | ⟨his, hword⟩)
    · exact .inr hgiven
    · exact .inl ⟨_, hword, his, rfl⟩

/-- An option is noted if one of the calls comes to it. -/
theorem mem_given_after (f : Format) (calls : List (List String × Nat)) :
    o ∈ (f.after calls).given ↔ o ∈ f.given ∨ ∃ call ∈ calls, f.meets call o := by
  induction calls generalizing f with
  | nil => simp [after]
  | cons call calls ih =>
      have hafter : f.after (call :: calls) = (f.next call).after calls := rfl
      have hmeets : (f.next call).meets = f.meets := by rw [next_eq]; rfl
      simp only [hafter, ih, hmeets, mem_given_next, or_assoc, List.mem_cons, exists_eq_or_imp]

/-- Any calls, and one more. Whatever was parsed before, the call succeeds exactly if all options among
its words are declared and the number of the others fits, and it gives these. Otherwise it fails with
the first option that isn't declared, or else because of the number. An option that is declared counts
as given once a call came to it before an option that isn't declared, and no other is ever known. -/
theorem parse_after (name : String) (least most : Nat) (options : List String)
    (calls : List (List String × Nat)) :
    let f : Format := { name := name, least := least, most := most, options := options }
    let g := f.after calls
    (∀ arguments start, ∃ g' outcome, parse arguments start g = leaving g' outcome ∧
      (∀ parameters, outcome = .ok parameters ↔
        (∀ word ∈ arguments.drop start, f.knows word) ∧
          parameters = (arguments.drop start).filter (!isOption ·) ∧
          least ≤ parameters.length ∧ parameters.length ≤ most) ∧
      (∀ e, outcome = .error e ↔
        (∃ word, (arguments.drop start).find? (!f.knows ·) = some word ∧ e = .illegalOption word) ∨
          (∀ word ∈ arguments.drop start, f.knows word) ∧
            ¬(least ≤ ((arguments.drop start).filter (!isOption ·)).length ∧
              ((arguments.drop start).filter (!isOption ·)).length ≤ most) ∧
            e = .parameterCount name)) ∧
      (∀ o ∈ options, g.isGiven o = .ok (decide (∃ call ∈ calls, f.meets call o))) ∧
      (∀ o ∉ options, g.isGiven o = .error (.unknownOption o name)) ∧ g.options = options := by
  intro f g
  obtain ⟨given, hg⟩ : ∃ given, g = { f with given := given } := exists_after_eq f calls
  refine ⟨fun arguments start => ⟨_, _, parse_eq_leaving arguments start g, fun _ => ?_, fun _ => ?_⟩,
    fun o ho => ?_, fun o ho => ?_, ?_⟩
  · rw [hg]
    exact verdict_eq_ok
  · rw [hg]
    exact verdict_eq_error
  · have hgiven : o ∈ g.given ↔ ∃ call ∈ calls, f.meets call o := by simp [g, mem_given_after, f]
    have hoptions : g.options = options := by rw [hg]
    rw [isGiven, hoptions, if_pos ho]
    simp only [hgiven]
  · have hoptions : g.options = options := by rw [hg]
    rw [isGiven, hoptions, if_neg ho, hg]
  · rw [hg]

end Format

end ChunkGuard.Command
