import ChunkGuard.Usage.Poller
import Mathlib.Data.List.Basic
import Mathlib.Data.List.Induction
import Mathlib.Data.List.TakeWhile
import Mathlib.Data.Nat.Digits.Defs

/-!
# What a poller knows of the disk usage

`Report.Tells` says in terms of the text which reports tell a number of kilobytes, and
`Report.kilobytes_eq_ok` that a poller takes its value from exactly these. Over a run (`Poller.Ran`) the value
is what the last successful report told, in bytes, and what it was adjusted by since
(`used_of_ran`), no matter who asked for the reports, and a report that fails leaves it alone.
-/

namespace ChunkGuard.Usage

/-! ## Reports that tell a number -/

/-- The number that decimal digits are. -/
def decimalValue (digits : List Char) : Nat :=
  Nat.ofDigits 10 (digits.reverse.map Text.digitValue)

/-- The text is a decimal number, with a sign or without one. -/
inductive Numeral : List Char → Int → Prop where
  | plain {digits : List Char} (hne : digits ≠ []) (hdigits : ∀ c ∈ digits, c.isDigit) :
      Numeral digits (decimalValue digits)
  | plus {digits : List Char} (hne : digits ≠ []) (hdigits : ∀ c ∈ digits, c.isDigit) :
      Numeral ('+' :: digits) (decimalValue digits)
  | minus {digits : List Char} (hne : digits ≠ []) (hdigits : ∀ c ∈ digits, c.isDigit) :
      Numeral ('-' :: digits) (-decimalValue digits)

theorem digits?_eq_some {text : List Char} {n : Nat} :
    digits? text = some n ↔
      text ≠ [] ∧ (∀ c ∈ text, c.isDigit) ∧ decimalValue text = n := by
  have hvalue : text.foldl (fun n c => 10 * n + Text.digitValue c) 0 = decimalValue text := by
    simp [decimalValue, Nat.ofDigits_eq_foldr, List.foldl_map, Nat.add_comm]
  simp [digits?, hvalue, and_assoc]

theorem numeral_plus {digits : List Char} {k : Int} :
    Numeral ('+' :: digits) k ↔ ∃ n, digits? digits = some n ∧ k = n := by
  simp only [digits?_eq_some]
  constructor
  · rintro (⟨-, hdigits⟩ | ⟨hne, hdigits⟩)
    · exact absurd (hdigits '+' List.mem_cons_self) (by decide)
    · exact ⟨_, ⟨hne, hdigits, rfl⟩, rfl⟩
  · rintro ⟨_, ⟨hne, hdigits, rfl⟩, rfl⟩
    exact .plus hne hdigits

theorem numeral_minus {digits : List Char} {k : Int} :
    Numeral ('-' :: digits) k ↔ ∃ n, digits? digits = some n ∧ k = -(n : Int) := by
  simp only [digits?_eq_some]
  constructor
  · rintro (⟨-, hdigits⟩ | _ | ⟨hne, hdigits⟩)
    · exact absurd (hdigits '-' List.mem_cons_self) (by decide)
    · exact ⟨_, ⟨hne, hdigits, rfl⟩, rfl⟩
  · rintro ⟨_, ⟨hne, hdigits, rfl⟩, rfl⟩
    exact .minus hne hdigits

theorem numeral_of_no_sign {text : List Char} {k : Int} (hminus : ∀ rest, text ≠ '-' :: rest)
    (hplus : ∀ rest, text ≠ '+' :: rest) :
    Numeral text k ↔ ∃ n, digits? text = some n ∧ k = n := by
  simp only [digits?_eq_some]
  constructor
  · rintro (⟨hne, hdigits⟩ | _ | _)
    · exact ⟨_, ⟨hne, hdigits, rfl⟩, rfl⟩
    · exact absurd rfl (hplus _)
    · exact absurd rfl (hminus _)
  · rintro ⟨_, ⟨hne, hdigits, rfl⟩, rfl⟩
    exact .plain hne hdigits

theorem fitting_eq_some {digits : Option Nat} {value : Nat → Int} {k : Int} :
    ((digits.map value).bind fun n => if Word.IsSigned n then some n else none) = some k ↔
      (∃ n, digits = some n ∧ k = value n) ∧ Word.IsSigned k := by
  simp only [Option.bind_eq_some_iff, Option.map_eq_some_iff, Option.ite_none_right_eq_some,
    Option.some.injEq]
  constructor
  · rintro ⟨_, ⟨n, hn, rfl⟩, hsigned, rfl⟩
    exact ⟨⟨n, hn, rfl⟩, hsigned⟩
  · rintro ⟨⟨n, hn, rfl⟩, hsigned⟩
    exact ⟨_, ⟨n, hn, rfl⟩, hsigned, rfl⟩

/-- A text is read as a word exactly if it is a decimal number that fits into one. -/
theorem word?_eq_some {text : List Char} {k : Int} :
    word? text = some k ↔ Numeral text k ∧ Word.IsSigned k := by
  unfold word?
  split
  next digits =>
    rw [numeral_minus, ← fitting_eq_some]
    cases digits? digits <;> rfl
  next digits =>
    rw [numeral_plus]
    exact fitting_eq_some
  next hminus hplus =>
    rw [numeral_of_no_sign hminus hplus]
    exact fitting_eq_some

/-- A decimal number has neither a tab nor an end of line. -/
theorem Numeral.ne_of_mem {text : List Char} {k : Int} (h : Numeral text k) {c : Char}
    (hc : c ∈ text) : c ≠ '\t' ∧ c ≠ '\n' := by
  have hdigit : ∀ c : Char, c.isDigit → c ≠ '\t' ∧ c ≠ '\n' := by
    rintro c hc
    constructor <;> rintro rfl <;> exact absurd hc (by decide)
  cases h with
  | plain _ hdigits => exact hdigit c (hdigits c hc)
  | plus _ hdigits | minus _ hdigits =>
    rcases List.mem_cons.1 hc with rfl | hc
    · decide
    · exact hdigit c (hdigits c hc)

theorem Numeral.ne_nil {text : List Char} {k : Int} (h : Numeral text k) : text ≠ [] := by
  cases h with
  | plain hne => exact hne
  | plus | minus => exact List.cons_ne_nil _ _

/-- The report tells a number of kilobytes: the program succeeded, and what it printed starts with
a decimal number up to the first tab or up to the end of the first line. -/
structure Report.Tells (r : Report) (kilobytes : Int) : Prop where
  exit : r.exit = 0
  number : ∃ number rest, r.output.toList = number ++ rest ∧ Numeral number kilobytes ∧
    ∀ c ∈ rest.head?, c = '\t' ∨ c = '\n'
  signed : Word.IsSigned kilobytes

/-- What stands before the first tab of the first line, as a number. -/
theorem kilobytes?_firstLine {output : String} {k : Int} :
    kilobytes? (firstLine output) = some k ↔
      (∃ number rest, output.toList = number ++ rest ∧ Numeral number k ∧
        ∀ c ∈ rest.head?, c = '\t' ∨ c = '\n') ∧ Word.IsSigned k := by
  -- Up to the first tab of the first line is up to the first tab or end of line of the whole.
  let inside : Char → Bool := fun c => c ≠ '\t' ∧ c ≠ '\n'
  have hpart : (firstLine output).takeWhile (· ≠ '\t') = output.toList.takeWhile inside := by
    simp [firstLine, List.takeWhile_takeWhile, inside]
  rw [kilobytes?, word?_eq_some, hpart, and_congr_left_iff]
  refine fun _ => ⟨fun h => ⟨_, output.toList.dropWhile inside, ?_, h, fun c hc => ?_⟩, ?_⟩
  · exact List.takeWhile_append_dropWhile.symm
  · have hnot := List.head?_dropWhile_not inside output.toList
    rw [Option.mem_def.1 hc] at hnot
    simpa [inside, Decidable.or_iff_not_not_and_not] using hnot
  · rintro ⟨number, rest, houtput, hnumber, hrest⟩
    have hinside : ∀ c ∈ number, inside c := by
      intro c hc
      simpa [inside] using hnumber.ne_of_mem hc
    have hstop : rest.takeWhile inside = [] := by
      cases rest with
      | nil => rfl
      | cons c rest => rcases hrest c rfl with rfl | rfl <;> rfl
    rw [houtput, List.takeWhile_append_of_pos hinside, hstop, List.append_nil]
    exact hnumber

/-- A report is taken for a number of kilobytes exactly if it tells it. -/
theorem Report.kilobytes_eq_ok {r : Report} {path : String} {k : Int} :
    r.kilobytes path = .ok k ↔ r.Tells k := by
  have hline : ∀ found : Option Int, ∀ e : Failure,
      found.elim (.error e) (.ok : Int → Except Failure Int) = .ok k ↔ found = some k := by
    rintro (_ | n) e <;> simp
  unfold Report.kilobytes
  split
  next hexit => exact ⟨fun h => (by cases h), fun h => absurd h.exit hexit⟩
  next hexit =>
    split
    next hempty =>
      refine ⟨fun h => (by cases h), fun h => ?_⟩
      obtain ⟨number, rest, houtput, hnumber, -⟩ := h.number
      rw [String.isEmpty_iff.1 hempty] at houtput
      exact absurd (List.append_eq_nil_iff.1 houtput.symm).1 hnumber.ne_nil
    next =>
      rw [hline, kilobytes?_firstLine]
      exact ⟨fun ⟨hnumber, hsigned⟩ => ⟨not_not.1 hexit, hnumber, hsigned⟩,
        fun h => ⟨h.number, h.signed⟩⟩

/-- There is a program, and it tells the kilobytes of a path. -/
def Program.Tells (program : Program) (path : String) (kilobytes : Int) : Prop :=
  ∃ report ∈ program, (report path).Tells kilobytes

theorem ask_eq_ok {program : Program} {path : String} {k : Int} :
    ask program path = .ok k ↔ program.Tells path k := by
  cases program with
  | none => simp [ask, Program.Tells]
  | some report => simp [ask, Program.Tells, Report.kilobytes_eq_ok]

/-- The program fails exactly if it tells no number. -/
theorem exists_ask_eq_error {program : Program} {path : String} :
    (∃ e, ask program path = .error e) ↔ ∀ k, ¬ program.Tells path k := by
  simp only [← ask_eq_ok]
  cases ask program path <;> simp

namespace Poller

/-! ## Single steps -/

variable {program : Program} {path : String} {interval k : Int} {e : Failure} {p q : Poller}

theorem measure_of_tells (h : program.Tells p.path k) :
    measure program p = .ok () { p with used := Word.signed (1024 * k) } := by
  simp only [measure, ask_eq_ok.2 h, mul_comm]

theorem measure_of_error (h : Usage.ask program p.path = .error e) :
    measure program p = .error e p := by
  simp only [measure, h]

/-- A poller can be made exactly if the program tells the kilobytes of its path. -/
theorem create_eq_ok :
    create program path interval = .ok p ↔
      ∃ k, program.Tells path k ∧ p = { path, interval, used := Word.signed (1024 * k) } := by
  cases h : Usage.ask program path with
  | ok k =>
    have hk := ask_eq_ok.1 h
    simp only [create, measure_of_tells (p := { path, interval }) hk, Except.ok.injEq, ← ask_eq_ok,
      h, exists_eq_left', eq_comm]
  | error e =>
    simp only [create, measure_of_error (p := { path, interval }) h, reduceCtorEq, ← ask_eq_ok, h,
      false_and, exists_false]

/-- A started poller tells the failure that it kept, and no longer keeps it. -/
theorem perform_ask_of_pending (hp : p.started = true) (h : p.pending = some e) :
    (Step.ask program).perform p = (some (.error e), { p with pending := none }) := by
  cases p; cases hp; cases h; rfl

/-- A started poller that kept no failure tells its value. -/
theorem perform_ask_of_not_pending (hp : p.started = true) (h : p.pending = none) :
    (Step.ask program).perform p = (some (.ok p.used), p) := by
  cases p; cases hp; cases h; rfl

theorem ask_of_not_started (hp : p.started = false) :
    Poller.ask program p =
      match measure program p with
      | .ok _ q => .ok q.used q
      | .error e q => .error e q := by
  have hask : Poller.ask program p = (do measure program; return (← get).used) p := by
    cases p
    cases hp
    rfl
  rw [hask]
  cases hm : measure program p with
  | ok _ q =>
    simp only [bind, EStateM.bind, hm]
    rfl
  | error e q => simp only [bind, EStateM.bind, hm]

theorem perform_ask_of_tells (hp : p.started = false) (h : program.Tells p.path k) :
    (Step.ask program).perform p =
      (some (.ok (Word.signed (1024 * k))), { p with used := Word.signed (1024 * k) }) := by
  simp only [Step.perform, ask_of_not_started hp, measure_of_tells h]

theorem perform_ask_of_error (hp : p.started = false) (h : Usage.ask program p.path = .error e) :
    (Step.ask program).perform p = (some (.error e), p) := by
  simp only [Step.perform, ask_of_not_started hp, measure_of_error h]

theorem refresh_of_tells (hp : p.started = true) (h : program.Tells p.path k) :
    p.refresh program = ([], { p with used := Word.signed (1024 * k) }) := by
  simp only [Poller.refresh, hp, if_true, measure_of_tells h]

/-- A refresh that fails tells the log, and the failure is kept. -/
theorem refresh_of_error (hp : p.started = true) (h : Usage.ask program p.path = .error e) :
    p.refresh program =
      ([.usageUnknown p.path e.message], { p with pending := some e }) := by
  simp only [Poller.refresh, hp, if_true, measure_of_error h]

theorem refresh_of_not_started (hp : p.started = false) : p.refresh program = ([], p) := by
  simp [Poller.refresh, hp]

/-! ## Runs -/

/-- A step that was taken, with the poller before it. -/
structure Taken where
  before : Poller
  step : Step

namespace Taken

/-- The poller after the step. -/
def after (t : Taken) : Poller := (t.step.perform t.before).2

/-- What the step answered, if it was a question. -/
def answer (t : Taken) : Option (Except Failure Int) := (t.step.perform t.before).1

/-- What the step told the log. -/
def logged (t : Taken) : List Log.Event :=
  match t.step with
  | .refresh program => (t.before.refresh program).1
  | _ => []

/-- The step asks the program, on demand or as a refresh of a started poller. -/
inductive Asks : Taken → Program → Prop where
  | demand {p : Poller} (h : p.started = false) (program : Program) :
      Asks ⟨p, .ask program⟩ program
  | refresh {p : Poller} (h : p.started = true) (program : Program) :
      Asks ⟨p, .refresh program⟩ program

/-- The step asks the program and is told a number of kilobytes. -/
def Tells (t : Taken) (k : Int) : Prop := ∃ program, t.Asks program ∧ program.Tells t.before.path k

/-- The step tells a failure, to who asked or to the log. -/
def Complains (t : Taken) : Prop := t.logged ≠ [] ∨ ∃ e, t.answer = some (.error e)

end Taken

/-- What a step adjusts the value by. -/
def Step.amount : Step → Int
  | increase n => n
  | decrease n => -n
  | start | shutdown | ask _ | refresh _ => 0

/-- The poller comes to another one by the steps taken, the last step at the end. -/
inductive Ran (p : Poller) : List Taken → Poller → Prop where
  | refl : Ran p [] p
  | step {history : List Taken} {q : Poller} (h : Ran p history q) (step : Step) :
      Ran p (history ++ [⟨q, step⟩]) (step.perform q).2

variable {history since : List Taken} {t : Taken}

namespace Taken

/-- A step that is told kilobytes replaces the value by them. -/
theorem after_of_tells (h : t.Tells k) :
    t.after = { t.before with used := Word.signed (1024 * k) } := by
  obtain ⟨program, hasks, hk⟩ := h
  cases hasks with
  | demand hp => simp only [after, perform_ask_of_tells hp hk]
  | refresh hp => simp only [after, Step.perform, refresh_of_tells hp hk]

/-- A step that is told kilobytes tells no failure. -/
theorem not_complains_of_tells (h : t.Tells k) : ¬ t.Complains := by
  obtain ⟨program, hasks, hk⟩ := h
  cases hasks with
  | demand hp => simp [Complains, logged, answer, perform_ask_of_tells hp hk]
  | refresh hp => simp [Complains, logged, answer, Step.perform, refresh_of_tells hp hk]

/-- A step that asks in vain tells a failure, and keeps it at most. -/
theorem after_of_error {program : Program} (hasks : t.Asks program)
    (h : Usage.ask program t.before.path = .error e) :
    t.Complains ∧ (t.after = t.before ∨ t.after = { t.before with pending := some e }) := by
  cases hasks with
  | demand hp =>
    have hperform := perform_ask_of_error hp h
    exact ⟨.inr ⟨e, by rw [answer, hperform]⟩, .inl (by rw [after, hperform])⟩
  | refresh hp =>
    have hrefresh := refresh_of_error hp h
    exact ⟨.inl (by simp [logged, hrefresh]), .inr (by rw [after, Step.perform, hrefresh])⟩

/-- A step that doesn't ask the program adjusts the value or leaves it alone. -/
theorem after_of_not_asks (h : ∀ program, ¬ t.Asks program) :
    t.step.amount = 0 ∧ (∃ pending started, t.after = { t.before with pending, started }) ∨
      t.after = t.before.adjust t.step.amount := by
  obtain ⟨p, step⟩ := t
  cases step with
  | start | shutdown => exact .inl ⟨rfl, _, _, rfl⟩
  | increase | decrease => exact .inr rfl
  | ask program =>
    have hp : p.started = true := eq_true_of_ne_false fun hp => h program (.demand hp program)
    cases hpending : p.pending with
    | none =>
      refine .inl ⟨rfl, p.pending, p.started, ?_⟩
      simp only [after, perform_ask_of_not_pending hp hpending]
    | some e =>
      refine .inl ⟨rfl, none, p.started, ?_⟩
      simp only [after, perform_ask_of_pending hp hpending]
  | refresh program =>
    have hp : p.started = false := eq_false_of_ne_true fun hp => h program (.refresh hp program)
    refine .inl ⟨rfl, p.pending, p.started, ?_⟩
    simp only [after, Step.perform, refresh_of_not_started hp]

/-- A step that is told no kilobytes adjusts the value by its amount. -/
theorem used_after_of_not_tells (h : ∀ k, ¬ t.Tells k) {n : Int}
    (hused : t.before.used = Word.signed n) :
    t.after.used = Word.signed (n + t.step.amount) := by
  by_cases hasks : ∃ program, t.Asks program
  · -- A step that asks in vain has no amount, and it leaves the value alone.
    obtain ⟨program, hasks⟩ := hasks
    obtain ⟨e, he⟩ := exists_ask_eq_error.2 fun k hk => h k ⟨program, hasks, hk⟩
    have hamount : t.step.amount = 0 := by cases hasks <;> rfl
    rw [hamount, Int.add_zero, ← hused]
    rcases (after_of_error hasks he).2 with hafter | hafter <;> rw [hafter]
  · rcases after_of_not_asks (not_exists.1 hasks) with ⟨hamount, _, _, hafter⟩ | hafter
    · rw [hafter, hused, hamount, Int.add_zero]
    · -- Wrapping after each step comes to wrapping once.
      rw [hafter, adjust, hused, Word.signed, Word.signed, Word.signed, Int.bmod_add_bmod]

/-- A poller stays one of its directory. -/
theorem path_after (t : Taken) : t.after.path = t.before.path := by
  by_cases hasks : ∃ program, t.Asks program
  · obtain ⟨program, hasks⟩ := hasks
    cases h : Usage.ask program t.before.path with
    | ok k => rw [after_of_tells ⟨program, hasks, ask_eq_ok.1 h⟩]
    | error e => rcases (after_of_error hasks h).2 with hafter | hafter <;> rw [hafter]
  · rcases after_of_not_asks (not_exists.1 hasks) with ⟨-, _, _, hafter⟩ | hafter <;> rw [hafter]
    rfl

end Taken

/-! ## The value over a run -/

/-- The last element of a list with a property, and the elements behind it. -/
structure Last {α : Type} (P : α → Prop) (list : List α) (a : α) (behind : List α) : Prop where
  found : ∃ before, list = before ++ a :: behind
  holds : P a
  none_behind : ∀ b ∈ behind, ¬ P b

theorem last_concat {α : Type} {P : α → Prop} {list behind : List α} {a b : α} :
    Last P (list ++ [b]) a behind ↔
      P b ∧ a = b ∧ behind = [] ∨
        ¬ P b ∧ ∃ init, behind = init ++ [b] ∧ Last P list a init := by
  constructor
  · rintro ⟨⟨before, heq⟩, ha, hbehind⟩
    rcases behind.eq_nil_or_concat' with rfl | ⟨init, c, rfl⟩
    · obtain ⟨-, hlast⟩ := List.append_inj' heq rfl
      cases hlast
      exact .inl ⟨ha, rfl, rfl⟩
    · rw [← List.cons_append, ← List.append_assoc] at heq
      obtain ⟨rfl, hlast⟩ := List.append_inj' heq rfl
      cases hlast
      have hinit : ∀ c ∈ init, ¬ P c := fun c hc => hbehind c (List.mem_append_left _ hc)
      exact .inr ⟨hbehind b (by simp), init, rfl, ⟨before, rfl⟩, ha, hinit⟩
  · rintro (⟨hb, rfl, rfl⟩ | ⟨hb, init, rfl, ⟨before, rfl⟩, ha, hinit⟩)
    · exact ⟨⟨list, rfl⟩, hb, by simp⟩
    · refine ⟨⟨before, by simp⟩, ha, fun c hc => ?_⟩
      rcases List.mem_append.1 hc with hc | hc
      · exact hinit c hc
      · exact List.mem_singleton.1 hc ▸ hb

theorem last_unique {α : Type} {P : α → Prop} {list behind behind' : List α} {a a' : α}
    (h : Last P list a behind) (h' : Last P list a' behind') : a = a' ∧ behind = behind' := by
  induction list using List.reverseRecOn generalizing behind behind' with
  | nil =>
    obtain ⟨before, hnil⟩ := h.found
    simp at hnil
  | append_singleton list b ih =>
    rcases last_concat.1 h with ⟨hb, rfl, rfl⟩ | ⟨hb, init, rfl, hinit⟩ <;>
      rcases last_concat.1 h' with ⟨hb', rfl, rfl⟩ | ⟨hb', init', rfl, hinit'⟩
    · exact ⟨rfl, rfl⟩
    · exact absurd hb hb'
    · exact absurd hb' hb
    · obtain ⟨rfl, rfl⟩ := ih hinit hinit'
      exact ⟨rfl, rfl⟩

/-- The last number of kilobytes that was told in a history, and the steps since then. Before any
step is told one, it is what the poller was created with. -/
def LastTold (created : Int) (history : List Taken) (k : Int) (since : List Taken) : Prop :=
  (∃ t, t.Tells k ∧ Last (fun t => ∃ k, t.Tells k) history t since) ∨
    (∀ t ∈ history, ∀ k, ¬ t.Tells k) ∧ since = history ∧ k = created

theorem lastTold_concat {created : Int} :
    LastTold created (history ++ [t]) k since ↔
      t.Tells k ∧ since = [] ∨
        (∀ k, ¬ t.Tells k) ∧ ∃ init, since = init ++ [t] ∧ LastTold created history k init := by
  constructor
  · rintro (⟨u, hu, hlast⟩ | ⟨hnone, rfl, rfl⟩)
    · rcases last_concat.1 hlast with ⟨-, rfl, rfl⟩ | ⟨ht, init, rfl, hinit⟩
      · exact .inl ⟨hu, rfl⟩
      · exact .inr ⟨not_exists.1 ht, init, rfl, .inl ⟨u, hu, hinit⟩⟩
    · have hhistory : ∀ u ∈ history, ∀ k, ¬ u.Tells k :=
        fun u hu => hnone u (List.mem_append_left _ hu)
      exact .inr ⟨hnone t (by simp), history, rfl, .inr ⟨hhistory, rfl, rfl⟩⟩
  · rintro (⟨ht, rfl⟩ | ⟨ht, init, rfl, ⟨u, hu, hinit⟩ | ⟨hnone, rfl, rfl⟩⟩)
    · exact .inl ⟨t, ht, last_concat.2 (.inl ⟨⟨k, ht⟩, rfl, rfl⟩)⟩
    · exact .inl ⟨u, hu, last_concat.2 (.inr ⟨not_exists.2 ht, init, rfl, hinit⟩)⟩
    · refine .inr ⟨fun u hu => ?_, rfl, rfl⟩
      rcases List.mem_append.1 hu with hu | hu
      · exact hnone u hu
      · exact List.mem_singleton.1 hu ▸ ht

/-- In every history some number was told last. -/
theorem exists_lastTold (created : Int) (history : List Taken) :
    ∃ k since, LastTold created history k since := by
  induction history using List.reverseRecOn with
  | nil => exact ⟨created, [], .inr ⟨by simp, rfl, rfl⟩⟩
  | append_singleton history t ih =>
    by_cases ht : ∃ k, t.Tells k
    · obtain ⟨k, hk⟩ := ht
      exact ⟨k, [], lastTold_concat.2 (.inl ⟨hk, rfl⟩)⟩
    · obtain ⟨k, since, h⟩ := ih
      exact ⟨k, _, lastTold_concat.2 (.inr ⟨not_exists.1 ht, since, rfl, h⟩)⟩

theorem Ran.path_eq (h : p.Ran history q) :
    q.path = p.path ∧ ∀ t ∈ history, t.before.path = p.path := by
  induction h with
  | refl => simp
  | @step history q _ step ih =>
    refine ⟨(Taken.path_after ⟨q, step⟩).trans ih.1, fun t ht => ?_⟩
    rcases List.mem_append.1 ht with ht | ht
    · exact ih.2 t ht
    · exact List.mem_singleton.1 ht ▸ ih.1

/-- The value is what was told last, in bytes, and what it was adjusted by since. -/
theorem Ran.used_eq {created : Int} (hp : p.used = Word.signed (1024 * created))
    (h : p.Ran history q) (hlast : LastTold created history k since) :
    q.used = Word.signed (1024 * k + (since.map (·.step.amount)).sum) := by
  induction h generalizing k since with
  | refl =>
    rcases hlast with ⟨t, -, ⟨before, heq⟩, -⟩ | ⟨-, rfl, rfl⟩
    · simp at heq
    · simpa using hp
  | @step history q _ step ih =>
    -- Either the last step was told the number, or it adjusts what was told before it.
    rcases lastTold_concat.1 hlast with ⟨ht, rfl⟩ | ⟨ht, init, rfl, hinit⟩
    · have hafter : (step.perform q).2 = _ := Taken.after_of_tells ht
      simp [hafter]
    · have hafter := Taken.used_after_of_not_tells ht (ih hinit)
      simpa [Int.add_assoc, Taken.after] using hafter

/-- The value of a poller over all its runs. A poller can be made exactly if the program tells the
kilobytes of the path. Then the value is always the number of kilobytes that was told last, in
bytes, and what it was adjusted by since then. A step that asks the program tells a failure exactly
if it is told no number, and then it leaves the value alone. -/
theorem used_of_ran (program : Program) (path : String) (interval : Int) :
    ((∃ p, create program path interval = .ok p) ↔ ∃ k, program.Tells path k) ∧
      ∀ p history q, create program path interval = .ok p → p.Ran history q →
        (∃ created, program.Tells path created ∧ (∃ k since, LastTold created history k since) ∧
          ∀ k since, LastTold created history k since →
            let bytes := 1024 * k + (since.map (·.step.amount)).sum
            q.used = Word.signed bytes ∧ (Word.IsSigned bytes → q.used = bytes)) ∧
        ∀ t ∈ history, ∀ asked, t.Asks asked →
          (t.Complains ↔ ∀ k, ¬ asked.Tells path k) ∧
            (t.Complains → t.after.used = t.before.used) := by
  refine ⟨?_, fun p history q hp h => ?_⟩
  · simp only [create_eq_ok]
    exact ⟨fun ⟨_, k, hk, _⟩ => ⟨k, hk⟩, fun ⟨k, hk⟩ => ⟨_, k, hk, rfl⟩⟩
  obtain ⟨created, hcreated, rfl⟩ := create_eq_ok.1 hp
  refine ⟨⟨created, hcreated, exists_lastTold created history, fun k since hlast => ?_⟩, ?_⟩
  · have hused := h.used_eq rfl hlast
    exact ⟨hused, fun hsigned => hused.trans (Word.signed_eq_self hsigned)⟩
  · intro t ht asked hasks
    have hpath : t.before.path = path := h.path_eq.2 t ht
    have hiff : t.Complains ↔ ∀ k, ¬ asked.Tells path k := by
      rw [← hpath]
      refine ⟨fun hc k hk => Taken.not_complains_of_tells ⟨asked, hasks, hk⟩ hc, fun hnone => ?_⟩
      obtain ⟨e, he⟩ := exists_ask_eq_error.2 hnone
      exact (Taken.after_of_error hasks he).1
    refine ⟨hiff, fun hc => ?_⟩
    obtain ⟨e, he⟩ := exists_ask_eq_error.2 (hiff.1 hc)
    rw [← hpath] at he
    rcases (Taken.after_of_error hasks he).2 with hafter | hafter <;> rw [hafter]

/-- Two kilobytes are told, three bytes are added, and then a refresh prints no number. -/
theorem used_after_failed_refresh :
    let told : Program := some fun _ => ⟨"2\td", 0⟩
    let failing : Program := some fun _ => ⟨"bad\td", 0⟩
    let p : Poller := { path := "d", interval := 1, used := 2048 }
    let q : Poller := { p with used := 2051, started := true }
    let q' : Poller := { q with pending := some (.illegal "bad\td") }
    create told "d" 1 = .ok p ∧
      p.Ran [⟨p, .start⟩, ⟨p.start, .increase 3⟩, ⟨q, .refresh failing⟩] q' ∧
      (Taken.mk q (.refresh failing)).Complains ∧ q'.used = 1024 * 2 + 3 := by
  intro told failing p q q'
  have hp : create told "d" 1 = .ok p := by decide +kernel
  have hfails : Usage.ask failing "d" = .error (.illegal "bad\td") := by decide +kernel
  have hrefresh : (Step.refresh failing).perform q = (none, q') := by
    rw [Step.perform, refresh_of_error rfl hfails]
  have hran : p.Ran [⟨p, .start⟩, ⟨p.start, .increase 3⟩, ⟨q, .refresh failing⟩] q' := by
    have h := ((Ran.refl (p := p)).step .start).step (.increase 3) |>.step (.refresh failing)
    have hincrease : (Step.increase 3).perform (Step.start.perform p).2 = (none, q) := rfl
    rwa [hincrease, hrefresh] at h
  have hnone : ∀ k, ¬ failing.Tells "d" k := exists_ask_eq_error.1 ⟨_, hfails⟩
  obtain ⟨⟨created, hcreated, -, hused⟩, hasks⟩ := (used_of_ran told "d" 1).2 p _ q' hp hran
  have htold : told.Tells "d" 2 := ask_eq_ok.1 (by decide +kernel)
  obtain rfl : created = 2 :=
    Except.ok.inj ((ask_eq_ok.2 hcreated).symm.trans (ask_eq_ok.2 htold))
  refine ⟨hp, hran, ?_, ?_⟩
  · exact (hasks ⟨q, .refresh failing⟩ (by simp) failing (.refresh rfl failing)).1.2 hnone
  · refine (hused 2 _ (.inr ⟨?_, rfl, rfl⟩)).2 (by decide)
    intro t ht k htells
    obtain ⟨program, hprogram, hk⟩ := htells
    simp only [List.mem_cons, List.not_mem_nil, or_false] at ht
    obtain rfl | rfl | rfl := ht <;> cases hprogram
    exact hnone k hk

end Poller

end ChunkGuard.Usage
