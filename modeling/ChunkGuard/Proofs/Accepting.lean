import ChunkGuard.Mode.Spelling
import ChunkGuard.Proofs.Clauses
import Mathlib.Data.List.Basic
import Mathlib.Data.Set.List

/-!
# Texts that are modes

The readers of modes find exactly the texts that the grammar lists. Octal digits stand for a mode
(`Mode.Digits`), and a text is read as that mode if it is the digits with a plus sign and blanks
around (`Mode.octal?_eq_some`). A text that can be put together from clauses in any way at all is read
clause by clause (`Mode.isSymbolic_iff`), as the first clause never takes a letter that another split
would need. `Mode.accepted_iff` says both of all texts, and that no text is of both kinds.
-/

namespace ChunkGuard

namespace Mode

open Text (isBlank isOctalDigit)

variable {text core before after digits : List Char} {m : Mode}

/-! ## Blanks around a text -/

theorem Only.reverse {kind : Char → Bool} (h : Only kind text) : Only kind text.reverse :=
  fun c hc => h c (List.mem_reverse.mp hc)

theorem Only.mono {kind other : Char → Bool} (h : Only kind text) (himp : ∀ c, kind c → other c) :
    Only other text :=
  fun c hc => himp c (h c hc)

/-- What is cut off at the ends are blanks. -/
theorem exists_trim (text : List Char) :
    ∃ before after, text = before ++ trim text ++ after ∧ Only isBlank before ∧
      Only isBlank after := by
  let rest := text.dropWhile isBlank
  refine ⟨text.takeWhile isBlank, (rest.reverse.takeWhile isBlank).reverse, ?_, only_takeWhile,
    only_takeWhile.reverse⟩
  have hrest : trim text ++ (rest.reverse.takeWhile isBlank).reverse = rest := by
    rw [trim, ← List.reverse_append, List.takeWhile_append_dropWhile, List.reverse_reverse]
  rw [List.append_assoc, hrest, List.takeWhile_append_dropWhile]

/-- Blanks around a text that has none at its ends are cut off. -/
theorem trim_append (hbefore : Only isBlank before) (hafter : Only isBlank after) (hne : core ≠ [])
    (hfirst : Stops isBlank core) (hlast : Stops isBlank core.reverse) :
    trim (before ++ core ++ after) = core := by
  have hstop : Stops isBlank (core ++ after) := by
    obtain ⟨c, rest, rfl⟩ := List.exists_cons_of_ne_nil hne
    exact hfirst
  rw [trim, List.append_assoc, hbefore.dropWhile_append hstop, List.reverse_append,
    hafter.reverse.dropWhile_append hlast, List.reverse_reverse]

/-! ## Octal modes -/

/-- The digits stand for the mode: those of user, group and others for what they are assigned, and one
before them, if there is one, for the sticky bit. -/
inductive Digits : List Char → Mode → Prop where
  | three {user group others : Char} (h : Only isOctalDigit [user, group, others]) :
      Digits [user, group, others]
        { user := ofDigit user, group := ofDigit group, others := ofDigit others
          symbolic := false }
  | four {sticky user group others : Char} (hsticky : sticky = '0' ∨ sticky = '1')
      (h : Only isOctalDigit [user, group, others]) :
      Digits [sticky, user, group, others]
        { user := ofDigit user, group := ofDigit group, others := ofDigit others
          sticky := (.assign, sticky = '1'), symbolic := false }

theorem Digits.only (h : Digits digits m) : Only isOctalDigit digits := by
  cases h with
  | three h => exact h
  | four hsticky h =>
      refine List.forall_mem_cons.mpr ⟨?_, h⟩
      obtain rfl | rfl := hsticky <;> rfl

theorem Digits.ne_nil (h : Digits digits m) : digits ≠ [] := by
  cases h <;> exact List.cons_ne_nil _ _

/-- A text of digits is a sticky digit or none and three others if it stands for a mode. -/
theorem exists_digits_iff :
    (∃ m, Digits digits m) ↔ ∃ sticky rest, digits = sticky ++ rest ∧
      sticky ∈ [[], ['0'], ['1']] ∧ rest.length = 3 ∧ Only isOctalDigit rest := by
  constructor
  · rintro ⟨m, h⟩
    cases h with
    | three h => exact ⟨[], _, rfl, by simp, rfl, h⟩
    | @four sticky user group others hsticky h =>
        refine ⟨[sticky], [user, group, others], rfl, ?_, rfl, h⟩
        obtain rfl | rfl := hsticky <;> simp
  · rintro ⟨sticky, rest, rfl, hsticky, hlength, honly⟩
    obtain ⟨user, group, others, rfl⟩ := List.length_eq_three.mp hlength
    simp only [List.mem_cons, List.not_mem_nil, or_false] at hsticky
    obtain rfl | rfl | rfl := hsticky
    · exact ⟨_, .three honly⟩
    · exact ⟨_, .four (.inl rfl) honly⟩
    · exact ⟨_, .four (.inr rfl) honly⟩

theorem isBlank_of_isOctalDigit {c : Char} (h : isOctalDigit c) : isBlank c = false := by
  simp only [isOctalDigit, Bool.and_eq_true, decide_eq_true_eq, Char.le_def, UInt32.le_iff_toNat_le]
    at h
  have hzero : '0'.val.toNat = 48 := rfl
  have hspace : c ≠ ' ' := by
    rintro rfl
    exact absurd h.1 (by decide)
  have hnat : c.toNat = c.val.toNat := rfl
  simp only [isBlank, hspace, decide_false, Bool.false_or, Bool.and_eq_false_iff,
    decide_eq_false_iff_not]
  omega

/-- Digits are read as the mode that they stand for. -/
theorem digits_iff :
    (if digits.all isOctalDigit then
      match digits with
      | [user, group, others] =>
        some
          { user := ofDigit user, group := ofDigit group, others := ofDigit others
            symbolic := false }
      | [sticky, user, group, others] =>
        if sticky = '0' ∨ sticky = '1' then
          some
            { user := ofDigit user, group := ofDigit group, others := ofDigit others
              sticky := (.assign, sticky = '1'), symbolic := false }
        else none
      | _ => none
    else none) = some m ↔ Digits digits m := by
  constructor
  · intro h
    split at h
    next hall =>
      have honly : Only isOctalDigit digits := List.all_eq_true.mp hall
      split at h
      next => cases h; exact .three honly
      next =>
        split at h
        next hsticky => cases h; exact .four hsticky (List.forall_mem_cons.mp honly).2
        next => cases h
      next => cases h
    next => cases h
  · intro h
    rw [if_pos (List.all_eq_true.mpr h.only)]
    cases h with
    | three => rfl
    | four hsticky => exact if_pos hsticky

/-- An octal mode is digits, with a plus sign before them or none and blanks around. -/
theorem octal?_eq_some :
    octal? text = some m ↔ ∃ before plus digits after, text = before ++ plus ++ digits ++ after ∧
      Only isBlank before ∧ plus ∈ [[], ['+']] ∧ Digits digits m ∧ Only isBlank after := by
  constructor
  · intro h
    obtain ⟨before, after, htext, hbefore, hafter⟩ := exists_trim text
    have hdigits := digits_iff.mp h
    by_cases hplus : (trim text).head? = some '+'
    · obtain ⟨tail, htail⟩ := List.head?_eq_some_iff.mp hplus
      rw [if_pos hplus, htail] at hdigits
      refine ⟨before, ['+'], tail, after, ?_, hbefore, by simp, hdigits, hafter⟩
      rw [htext, htail]
      simp
    · rw [if_neg hplus] at hdigits
      refine ⟨before, [], trim text, after, ?_, hbefore, by simp, hdigits, hafter⟩
      rw [List.append_nil]
      exact htext
  · rintro ⟨before, plus, digits, after, rfl, hbefore, hplus, hdigits, hafter⟩
    have honly := hdigits.only
    obtain ⟨first, rest, hfirst⟩ := List.exists_cons_of_ne_nil hdigits.ne_nil
    have hdigit : isOctalDigit first := honly first (hfirst ▸ List.mem_cons_self)
    have hlast : Stops isBlank (plus ++ digits).reverse := by
      rw [List.reverse_append]
      exact honly.reverse.stops (by simp [hdigits.ne_nil]) fun _ => isBlank_of_isOctalDigit
    simp only [List.mem_cons, List.not_mem_nil, or_false] at hplus
    have htrim : trim (before ++ plus ++ digits ++ after) = plus ++ digits := by
      rw [List.append_assoc before]
      refine trim_append hbefore hafter (by simp [hdigits.ne_nil]) ?_ hlast
      obtain rfl | rfl := hplus
      · have hstops : Stops isBlank (digits ++ []) :=
          honly.stops hdigits.ne_nil fun _ => isBlank_of_isOctalDigit
        rwa [List.append_nil] at hstops
      · rintro _ ⟨⟩
        rfl
    have hpart : (if (plus ++ digits).head? = some '+' then (plus ++ digits).tail
        else plus ++ digits) = digits := by
      obtain rfl | rfl := hplus
      · refine if_neg fun hhead => ?_
        rw [List.nil_append, hfirst] at hhead
        cases hhead
        cases hdigit
      · rfl
    unfold octal?
    dsimp only
    rw [htrim, hpart]
    exact digits_iff.mpr hdigits

/-- The octal modes are those that the grammar lists. -/
theorem isOctal_iff : IsOctal text ↔ ∃ m, octal? text = some m := by
  simp only [octal?_eq_some]
  constructor
  · rintro ⟨before, plus, sticky, digits, after, htext, hbefore, hplus, hsticky, hlength, honly,
      hafter⟩
    obtain ⟨m, hdigits⟩ := exists_digits_iff.mpr ⟨sticky, digits, rfl, hsticky, hlength, honly⟩
    exact ⟨m, before, plus, sticky ++ digits, after, by simp [htext], hbefore, hplus, hdigits,
      hafter⟩
  · rintro ⟨m, before, plus, digits, after, htext, hbefore, hplus, hdigits, hafter⟩
    obtain ⟨sticky, rest, rfl, hsticky, hlength, honly⟩ := exists_digits_iff.mp ⟨m, hdigits⟩
    exact ⟨before, plus, sticky, rest, after, by simp [htext], hbefore, hplus, hsticky, hlength,
      honly, hafter⟩

/-! ## Symbolic modes -/

end Mode

namespace Clause

variable {text : List Char} {c : Clause} {cs : List Clause}

/-- Letters are written as the clause that they make up. -/
theorem Spelling.written (p : Spelling) : Written p.text p.clause :=
  .mk p.classes_only p.operators_only p.change?_operator p.rights_only p.rights_ne p.separators_only

theorem Written.exists_spelling (h : Written text c) : ∃ p : Spelling, text = p.text ∧ c = p.clause := by
  obtain @⟨classes, operators, rights, separators, change, hclasses, hoperators, hchange, hrights,
    hne, hseparators⟩ := h
  let p : Spelling := ⟨classes, operators, rights, separators, hclasses, hoperators,
    ne_nil_of_change hchange, hrights, hne, hseparators⟩
  have hp : change = p.change := Option.some.inj (hchange.symm.trans p.change?_operator)
  exact ⟨p, rfl, by rw [hp]; rfl⟩

/-- A row of clauses is spelled letter by letter. -/
theorem row_iff :
    Row text cs ↔ ∃ ps : List Spelling, text = ps.flatMap Spelling.text ∧ cs = ps.map Spelling.clause := by
  constructor
  · intro h
    induction h with
    | nil => exact ⟨[], rfl, rfl⟩
    | cons hfront _ ih =>
        obtain ⟨p, rfl, rfl⟩ := hfront.exists_spelling
        obtain ⟨ps, rfl, rfl⟩ := ih
        exact ⟨p :: ps, rfl, rfl⟩
  · rintro ⟨ps, rfl, rfl⟩
    induction ps with
    | nil => exact .nil
    | cons p ps ih => exact .cons p.written ih

end Clause

namespace Mode

open Text (isBlank)

variable {text : List Char} {cs : List Clause} {m : Mode} {ps : List Clause.Spelling}

/-- The text is the clauses that are spelled, after blanks. -/
def Spells (text : List Char) (ps : List Clause.Spelling) : Prop :=
  ∃ before, text = before ++ ps.flatMap Clause.Spelling.text ∧ Only isBlank before

theorem reads_iff : Reads text cs ↔ ∃ ps, Spells text ps ∧ cs = ps.map Clause.Spelling.clause := by
  constructor
  · rintro ⟨before, row, rfl, hbefore, hrow⟩
    obtain ⟨ps, rfl, rfl⟩ := Clause.row_iff.mp hrow
    exact ⟨ps, ⟨before, rfl, hbefore⟩, rfl⟩
  · rintro ⟨ps, ⟨before, rfl, hbefore⟩, rfl⟩
    exact ⟨before, _, rfl, hbefore, Clause.row_iff.mpr ⟨ps, rfl, rfl⟩⟩

/-- However a text is split into clauses, each of them has its letters. -/
theorem isSymbolic_iff_spells : IsSymbolic text ↔ ∃ ps, Spells text ps ∧ ps ≠ [] := by
  constructor
  · rintro ⟨before, clauses, rfl, hbefore, hne, hclauses⟩
    have hspelled : ∀ clause ∈ clauses, clause ∈ Set.range Clause.Spelling.text := by
      intro clause hclause
      obtain ⟨p, hp⟩ := isClause_iff.mp (hclauses clause hclause)
      exact ⟨p, hp.symm⟩
    obtain ⟨ps, rfl⟩ : clauses ∈ Set.range (List.map Clause.Spelling.text) :=
      (Set.range_list_map _).symm ▸ hspelled
    exact ⟨ps, ⟨before, by rw [List.flatMap_def], hbefore⟩, by simpa using hne⟩
  · rintro ⟨ps, ⟨before, rfl, hbefore⟩, hne⟩
    refine ⟨before, ps.map Clause.Spelling.text, by rw [List.flatMap_def], hbefore, by simp [hne], ?_⟩
    intro clause hclause
    obtain ⟨p, -, rfl⟩ := List.mem_map.mp hclause
    exact isClause_iff.mpr ⟨p, rfl⟩

/-- The symbolic modes are those that the grammar lists. -/
theorem isSymbolic_iff : IsSymbolic text ↔ ∃ m, symbolic? text = some m := by
  simp only [isSymbolic_iff_spells, symbolic?_eq_some, reads_iff]
  constructor
  · rintro ⟨ps, hps, hne⟩
    exact ⟨_, _, ⟨ps, hps, rfl⟩, by simpa using hne, rfl⟩
  · rintro ⟨_, _, ⟨ps, hps, rfl⟩, hne, -⟩
    exact ⟨ps, hps, by simpa using hne⟩

/-! ## All modes -/

/-- A text is refused if it isn't read at all. -/
theorem ofString_eq_error {text : String} {e : ArgumentError} :
    ofString text = .error e ↔ parse? text.toList = none ∧ e = .invalidMode text := by
  unfold ofString
  cases parse? text.toList <;> simp [eq_comm]

/-! ## Bytes -/

/-- The characters that take one byte each. -/
def isAscii (c : Char) : Bool := c.toNat < 128

theorem isAscii_of_isBlank {c : Char} (h : isBlank c) : isAscii c := by
  simp only [isBlank, Bool.or_eq_true, Bool.and_eq_true, decide_eq_true_eq] at h
  obtain rfl | h := h
  · rfl
  · exact decide_eq_true (by omega)

theorem isAscii_of_isOctalDigit {c : Char} (h : Text.isOctalDigit c) : isAscii c := by
  simp only [Text.isOctalDigit, Bool.and_eq_true, decide_eq_true_eq, Char.le_def,
    UInt32.le_iff_toNat_le] at h
  have hseven : '7'.val.toNat = 55 := rfl
  have hnat : c.toNat = c.val.toNat := rfl
  exact decide_eq_true (by omega)

theorem only_ascii_text (p : Clause.Spelling) : Only isAscii p.text := by
  have hclasses : ∀ c, Clause.isClass c → isAscii c := by
    intro c h
    simp only [Clause.isClass, Bool.or_eq_true, decide_eq_true_eq] at h
    obtain ((rfl | rfl) | rfl) | rfl := h <;> rfl
  have hoperators : ∀ c, Clause.isOperator c → isAscii c := by
    intro c h
    unfold Clause.isOperator Clause.change? at h
    split at h <;> first | rfl | cases h
  have hrights : ∀ c, Clause.isRight c → isAscii c := by
    intro c h
    simp only [Clause.isRight, Bool.or_eq_true, decide_eq_true_eq] at h
    obtain (((rfl | rfl) | rfl) | rfl) | rfl := h <;> rfl
  have hseparators : ∀ c, Clause.isSeparator c → isAscii c := by
    intro c h
    simp only [Clause.isSeparator, Bool.or_eq_true, decide_eq_true_eq] at h
    obtain rfl | h := h
    · rfl
    · exact isAscii_of_isBlank h
  exact (((p.classes_only.mono hclasses).append (p.operators_only.mono hoperators)).append
    (p.rights_only.mono hrights)).append (p.separators_only.mono hseparators)

/-- A mode has no other characters. -/
theorem only_ascii (h : parse? text = some m) : Only isAscii text := by
  obtain h | h := parse?_eq_some.mp h
  · obtain ⟨before, plus, digits, after, rfl, hbefore, hplus, hdigits, hafter⟩ := octal?_eq_some.mp h
    have hplus : Only isAscii plus := by
      simp only [List.mem_cons, List.not_mem_nil, or_false] at hplus
      obtain rfl | rfl := hplus
      · exact fun _ h => absurd h List.not_mem_nil
      · exact List.forall_mem_singleton.mpr rfl
    have hdigits := hdigits.only.mono fun _ => isAscii_of_isOctalDigit
    exact (((hbefore.mono fun _ => isAscii_of_isBlank).append hplus).append hdigits).append
      (hafter.mono fun _ => isAscii_of_isBlank)
  · obtain ⟨cs, hreads, -⟩ := symbolic?_eq_some.mp h
    obtain ⟨ps, ⟨before, rfl, hbefore⟩, -⟩ := reads_iff.mp hreads
    refine (hbefore.mono fun _ => isAscii_of_isBlank).append fun c hc => ?_
    obtain ⟨p, -, hp⟩ := List.mem_flatMap.mp hc
    exact only_ascii_text p c hp

theorem encode_of_isAscii {c : Char} (h : isAscii c) :
    (String.utf8EncodeChar c).map Char.ofUInt8 = [c] := by
  have hless : c.val.toNat < 128 := of_decide_eq_true h
  have hbyte : (UInt8.ofNat c.val.toNat).toNat = c.val.toNat := by
    rw [UInt8.toNat_ofNat']
    omega
  rw [String.utf8EncodeChar, if_pos (by omega)]
  exact congrArg (fun x => [x]) (Char.toNat_inj.mp hbyte)

/-- Any other character has a byte that no mode has. -/
theorem exists_encoded_of_not_isAscii {c : Char} (h : isAscii c = false) :
    ∃ byte ∈ String.utf8EncodeChar c, isAscii (Char.ofUInt8 byte) = false := by
  have hless : 128 ≤ c.val.toNat := Nat.le_of_not_lt (of_decide_eq_false h)
  refine ⟨.ofNat (c.val.toNat % 64 + 128), ?_, ?_⟩
  · rw [String.utf8EncodeChar, if_neg (by omega)]
    split
    · simp
    · split <;> simp
  · have hbyte : (UInt8.ofNat (c.val.toNat % 64 + 128)).toNat = c.val.toNat % 64 + 128 := by
      rw [UInt8.toNat_ofNat']
      omega
    refine decide_eq_false fun hsmall => ?_
    have hsmall : (UInt8.ofNat (c.val.toNat % 64 + 128)).toNat < 128 := hsmall
    omega

/-- A text is read by its bytes as it is read by its characters. -/
theorem parse?_encoded (text : List Char) :
    parse? ((text.flatMap String.utf8EncodeChar).map Char.ofUInt8) = parse? text := by
  by_cases hascii : Only isAscii text
  · have hsame : (text.flatMap String.utf8EncodeChar).map Char.ofUInt8 = text := by
      rw [List.map_flatMap]
      calc text.flatMap (fun c => (String.utf8EncodeChar c).map Char.ofUInt8)
          = text.flatMap List.singleton :=
            List.flatMap_congr fun c hc => encode_of_isAscii (hascii c hc)
        _ = text := List.flatMap_singleton' text
    rw [hsame]
  · -- A character that is no byte spoils both texts.
    have hnone : parse? text = none := by
      by_contra hsome
      obtain ⟨m, hm⟩ := Option.ne_none_iff_exists'.mp hsome
      exact hascii (only_ascii hm)
    rw [hnone]
    by_contra hsome
    obtain ⟨m, hm⟩ := Option.ne_none_iff_exists'.mp hsome
    refine hascii fun c hc => ?_
    by_contra hc'
    obtain ⟨byte, hbyte, hnot⟩ := exists_encoded_of_not_isAscii (Bool.eq_false_iff.mpr hc')
    have hmem : Char.ofUInt8 byte ∈ (text.flatMap String.utf8EncodeChar).map Char.ofUInt8 :=
      List.mem_map_of_mem (List.mem_flatMap_of_mem hc hbyte)
    rw [only_ascii hm _ hmem] at hnot
    cases hnot

/-! ## Acceptance -/

/-- A text is accepted exactly if it is an octal mode or a symbolic one of the grammar, and not both. The
mode then tells which of them it was, and any other text is an invalid mode. For all this a text may be
taken byte by byte, or character by character. -/
theorem accepted_iff (text : String) :
    ((∃ m, ofString text = .ok m ∧ m.symbolic = false) ↔ IsOctal text.toList) ∧
      ((∃ m, ofString text = .ok m ∧ m.symbolic = true) ↔ IsSymbolic text.toList) ∧
      ¬(IsOctal text.toList ∧ IsSymbolic text.toList) ∧
      (¬IsOctal text.toList → ¬IsSymbolic text.toList →
        ofString text = .error (.invalidMode text)) ∧
      parse? ((text.toList.flatMap String.utf8EncodeChar).map Char.ofUInt8) = parse? text.toList := by
  simp only [isOctal_iff, isSymbolic_iff, ofString_eq_ok, ofString_eq_error, and_true]
  refine ⟨⟨?_, ?_⟩, ⟨?_, ?_⟩, ?_, ?_, parse?_encoded _⟩
  · rintro ⟨m, hm, hsymbolic⟩
    refine ⟨m, (parse?_eq_some.mp hm).resolve_right fun h => ?_⟩
    rw [symbolic_of_symbolic? h] at hsymbolic
    cases hsymbolic
  · rintro ⟨m, hm⟩
    exact ⟨m, parse?_eq_some.mpr (.inl hm), symbolic_of_octal? hm⟩
  · rintro ⟨m, hm, hsymbolic⟩
    refine ⟨m, (parse?_eq_some.mp hm).resolve_left fun h => ?_⟩
    rw [symbolic_of_octal? h] at hsymbolic
    cases hsymbolic
  · rintro ⟨m, hm⟩
    exact ⟨m, parse?_eq_some.mpr (.inr hm), symbolic_of_symbolic? hm⟩
  · rintro ⟨⟨m, hm⟩, ⟨m', hm'⟩⟩
    rw [octal?_eq_none_of_symbolic? hm'] at hm
    cases hm
  · intro hoctal hsymbolic
    by_contra hsome
    obtain ⟨m, hm⟩ := Option.ne_none_iff_exists'.mp hsome
    obtain h | h := parse?_eq_some.mp hm
    · exact hoctal ⟨m, h⟩
    · exact hsymbolic ⟨m, h⟩

end Mode

end ChunkGuard
