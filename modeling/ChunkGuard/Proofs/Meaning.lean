import ChunkGuard.Proofs.Accepting
import Mathlib.Data.Nat.Bitwise

/-!
# What a mode means, bit by bit

The permissions of a file before and after a mode are numbers here, and `Permissions.bit` tells which
bit is which right of which class. An octal mode is the number of its digits
(`Mode.toNat_apply_of_digits`). A symbolic mode in which a class is named once turns each bit of the
class as the letters of that one clause say (`Mode.Follows`). Which classes a clause names is read off
its letters, where the letter for all classes beside that of one of them counts for nothing
(`Mode.not_all_beside_user`).
-/

namespace ChunkGuard

/-! ## The bits of permissions -/

namespace Permissions

/-- The number of the bit for a right of a class. -/
def bit (k : UserClass) (r : Right) : Nat :=
  (match k with | .user => 6 | .group => 3 | .others => 0) +
    match r with | .read => 2 | .write => 1 | .execute => 0

/-- The number of the sticky bit. -/
def stickyBit : Nat := 9

variable {n i : Nat} {p : Permissions} {k : UserClass} {r : Right}

theorem has_ofNat : ((ofNat n).of k).has r = n.testBit (bit k r) := by
  cases k <;> cases r <;> simp [ofNat, of, Access.ofNat, Access.has, bit, Nat.testBit_shiftRight]

theorem testBit_toNat : p.toNat.testBit (bit k r) = (p.of k).has r := by
  rw [← has_ofNat, ofNat_toNat]

theorem testBit_toNat_stickyBit : p.toNat.testBit stickyBit = p.sticky :=
  congrArg sticky (ofNat_toNat p)

theorem toNat_lt : p.toNat < 2 ^ 10 := by
  obtain ⟨sticky, user, group, others⟩ := p
  have hu := user.toNat_lt
  have hg := group.toNat_lt
  have ho := others.toNat_lt
  have hs := sticky.toNat_lt
  simp only [toNat]
  omega

theorem testBit_toNat_of_le (hi : 10 ≤ i) : p.toNat.testBit i = false :=
  Nat.testBit_lt_two_pow (Nat.lt_of_lt_of_le toNat_lt (Nat.pow_le_pow_right (by decide) hi))

/-- The bits of the right to execute are the ones of 0o111. -/
theorem anyExecute_ofNat : (ofNat n).anyExecute = decide (n &&& 0o111 ≠ 0) := by
  have hbits : ∀ i, (0o111 : Nat).testBit i → ∃ k, i = bit k .execute := by
    intro i hi
    have hlt : i < 7 := by
      by_contra hge
      rw [Nat.testBit_lt_two_pow (Nat.lt_of_lt_of_le (by decide : 0o111 < 2 ^ 7)
        (Nat.pow_le_pow_right (by decide) (Nat.le_of_not_lt hge)))] at hi
      cases hi
    have hall : ∀ j < 7, (0o111 : Nat).testBit j → j = 0 ∨ j = 3 ∨ j = 6 := by decide
    obtain rfl | rfl | rfl := hall i hlt hi
    · exact ⟨.others, rfl⟩
    · exact ⟨.group, rfl⟩
    · exact ⟨.user, rfl⟩
  rw [Bool.eq_iff_iff, anyExecute_iff, decide_eq_true_eq]
  simp only [has_ofNat]
  constructor
  · rintro ⟨k, hk⟩ hzero
    have hand : (n &&& 0o111).testBit (bit k .execute) = true := by
      rw [Nat.testBit_and, hk]
      cases k <;> rfl
    rw [hzero, Nat.zero_testBit] at hand
    cases hand
  · intro hne
    obtain ⟨i, hi⟩ := Nat.exists_testBit_of_ne_zero hne
    rw [Nat.testBit_and, Bool.and_eq_true] at hi
    obtain ⟨k, rfl⟩ := hbits i hi.2
    exact ⟨k, hi.1⟩

end Permissions

/-! ## Octal modes -/

namespace Access

/-- An octal digit is the number of its rights. -/
theorem toNat_ofNat {n : Nat} (h : n < 8) : (ofNat n).toNat = n := by
  have hall : ∀ n < 8, (ofNat n).toNat = n := by decide
  exact hall n h

end Access

namespace Mode

open Text (isBlank isOctalDigit digitValue)

variable {digits : List Char} {m : Mode} {e : Nat} {d : Bool} {k : UserClass} {r : Right}

theorem digitValue_lt {c : Char} (h : isOctalDigit c) : digitValue c < 8 := by
  simp only [isOctalDigit, Bool.and_eq_true, decide_eq_true_eq, Char.le_def, UInt32.le_iff_toNat_le]
    at h
  have hseven : '7'.val.toNat = 55 := rfl
  have hnat : c.toNat = c.val.toNat := rfl
  rw [digitValue]
  omega

/-- A class gets the rights of its digit, whatever it had. -/
theorem toNat_apply_ofDigit {c : Char} (h : isOctalDigit c) (existing : Access) (executable : Bool) :
    ((ofDigit c).apply existing executable).toNat = digitValue c := by
  have happly : (ofDigit c).apply existing executable = Access.ofNat (digitValue c) := by
    simp [ofDigit, ClassChange.apply, Change.onAccess]
  rw [happly, Access.toNat_ofNat (digitValue_lt h)]

/-- What digits make of permissions, as a number. Only the sticky bit may stay as it was. -/
theorem toNat_apply_of_digits (h : Digits digits m) :
    ∃ (sticky : Option Char) (user group others : Char),
      digits = sticky.toList ++ [user, group, others] ∧ (∀ c ∈ sticky, c = '0' ∨ c = '1') ∧
      Only isOctalDigit [user, group, others] ∧
      ∀ e d, (m.apply (.ofNat e) d).toNat =
        512 * sticky.elim (e.testBit Permissions.stickyBit).toNat digitValue +
          64 * digitValue user + 8 * digitValue group + digitValue others := by
  cases h with
  | @three user group others h =>
      obtain ⟨hu, hg, ho⟩ : isOctalDigit user ∧ isOctalDigit group ∧ isOctalDigit others := by
        simpa [Only] using h
      refine ⟨none, user, group, others, rfl, by simp, h, fun e d => ?_⟩
      simp only [Permissions.toNat, apply, combine, toNat_apply_ofDigit hu, toNat_apply_ofDigit hg,
        toNat_apply_ofDigit ho]
      rfl
  | @four sticky user group others hsticky h =>
      obtain ⟨hu, hg, ho⟩ : isOctalDigit user ∧ isOctalDigit group ∧ isOctalDigit others := by
        simpa [Only] using h
      refine ⟨some sticky, user, group, others, rfl, by simpa using hsticky, h, fun e d => ?_⟩
      simp only [Permissions.toNat, apply, combine, toNat_apply_ofDigit hu, toNat_apply_ofDigit hg,
        toNat_apply_ofDigit ho]
      obtain rfl | rfl := hsticky <;> rfl

end Mode

/-! ## The clause that names a class -/

namespace ClassChange

/-- A change that doesn't name the right to execute twice turns a right as its operator says, where the
right to execute that is named on condition counts if the condition holds. It has to hold where
somebody has the right already. -/
theorem has_apply_eq_onBit {c : ClassChange} (hplain : ¬(c.named.execute ∧ c.conditional))
    {existing : Access} {executable : Bool} (hexecutable : existing.execute → executable) (r : Right) :
    (c.apply existing executable).has r =
      c.change.onBit (c.named.has r || r = .execute && c.conditional && executable)
        (existing.has r) := by
  rw [has_apply]
  by_cases hr : r = .execute ∧ c.conditional
  · obtain ⟨rfl, hconditional⟩ := hr
    have hnamed : c.named.has .execute = false := Bool.eq_false_iff.mpr fun h => hplain ⟨h, hconditional⟩
    have hheld : (executable || existing.has .execute) = executable := by
      cases hexists : existing.has .execute with
      | false => exact Bool.or_false _
      | true => rw [hexecutable hexists]; rfl
    simp only [grants, touches, gives, hconditional, hnamed, hheld]
    cases c.change <;> cases executable <;> simp_all [Change.touches, Change.gives, Change.onBit]
  · have hlisted : (r = .execute && c.conditional : Bool) = false := by simpa using hr
    have hgrants : ¬(r = .execute ∧ c.grants) := by
      rintro ⟨hexecute, hgrants⟩
      simp only [grants, Change.gives, Bool.and_eq_true] at hgrants
      exact hr ⟨hexecute, hgrants.1⟩
    rw [if_neg hgrants, touches, gives, hlisted, Bool.or_false, Bool.false_and, Bool.or_false,
      Change.onBit_eq]

end ClassChange

namespace Clause.Spelling

variable {ps : List Spelling} {p : Spelling} {k : UserClass} {m : Mode}

/-- The clauses that name a class are spelled by the letters that do. -/
theorem filter_map_clause (ps : List Spelling) (k : UserClass) :
    (ps.map clause).filter (·.names k) = (ps.filter (·.names k)).map clause := by
  rw [List.filter_map]
  congr 1
  exact List.filter_congr fun p _ => p.names_clause k

theorem filter_of_named (hp : p ∈ ps) (hk : p.names k) (honce : ps.countP (·.names k) ≤ 1) :
    ps.filter (·.names k) = [p] := by
  have hmem : p ∈ ps.filter (·.names k) := List.mem_filter.mpr ⟨hp, hk⟩
  rw [List.countP_eq_length_filter] at honce
  obtain ⟨q, hq⟩ := List.length_eq_one_iff.mp (Nat.le_antisymm honce (List.length_pos_of_mem hmem))
  rw [hq, List.mem_singleton] at hmem
  rw [hq, hmem]

/-- A class that one clause names goes by that clause. -/
theorem of_foldl_amend (hp : p ∈ ps) (hk : p.names k) (honce : ps.countP (·.names k) ≤ 1) :
    ((ps.map clause).foldl amend m).of k = p.clause.change := by
  rw [Clause.of_foldl_amend, filter_map_clause, filter_of_named hp hk honce]
  rfl

/-- A class that no clause names stays as it is. -/
theorem of_foldl_amend_of_not_named (hk : ∀ p ∈ ps, p.names k = false) :
    ((ps.map clause).foldl amend m).of k = m.of k := by
  rw [Clause.of_foldl_amend, filter_map_clause, List.filter_eq_nil_iff.mpr (by simpa using hk)]
  rfl

theorem sticky_foldl_amend (hp : p ∈ ps) (hk : p.names .others)
    (honce : ps.countP (·.names .others) ≤ 1) :
    ((ps.map clause).foldl amend m).sticky = (p.change, ('t' ∈ p.rights : Bool)) := by
  rw [Clause.sticky_foldl_amend, filter_map_clause, filter_of_named hp hk honce]
  rfl

theorem sticky_foldl_amend_of_not_named (hk : ∀ p ∈ ps, p.names .others = false) :
    ((ps.map clause).foldl amend m).sticky = m.sticky := by
  rw [Clause.sticky_foldl_amend, filter_map_clause, List.filter_eq_nil_iff.mpr (by simpa using hk)]
  rfl

end Clause.Spelling

/-! ## Symbolic modes -/

namespace Mode

open Clause (Spelling)
open Permissions (bit stickyBit)

/-- The permissions after clauses are those before them, each bit turned by the clause that is taken to
name the class it belongs to. The sticky bit belongs to others, and other bits are gone. -/
structure Follows (naming : Spelling → UserClass → Bool) (ps : List Spelling) (before : Nat)
    (isDirectory : Bool) (after : Nat) : Prop where
  kept : ∀ k, (∀ p ∈ ps, naming p k = false) →
    ∀ r, after.testBit (bit k r) = before.testBit (bit k r)
  turned : ∀ p ∈ ps, ∀ k, naming p k → ∀ r, after.testBit (bit k r) =
    p.turns (p.lists (isDirectory || before &&& 0o111 ≠ 0) r) (before.testBit (bit k r))
  sticky_kept : (∀ p ∈ ps, naming p .others = false) →
    after.testBit stickyBit = before.testBit stickyBit
  sticky_turned : ∀ p ∈ ps, naming p .others →
    after.testBit stickyBit = p.turns ('t' ∈ p.rights) (before.testBit stickyBit)
  gone : ∀ i, 10 ≤ i → after.testBit i = false

/-- Each class goes by one clause at most. -/
def Once (naming : Spelling → UserClass → Bool) (ps : List Spelling) : Prop :=
  ∀ k, ps.countP (naming · k) ≤ 1

/-- No clause lists the right to execute with and without the condition. -/
def Plain (ps : List Spelling) : Prop := ∀ p ∈ ps, ¬('x' ∈ p.rights ∧ 'X' ∈ p.rights)

/-- A clause has the letter for all classes next to that of one, but not those of all of them. -/
def Mixes (p : Spelling) : Prop :=
  'a' ∈ p.classes ∧ (∃ k : UserClass, k.letter ∈ p.classes) ∧ ∃ k : UserClass, k.letter ∉ p.classes

variable {naming naming' : Spelling → UserClass → Bool} {ps : List Spelling} {before after : Nat}
  {isDirectory : Bool} {text : String} {m : Mode}

theorem Once.congr (h : Once naming ps) (hnaming : ∀ p ∈ ps, ∀ k, naming p k = naming' p k) :
    Once naming' ps := fun k => by
  rw [← List.countP_congr fun p hp => Bool.eq_iff_iff.mp (hnaming p hp k)]
  exact h k

theorem Follows.congr (h : Follows naming ps before isDirectory after)
    (hnaming : ∀ p ∈ ps, ∀ k, naming p k = naming' p k) :
    Follows naming' ps before isDirectory after where
  kept k hk := h.kept k fun p hp => (hnaming p hp k).trans (hk p hp)
  turned p hp k hk := h.turned p hp k ((hnaming p hp k).trans hk)
  sticky_kept hk := h.sticky_kept fun p hp => (hnaming p hp .others).trans (hk p hp)
  sticky_turned p hp hk := h.sticky_turned p hp ((hnaming p hp .others).trans hk)
  gone := h.gone

theorem names_eq_means {p : Spelling} (h : ¬Mixes p) (k : UserClass) : p.means k = p.names k := by
  by_contra hne
  obtain ⟨hall, hk, hsome⟩ := (p.names_ne_means_iff k).mp (Ne.symm hne)
  exact h ⟨hall, hsome, k, hk⟩

/-- Clauses that name each class at most once and don't list the right to execute twice make up a mode
that each bit follows. -/
theorem follows_foldl_amend (honce : Once Spelling.names ps) (hplain : Plain ps) (e : Nat) (d : Bool) :
    Follows Spelling.names ps e d
      (((ps.map Spelling.clause).foldl Clause.amend { symbolic := true }).apply (.ofNat e) d).toNat where
  kept k hk r := by
    rw [Permissions.testBit_toNat, of_apply, Spelling.of_foldl_amend_of_not_named hk,
      ← Permissions.has_ofNat]
    cases k <;> cases r <;> rfl
  turned p hp k hk r := by
    have hcondition : ¬(p.clause.change.named.execute ∧ p.clause.change.conditional) := by
      simpa [Spelling.clause, Clause.ofLetters] using hplain p hp
    have hexecutable : ((Permissions.ofNat e).of k).execute → d || (Permissions.ofNat e).anyExecute :=
      fun h => by rw [Permissions.anyExecute_iff.mpr ⟨k, h⟩, Bool.or_true]
    rw [Permissions.testBit_toNat, of_apply, Spelling.of_foldl_amend hp hk (honce k),
      ClassChange.has_apply_eq_onBit hcondition hexecutable, p.has_named_clause,
      Permissions.anyExecute_ofNat, Permissions.has_ofNat, p.turns_eq]
    rfl
  sticky_kept hk := by
    rw [Permissions.testBit_toNat_stickyBit, sticky_apply, Spelling.sticky_foldl_amend_of_not_named hk]
    rfl
  sticky_turned p hp hk := by
    rw [Permissions.testBit_toNat_stickyBit, sticky_apply,
      Spelling.sticky_foldl_amend hp hk (honce .others), ← Change.onBit_eq, p.turns_eq]
    rfl
  gone i hi := Permissions.testBit_toNat_of_le hi

/-- However a symbolic mode is split into clauses, it is what they make of a mode that changes
nothing. -/
theorem eq_foldl_amend (h : ofString text = .ok m) (hsymbolic : m.symbolic = true)
    (hspells : Spells text.toList ps) :
    m = (ps.map Spelling.clause).foldl Clause.amend { symbolic := true } := by
  obtain ⟨cs, hreads, -, rfl⟩ := ofString_symbolic.mp ⟨h, hsymbolic⟩
  have hread := clauses?_eq_some.mpr hreads
  rw [clauses?_eq_some.mpr (reads_iff.mpr ⟨ps, hspells, rfl⟩)] at hread
  rw [Option.some.inj hread]

/-- What an accepted text means. A symbolic mode is made up of clauses, and if these name each class at
most once and don't list the right to execute twice, each bit follows the clause that names its class.
The letter for all classes names them all, unless a clause has it next to the letter of one: there it
counts for nothing. An octal mode gives each class the rights of its digit, and the sticky bit is that
of the fourth digit or else as it was. -/
theorem apply_of_ofString (h : ofString text = .ok m) :
    (m.symbolic = true → (∃ ps, Spells text.toList ps ∧ ps ≠ []) ∧
      ∀ ps, Spells text.toList ps → Plain ps →
        (Once Spelling.names ps →
          ∀ e d, Follows Spelling.names ps e d (m.apply (.ofNat e) d).toNat) ∧
        (Once Spelling.means ps → (∀ p ∈ ps, ¬Mixes p) →
          ∀ e d, Follows Spelling.means ps e d (m.apply (.ofNat e) d).toNat)) ∧
      (m.symbolic = false → ∃ (before plus after : List Char) (sticky : Option Char)
          (user group others : Char),
        text.toList = before ++ plus ++ (sticky.toList ++ [user, group, others]) ++ after ∧
        Only Text.isBlank before ∧ plus ∈ [[], ['+']] ∧ Only Text.isBlank after ∧
        (∀ c ∈ sticky, c = '0' ∨ c = '1') ∧ Only Text.isOctalDigit [user, group, others] ∧
        ∀ e d, (m.apply (.ofNat e) d).toNat =
          512 * sticky.elim (e.testBit stickyBit).toNat Text.digitValue +
            64 * Text.digitValue user + 8 * Text.digitValue group + Text.digitValue others) := by
  constructor
  · intro hsymbolic
    obtain ⟨_, hreads, hne, -⟩ := ofString_symbolic.mp ⟨h, hsymbolic⟩
    obtain ⟨ps, hspells, rfl⟩ := reads_iff.mp hreads
    refine ⟨⟨ps, hspells, by simpa using hne⟩, fun ps hspells hplain => ?_⟩
    have hfollows : Once Spelling.names ps →
        ∀ e d, Follows Spelling.names ps e d (m.apply (.ofNat e) d).toNat := by
      rw [eq_foldl_amend h hsymbolic hspells]
      exact fun honce => follows_foldl_amend honce hplain
    refine ⟨hfollows, fun honce hmixes e d => ?_⟩
    have hsame : ∀ p ∈ ps, ∀ k, p.means k = p.names k := fun p hp => names_eq_means (hmixes p hp)
    exact (hfollows (honce.congr hsame) e d).congr fun p hp k => (hsame p hp k).symm
  · intro hoctal
    have hread : octal? text.toList = some m := by
      refine (parse?_eq_some.mp (ofString_eq_ok.mp h)).resolve_right fun hsymbolic => ?_
      rw [symbolic_of_symbolic? hsymbolic] at hoctal
      cases hoctal
    obtain ⟨before, plus, digits, after, htext, hbefore, hplus, hdigits, hafter⟩ :=
      octal?_eq_some.mp hread
    obtain ⟨sticky, user, group, others, rfl, hsticky, hothers, happly⟩ :=
      toNat_apply_of_digits hdigits
    exact ⟨before, plus, after, sticky, user, group, others, htext, hbefore, hplus, hafter, hsticky,
      hothers, happly⟩

/-- Two clauses that each name other classes: the user gets the right to execute on condition, and group
and others lose the right to write. -/
theorem apply_of_ofString_rX :
    ∃ m ps, ofString "u=rX,go-w" = .ok m ∧ m.symbolic ∧ Spells "u=rX,go-w".toList ps ∧ Plain ps ∧
      Once Spelling.means ps ∧ (∀ p ∈ ps, ¬Mixes p) ∧
      ∀ e d, Follows Spelling.means ps e d (m.apply (.ofNat e) d).toNat := by
  have hread : ofString "u=rX,go-w" = .ok
      { user := ⟨.assign, ⟨true, false, false⟩, true⟩
        group := ⟨.remove, ⟨false, true, false⟩, false⟩
        others := ⟨.remove, ⟨false, true, false⟩, false⟩
        sticky := (.remove, false)
        symbolic := true } := by rfl
  let front : Spelling := ⟨['u'], ['='], ['r', 'X'], [','], by decide, by decide, by decide,
    by decide, by decide, by decide⟩
  let back : Spelling := ⟨['g', 'o'], ['-'], ['w'], [], by decide, by decide, by decide, by decide,
    by decide, by decide⟩
  have hspells : Spells "u=rX,go-w".toList [front, back] := ⟨[], rfl, by decide⟩
  have hplain : Plain [front, back] :=
    List.forall_mem_cons.mpr ⟨by decide, List.forall_mem_singleton.mpr (by decide)⟩
  have honce : Once Spelling.means [front, back] := fun k => by cases k <;> decide
  have hmixes : ∀ p ∈ [front, back], ¬Mixes p :=
    List.forall_mem_cons.mpr ⟨fun h => absurd h.1 (by decide),
      List.forall_mem_singleton.mpr fun h => absurd h.1 (by decide)⟩
  exact ⟨_, _, hread, rfl, hspells, hplain, honce, hmixes,
    (((apply_of_ofString hread).1 rfl).2 _ hspells hplain).2 honce hmixes⟩

/-- The letter for all classes is ignored in "ua+r", which gives the right to read to the user only. -/
theorem not_all_beside_user :
    ∃ m ps, ofString "ua+r" = .ok m ∧ m.symbolic ∧ Spells "ua+r".toList ps ∧ Plain ps ∧
      Once Spelling.means ps ∧ (m.apply (.ofNat 0) false).toNat = 0o400 ∧
      ¬Follows Spelling.means ps 0 false (m.apply (.ofNat 0) false).toNat := by
  let p : Spelling := ⟨['u', 'a'], ['+'], ['r'], [], by decide, by decide, by decide, by decide,
    by decide, by decide⟩
  have honce : Once Spelling.means [p] := fun k => by cases k <;> decide
  refine ⟨_, [p], rfl, rfl, ⟨[], rfl, by decide⟩, List.forall_mem_singleton.mpr (by decide), honce,
    by decide, fun hfollows => ?_⟩
  have hgroup := hfollows.turned p List.mem_cons_self .group rfl .read
  exact absurd hgroup (by decide)

end Mode

end ChunkGuard
