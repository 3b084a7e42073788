import ChunkGuard.Mode.Parse

/-!
# Modes class by class

User, group and others are treated alike, so what is said of permissions and modes is said of any
class and of any right. `Mode.has_apply` gives the rights that a class has after a change: the right
to execute may be granted on condition, any other right that is touched is settled without a look
at what was there, and the rest is kept.
-/

namespace ChunkGuard

attribute [ext] Access Permissions Mode

/-- The classes of users. -/
inductive UserClass where
  | user
  | group
  | others
  deriving DecidableEq, Repr

/-- The rights that an `Access` is a set of. -/
inductive Right where
  | read
  | write
  | execute
  deriving DecidableEq, Repr

namespace Access

/-- Whether the right is in the set. -/
def has (a : Access) : Right → Bool
  | .read => a.read
  | .write => a.write
  | .execute => a.execute

/-- All rights or none. -/
def uniform (b : Bool) : Access := ⟨b, b, b⟩

/-- All rights or none are in a uniform set. -/
@[simp] theorem has_uniform (b : Bool) (r : Right) : (uniform b).has r = b := by
  cases r <;> rfl

/-- Setting the right to execute leaves the other rights. -/
theorem has_set (a : Access) (b : Bool) (r : Right) :
    { a with execute := b }.has r = if r = .execute then b else a.has r := by
  cases r <;> rfl

/-- Sets with the same rights are the same. -/
theorem ext_has {a b : Access} (h : ∀ r, a.has r = b.has r) : a = b :=
  Access.ext (h .read) (h .write) (h .execute)

/-- A set is one octal digit. -/
theorem toNat_lt (a : Access) : a.toNat < 8 := by
  obtain ⟨r, w, x⟩ := a
  cases r <;> cases w <;> cases x <;> decide

/-- Only the last octal digit of a number matters. -/
theorem ofNat_eq {a : Access} {n : Nat} (h : n % 8 = a.toNat) : ofNat n = a := by
  have hbit : ∀ i < 3, (n % 8).testBit i = n.testBit i := fun i hi =>
    (Nat.testBit_mod_two_pow n 3 i).trans (by simp [hi])
  have hmod : ofNat (n % 8) = ofNat n := by
    simp only [ofNat, hbit, Nat.lt_add_one, Nat.reduceLT]
  rw [← hmod, h, ofNat_toNat]

end Access

namespace Permissions

/-- The rights of a class. -/
def of (p : Permissions) : UserClass → Access
  | .user => p.user
  | .group => p.group
  | .others => p.others

/-- The permissions that give each class its rights. -/
def make (sticky : Bool) (rights : UserClass → Access) : Permissions :=
  ⟨sticky, rights .user, rights .group, rights .others⟩

/-- Each class has the rights that it was given. -/
@[simp] theorem of_make (sticky : Bool) (rights : UserClass → Access) (k : UserClass) :
    (make sticky rights).of k = rights k := by
  cases k <;> rfl

/-- Permissions with the same rights for each class are the same. -/
theorem ext_of {p q : Permissions} (hsticky : p.sticky = q.sticky)
    (h : ∀ k r, (p.of k).has r = (q.of k).has r) : p = q :=
  Permissions.ext hsticky (Access.ext_has (h .user)) (Access.ext_has (h .group))
    (Access.ext_has (h .others))

/-- Somebody may execute exactly if some class may. -/
theorem anyExecute_iff {p : Permissions} : p.anyExecute ↔ ∃ k, (p.of k).has .execute := by
  constructor
  · intro h
    simp only [anyExecute, Bool.or_eq_true] at h
    obtain (h | h) | h := h
    · exact ⟨.user, h⟩
    · exact ⟨.group, h⟩
    · exact ⟨.others, h⟩
  · rintro ⟨k, hk⟩
    cases k <;> simp_all [anyExecute, of, Access.has]

/-- If all classes have all rights somebody may execute, and if they have none nobody may. -/
theorem anyExecute_make_uniform (sticky b : Bool) :
    (make sticky fun _ => .uniform b).anyExecute = b := by
  cases b <;> rfl

/-- Permissions can be told from their number, so they may be handed on as one. -/
theorem ofNat_toNat (p : Permissions) : ofNat p.toNat = p := by
  obtain ⟨sticky, user, group, others⟩ := p
  have hu := user.toNat_lt
  have hg := group.toNat_lt
  have ho := others.toNat_lt
  refine Permissions.ext ?_ (Access.ofNat_eq ?_) (Access.ofNat_eq ?_) (Access.ofNat_eq ?_)
  · have hsticky : (Permissions.mk sticky user group others).toNat / 2 ^ 9 = sticky.toNat := by
      dsimp only [toNat]
      omega
    rw [ofNat, Nat.testBit_eq_decide_div_mod_eq, hsticky]
    cases sticky <;> rfl
  all_goals
    simp only [toNat, Nat.shiftRight_eq_div_pow]
    omega

end Permissions

namespace Change

/-- Whether the change settles a bit, whatever is there. -/
def touches (c : Change) (named : Bool) : Bool := named || c = .assign

/-- What a bit is that the change settles. -/
def gives (c : Change) (named : Bool) : Bool := named && c ≠ .remove

/-- A bit is settled by the change, or kept. -/
theorem onBit_eq (c : Change) (named existing : Bool) :
    c.onBit named existing = if c.touches named then c.gives named else existing := by
  cases c <;> cases named <;> rfl

/-- A change of rights changes each right by itself. -/
theorem has_onAccess (c : Change) (named existing : Access) (r : Right) :
    (c.onAccess named existing).has r = c.onBit (named.has r) (existing.has r) := by
  cases c <;> cases r <;> rfl

end Change

namespace ClassChange

/-- Whether the change is about the right. -/
def touches (c : ClassChange) (r : Right) : Bool :=
  c.change.touches (c.named.has r || (r = .execute && c.conditional))

/-- Whether the class has the right after a change that settles it. -/
def gives (c : ClassChange) (r : Right) : Bool := c.change.gives (c.named.has r)

/-- Whether the right to execute is given on condition. -/
def grants (c : ClassChange) : Bool := c.change.gives c.conditional

/-- A right that is granted on condition is one that the change is about. -/
theorem touches_of_grants {c : ClassChange} (h : c.grants) : c.touches .execute := by
  simp_all [grants, touches, Change.gives, Change.touches]

/-- A right that is given is one that the change is about. -/
theorem touches_of_gives {c : ClassChange} {r : Right} (h : c.gives r) : c.touches r := by
  simp_all [gives, touches, Change.gives, Change.touches]

/-- A right of the class after the change: given on condition, settled, or kept. -/
theorem has_apply (c : ClassChange) (existing : Access) (executable : Bool) (r : Right) :
    (c.apply existing executable).has r =
      if r = .execute ∧ c.grants then executable || existing.has r
      else if c.touches r then c.gives r else existing.has r := by
  obtain ⟨change, named, conditional⟩ := c
  rcases Bool.eq_false_or_eq_true conditional with rfl | rfl
  · -- The right to execute is named in any case, and the condition may take it back.
    by_cases hr : r = .execute
    · subst hr
      simp only [apply, apply_ite (Access.has · .execute), Access.has_set, Change.has_onAccess]
      obtain ⟨_, _, execute⟩ := existing
      cases change <;> cases executable <;> cases execute <;>
        simp [Change.onBit, Access.has, grants, touches, gives, Change.touches, Change.gives]
    · simp [apply, apply_ite (Access.has · r), Access.has_set, Change.has_onAccess, hr,
        Change.onBit_eq, grants, touches, gives]
  · simp [apply, Change.has_onAccess, Change.onBit_eq, grants, touches, gives, Change.gives]

end ClassChange

namespace Mode

/-- How the rights of a class change. -/
def of (m : Mode) : UserClass → ClassChange
  | .user => m.user
  | .group => m.group
  | .others => m.others

/-- Modes that change each class alike are the same. -/
theorem ext_of {m n : Mode} (h : ∀ k, m.of k = n.of k) (hsticky : m.sticky = n.sticky)
    (hsymbolic : m.symbolic = n.symbolic) : m = n :=
  Mode.ext (h .user) (h .group) (h .others) hsticky hsymbolic

/-- A mode changes each class by itself, but for who may execute before. -/
theorem of_apply (m : Mode) (e : Permissions) (d : Bool) (k : UserClass) :
    (m.apply e d).of k = (m.of k).apply (e.of k) (d || e.anyExecute) := by
  cases k <;> rfl

/-- A right of a class after the change. The right to execute that is granted on condition goes by
the permissions as a whole, any other right by the class itself. -/
theorem has_apply (m : Mode) (e : Permissions) (d : Bool) (k : UserClass) (r : Right) :
    ((m.apply e d).of k).has r =
      if r = .execute ∧ (m.of k).grants then d || e.anyExecute
      else if (m.of k).touches r then (m.of k).gives r else (e.of k).has r := by
  rw [of_apply, ClassChange.has_apply]
  split
  next h =>
    -- A right that the class has is one that somebody has.
    have hany : (e.of k).has r → e.anyExecute :=
      fun hk => Permissions.anyExecute_iff.mpr ⟨k, h.1 ▸ hk⟩
    cases hk : (e.of k).has r with
    | false => rw [Bool.or_false]
    | true => rw [hany hk, Bool.or_true, Bool.or_true]
  next => rfl

/-- The sticky bit is settled by the mode, or kept. -/
theorem sticky_apply (m : Mode) (e : Permissions) (d : Bool) :
    (m.apply e d).sticky =
      if m.sticky.1.touches m.sticky.2 then m.sticky.1.gives m.sticky.2 else e.sticky :=
  Change.onBit_eq ..

end Mode

namespace Clause

/-- Whether the clause is about the class. -/
def names (c : Clause) : UserClass → Bool
  | .user => c.user
  | .group => c.group
  | .others => c.others

/-- A clause replaces how the classes that it names change. -/
theorem of_amend (m : Mode) (c : Clause) (k : UserClass) :
    (amend m c).of k = if c.names k then c.change else m.of k := by
  cases k <;> rfl

end Clause

end ChunkGuard
