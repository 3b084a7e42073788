import ChunkGuard.Proofs.Clauses

/-!
# Clauses in turn

Two symbolic modes joined by a comma are one mode, in which each class goes by the last clause that
names it (`Mode.overlay`), and the condition on executing is met or not by the permissions before
any clause. Applying the one mode and then the other is something else: there the second change
sees what the first one left. `Mode.overlay_apply_iff` tells when the two agree: the second mode has
to touch whatever the first one touches in the classes that it names, and where it grants the right
to execute on condition, the first one may not have changed whether anybody has it
(`Mode.KeepsExecutable`).
-/

namespace ChunkGuard

namespace Mode

variable {m n : Mode} {names : UserClass → Bool} {e : Permissions} {d : Bool} {k : UserClass}
  {r : Right}

/-! ## What a mode does to one right of one class -/

/-- A right to execute that is granted goes by who could execute before. -/
theorem has_apply_of_grants (h : (m.of k).grants) :
    ((m.apply e d).of k).has .execute = (d || e.anyExecute) := by
  rw [has_apply, if_pos ⟨rfl, h⟩]

/-- A right that is settled is as the mode says. -/
theorem has_apply_of_settled (h : (m.of k).touches r) (hnot : ¬(r = .execute ∧ (m.of k).grants)) :
    ((m.apply e d).of k).has r = (m.of k).gives r := by
  rw [has_apply, if_neg hnot, if_pos h]

/-- A right that the mode isn't about is as it was. -/
theorem has_apply_of_untouched (h : (m.of k).touches r = false) :
    ((m.apply e d).of k).has r = (e.of k).has r := by
  rw [has_apply, if_neg, if_neg (Bool.not_eq_true _ ▸ h)]
  rintro ⟨rfl, hgrants⟩
  rw [ClassChange.touches_of_grants hgrants] at h
  cases h

/-- What a mode touches it changes somewhere. -/
theorem exists_has_apply_ne (h : (m.of k).touches r) :
    ∃ e d, ((m.apply e d).of k).has r ≠ (e.of k).has r := by
  by_cases hgrants : r = .execute ∧ (m.of k).grants
  · obtain ⟨rfl, hgrants⟩ := hgrants
    refine ⟨.make false fun _ => .uniform false, true, ?_⟩
    simp [has_apply_of_grants hgrants]
  · refine ⟨.make false fun _ => .uniform !(m.of k).gives r, false, ?_⟩
    simp [has_apply_of_settled h hgrants]

/-! ## Whether anybody may execute -/

/-- Somebody may execute a file after the change exactly if somebody may before, unless it is a
directory: no class is given the right outright, and one is granted it on condition or none loses
it. -/
def KeepsExecutable (m : Mode) : Prop :=
  (∀ k, (m.of k).gives .execute → (m.of k).grants) ∧
    ((∃ k, (m.of k).grants) ∨ ∀ k, (m.of k).touches .execute = false)

/-- Somebody may execute after a change of this kind exactly if somebody may before. -/
theorem KeepsExecutable.anyExecute_apply (h : m.KeepsExecutable) (e : Permissions) :
    (m.apply e false).anyExecute = e.anyExecute := by
  obtain ⟨hgives, hall⟩ := h
  refine Bool.eq_iff_iff.mpr ⟨fun hafter => ?_, fun hbefore => ?_⟩
  · obtain ⟨k, hk⟩ := Permissions.anyExecute_iff.mp hafter
    by_cases hgrants : (m.of k).grants
    · rwa [has_apply_of_grants hgrants, Bool.false_or] at hk
    by_cases htouches : (m.of k).touches .execute
    · rw [has_apply_of_settled htouches fun h => hgrants h.2] at hk
      exact absurd (hgives k hk) hgrants
    · rw [has_apply_of_untouched (Bool.eq_false_iff.mpr htouches)] at hk
      exact Permissions.anyExecute_iff.mpr ⟨k, hk⟩
  · refine Permissions.anyExecute_iff.mpr ?_
    obtain ⟨k, hk⟩ | hkeep := hall
    · exact ⟨k, by rw [has_apply_of_grants hk, hbefore]; rfl⟩
    · obtain ⟨k, hk⟩ := Permissions.anyExecute_iff.mp hbefore
      exact ⟨k, by rwa [has_apply_of_untouched (hkeep k)]⟩

/-- The condition is exactly that the mode never changes whether somebody may execute. -/
theorem keepsExecutable_iff :
    m.KeepsExecutable ↔ ∀ e, (m.apply e false).anyExecute = e.anyExecute := by
  refine ⟨KeepsExecutable.anyExecute_apply, fun h => ?_⟩
  have hgives : ∀ k, (m.of k).gives .execute → (m.of k).grants := by
    intro k hk
    by_contra hgrants
    -- Nobody may execute, and the class is given the right.
    have hafter := h (.make false fun _ => .uniform false)
    rw [Permissions.anyExecute_make_uniform, Bool.eq_false_iff] at hafter
    refine hafter (Permissions.anyExecute_iff.mpr ⟨k, ?_⟩)
    rw [has_apply_of_settled (ClassChange.touches_of_gives hk) fun h => hgrants h.2, hk]
  refine ⟨hgives, or_iff_not_imp_left.mpr fun hnone k => ?_⟩
  by_contra htouches
  -- Only this class may execute, and loses the right.
  have hbefore : (Permissions.make false fun k' => .uniform (k' = k)).anyExecute :=
    Permissions.anyExecute_iff.mpr ⟨k, by simp⟩
  rw [← h] at hbefore
  obtain ⟨k', hk'⟩ := Permissions.anyExecute_iff.mp hbefore
  have hgrants : ¬(m.of k').grants := fun hgrants => hnone ⟨k', hgrants⟩
  by_cases htouches' : (m.of k').touches .execute
  · rw [has_apply_of_settled htouches' fun h => hgrants h.2] at hk'
    exact hgrants (hgives k' hk')
  · rw [has_apply_of_untouched (Bool.eq_false_iff.mpr htouches')] at hk'
    obtain rfl : k' = k := by simpa using hk'
    exact htouches' (Bool.not_eq_false _ ▸ htouches)

/-! ## One mode over another -/

/-- A change behind another one gives a right as it would by itself exactly if it touches the right
where the other one does and, where it looks whether anybody may execute, the other one keeps that. -/
theorem has_apply_apply_iff :
    (∀ e d, ((n.apply e d).of k).has r = ((n.apply (m.apply e d) d).of k).has r) ↔
      ((m.of k).touches r → (n.of k).touches r) ∧
        (r = .execute → (n.of k).grants → m.KeepsExecutable) := by
  by_cases hgrants : r = .execute ∧ (n.of k).grants
  · obtain ⟨rfl, hgrants⟩ := hgrants
    simp only [has_apply_of_grants hgrants, ClassChange.touches_of_grants hgrants, hgrants,
      implies_true, true_and, true_implies]
    constructor
    · exact fun h => keepsExecutable_iff.mpr fun e => (h e false).symm
    · rintro h e (_ | _)
      · rw [h.anyExecute_apply]
      · rfl
  have hcondition : r = .execute → (n.of k).grants → m.KeepsExecutable :=
    fun hr h => absurd ⟨hr, h⟩ hgrants
  by_cases htouches : (n.of k).touches r
  · simp only [has_apply_of_settled htouches hgrants, htouches, implies_true, true_and, true_iff]
    exact hcondition
  · have huntouched := Bool.eq_false_iff.mpr htouches
    simp only [has_apply_of_untouched huntouched]
    constructor
    · refine fun h => ⟨fun hm => ?_, hcondition⟩
      obtain ⟨e, d, hne⟩ := exists_has_apply_ne hm
      exact absurd (h e d).symm hne
    · intro h e d
      exact (has_apply_of_untouched (Bool.eq_false_iff.mpr fun hm => htouches (h.1 hm))).symm

/-- The second mode makes up for the first one's sticky bit exactly if it settles it where the
first does. -/
theorem sticky_apply_apply_iff :
    (∀ e d, (n.apply e d).sticky = (n.apply (m.apply e d) d).sticky) ↔
      (m.sticky.1.touches m.sticky.2 → n.sticky.1.touches n.sticky.2) := by
  simp only [sticky_apply]
  by_cases htouches : n.sticky.1.touches n.sticky.2
  · simp only [htouches, if_true, implies_true]
  · simp only [htouches, Bool.false_eq_true, if_false, imp_false]
    constructor
    · intro h hm
      have hsticky : (!m.sticky.1.gives m.sticky.2) = _ :=
        h (.make (!m.sticky.1.gives m.sticky.2) fun _ => .uniform false) false
      rw [if_pos hm] at hsticky
      exact (Bool.not_eq_self _).mp hsticky
    · exact fun h _ _ => (if_neg h).symm

/-- The mode that goes by `n` for the classes named and by `m` for the rest. -/
def overlay (m n : Mode) (names : UserClass → Bool) : Mode where
  user := if names .user then n.user else m.user
  group := if names .group then n.group else m.group
  others := if names .others then n.others else m.others
  sticky := if names .others then n.sticky else m.sticky
  symbolic := m.symbolic

/-- The overlay has the second mode for the classes named, and the first for the others. -/
theorem of_overlay (m n : Mode) (names : UserClass → Bool) (k : UserClass) :
    (m.overlay n names).of k = if names k then n.of k else m.of k := by
  cases k <;> rfl

/-- The mode is about the classes named only. -/
structure Within (n : Mode) (names : UserClass → Bool) : Prop where
  of_eq : ∀ k, names k = false → n.of k = .keep
  sticky_eq : names .others = false → n.sticky = (.add, false)

/-- Nothing that the first mode does to the classes named is seen behind the second one. -/
structure Yields (m n : Mode) (names : UserClass → Bool) : Prop where
  rights : ∀ k, names k → ∀ r, (m.of k).touches r → (n.of k).touches r
  sticky : names .others → m.sticky.1.touches m.sticky.2 → n.sticky.1.touches n.sticky.2
  condition : ∀ k, names k → (n.of k).grants → m.KeepsExecutable

/-- Under an overlay a class named goes by the second mode alone, and another by the first. -/
theorem of_overlay_apply (hwithin : n.Within names) (e : Permissions) (d : Bool) (k : UserClass) :
    ((m.overlay n names).apply e d).of k =
      if names k then (n.apply e d).of k else (n.apply (m.apply e d) d).of k := by
  cases hk : names k with
  | true => simp only [of_apply, of_overlay, hk, if_true]
  | false =>
      have hkeep : (n.apply (m.apply e d) d).of k = (m.apply e d).of k :=
        Access.ext_has fun r => has_apply_of_untouched (by rw [hwithin.of_eq k hk]; cases r <;> rfl)
      rw [if_neg Bool.false_ne_true, hkeep, of_apply, of_apply, of_overlay, hk]
      rfl

/-- The sticky bit goes with the others. -/
theorem sticky_overlay_apply (hwithin : n.Within names) (e : Permissions) (d : Bool) :
    ((m.overlay n names).apply e d).sticky =
      if names .others then (n.apply e d).sticky else (n.apply (m.apply e d) d).sticky := by
  cases hk : names .others with
  | true => simp only [sticky_apply, overlay, hk, if_true]
  | false => simp [sticky_apply, overlay, hk, hwithin.sticky_eq hk, Change.touches]

/-- A mode laid over another one acts as the two in turn exactly if the lower one yields. -/
theorem overlay_apply_iff (hwithin : n.Within names) :
    (∀ e d, (m.overlay n names).apply e d = n.apply (m.apply e d) d) ↔ m.Yields n names := by
  constructor
  · intro h
    have hrights : ∀ k, names k → ∀ r, ((m.of k).touches r → (n.of k).touches r) ∧
        (r = .execute → (n.of k).grants → m.KeepsExecutable) := by
      refine fun k hk r => has_apply_apply_iff.mp fun e d => ?_
      rw [← h, of_overlay_apply hwithin, if_pos hk]
    refine ⟨fun k hk r => (hrights k hk r).1, fun hk => sticky_apply_apply_iff.mp fun e d => ?_,
      fun k hk => (hrights k hk .execute).2 rfl⟩
    rw [← h, sticky_overlay_apply hwithin, if_pos hk]
  · intro h e d
    refine Permissions.ext_of ?_ fun k r => ?_
    · rw [sticky_overlay_apply hwithin]
      split
      next hk => exact sticky_apply_apply_iff.mpr (h.sticky hk) e d
      next => rfl
    · rw [of_overlay_apply hwithin]
      split
      next hk => exact has_apply_apply_iff.mpr ⟨h.rights k hk r, fun _ => h.condition k hk⟩ e d
      next => rfl

/-! ## Two texts joined -/

/-- What the clauses make of a mode is what they make of one that changes nothing, laid over it. -/
theorem foldl_amend_eq_overlay (cs : List Clause) (m : Mode) :
    cs.foldl Clause.amend m =
      m.overlay (cs.foldl Clause.amend { symbolic := true }) fun k => cs.any (·.names k) := by
  refine Mode.ext_of (fun k => ?_) ?_ ?_
  · rw [of_overlay, Clause.of_foldl_amend, Clause.of_foldl_amend]
    exact Clause.getD_getLast?_filter ..
  · rw [Clause.sticky_foldl_amend, overlay, Clause.sticky_foldl_amend]
    exact Clause.getD_getLast?_filter ..
  · rw [Clause.symbolic_foldl_amend]
    rfl

/-- A row of clauses is about the classes that its clauses name. -/
theorem within_foldl_amend (cs : List Clause) :
    (cs.foldl Clause.amend { symbolic := true }).Within fun k => cs.any (·.names k) := by
  constructor
  · intro k hk
    rw [foldl_amend_eq_overlay cs, of_overlay, hk]
    cases k <;> rfl
  · intro hk
    rw [foldl_amend_eq_overlay cs, overlay, hk]
    rfl

/-- Two symbolic modes joined by a comma are a symbolic mode, the second one laid over the first one.
It acts as the two modes in turn exactly if the first one yields to the second one. -/
theorem joined_in_turn_iff {s t : String} {m n : Mode} (hs : ofString s = .ok m)
    (hsymbolic : m.symbolic) (ht : ofString t = .ok n) (hsymbolic' : n.symbolic) :
    ofString (s ++ "," ++ t) = .ok (m.overlay n (Mode.names t)) ∧
      (m.overlay n (Mode.names t)).symbolic ∧
      ((∀ e d, (m.overlay n (Mode.names t)).apply e d = n.apply (m.apply e d) d) ↔
        m.Yields n (Mode.names t)) := by
  obtain ⟨cs, hcs, hne, rfl⟩ := ofString_symbolic.mp ⟨hs, hsymbolic⟩
  obtain ⟨ds, hds, hne', rfl⟩ := ofString_symbolic.mp ⟨ht, hsymbolic'⟩
  have hnames : Mode.names t = fun k => ds.any (·.names k) := by
    funext k
    rw [Mode.names, clauses?_eq_some.mpr hds]
    rfl
  have hreads : Reads (s ++ "," ++ t).toList (cs ++ ds) := by
    have h := hcs.join hne hds
    rwa [String.toList_append, String.toList_append, List.append_assoc]
  have hjoined := foldl_amend_eq_overlay ds (cs.foldl Clause.amend { symbolic := true })
  rw [← List.foldl_append] at hjoined
  obtain ⟨hof, hsym⟩ := ofString_symbolic.mpr
    ⟨cs ++ ds, hreads, List.append_ne_nil_of_left_ne_nil hne ds, hjoined⟩
  rw [hnames]
  exact ⟨hof, hsym, overlay_apply_iff (within_foldl_amend ds)⟩

/-- The condition in the second mode is met after the first one as before it, and what the first one
does to the user is done anew. -/
theorem joined_in_turn_rwX :
    ∃ m n joined, ofString "u=rX,g-w" = .ok m ∧ m.symbolic ∧ ofString "u=rwX,o+t" = .ok n ∧
      n.symbolic ∧ ofString "u=rX,g-w,u=rwX,o+t" = .ok joined ∧
      ∀ e d, joined.apply e d = n.apply (m.apply e d) d := by
  have hs : ofString "u=rX,g-w" = .ok
      { user := ⟨.assign, ⟨true, false, false⟩, true⟩
        group := ⟨.remove, ⟨false, true, false⟩, false⟩
        symbolic := true } := by rfl
  have ht : ofString "u=rwX,o+t" = .ok
      { user := ⟨.assign, ⟨true, true, false⟩, true⟩
        others := ⟨.add, ⟨false, false, false⟩, false⟩
        sticky := (.add, true)
        symbolic := true } := by rfl
  obtain ⟨hjoined, -, hturns⟩ := joined_in_turn_iff hs rfl ht rfl
  refine ⟨_, _, _, hs, rfl, ht, rfl, hjoined, hturns.mpr ⟨?_, ?_, ?_⟩⟩
  · intro k hk r
    revert hk
    cases k <;> cases r <;> decide
  · decide
  · exact fun _ _ _ => ⟨fun k => by cases k <;> decide, .inl ⟨.user, by decide⟩⟩

/-- With "a=rX,o+t" others keep the right to write, which "a=rX" takes from them: the clause for
others takes the place of the one for all. -/
theorem not_joined_in_turn :
    ∃ m n joined, ofString "a=rX" = .ok m ∧ m.symbolic ∧ ofString "o+t" = .ok n ∧ n.symbolic ∧
      ofString "a=rX,o+t" = .ok joined ∧
      (joined.apply (.ofNat 0o666) false).toNat = 0o1446 ∧
      (n.apply (.ofNat (m.apply (.ofNat 0o666) false).toNat) false).toNat = 0o1444 :=
  ⟨_, _, _, rfl, rfl, rfl, rfl, rfl, by decide, by decide⟩

/-- What a clause gives doesn't count for the condition of a later one. -/
example : ∃ m, ofString "u+x,g+X" = .ok m ∧ (m.apply (.ofNat 0o600) false).toNat = 0o700 :=
  ⟨_, rfl, by decide⟩

end Mode

end ChunkGuard
