import ChunkGuard.Proofs.Measuring

/-!
# Which failures a started poller tells

A started poller keeps the failure of a refresh for the next question. What it tells is the failure
of its last refresh (`Due`), but not only this one: neither a successful refresh nor a shutdown makes
it forget a failure (`Outlived`). A failure is told in exactly these two cases, and once
(`told_iff_due_or_outlived`).
-/

namespace ChunkGuard.Usage.Poller

variable {program : Program} {path : String} {interval : Int} {e e' : Failure} {p q : Poller}
  {history since : List Taken} {t : Taken}

namespace Taken

/-- The step is a refresh of a started poller, and it fails. -/
def Fails (t : Taken) (e : Failure) : Prop :=
  ∃ program, t.step = .refresh program ∧ t.before.started = true ∧
    Usage.ask program t.before.path = .error e

/-- The step is a refresh of a started poller, and it succeeds. -/
def Succeeds (t : Taken) : Prop :=
  ∃ program k, t.step = .refresh program ∧ t.before.started = true ∧
    program.Tells t.before.path k

/-- The step is a question to a started poller, which tells a failure. -/
def Reveals (t : Taken) : Prop := t.before.started = true ∧ ∃ e, t.answer = some (.error e)

theorem pending_of_fails (h : t.Fails e) : t.after.pending = some e := by
  obtain ⟨p, step⟩ := t
  obtain ⟨program, rfl, hp, he⟩ := h
  simp only [after, Step.perform, refresh_of_error hp he]

/-- Only a question to a started poller that kept a failure makes it tell one. -/
theorem pending_of_reveals (h : t.Reveals) : t.after.pending = none := by
  obtain ⟨p, step⟩ := t
  obtain ⟨hp, e, he⟩ := h
  cases step with
  | start | shutdown | increase | decrease | refresh => cases he
  | ask program =>
    cases hpending : p.pending with
    | none =>
      rw [after, perform_ask_of_not_pending hp hpending]
      exact hpending
    | some e => rw [after, perform_ask_of_pending hp hpending]

/-- Any other step leaves the failure kept as it was. -/
theorem pending_of_neither (hreveals : ¬ t.Reveals) (hfails : ∀ e, ¬ t.Fails e) :
    t.after.pending = t.before.pending := by
  obtain ⟨p, step⟩ := t
  cases step with
  | start | shutdown | increase | decrease => rfl
  | ask program =>
    cases hp : p.started with
    | false =>
      cases h : Usage.ask program p.path with
      | ok k => rw [after, perform_ask_of_tells hp (ask_eq_ok.1 h)]
      | error e => rw [after, perform_ask_of_error hp h]
    | true =>
      cases hpending : p.pending with
      | none => rw [after, perform_ask_of_not_pending hp hpending]; exact hpending
      | some e =>
        exact absurd ⟨hp, e, by rw [answer, perform_ask_of_pending hp hpending]⟩ hreveals
  | refresh program =>
    cases hp : p.started with
    | false => rw [after, Step.perform, refresh_of_not_started hp]
    | true =>
      cases h : Usage.ask program p.path with
      | ok k => rw [after, Step.perform, refresh_of_tells hp (ask_eq_ok.1 h)]
      | error e => exact absurd ⟨program, rfl, hp, h⟩ (hfails e)

end Taken

/-- The last refresh that failed did so with this failure, and none was told since. -/
def Kept (history : List Taken) (e : Failure) (since : List Taken) : Prop :=
  ∃ t, t.Fails e ∧ Last (fun t => t.Reveals ∨ ∃ e, t.Fails e) history t since

/-- The last refresh of the poller since it was started failed, and this wasn't told yet. -/
def Due (history : List Taken) (e : Failure) : Prop :=
  ∃ since, Kept history e since ∧ ∀ t ∈ since, ¬ t.Succeeds ∧ t.step ≠ .shutdown

/-- A refresh failed and this wasn't told yet, but since then a refresh succeeded or the poller was
shut down. -/
def Outlived (history : List Taken) (e : Failure) : Prop :=
  ∃ since, Kept history e since ∧ ∃ t ∈ since, t.Succeeds ∨ t.step = .shutdown

theorem kept_iff_due_or_outlived :
    (∃ since, Kept history e since) ↔ Due history e ∨ Outlived history e := by
  constructor
  · rintro ⟨since, h⟩
    by_cases hout : ∃ t ∈ since, t.Succeeds ∨ t.step = .shutdown
    · exact .inr ⟨since, h, hout⟩
    · refine .inl ⟨since, h, fun t ht => not_or.1 fun hor => hout ⟨t, ht, hor⟩⟩
  · rintro (⟨since, h, -⟩ | ⟨since, h, -⟩) <;> exact ⟨since, h⟩

/-- A failure that was outlived isn't due, and no other one is. -/
theorem Outlived.not_due (h : Outlived history e) : ¬ Due history e' := by
  obtain ⟨since, ⟨_, -, hlast⟩, t, ht, hout⟩ := h
  rintro ⟨since', ⟨_, -, hlast'⟩, hdue⟩
  obtain ⟨-, rfl⟩ := last_unique hlast hlast'
  exact hout.elim (hdue t ht).1 (hdue t ht).2

theorem kept_concat :
    (∃ since, Kept (history ++ [t]) e since) ↔
      t.Fails e ∨ ¬ t.Reveals ∧ (∀ e, ¬ t.Fails e) ∧ ∃ since, Kept history e since := by
  constructor
  · rintro ⟨since, u, hu, hlast⟩
    rcases last_concat.1 hlast with ⟨-, rfl, -⟩ | ⟨ht, init, rfl, hinit⟩
    · exact .inl hu
    · obtain ⟨hreveals, hfails⟩ := not_or.1 ht
      exact .inr ⟨hreveals, not_exists.1 hfails, init, u, hu, hinit⟩
  · rintro (ht | ⟨hreveals, hfails, init, u, hu, hinit⟩)
    · exact ⟨[], t, ht, last_concat.2 (.inl ⟨.inr ⟨e, ht⟩, rfl, rfl⟩)⟩
    · exact ⟨_, u, hu, last_concat.2
        (.inr ⟨not_or.2 ⟨hreveals, not_exists.2 hfails⟩, init, rfl, hinit⟩)⟩

/-- The poller keeps the failure that its history says. -/
theorem Ran.pending_iff (hp : p.pending = none) (h : p.Ran history q) :
    q.pending = some e ↔ ∃ since, Kept history e since := by
  induction h with
  | refl =>
    simp only [hp, reduceCtorEq, false_iff]
    rintro ⟨_, _, -, ⟨_, hnil⟩, -⟩
    simp at hnil
  | @step history q _ step ih =>
    show (Taken.after ⟨q, step⟩).pending = some e ↔ _
    rw [kept_concat]
    -- The last step fails, or it tells what was kept, or it leaves both sides as they were.
    by_cases hfails : ∃ e, (Taken.mk q step).Fails e
    · obtain ⟨e', he'⟩ := hfails
      rw [Taken.pending_of_fails he', Option.some.injEq]
      constructor
      · rintro rfl
        exact .inl he'
      · rintro (he | ⟨-, hnone, -⟩)
        · exact Option.some.inj ((Taken.pending_of_fails he').symm.trans (Taken.pending_of_fails he))
        · exact absurd he' (hnone e')
    · have hnone := not_exists.1 hfails
      by_cases hreveals : (Taken.mk q step).Reveals
      · simp [Taken.pending_of_reveals hreveals, hreveals, hnone]
      · rw [Taken.pending_of_neither hreveals hnone]
        simp [ih, hreveals, hnone]

/-- What a started poller answers after any run. It tells a failure exactly if this is the one of its
last refresh and wasn't told yet, or if it was outlived, and its value otherwise. -/
theorem told_iff_due_or_outlived (hp : create program path interval = .ok p)
    (h : p.Ran history q) (hq : q.started = true) (asked : Program) :
    (∀ e, (Taken.mk q (.ask asked)).answer = some (.error e) ↔ Due history e ∨ Outlived history e) ∧
      ((Taken.mk q (.ask asked)).answer = some (.ok q.used) ↔
        ∀ e, ¬ Due history e ∧ ¬ Outlived history e) ∧
      ∀ e e', Outlived history e → ¬ Due history e' := by
  have hpending : ∀ e, q.pending = some e ↔ Due history e ∨ Outlived history e := by
    obtain ⟨k, -, rfl⟩ := create_eq_ok.1 hp
    exact fun e => (h.pending_iff rfl).trans kept_iff_due_or_outlived
  simp only [← not_or, ← hpending, Taken.answer]
  cases hkept : q.pending with
  | none =>
    rw [perform_ask_of_not_pending hq hkept]
    exact ⟨by simp, by simp, fun _ _ => Outlived.not_due⟩
  | some e =>
    rw [perform_ask_of_pending hq hkept]
    exact ⟨by simp, by simp, fun _ _ => Outlived.not_due⟩

/-- A refresh fails. The first question after it is told so, and the second one is told the value. -/
theorem told_once_after_failed_refresh :
    let good : Program := some fun _ => ⟨"6\td", 0⟩
    let failing : Program := some fun _ => ⟨"bad\td", 0⟩
    let p : Poller := { path := "d", interval := 2, used := 6144 }
    let q : Poller := { p.start with pending := some (.illegal "bad\td") }
    create good "d" 2 = .ok p ∧
      p.Ran [⟨p, .start⟩, ⟨p.start, .refresh failing⟩] q ∧
      (Taken.mk q (.ask good)).answer = some (.error (.illegal "bad\td")) ∧
      p.Ran [⟨p, .start⟩, ⟨p.start, .refresh failing⟩, ⟨q, .ask good⟩] p.start ∧
      (Taken.mk p.start (.ask good)).answer = some (.ok 6144) := by
  intro good failing p q
  have hp : create good "d" 2 = .ok p := by decide +kernel
  have hfails : Usage.ask failing "d" = .error (.illegal "bad\td") := by decide +kernel
  have hq : p.Ran [⟨p, .start⟩, ⟨p.start, .refresh failing⟩] q := by
    have h := (Ran.refl (p := p)).step .start |>.step (.refresh failing)
    rwa [Step.perform, Step.perform, refresh_of_error rfl hfails] at h
  have hstart : p.Ran [⟨p, .start⟩, ⟨p.start, .refresh failing⟩, ⟨q, .ask good⟩] p.start := by
    have h := hq.step (.ask good)
    rwa [perform_ask_of_pending rfl rfl] at h
  have hdue : Due [⟨p, .start⟩, ⟨p.start, .refresh failing⟩] (.illegal "bad\td") := by
    have hlast : (Taken.mk p.start (.refresh failing)).Fails (.illegal "bad\td") :=
      ⟨failing, rfl, rfl, hfails⟩
    exact ⟨[], ⟨_, hlast, ⟨[⟨p, .start⟩], rfl⟩, .inr ⟨_, hlast⟩, by simp⟩, by simp⟩
  have hanswer : (Taken.mk q (.ask good)).answer = some (.error (.illegal "bad\td")) :=
    ((told_iff_due_or_outlived hp hq rfl good).1 _).2 (.inl hdue)
  refine ⟨hp, hq, hanswer, hstart, ?_⟩
  refine (told_iff_due_or_outlived hp hstart rfl good).2.1.2 fun e => not_or.1 ?_
  rw [← kept_iff_due_or_outlived]
  intro hkept
  have hkept : ∃ since, Kept ([⟨p, .start⟩, ⟨p.start, .refresh failing⟩] ++ [⟨q, .ask good⟩]) e
      since := hkept
  rcases kept_concat.1 hkept with ⟨_, hstep, -⟩ | ⟨hreveals, -⟩
  · cases hstep
  · exact hreveals ⟨rfl, _, hanswer⟩

/-- A refresh fails, the next one succeeds, and still the failure is told. -/
theorem told_after_successful_refresh :
    let first : Program := some fun _ => ⟨"6\td", 0⟩
    let failing : Program := some fun _ => ⟨"bad\td", 0⟩
    let second : Program := some fun _ => ⟨"8\td", 0⟩
    let p : Poller := { path := "d", interval := 2, used := 6144 }
    let q : Poller := { p.start with pending := some (.illegal "bad\td") }
    let q' : Poller := { q with used := 8192 }
    let history : List Taken :=
      [⟨p, .start⟩, ⟨p.start, .refresh failing⟩, ⟨q, .refresh second⟩]
    create first "d" 2 = .ok p ∧ p.Ran history q' ∧ q'.started = true ∧
      (Taken.mk q (.refresh second)).Succeeds ∧ (∀ e, ¬ Due history e) ∧
      (Taken.mk q' (.ask second)).answer = some (.error (.illegal "bad\td")) := by
  intro first failing second p q q' history
  have hfails : Usage.ask failing "d" = .error (.illegal "bad\td") := by decide +kernel
  have htells : second.Tells "d" 8 := ask_eq_ok.1 (by decide +kernel)
  have hsucceeds : (Taken.mk q (.refresh second)).Succeeds := ⟨second, 8, rfl, rfl, htells⟩
  have hran : p.Ran history q' := by
    have h := (Ran.refl (p := p)).step .start |>.step (.refresh failing) |>.step (.refresh second)
    simp only [Step.perform] at h
    rwa [refresh_of_error rfl hfails, refresh_of_tells rfl htells] at h
  have houtlived : Outlived history (.illegal "bad\td") := by
    have hlast : (Taken.mk p.start (.refresh failing)).Fails (.illegal "bad\td") :=
      ⟨failing, rfl, rfl, hfails⟩
    refine ⟨[⟨q, .refresh second⟩], ⟨_, hlast, ⟨[⟨p, .start⟩], rfl⟩, .inr ⟨_, hlast⟩, ?_⟩,
      _, List.mem_singleton_self _, .inl hsucceeds⟩
    rintro t ht (⟨-, e, he⟩ | ⟨e, program, hstep, -, he⟩) <;>
      obtain rfl := List.mem_singleton.1 ht
    · cases he
    · cases hstep
      exact exists_ask_eq_error.1 ⟨e, he⟩ 8 htells
  have hanswer : (Taken.mk q' (.ask second)).answer = some (.error (.illegal "bad\td")) := by
    rw [Taken.answer, perform_ask_of_pending rfl rfl]
  exact ⟨by decide +kernel, hran, rfl, hsucceeds, fun e => houtlived.not_due, hanswer⟩

end ChunkGuard.Usage.Poller
