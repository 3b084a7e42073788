import ChunkGuard.Proofs.Ends
import ChunkGuard.Seekable.Noted
import ChunkGuard.Seekable.Script

/-!
# Positioned reads go back

A positioned read of a range of the buffer goes to the position, reads if it got there, and then goes
back, once and last, whatever came of it (`Seekable.readAt_goes_back`). What it gives is what came of
going there and reading, unless going back fails. This holds of everything that can be sought in and
read from.
-/

namespace ChunkGuard

namespace Seekable

variable {τ : Type} {s : Seekable τ} {position : Int} {offset size : Nat}

/-! ## Noted streams -/

theorem noted_seek {t : Noted τ} {u : τ} {outcome : Except StreamError Unit}
    (h : s.seek position t.state = leaving u outcome) :
    s.noted.seek position t = leaving ⟨u, t.exchanges ++ [.seek position outcome]⟩ outcome := by
  cases outcome <;> simp only [noted, h, leaving]

theorem noted_read {t : Noted τ} {u : τ} {outcome : Except StreamError Int}
    (h : s.read offset size t.state = leaving u outcome) :
    s.noted.read offset size t = leaving ⟨u, t.exchanges ++ [.read offset size outcome]⟩ outcome := by
  cases outcome <;> simp only [noted, h, leaving]

/-! ## Positioned reads -/

/-- What comes of going to a position and reading there, with the exchanges made for it. There is no
read where the stream didn't get to the position. -/
inductive Visit (s : Seekable τ) (position : Int) (offset size : Nat) (t : τ) :
    List Exchange → Except StreamError Int → τ → Prop where
  | lost {e : StreamError} {u : τ} :
      s.seek position t = .error e u →
      Visit s position offset size t [.seek position (.error e)] (.error e) u
  | arrived {u v : τ} {outcome : Except StreamError Int} :
      s.seek position t = .ok () u → s.read offset size u = leaving v outcome →
      Visit s position offset size t [.seek position (.ok ()), .read offset size outcome] outcome v

theorem exists_visit (s : Seekable τ) (position : Int) (offset size : Nat) (t : τ) :
    ∃ exchanges outcome u, s.Visit position offset size t exchanges outcome u := by
  cases hseek : s.seek position t with
  | ok _ u =>
      obtain ⟨v, outcome, hread⟩ := exists_leaving (s.read offset size u)
      exact ⟨_, _, _, .arrived hseek hread⟩
  | error e u => exact ⟨_, _, _, .lost hseek⟩

/-- A visit to a noted stream is one to the stream, with its exchanges noted. -/
theorem Visit.noted {t : Noted τ} {u : τ} {exchanges : List Exchange}
    {outcome : Except StreamError Int}
    (h : s.Visit position offset size t.state exchanges outcome u) :
    s.noted.Visit position offset size t exchanges outcome ⟨u, t.exchanges ++ exchanges⟩ := by
  cases h with
  | @lost e u hseek =>
      have hseek : s.seek position t.state = leaving u (.error e) := hseek
      exact .lost (noted_seek hseek)
  | @arrived u v _ hseek hread =>
      have hseek : s.seek position t.state = leaving u (.ok ()) := hseek
      have hread := noted_read (t := ⟨u, t.exchanges ++ [.seek position (.ok ())]⟩) hread
      rw [List.append_assoc] at hread
      exact .arrived (noted_seek hseek) hread

/-- A range outside of the buffer is refused. -/
theorem readAt_of_outside {t : τ} (h : (s.buffer t).length < offset + size) :
    s.readAt position offset size t = .error .outsideBuffer t := by
  have hrefused : Ends (s.readAt position offset size) t (fun _ _ => False)
      (fun e u => e = .outsideBuffer ∧ u = t) := by
    simp only [readAt, ends_bind, ends_get, ends_ite, ends_throw]
    exact ⟨fun _ => ⟨trivial, trivial⟩, fun hinside => absurd h (by omega)⟩
  obtain ⟨e, u, hread, rfl, rfl⟩ := hrefused.exists_error
  exact hread

/-- An empty range takes nothing to read. -/
theorem readAt_zero {t : τ} (h : offset ≤ (s.buffer t).length) :
    s.readAt position offset 0 t = .ok 0 t := by
  have hsettled : Ends (s.readAt position offset 0) t (fun count u => count = 0 ∧ u = t)
      (fun _ _ => False) := by
    simp only [readAt, ends_bind, ends_get, ends_ite, ends_throw, ends_pure]
    exact ⟨fun houtside => absurd h (by omega), fun _ => ⟨fun _ => ⟨trivial, trivial⟩,
      fun hsome => absurd trivial hsome⟩⟩
  obtain ⟨count, u, hread, rfl, rfl⟩ := hsettled.exists_ok
  exact hread

/-- A positioned read is a visit and a way back. What came of the visit is given if the way back
succeeds. -/
theorem readAt_eq {t u v : τ} {exchanges : List Exchange} {outcome : Except StreamError Int}
    {back : Except StreamError Unit} (hroom : offset + size ≤ (s.buffer t).length) (hsize : 0 < size)
    (hvisit : s.Visit position offset size t exchanges outcome u)
    (hback : s.seek (s.position t) u = leaving v back) :
    s.readAt position offset size t = leaving v (back.bind fun _ => outcome) := by
  refine Ends.eq_leaving ?_
  simp only [readAt, ends_bind, ends_get, ends_ite, ends_throw, ends_pure, ends_tryCatch]
  refine ⟨fun houtside => absurd hroom (by omega), fun _ => ⟨fun hzero => absurd hsize (by omega),
    fun _ => ?_⟩⟩
  -- On the way back the outcome of the visit is in hand.
  have hreturn : Ends (s.seek (s.position t)) u
      (fun _ w => (back.bind fun _ => outcome) = outcome ∧ w = v)
      (fun e w => (back.bind fun _ => outcome) = .error e ∧ w = v) := by
    refine .of_leaving hback ?_ ?_
    · rintro _ rfl
      exact ⟨rfl, rfl⟩
    · rintro e rfl
      exact ⟨rfl, rfl⟩
  cases hvisit with
  | lost hseek => exact .of_error hseek hreturn
  | arrived hseek hread =>
      refine .of_ok hseek (.of_leaving hread ?_ ?_)
      · rintro count rfl
        exact hreturn
      · rintro e rfl
        exact hreturn

theorem noted_readAt_eq {t : Noted τ} {u v : τ} {exchanges : List Exchange}
    {outcome : Except StreamError Int} {back : Except StreamError Unit}
    (hroom : offset + size ≤ (s.buffer t.state).length) (hsize : 0 < size)
    (hvisit : s.Visit position offset size t.state exchanges outcome u)
    (hback : s.seek (s.position t.state) u = leaving v back) :
    s.noted.readAt position offset size t =
      leaving ⟨v, t.exchanges ++ exchanges ++ [.seek (s.position t.state) back]⟩
        (back.bind fun _ => outcome) :=
  readAt_eq (s := s.noted) hroom hsize hvisit.noted
    (noted_seek (t := ⟨u, t.exchanges ++ exchanges⟩) hback)

/-- Whatever fails, a positioned read does this. A range outside of the buffer and an empty one are
settled with no exchange at all. Otherwise there is a visit to the position, and after it the way back
to where the stream was, once and last. The outcome is that of the visit if the way back succeeds, and
otherwise the error on the way back. Where a seek that succeeds leads to its position, the stream is
back at its own then. -/
theorem readAt_goes_back (s : Seekable τ) (t : Noted τ) (position : Int) (offset size : Nat) :
    ((s.buffer t.state).length < offset + size →
      StreamError.outsideBuffer.report.code = .invalidArgument ∧
      s.readAt position offset size t.state = .error .outsideBuffer t.state ∧
      s.noted.readAt position offset size t = .error .outsideBuffer t) ∧
    (offset + size ≤ (s.buffer t.state).length → size = 0 →
      s.readAt position offset size t.state = .ok 0 t.state ∧
      s.noted.readAt position offset size t = .ok 0 t) ∧
    (offset + size ≤ (s.buffer t.state).length → 0 < size → ∃ exchanges outcome u v back,
      s.Visit position offset size t.state exchanges outcome u ∧
      s.seek (s.position t.state) u = leaving v back ∧
      s.readAt position offset size t.state = leaving v (back.bind fun _ => outcome) ∧
      s.noted.readAt position offset size t =
        leaving ⟨v, t.exchanges ++ exchanges ++ [.seek (s.position t.state) back]⟩
          (back.bind fun _ => outcome) ∧
      ((∀ p x y, s.seek p x = .ok () y → s.position y = p) → back = .ok () →
        s.position v = s.position t.state)) := by
  refine ⟨fun houtside => ⟨rfl, readAt_of_outside houtside, readAt_of_outside houtside⟩,
    fun hroom hzero => ?_, fun hroom hsize => ?_⟩
  · subst hzero
    exact ⟨readAt_zero hroom, readAt_zero (s := s.noted) hroom⟩
  · obtain ⟨exchanges, outcome, u, hvisit⟩ := s.exists_visit position offset size t.state
    obtain ⟨v, back, hback⟩ := exists_leaving (s.seek (s.position t.state) u)
    refine ⟨exchanges, outcome, u, v, back, hvisit, hback, readAt_eq hroom hsize hvisit hback,
      noted_readAt_eq hroom hsize hvisit hback, ?_⟩
    rintro hseek rfl
    exact hseek _ _ _ hback

/-- The read at position 9 fails, and the stream is back at position 5. -/
theorem readAt_goes_back_after_failed_read :
    let script : Script :=
      { reads := [none], failingSeeks := [], position := 5, buffer := Bytes.zeros 4 }
    0 + 4 ≤ (Script.stream.buffer script).length ∧ 0 < 4 ∧
      ∃ exchanges outcome u v back,
        Script.stream.Visit 9 0 4 script exchanges outcome u ∧
        Script.stream.seek 5 u = leaving v back ∧
        Script.stream.readAt 9 0 4 script = leaving v (back.bind fun _ => outcome) ∧
        outcome = .error Script.readFailed ∧ back = .ok () ∧ v.position = 5 ∧
        v.calls = [.seek 9, .read 0 4, .seek 5] := by
  intro script
  refine ⟨by decide, by decide, ?_⟩
  obtain ⟨exchanges, outcome, u, v, back, hvisit, hback, hread, -, -⟩ :=
    (readAt_goes_back Script.stream ⟨script, []⟩ 9 0 4).2.2 (by decide) (by decide)
  refine ⟨exchanges, outcome, u, v, back, hvisit, hback, hread, ?_⟩
  cases hvisit with
  | lost hseek => cases hseek
  | arrived hseek hfailed =>
      cases hseek
      cases outcome with
      | ok count => cases hfailed
      | error e =>
          cases hfailed
          cases back with
          | ok _ =>
              cases hback
              exact ⟨rfl, rfl, rfl, rfl⟩
          | error e => cases hback

end Seekable

end ChunkGuard
