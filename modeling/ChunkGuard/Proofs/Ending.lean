import ChunkGuard.Proofs.Balance

/-!
# Where the end of the data is reported

A fetch that met damage goes on with another copy. If that copy says that the data has ended there,
so does the fetch, and the damage goes unreported. Copies that agree on where there is data
(`Source.Agrees`) leave no such place: then every end that is reported is one (`Session.Candid`), as
long as no fetch fails over inside of a chunk (`no_end_after_damage`). Replicas of one size agree, and
they never fail over there.
-/

namespace ChunkGuard

open Session

variable {σ : Type} {source : Source σ} {S : σ → σ → Prop} {I : σ → Prop} {has : Int → Prop}
  {W : Session σ → Prop} {s t : Session σ}

/-- The reply says that the data has ended. -/
def Reply.IsEnd : Reply → Prop
  | .chunk data _ => data = []
  | .ended _ => True

/-- In states with `I`, which the source doesn't leave by itself, it says that the data has ended
exactly where there is none, whichever copy it reads. -/
structure Source.Agrees (source : Source σ) (I : σ → Prop) (has : Int → Prop) : Prop where
  read : ∀ request x, I x → Ends (source.read request) x (fun _ => I) (fun _ => I)
  switch : ∀ position x, I x → I (source.switch position x).2
  has_iff : ∀ request x reply y, I x → 0 < request.size →
    source.read request x = .ok reply y → (has request.position ↔ ¬ reply.IsEnd)

theorem Source.Agrees.respects (h : source.Agrees I has) : source.Respects fun x y => I x → I y where
  refl _ := id
  trans hxy hyz hx := hyz (hxy hx)
  read request x := by
    cases hm : source.read request x with
    | ok reply y => exact .of_ok hm fun hx => (h.read request x hx).ok hm
    | error e y => exact .of_error hm fun hx => (h.read request x hx).error hm
  switch position x hx := h.switch position x hx

/-- Copies agree while the calls are noted. -/
theorem Source.Agrees.recorded (h : source.Agrees I has) :
    source.recorded.Agrees (fun x => I x.state) has where
  read request x hx := (h.respects.recorded.read request x).mono (fun _ _ hy => hy hx)
    (fun _ _ hy => hy hx)
  switch position x hx := h.switch position x.state hx
  has_iff request x reply y hx hsize hread := by
    obtain ⟨state, hstate, -⟩ := read_recorded_eq_ok.mp hread
    exact h.has_iff request x.state reply state hx hsize hstate

/-! ## Fetching -/

namespace Stream

/-- An attempt is told the end exactly where there is no data. -/
theorem Tried.has_iff (hagrees : source.Agrees I has) (hI : I s.source) {target : Target}
    {size : Nat} (hsize : 0 < size) {a : Attempt} (h : Tried source target size s (.ok a) t) :
    has s.stream.next ↔ a ≠ .ended := by
  have hhas := fun reply x (hread : source.read (s.stream.ask size) s.source = .ok reply x) =>
    hagrees.has_iff _ _ reply x hI hsize hread
  cases h with
  | ended code x hread =>
      exact (hhas _ x hread).trans ⟨fun h => absurd trivial h, fun h => absurd rfl h⟩
  | empty sums x hread =>
      exact (hhas _ x hread).trans ⟨fun h => absurd rfl h, fun h => absurd rfl h⟩
  | passed data sums x hread hdata =>
      exact (hhas _ x hread).trans ⟨fun _ hended => (by cases hended), fun _ => hdata⟩
  | damaged data sums x mismatch hread hdata =>
      exact (hhas _ x hread).trans ⟨fun _ hended => (by cases hended), fun _ => hdata⟩

/-- Nothing is told to the log while the source is read. -/
theorem Tried.events_eq {target : Target} {size : Nat} {r : Except StreamError Attempt}
    (h : Tried source target size s r t) : t.events = s.events := by
  cases h with
  | refused => rfl
  | ended => rfl
  | empty => cases target <;> rfl
  | crowded => cases target <;> rfl
  | passed => cases target <;> rfl
  | damaged => cases target <;> rfl

/-- A fetch that doesn't fail ends as its last attempt does. After a damaged reply that is a later one,
made when the damage was already told to the log. -/
theorem ends_attempt_last (hs : s.stream.Ready) (nesting : Nat) (target : Target)
    (size attempts : Nat) :
    Ends (attempt source (seekNested source nesting) target size attempts) s
      (fun count t => ∃ u, s.events <+: u.events ∧
        tryOnce source target size u = .ok (count.elim .ended .passed) t ∧
        ∀ data mismatch t', tryOnce source target size s = .ok (.damaged data mismatch) t' →
          s.events ++ [s.stream.corruption data] <+: u.events)
      (fun _ _ => True) := by
  induction attempts generalizing s with
  | zero => exact trivial
  | succ left ih =>
      simp only [attempt, ends_bind, ends_getStream]
      cases htry : tryOnce source target size s with
      | error e t => exact .of_error htry trivial
      | ok a t =>
          refine .of_ok htry ?_
          cases a with
          | ended => exact ⟨s, List.prefix_refl _, htry, fun _ _ _ h => by cases h⟩
          | passed n => exact ⟨s, List.prefix_refl _, htry, fun _ _ _ h => by cases h⟩
          | damaged data mismatch =>
              have ht := (tried hs target size).ok htry
              have hready : t.stream.Ready := ht.alike.ready hs
              simp only [ends_bind, ends_tell, ends_ite, ends_throw, ends_switch]
              refine ⟨fun _ => trivial, fun _ => ⟨fun _ => ?_, fun _ => trivial⟩⟩
              -- The corruption is in the log before the seek, and stays there.
              have htold : s.events ++ [s.stream.corruption data] <+:
                  (((t.told [s.stream.corruption data]).switched source s.stream.next).told
                    [.switched s.stream.name s.stream.next left]).events := by
                rw [← ht.events_eq]
                exact (List.prefix_append _ _).trans (List.prefix_append _ _)
              have hkept := source.respects_true
              refine (keeps_seekNested hkept (by exact hready) nesting s.stream.next _
                (.refl hkept _)).mono (fun _ v hv => ?_) (fun _ _ _ => trivial)
              refine (ih (hv.stream.ready hready)).mono (fun count w hw => ?_) (fun _ _ h => h)
              obtain ⟨u, hu, hlast, -⟩ := hw
              have htold := htold.trans (hv.events.trans hu)
              refine ⟨u, (List.prefix_append _ _).trans htold, hlast, fun _ _ _ hfirst => ?_⟩
              cases hfirst
              exact htold

/-- What passes moves the stream forward. -/
theorem Tried.next_of_passed {target : Target} {size n : Nat}
    (h : Tried source target size s (.ok (.passed n)) t) :
    t.stream.next = s.stream.next + n ∧ 0 < n := by
  cases h with
  | passed data sums x _ hdata =>
      exact ⟨by cases target <;> rfl, List.length_pos_iff.mpr hdata⟩

/-- A fetch from a position left the window empty and the stream after what it got. It got nothing
exactly where there is no data. -/
structure Got (has : Int → Prop) (position : Int) (count : Option Nat) (t : Session σ) : Prop where
  filled : t.stream.filled = 0
  cursor : t.stream.cursor = 0
  next_eq : t.stream.next = position + (count.getD 0 : Nat)
  pos : ∀ n ∈ count, 0 < n
  has_iff : has position ↔ count ≠ none

/-- A fetch into an empty window gets data exactly where there is some, unless it fails over inside of
a chunk. -/
theorem ends_attempt_got (hagrees : source.Agrees I has) (hwarns : source.Warns S I W)
    (hs : s.stream.Ready) (hI : I s.source) (hfilled : s.stream.filled = 0)
    (hcursor : s.stream.cursor = 0) (nesting : Nat) (target : Target) {size : Nat}
    (hsize : 0 < size) (attempts : Nat) :
    Ends (attempt source (seekNested source nesting) target size attempts) s
      (fun count t => W t ∨ Got has s.stream.next count t)
      (fun _ t => W t ∨ t.stream.filled = 0 ∧ t.stream.cursor = 0) := by
  refine (ends_attempt_unless
    (J := fun u => I u.source ∧ u.stream.next = s.stream.next)
    (Q := fun count t => t.stream.next = s.stream.next + (count.getD 0 : Nat) ∧
      (∀ n ∈ count, 0 < n) ∧ (has s.stream.next ↔ count ≠ none))
    hwarns (fun _ hu => hu.1) ?ended ?passed ?retried hs hfilled hcursor ⟨hI, rfl⟩ nesting
    attempts).mono
    (fun count t ht => ht.imp_right fun ⟨hfilled, hcursor, hnext, hpos, hhas⟩ =>
      ⟨hfilled, hcursor, hnext, hpos, hhas⟩)
    (fun _ _ ht => ht.imp_right fun hempty => ⟨hempty.1, hempty.2.1⟩)
  case ended =>
    rintro u t ⟨hu, hnext⟩ ht
    rw [← hnext]
    refine ⟨?_, fun n hn => (by cases hn), (ht.has_iff hagrees hu hsize).trans (by simp)⟩
    cases ht with
    | ended => exact (Int.add_zero _).symm
    | empty => cases target <;> exact (Int.add_zero _).symm
  case passed =>
    rintro u t count ⟨hu, hnext⟩ ht
    rw [← hnext]
    obtain ⟨hmoved, hpos⟩ := ht.next_of_passed
    exact ⟨hmoved, fun n hn => Option.mem_some.mp hn ▸ hpos,
      (ht.has_iff hagrees hu hsize).trans (by simp)⟩
  case retried =>
    rintro u t data mismatch left ⟨-, hnext⟩ ht hx
    exact ⟨hx, (ht.bounds.2.2 _ _ rfl).trans hnext⟩

end Stream

/-! ## Seeking and reading -/

/-- The cursor is inside of the window, unless `W`. -/
structure Session.Upright (I : σ → Prop) (W : Session σ → Prop) (s : Session σ) : Prop where
  ready : s.stream.Ready
  state : I s.source
  chunk_pos : 0 < s.stream.maxChunk
  cursor_le : W s ∨ s.stream.cursor ≤ s.stream.filled

/-- The session went on to an upright one, with the warning that it had, if any. -/
structure Session.Went (I : σ → Prop) (W : Session σ → Prop) (s t : Session σ) : Prop where
  upright : t.Upright I W
  warned : W s → W t

namespace Session

theorem Went.trans {u : Session σ} (h : s.Went I W t) (h' : t.Went I W u) : s.Went I W u :=
  ⟨h'.upright, fun hs => h'.warned (h.warned hs)⟩

namespace Upright

theorem refl (h : s.Upright I W) : s.Went I W s := ⟨h, id⟩

theorem position_of_used (h : s.Upright I W) (hused : s.stream.filled ≤ s.stream.cursor) :
    W s ∨ s.stream.position = s.stream.next := by
  refine h.cursor_le.imp_right fun hcursor => ?_
  rw [Stream.position]
  omega

section Programs

variable (hagrees : source.Agrees I has) (hwarns : source.Warns S I W)
include hwarns

theorem went (h : s.Upright I W) (hkept : s.Kept S t)
    (hcursor : W t ∨ t.stream.cursor ≤ t.stream.filled) : s.Went I W t :=
  ⟨⟨hkept.stream.ready h.ready, hwarns.state hkept.source h.state,
    hkept.stream.maxChunk ▸ h.chunk_pos, hcursor⟩, fun hs => hwarns.kept hs hkept⟩

/-- Nothing but the window and the cursor changed. -/
theorem altered (h : s.Upright I W) (hstream : s.stream.Alike t.stream)
    (hsource : t.source = s.source) (hevents : t.events = s.events)
    (hcursor : W s ∨ t.stream.cursor ≤ t.stream.filled) : s.Went I W t :=
  h.went hwarns (.of_alike (.refl hwarns.respects s) hstream hsource hevents)
    (hcursor.imp_left fun hs => hwarns.unchanged hs hsource hevents)

theorem moved (h : s.Upright I W) {cursor : Nat} (hcursor : W s ∨ cursor ≤ s.stream.filled) :
    s.Went I W { s with stream := { s.stream with cursor } } :=
  h.altered hwarns .placed rfl rfl hcursor

theorem copied (h : s.Upright I W) (offset : Nat) {n : Nat}
    (hn : W s ∨ s.stream.cursor + n ≤ s.stream.filled) :
    s.Went I W
      { s with
        lent := Bytes.write offset (Bytes.padded s.stream.cursor n s.stream.window) s.lent
        stream := { s.stream with cursor := s.stream.cursor + n } } :=
  h.altered hwarns .placed rfl rfl hn

include hagrees

/-- A fetch from where the stream is gets data exactly where there is some. -/
theorem ends_fetchWith (h : s.Upright I W) (nesting : Nat) (target : Stream.Target) {size : Nat}
    (hsize : 0 < size) :
    Ends (Stream.fetchWith source (Stream.seekNested source nesting) target size) s
      (fun count t => s.Went I W t ∧ (W t ∨ Stream.Got has s.stream.next count t))
      (fun _ t => t.Upright I W) := by
  have hS := hwarns.respects
  have hkept := Stream.keeps_fetchWith hS h.ready
    (fun position => Stream.keeps_seekNested hS h.ready nesting position) target size s (.refl hS s)
  have hgot := Stream.ends_attempt_got (s := s.cleared) hagrees hwarns h.ready h.state rfl rfl
    nesting target hsize s.stream.attempts
  refine (hkept.and (Stream.ends_fetchWith.mpr hgot)).mono (fun count t ht => ?_) (fun e t ht => ?_)
  · exact ⟨h.went hwarns ht.1 (ht.2.imp_right fun hgot => by rw [hgot.cursor]; exact Nat.zero_le _),
      ht.2⟩
  · exact (h.went hwarns ht.1 (ht.2.imp_right fun hempty => by
      rw [hempty.2]; exact Nat.zero_le _)).upright

/-- Filling the window leaves the stream where it was, with an empty window only at the end. -/
theorem ends_refill (h : s.Upright I W) (nesting : Nat) :
    Ends (Stream.refill source nesting) s
      (fun _ t => s.Went I W t ∧ (W t ∨ t.stream.position = s.stream.position ∧
        t.stream.cursor = 0 ∧ (t.stream.filled = 0 → ¬ has t.stream.position)))
      (fun _ t => t.Upright I W) := by
  cases nesting with
  | zero => exact h
  | succ nesting =>
      rw [Stream.ends_refill_succ]
      refine ⟨fun _ => h, fun hused => ?_⟩
      refine (h.ends_fetchWith hagrees hwarns nesting .window h.chunk_pos).mono (fun count t ht => ?_)
        (fun _ _ ht => ht)
      obtain ⟨hwent, ht⟩ := ht
      have hfilled : t.Went I W { t with stream := { t.stream with filled := count.getD 0 } } :=
        hwent.upright.altered hwarns .placed rfl rfl
          (ht.imp_right fun hgot => by
            show t.stream.cursor ≤ _
            rw [hgot.cursor]
            exact Nat.zero_le _)
      refine ⟨hwent.trans hfilled, ?_⟩
      obtain hW | hgot := ht
      · exact .inl (hfilled.warned hW)
      obtain hW | hposition := h.position_of_used (Nat.le_of_not_lt hused)
      · exact .inl (hfilled.warned (hwent.warned hW))
      have hnext := hgot.next_eq
      have hcursor := hgot.cursor
      have hsame : t.stream.next - ((count.getD 0 : Int) - t.stream.cursor) = s.stream.next := by
        omega
      refine .inr ⟨hsame.trans hposition.symm, hcursor, fun hzero => ?_⟩
      show ¬ has (t.stream.next - ((count.getD 0 : Int) - t.stream.cursor))
      rw [hsame]
      cases count with
      | none => exact fun hhas => hgot.has_iff.mp hhas rfl
      | some n => exact absurd hzero (Nat.ne_of_gt (hgot.pos n rfl))

/-- Discarding bytes moves the stream forward by as many, or to the end. -/
theorem ends_discardWith (h : s.Upright I W) (nesting fuel : Nat) {size : Int}
    (hsize : 0 ≤ size) :
    Ends (Stream.discardWith (Stream.refill source nesting) fuel size) s
      (fun _ t => s.Went I W t ∧
        (W t ∨ t.stream.position = s.stream.position + size ∨ ¬ has t.stream.position))
      (fun _ t => t.Upright I W) := by
  -- Unless there was a warning, position and bytes left keep adding up to the same.
  refine Stream.ends_discardWith_of_turns
    (I := fun _ left t => s.Went I W t ∧ 0 ≤ left ∧
      (W t ∨ t.stream.position + left = s.stream.position + size))
    (J := fun _ left t => s.Went I W t ∧ 0 ≤ left ∧
      (W t ∨ t.stream.position + left = s.stream.position + size))
    (fun _ left t ht hleft => ⟨ht.1, ht.2.2.imp_right fun hposition => .inl (by omega)⟩)
    (fun _ _ ht _ => ht.1.upright) (fun _ _ _ ht _ _ => ht) ?used ?step ⟨h.refl, hsize, .inr rfl⟩
  case used =>
    rintro fuel left t ⟨ht, hleft, hposition⟩ _ _
    refine (ht.upright.ends_refill hagrees hwarns nesting).mono (fun _ u hu => ?_)
      (fun _ _ hu => hu)
    obtain ⟨hwent, hu⟩ := hu
    refine ⟨fun hempty => ⟨ht.trans hwent, hu.imp_right fun hu => .inr (hu.2.2 hempty)⟩,
      fun _ => ⟨ht.trans hwent, hleft, ?_⟩⟩
    obtain hW | hposition := hposition
    · exact .inl (hwent.warned hW)
    · refine hu.imp_right fun hu => ?_
      rw [hu.1]
      exact hposition
  case step =>
    rintro fuel left t ⟨ht, hleft, hposition⟩
    have hmoved : t.Went I W (t.discarded left) :=
      ht.upright.moved hwarns (.inr (t.cursor_discarded_le left))
    have hafter := t.position_discarded hleft
    refine ⟨ht.trans hmoved, by omega, ?_⟩
    exact hposition.imp hmoved.warned fun hposition => by omega

/-- Seeking goes to the position, or to the end. -/
theorem ends_seekNested (h : s.Upright I W) (nesting : Nat) (position : Int) :
    Ends (Stream.seekNested source nesting position) s
      (fun _ t => s.Went I W t ∧
        (0 ≤ position → W t ∨ t.stream.position = position ∨ ¬ has t.stream.position))
      (fun _ t => t.Upright I W) := by
  have hjump : ∀ next, s.Went I W (s.jumped next) := fun next =>
    h.altered hwarns (s.alike_jumped h.ready next) rfl rfl (.inr (Nat.le_refl 0))
  rw [Stream.seekNested, Stream.ends_seekWith]
  refine ⟨fun hneg => ⟨h.refl, fun hpos => absurd hneg (Int.not_lt.mpr hpos)⟩, fun _ =>
    ⟨fun hinside => ⟨h.moved hwarns (.inr (by omega)), fun _ => .inr (.inl ?_)⟩, fun _ =>
      ⟨fun _ => (hjump _).upright, fun hbefore => ?_⟩⟩⟩
  · rw [Stream.position]
    show s.stream.next - ((s.stream.filled : Int) -
      ((position - (s.stream.next - s.stream.filled)).toNat : Nat)) = _
    omega
  · refine ((hjump _).upright.ends_discardWith hagrees hwarns nesting _ (by omega)).mono
      (fun _ t ht => ⟨(hjump _).trans ht.1, fun _ => ?_⟩) (fun _ _ ht => ht)
    refine ht.2.imp_right (Or.imp_left fun hposition => hposition.trans ?_)
    show source.start s.source position - ((0 : Nat) - (0 : Nat) : Int) + _ = _
    omega

/-- A byte is missing only at the end. -/
theorem ends_readByte (h : s.Upright I W) :
    Ends (Stream.readByte source) s
      (fun byte t => t.Upright I W ∧ (byte = none → W t ∨ ¬ has t.stream.position))
      (fun _ t => t.Upright I W) := by
  simp only [Stream.readByte, ends_bind, ends_getStream, ends_ite, ends_pure, ends_modifyStream,
    Stream.ends_fill]
  refine ⟨fun _ => ?_, fun hunused => ⟨fun hused => absurd hused hunused, fun _ =>
    ⟨(h.moved hwarns (.inr (by omega))).upright, fun hnone => by cases hnone⟩⟩⟩
  refine (h.ends_refill hagrees hwarns _).mono (fun _ t ht => ?_) (fun _ _ ht => ht)
  obtain ⟨hwent, ht⟩ := ht
  refine ⟨fun hnone => ⟨hwent.upright, fun _ => ht.imp_right fun ht => ht.2.2 (by omega)⟩,
    fun hsome => ⟨(hwent.upright.moved hwarns (.inr (by omega))).upright, fun hnone => by
      cases hnone⟩⟩

/-- A single read gets nothing only at the end. -/
theorem ends_readOnce (h : s.Upright I W) (offset : Nat) {size : Nat} (hsize : 0 < size) :
    Ends (Stream.readOnce source offset size) s
      (fun count t => s.Went I W t ∧
        (W t ∨ (count = none → ¬ has t.stream.position) ∧ ∀ n ∈ count, 0 < n))
      (fun _ t => t.Upright I W) := by
  simp only [Stream.readOnce, ends_bind, ends_getStream, ends_ite, ends_pure, Stream.ends_copy,
    Stream.ends_fill, Stream.ends_fetchLent]
  refine ⟨fun hnone => ⟨fun _ => ?past, fun _ => ?through⟩, fun hsome => ?window⟩
  case past =>
    refine (h.ends_fetchWith hagrees hwarns _ _ hsize).mono (fun count t ht => ⟨ht.1, ?_⟩)
      (fun _ _ ht => ht)
    refine ht.2.imp_right fun hgot => ⟨fun hnone => ?_, hgot.pos⟩
    subst hnone
    have hposition : t.stream.position = s.stream.next := by
      have hnext := hgot.next_eq
      rw [Option.getD_none] at hnext
      rw [Stream.position, hgot.filled, hgot.cursor]
      omega
    rw [hposition]
    exact fun hhas => hgot.has_iff.mp hhas rfl
  case through =>
    refine (h.ends_refill hagrees hwarns _).mono (fun _ t ht => ?_) (fun _ _ ht => ht)
    obtain ⟨hwent, ht⟩ := ht
    refine ⟨fun hempty => ⟨hwent, ht.imp_right fun ht =>
      ⟨fun _ => ht.2.2 hempty, fun n hn => (by cases hn)⟩⟩, fun hfilled => ?_⟩
    have hcopied := hwent.upright.copied hwarns offset (n := min t.stream.filled size)
      (ht.imp_right fun ht => by omega)
    refine ⟨hwent.trans hcopied, .inr ⟨fun hnone => (by cases hnone), fun n hn => ?_⟩⟩
    rw [← Option.mem_some.mp hn]
    omega
  case window =>
    refine ⟨h.copied hwarns offset (h.cursor_le.imp_right fun hcursor => ?_), .inr
      ⟨fun hnone => (by cases hnone), fun n hn => ?_⟩⟩
    · have havailable := Stream.available_eq_mod hcursor
      have hmod := Nat.mod_le (s.stream.filled - s.stream.cursor) Word.count
      omega
    · rw [← Option.mem_some.mp hn]
      omega

/-- Reads in a row get less than asked for only at the end. The fuel is enough as long as every single
read gets something. -/
theorem ends_readUpTo (h : s.Upright I W) (fuel offset : Nat) {size : Nat} (hsize : 0 < size) :
    Ends (Stream.readUpTo source fuel offset size) s
      (fun count t => s.Went I W t ∧
        (size ≤ fuel → W t ∨ size ≤ count ∨ ¬ has t.stream.position))
      (fun _ t => t.Upright I W) := by
  refine Stream.ends_readUpTo_of_turns
    (I := fun left count t => s.Went I W t ∧ count < size ∧
      (size ≤ fuel → W t ∨ size ≤ count + left))
    (fun count t ht => ⟨ht.1, fun hfuel => (ht.2.2 hfuel).imp_right .inl⟩)
    (fun left count t ht => ?_) ⟨h.refl, hsize, fun hfuel => .inr (by omega)⟩
  obtain ⟨ht, hless, hleft⟩ := ht
  refine (ht.upright.ends_readOnce hagrees hwarns (offset + count) (Nat.sub_pos_of_lt hless)).mono
    (fun more u hu => ?_) (fun _ _ hu => hu)
  obtain ⟨hwent, hu⟩ := hu
  refine ⟨fun hnone => ⟨ht.trans hwent, fun _ => hu.imp_right fun hu => .inr (hu.1 hnone)⟩,
    fun n hn => ⟨fun hfull => ⟨ht.trans hwent, fun _ => .inr (.inl hfull)⟩, fun hless =>
      ⟨ht.trans hwent, hless, fun hfuel => ?_⟩⟩⟩
  obtain hW | hleft := hleft hfuel
  · exact .inl (hwent.warned hW)
  · refine hu.imp_right fun hu => ?_
    have hpos := hu.2 n hn
    omega

/-- A read gets less than asked for only at the end. -/
theorem ends_read (h : s.Upright I W) (offset size : Nat) :
    Ends (Stream.read source offset size) s
      (fun count t => t.Upright I W ∧ (count.elim (-1) (fun n => (n : Int)) < size →
        W t ∨ ¬ has t.stream.position))
      (fun _ t => t.Upright I W) := by
  simp only [Stream.read, ends_bind, ends_get, ends_ite, ends_pure, ends_throw]
  refine ⟨fun _ => h, fun _ => ⟨fun hzero => ⟨h, fun hless => ?_⟩, fun hsome => ?_⟩⟩
  · rw [Option.elim_some, hzero] at hless
    exact absurd hless (Int.lt_irrefl _)
  refine (h.ends_readUpTo hagrees hwarns size offset (Nat.pos_of_ne_zero hsome)).mono
    (fun count t ht => ⟨ht.1.upright, fun hless => ?_⟩) (fun _ _ ht => ht)
  refine (ht.2 (Nat.le_refl _)).imp_right fun hend => hend.resolve_left fun hcount => ?_
  rw [if_neg (by omega), Option.elim_some] at hless
  omega

/-- The cursor stays inside of the window, unless there is a warning. -/
theorem keeps (operation : Operation) : Keeps (Upright I W) (operation.perform source) :=
  Operation.keeps_perform
    (fun _ h => (h.ends_readByte hagrees hwarns).mono (fun _ _ ht => ht.1) (fun _ _ ht => ht))
    (fun offset size _ h => (h.ends_read hagrees hwarns offset size).mono (fun _ _ ht => ht.1)
      (fun _ _ ht => ht))
    (Stream.keeps_seek fun nesting position _ h =>
      (h.ends_seekNested hagrees hwarns (nesting + 1) position).mono (fun _ _ ht => ht.1.upright)
        (fun _ _ ht => ht))
    (fun position s h =>
      have hkept : s.Kept S (s.switched source position) :=
        (Kept.refl hwarns.respects s).switched hwarns.respects position
      (h.went hwarns hkept (h.cursor_le.imp_left fun hs => hwarns.kept hs hkept)).upright)
    operation
    (fun buffer _ s h =>
      (h.altered (t := { s with lent := buffer }) hwarns (.refl s.stream) rfl rfl h.cursor_le).upright)
    (fun _ _ s h => ⟨h.ready, h.state, h.chunk_pos,
      h.cursor_le.imp_left fun hs : W s => hwarns.unchanged hs rfl rfl⟩)

end Programs

end Upright

/-- A fetch of which the first reply is damaged tells so and ends as a later one of its attempts does.
It gets nothing only where `Q` holds. -/
def Mends (source : Source σ) (Q : Session σ → Prop) (s : Session σ) : Prop :=
  ∀ nesting target size data mismatch u, 0 < size →
    Stream.tryOnce source target size s.cleared = .ok (.damaged data mismatch) u →
    Ends (Stream.fetchWith source (Stream.seekNested source nesting) target size) s
      (fun count t => (count = none → Q t) ∧
        ∃ v, s.events ++ [s.stream.corruption data] <+: v.events ∧
          Stream.tryOnce source target size v = .ok (count.elim .ended .passed) t)
      (fun _ _ => True)

/-- Reads and seeks end early only where there is no data, or `W` holds. -/
structure Candid (source : Source σ) (has : Int → Prop) (W : Session σ → Prop) (s : Session σ) :
    Prop where
  readByte : Ends (Operation.readByte.perform source) s
    (fun outcome t => outcome = .byte none → W t ∨ ¬ has t.stream.position) (fun _ _ => True)
  read : ∀ buffer offset size, Ends ((Operation.read buffer offset size).perform source) s
    (fun outcome t => ∀ count, outcome = .count count → count < size →
      W t ∨ ¬ has t.stream.position) (fun _ _ => True)
  seek : ∀ position, 0 ≤ position → Ends ((Operation.seek position).perform source) s
    (fun _ t => t.stream.position ≠ position → W t ∨ ¬ has t.stream.position) (fun _ _ => True)

/-- Whatever the source does, a fetch that met damage ends as a later attempt. -/
theorem mends_true (source : Source σ) (hs : s.stream.Ready) : s.Mends source fun _ => True := by
  intro nesting target size data mismatch u _ hfirst
  rw [Stream.ends_fetchWith]
  refine (Stream.ends_attempt_last (s := s.cleared) hs nesting target size _).mono
    (fun count t ht => ⟨fun _ => trivial, ?_⟩) (fun _ _ _ => trivial)
  obtain ⟨v, -, hlast, htold⟩ := ht
  exact ⟨v, htold data mismatch u hfirst, hlast⟩

section Agreeing

variable (hagrees : source.Agrees I has) (hwarns : source.Warns S I W)
include hagrees hwarns

/-- Where copies agree, a fetch that met damage gets something. -/
theorem mends_of_agrees (hs : s.stream.Ready) (hI : I s.source) : s.Mends source W := by
  intro nesting target size data mismatch u hsize hfirst
  have hgot := Stream.ends_fetchWith.mpr (Stream.ends_attempt_got (s := s.cleared) hagrees hwarns hs
    hI rfl rfl nesting target hsize s.stream.attempts)
  refine ((mends_true source hs nesting target size data mismatch u hsize hfirst).and hgot).mono
    (fun count t ht => ⟨fun hnone => ?_, ht.1.2⟩) (fun _ _ _ => trivial)
  have hdamaged := (Stream.tried (s := s.cleared) hs target size).ok hfirst
  have hhas : has s.stream.next :=
    (hdamaged.has_iff (s := s.cleared) hagrees hI hsize).mpr nofun
  exact ht.2.resolve_right fun hgot => hgot.has_iff.mp hhas hnone

theorem Upright.candid (h : s.Upright I W) : s.Candid source has W where
  readByte := by
    simp only [Operation.perform, ends_bind, ends_pure]
    refine (h.ends_readByte hagrees hwarns).mono (fun byte t ht hnone => ht.2 ?_)
      (fun _ _ _ => trivial)
    exact Outcome.byte.inj hnone
  read buffer offset size := by
    have hlent : Upright I W { s with lent := buffer } :=
      (h.altered (t := { s with lent := buffer }) hwarns (.refl s.stream) rfl rfl h.cursor_le).upright
    simp only [Operation.perform, ends_bind, ends_pure, Operation.ends_lend,
      Stream.ends_seekable_read]
    refine (hlent.ends_read hagrees hwarns offset size).mono (fun count t ht n hn hless => ht.2 ?_)
      (fun _ _ _ => trivial)
    cases hn
    exact hless
  seek position hposition := by
    simp only [Operation.perform, ends_bind, ends_pure, Stream.ends_seek]
    refine (h.ends_seekNested hagrees hwarns _ position).mono (fun _ t ht hne => ?_)
      (fun _ _ _ => trivial)
    exact (ht.2 hposition).imp_right fun hend => hend.resolve_left hne

/-- A stream that was built is candid in all sessions that it comes to. -/
theorem candid_of_reaches {checksum : Option Algorithm} {options : Options} {stream : Stream} {x : σ}
    {change : σ → σ → Prop} (hstream : Stream.ofOptions? checksum options = .ok stream)
    (hchange : ∀ x y, change x y → S x y) (hx : I x)
    (ht : Reaches source (fun _ => True) change { stream, source := x } t) :
    t.Candid source has W := by
  have hready := Stream.ready_of_ofOptions? hstream
  obtain ⟨hpos, -, hbuilt⟩ := Stream.eq_of_ofOptions? hstream
  have hnew : Upright I W { stream, source := x } :=
    ⟨hready, hx, by rw [hbuilt]; exact hpos, .inr (Nat.le_of_eq (by rw [hbuilt]))⟩
  refine Upright.candid hagrees hwarns (ht.keeps hnew (fun operation _ =>
    Upright.keeps hagrees hwarns operation) fun u y hu hy => ⟨hu.ready, ?_, hu.chunk_pos, ?_⟩)
  · exact hwarns.state (hchange _ _ hy) hu.state
  · exact hu.cursor_le.imp_left fun hW : W u =>
      hwarns.lasting hW (List.prefix_refl u.events) (hchange _ _ hy)

end Agreeing

end Session

/-! ## Replicas of one size -/

namespace Replicas

/-- Replicas that were built or used, all of them of one size. -/
structure Sized (n chunk : Nat) (r : Replicas) : Prop where
  chunk_eq : r.chunk = chunk
  inOrder : r.InOrder
  length_eq : ∀ i < r.list.length, (r.get i).data.bytes.length = n

variable {r r' : Replicas} {n chunk : Nat}

theorem Sized.size_eq (h : r.Sized n chunk) : r.size = n := h.length_eq _ h.inOrder.current_lt

theorem Sized.moved (h : r.Sized n chunk) (hmoved : r.Moved r') : r'.Sized n chunk where
  chunk_eq := hmoved.chunk.trans h.chunk_eq
  inOrder := hmoved.inOrder h.inOrder
  length_eq i hi := by
    rw [hmoved.data]
    exact h.length_eq i (hmoved.length ▸ hi)

theorem sized_of_ofList? {list : List (Option Storage × Option Storage)}
    (h : ofList? list chunk = .ok r) (hsize : ∀ replica ∈ r.list, replica.data.bytes.length = n) :
    r.Sized n chunk := by
  obtain ⟨hlist, hempty, -, hbuilt⟩ := eq_of_ofList? h
  refine ⟨by rw [hbuilt], ?_, fun i hi => ?_⟩
  · rw [hbuilt]
    exact inOrder_of_new fun hnil => hempty (by rw [hlist, hnil]; rfl)
  · rw [get_eq_getElem hi]
    exact hsize _ (List.getElem_mem hi)

/-- An answer with data inside of the replica has some. -/
theorem slice_ne_nil {offset count : Nat} (hoffset : offset < r.size) (hcount : 0 < count) :
    Bytes.slice offset count r.bytes ≠ [] := by
  refine List.ne_nil_of_length_pos ?_
  rw [Bytes.length_slice]
  exact Nat.lt_min.mpr ⟨hcount, Nat.sub_pos_of_lt hoffset⟩

/-- The end is told outside of the data, and only there. -/
theorem Answered.has_iff {request : Request} {reply : Reply} (h : r.Answered request (.ok reply))
    (hsize : 0 < request.size) :
    (0 ≤ request.position ∧ request.position < r.size) ↔ ¬ reply.IsEnd := by
  cases h with
  | outside hout => exact ⟨fun hin => by omega, fun hend => absurd trivial hend⟩
  | plain offset hoffset hinside =>
      exact ⟨fun _ => slice_ne_nil hinside (Nat.lt_min.mpr ⟨hsize, Nat.sub_pos_of_lt hinside⟩),
        fun _ => by omega⟩
  | verified offset capacity hoffset hinside _ _ hsome =>
      exact ⟨fun _ => slice_ne_nil hinside (batch_pos hinside hsome), fun _ => by omega⟩

/-- Replicas of one size agree on where there is data. -/
theorem agrees_sized (n chunk : Nat) :
    Replicas.source.Agrees (Sized n chunk) fun position => 0 ≤ position ∧ position < n where
  read request r hr := (ends_read r request).mono (fun _ _ h => hr.moved h.2.moved)
    (fun _ _ h => h.2 ▸ hr)
  switch position r hr := hr.moved (r.moved_switch position)
  has_iff request r reply r' hr hsize hread := by
    rw [← hr.size_eq]
    exact ((ends_read r request).ok hread).1.has_iff hsize

/-- Replicas of one size fail over at the start of a chunk only. -/
theorem warns_sized (n chunk : Nat) :
    Replicas.source.Warns (fun x y => x.Sized n chunk → y.Sized n chunk) (Sized n chunk)
      fun _ => False :=
  settles.warns (agrees_sized n chunk).respects fun hxy hx => hxy hx

end Replicas

/-! ## Damage at the end -/

/-- A fetch that met damage gets nothing where the next copy says that the data has ended. -/
theorem Stream.ends_fetchWith_swallowed (hs : s.stream.Ready) (hattempts : 1 < s.stream.attempts)
    {target : Stream.Target} {size : Nat} {data : Bytes} {mismatch : Mismatch} {t : Session σ}
    {x : σ} {below : Nat}
    (hfirst : Stream.tryOnce source target size s.cleared = .ok (.damaged data mismatch) t)
    (hfound : (source.switch s.stream.next t.source).1.1 = true)
    (hstart : source.start (source.switch s.stream.next t.source).2 s.stream.next = s.stream.next)
    (hended : source.read (s.stream.ask size) (source.switch s.stream.next t.source).2 =
      .ok (.ended below) x) (nesting : Nat) :
    Ends (Stream.fetchWith source (Stream.seekNested source nesting) target size) s
      (fun count _ => count = none) (fun _ _ => False) := by
  obtain ⟨left, hleft⟩ : ∃ left, s.stream.attempts = left + 2 := ⟨s.stream.attempts - 2, by omega⟩
  have htried := (Stream.tried (s := s.cleared) hs target size).ok hfirst
  have hnext : t.stream.next = s.stream.next := htried.bounds.2.2 _ _ rfl
  have hask : t.stream.ask size = s.stream.ask size := by
    rw [Stream.ask, hnext, htried.alike.capacity]
    rfl
  rw [Stream.ends_fetchWith, hleft, Stream.attempt]
  simp only [ends_bind, ends_getStream]
  refine .of_ok hfirst ?_
  simp only [ends_bind, ends_tell, ends_ite, ends_throw, ends_switch]
  refine ⟨fun hzero => by omega, fun _ => ⟨fun _ => ?_, fun hnone => absurd hfound hnone⟩⟩
  refine Stream.ends_seekNested_next (htried.alike.ready hs) hnext.symm (hnext ▸ hstart)
    htried.bounds.1 htried.bounds.2.1 ?_
  rw [← hask] at hended
  exact Stream.ends_attempt_ended hended rfl

/-- Whatever the source does, a fetch that met damage fails, or it tells so and ends as a later attempt
does. Where copies agree on where there is data, it doesn't end without any, and no read or seek ends
early but where there is none, unless the log tells of a failover inside of a chunk; of replicas of one
size it never does. The copies have to agree: where the next one says that the data has ended, so does
the fetch, and nothing but the log tells of the damage. -/
theorem no_end_after_damage {checksum : Option Algorithm} {options : Options} {stream : Stream}
    (hstream : Stream.ofOptions? checksum options = .ok stream) :
    (∀ (σ : Type) (source : Source σ) (s : Session σ), s.stream.Ready →
      s.Mends source fun _ => True) ∧
    (∀ (σ : Type) (source : Source σ) (I : σ → Prop) (has : Int → Prop), source.Agrees I has →
      (∀ s : Session (Recorded σ), s.stream.Ready → I s.source.state →
        s.Mends source.recorded (Session.Strayed source)) ∧
      ∀ x t, I x →
        Session.Reaches source.recorded (fun _ => True) (fun x y => y.calls = x.calls ∧ I y.state)
          { stream, source := { state := x } } t →
        t.Candid source.recorded has (Session.Strayed source)) ∧
    (∀ (list : List (Option Storage × Option Storage)) (chunk n : Nat) (replicas : Replicas),
      Replicas.ofList? list chunk = .ok replicas →
      (∀ replica ∈ replicas.list, replica.data.bytes.length = n) →
      (∀ s : Session Replicas, s.stream.Ready → s.source.Sized n chunk →
        s.Mends Replicas.source fun _ => False) ∧
      ∀ t, Session.Reaches Replicas.source (fun _ => True) (fun _ y => y.Sized n chunk)
          { stream, source := replicas } t →
        t.Candid Replicas.source (fun position => 0 ≤ position ∧ position < n) fun _ => False) ∧
    ∀ (σ : Type) (source : Source σ) (s t : Session σ) (target : Stream.Target) (size nesting : Nat)
      (data : Bytes) (mismatch : Mismatch) (x : σ) (below : Nat), s.stream.Ready →
      1 < s.stream.attempts →
      Stream.tryOnce source target size s.cleared = .ok (.damaged data mismatch) t →
      (source.switch s.stream.next t.source).1.1 = true →
      source.start (source.switch s.stream.next t.source).2 s.stream.next = s.stream.next →
      source.read (s.stream.ask size) (source.switch s.stream.next t.source).2 =
        .ok (.ended below) x →
      Ends (Stream.fetchWith source (Stream.seekNested source nesting) target size) s
        (fun count _ => count = none) (fun _ _ => False) := by
  refine ⟨fun σ source s hs => mends_true source hs, fun σ source I has hagrees => ?_,
    fun list chunk n replicas hreplicas hsize => ?_, ?_⟩
  · have hwarns := source.warns_strayed.within hagrees.respects.recorded
    exact ⟨fun s hs hI => mends_of_agrees hagrees.recorded hwarns hs hI,
      fun x t hx ht => candid_of_reaches hagrees.recorded hwarns hstream
        (fun x y (hxy : y.calls = x.calls ∧ I y.state) =>
          ⟨hxy.1 ▸ List.prefix_refl _, fun _ => hxy.2⟩) hx ht⟩
  · have hagrees := Replicas.agrees_sized n chunk
    have hwarns := Replicas.warns_sized n chunk
    exact ⟨fun s hs hI => mends_of_agrees hagrees hwarns hs hI,
      fun t ht => candid_of_reaches hagrees hwarns hstream (fun _ _ hy _ => hy)
        (Replicas.sized_of_ofList? hreplicas hsize) ht⟩
  · intro σ source s t target size nesting data mismatch x below hs hattempts hfirst hfound hstart
      hended
    exact Stream.ends_fetchWith_swallowed hs hattempts hfirst hfound hstart hended nesting

/-- The second chunk of the first of two replicas is damaged. The second replica is as long, so a byte of
that chunk is not taken for the end. -/
theorem readByte_after_damage :
    ∃ replicas stream,
      Replicas.ofList?
        ([⟨{ bytes := [1, 2, 3, 9] }, { bytes := Sidecar.ofBytes .crc32 2 [1, 2, 3, 4] }⟩,
          Replica.ofBytes .crc32 2 [1, 2, 3, 4]].map Replica.storages) 2 = .ok replicas ∧
      Stream.ofOptions? (some .crc32) { maxChunk := 2 } = .ok stream ∧
      ∃ t, t = (Operation.seek 2).after Replicas.source { stream, source := replicas } ∧
        Ends (Operation.readByte.perform Replicas.source) t
          (fun outcome u => Log.Event.corrupted "" 2 4 [3, 9] ∈ u.events ∧ outcome ≠ .byte none)
          (fun _ _ => False) := by
  have hreplicas : Replicas.ofList?
      ([⟨{ bytes := [1, 2, 3, 9] }, { bytes := Sidecar.ofBytes .crc32 2 [1, 2, 3, 4] }⟩,
        Replica.ofBytes .crc32 2 [1, 2, 3, 4]].map Replica.storages) 2 = .ok _ := rfl
  have hstream : Stream.ofOptions? (some .crc32) { maxChunk := 2 } = .ok _ := rfl
  refine ⟨_, _, hreplicas, hstream, _, rfl, ?_⟩
  generalize ht : (Operation.seek 2).after (Replicas.source : Source Replicas) _ = t
  have hcandid := ((no_end_after_damage hstream).2.2.1 _ 2 4 _ hreplicas (by decide)).2 t
    (ht ▸ .perform (.seek 2) .refl trivial)
  have hrun : Ends (Operation.readByte.perform Replicas.source) t
      (fun _ u => Log.Event.corrupted "" 2 4 [3, 9] ∈ u.events ∧ u.stream.position = 3)
      (fun _ _ => False) := by
    rw [← ht]
    decide +kernel
  refine (hrun.and hcandid.readByte).mono (fun outcome u hu => ⟨hu.1.1, fun hnone => ?_⟩)
    (fun _ _ hfalse => hfalse.1)
  obtain hfalse | hend := hu.2 hnone
  · exact hfalse
  · rw [hu.1.2] at hend
    exact hend (by decide)

/-- With a second replica that ends before the damage, the byte is taken for the end. -/
theorem end_after_damage :
    ∃ replicas stream,
      Replicas.ofList?
        ([⟨{ bytes := [1, 2, 3, 9] }, { bytes := Sidecar.ofBytes .crc32 2 [1, 2, 3, 4] }⟩,
          Replica.ofBytes .crc32 2 [1, 2]].map Replica.storages) 2 = .ok replicas ∧
      Stream.ofOptions? (some .crc32) { maxChunk := 2 } = .ok stream ∧
      ∃ t, t = (Operation.seek 2).after Replicas.source { stream, source := replicas } ∧
        t.stream.needsChecksum ∧
        Ends (Operation.readByte.perform Replicas.source) t
          (fun outcome u => outcome = .byte none ∧
            u.events = [.corrupted "" 2 4 [3, 9], .replicaFailed 0 2 1, .switched "" 2 2])
          (fun _ _ => False) := by
  refine ⟨_, _, rfl, rfl, _, rfl, rfl, ?_⟩
  decide +kernel

end ChunkGuard
