import ChunkGuard.Proofs.Dialogue

/-!
# What a source supplies

A program of a stream reads its source as long as it needs more. If nothing is wrong with the replies,
the calls that it makes are a `Stream.Supply`: each asks for data from where the reply before ended, as
long as more is needed, and a reply without data is the last one. If something is wrong, one of the
calls shows it: the source failed, or its bytes don't pass (`Stream.Troubled`). A single fetch is
either way (`Stream.ends_fetchWith_supplied`), whatever the source does.
-/

namespace ChunkGuard

open Session

variable {σ : Type}

/-- The bytes of data in a reply. -/
def Reply.data : Reply → Bytes
  | chunk data _ => data
  | ended _ => []

/-! ## Replies that fail -/

namespace Stream

/-- The bytes pass against the checksums held, where the stream verifies: there are enough of these, and
each chunk of the bytes has its own. -/
def Passes (s : Stream) (held data : Bytes) : Prop :=
  ∀ c ∈ s.checksum, s.verify → Chunk.count data.length s.maxChunk * sumWidth ≤ held.length ∧
    ∀ index < Chunk.count data.length s.maxChunk,
      Chunk.Passes c.algorithm s.maxChunk held data index

/-- The checksums held after a call. -/
def heldAfter (s : Stream) (held : Bytes) : Call σ → Bytes
  | .read _ _ (.ok (.chunk _ sums)) => s.holding held sums
  | _ => held

/-- The source failed in the call, or it gave bytes that don't pass. -/
def Fails (s : Stream) (held : Bytes) : Call σ → Prop
  | .read _ _ (.error _) => True
  | .read _ _ (.ok (.chunk data sums)) => ¬ s.Passes (s.holding held sums) data
  | _ => False

/-- One of the calls fails against the checksums held when it is made. -/
def Troubled (s : Stream) : Bytes → List (Call σ) → Prop
  | _, [] => False
  | held, call :: calls => s.Fails held call ∨ s.Troubled (s.heldAfter held call) calls

instance (s : Stream) (held data : Bytes) : Decidable (s.Passes held data) :=
  inferInstanceAs (Decidable (∀ c ∈ s.checksum, s.verify → _ ∧ ∀ index < _, _))

instance (s : Stream) (held : Bytes) (call : Call σ) : Decidable (s.Fails held call) :=
  match call with
  | .read _ _ (.error _) => inferInstanceAs (Decidable True)
  | .read _ _ (.ok (.chunk data sums)) =>
    inferInstanceAs (Decidable (¬ s.Passes (s.holding held sums) data))
  | .read _ _ (.ok (.ended _)) => inferInstanceAs (Decidable False)
  | .switch _ _ _ => inferInstanceAs (Decidable False)

instance decidableTroubled (s : Stream) :
    (held : Bytes) → (calls : List (Call σ)) → Decidable (s.Troubled held calls)
  | _, [] => inferInstanceAs (Decidable False)
  | held, call :: calls =>
    have := s.decidableTroubled (s.heldAfter held call) calls
    inferInstanceAs (Decidable (s.Fails held call ∨ s.Troubled (s.heldAfter held call) calls))

variable {s t : Stream} {held data : Bytes} {calls more : List (Call σ)} {call : Call σ}

/-- Bytes pass exactly if the comparison finds nothing about them. -/
theorem passes_iff (hheld : held.length = s.sums.length) :
    s.Passes held data ↔ s.HasSums data.length ∧ s.verdict held data = none := by
  cases hc : s.checksum with
  | none =>
      have hneeds : s.needsChecksum = false := by simp [needsChecksum, hc]
      have hverdict := verdict_of_not_needsChecksum hneeds held data
      simp [Passes, HasSums, hc, hneeds, hverdict]
  | some c =>
      by_cases hverify : s.verify
      · have hneeds : s.needsChecksum := by simp [needsChecksum, hc, hverify]
        rw [verdict_eq_none hneeds hc, HasSums, Passes, hc, ← hheld]
        simp [hneeds, hverify]
      · have hneeds : s.needsChecksum = false := by simp [needsChecksum, hverify]
        have hverdict := verdict_of_not_needsChecksum hneeds held data
        simp [Passes, HasSums, hneeds, hverify, hverdict]

theorem length_holding (s : Stream) (held sums : Bytes) :
    (s.holding held sums).length = held.length := by
  rw [holding]
  split
  · rw [Bytes.length_write, List.length_take]
    omega
  · rfl

theorem Troubled.append_right (h : s.Troubled held calls) (more : List (Call σ)) :
    s.Troubled held (calls ++ more) := by
  induction calls generalizing held with
  | nil => exact h.elim
  | cons call calls ih => exact h.imp_right ih

theorem Troubled.append_left (h : s.Troubled (calls.foldl s.heldAfter held) more) :
    s.Troubled held (calls ++ more) := by
  induction calls generalizing held with
  | nil => exact h
  | cons call calls ih => exact .inr (ih h)

section Alike

variable (h : s.Alike t)
include h

theorem Alike.heldAfter : t.heldAfter (σ := σ) = s.heldAfter := by
  funext held call
  simp only [Stream.heldAfter, h.holding]

theorem Alike.fails_iff : t.Fails held call ↔ s.Fails held call := by
  have hpasses : t.Passes = s.Passes := by
    funext held data
    rw [Passes, Passes, h.checksum, h.verify, h.maxChunk]
  simp only [Fails, hpasses, h.holding]

theorem Alike.troubled (ht : t.Troubled held calls) : s.Troubled held calls := by
  induction calls generalizing held with
  | nil => exact ht
  | cons call calls ih =>
      rw [Troubled, h.heldAfter] at ht
      exact ht.imp h.fails_iff.mp ih

end Alike

end Stream

/-! ## Sessions and the calls made between them -/

namespace Session

variable {s t u : Session (Recorded σ)} {calls more : List (Call σ)}

/-- These calls were made from one session to the other, and the checksums held are those that they
left. -/
structure Called (s : Session (Recorded σ)) (calls : List (Call σ)) (t : Session (Recorded σ)) :
    Prop where
  stream : s.stream.Alike t.stream
  calls_eq : t.source.calls = s.source.calls ++ calls
  sums : t.stream.sums = calls.foldl s.stream.heldAfter s.stream.sums

/-- Calls were made from one session to the other, and one of them fails. -/
structure Disturbed (s t : Session (Recorded σ)) : Prop where
  stream : s.stream.Alike t.stream
  trouble : ∃ calls, t.source.calls = s.source.calls ++ calls ∧ s.stream.Troubled s.stream.sums calls

theorem Called.refl (s : Session (Recorded σ)) : s.Called [] s :=
  ⟨.refl _, (List.append_nil _).symm, rfl⟩

theorem Called.trans (h : s.Called calls t) (h' : t.Called more u) : s.Called (calls ++ more) u where
  stream := h.stream.trans h'.stream
  calls_eq := by rw [h'.calls_eq, h.calls_eq, List.append_assoc]
  sums := by rw [h'.sums, h.sums, List.foldl_append, h.stream.heldAfter]

/-- Only how the stream is built, the checksums held and the calls matter. -/
theorem Called.of_alike (h : s.Called calls t) (hstream : t.stream.Alike u.stream)
    (hsums : u.stream.sums = t.stream.sums) (hcalls : u.source.calls = t.source.calls) :
    s.Called calls u :=
  ⟨h.stream.trans hstream, hcalls.trans h.calls_eq, hsums.trans h.sums⟩

theorem Called.disturbed (h : s.Called calls t) (h' : t.Disturbed u) : s.Disturbed u := by
  obtain ⟨more, hcalls, htroubled⟩ := h'.trouble
  refine ⟨h.stream.trans h'.stream, calls ++ more, ?_, .append_left ?_⟩
  · rw [hcalls, h.calls_eq, List.append_assoc]
  · rw [← h.sums]
    exact h.stream.troubled htroubled

/-- Only how the stream is built and the calls matter. -/
theorem Disturbed.of_alike (h : s.Disturbed t) (hstream : t.stream.Alike u.stream)
    (hcalls : u.source.calls = t.source.calls) : s.Disturbed u :=
  ⟨h.stream.trans hstream, hcalls ▸ h.trouble⟩

/-- What was disturbed stays so, whatever calls follow. -/
theorem Disturbed.of_kept (h : s.Disturbed t) (htu : t.Kept (fun x y => x.calls <+: y.calls) u) :
    s.Disturbed u := by
  obtain ⟨calls, hcalls, htroubled⟩ := h.trouble
  obtain ⟨more, hmore⟩ := htu.source
  refine ⟨h.stream.trans htu.stream, calls ++ more, ?_, htroubled.append_right more⟩
  rw [← hmore, hcalls, List.append_assoc]

/-- A program that only makes calls keeps a session disturbed. -/
theorem keeps_disturbed {α : Type} {m : StreamM (Recorded σ) α} (hs : s.stream.Ready)
    (hm : ∀ t : Session (Recorded σ), t.stream.Ready →
      Keeps (Kept (fun x y => x.calls <+: y.calls) t) m) : Keeps (Disturbed s) m := by
  intro t h
  have hready := h.stream.ready hs
  exact (hm t hready t ⟨.refl _, List.prefix_refl _, List.prefix_refl _⟩).mono
    (fun _ _ hu => h.of_kept hu) (fun _ _ hu => h.of_kept hu)

end Session

/-- Whatever was done with a stream, it is ready, and its attempts and chunks are those that it was built
with. -/
theorem Session.Reaches.built {source : Source σ} {allowed : Operation → Prop} {change : σ → σ → Prop}
    {checksum : Option Algorithm} {options : Options} {stream : Stream} {x : σ} {s : Session σ}
    (h : Reaches source allowed change { stream, source := x } s)
    (hstream : Stream.ofOptions? checksum options = .ok stream) :
    s.stream.Ready ∧ 0 < s.stream.attempts ∧ s.stream.maxChunk = options.maxChunk := by
  have hready := Stream.ready_of_ofOptions? hstream
  obtain ⟨-, hattempts, rfl⟩ := Stream.eq_of_ofOptions? hstream
  obtain ⟨verify, hkept⟩ := h.kept source.respects_true (fun _ _ _ => trivial) hready
  exact ⟨hkept.stream.ready hready, hkept.stream.attempts ▸ hattempts, hkept.stream.maxChunk⟩

/-! ## One fetch -/

namespace Stream

variable {source : Source σ} {target : Target} {size : Nat} {s t : Session (Recorded σ)}

/-- A fetch got a reply, put its bytes where they go and moved on by them. -/
structure Replied (source : Source σ) (target : Target) (size : Nat) (reply : Reply)
    (s t : Session (Recorded σ)) : Prop where
  read : ∃ x, source.read (s.stream.ask size) s.source.state = .ok reply x
  called : s.Called [.read s.source.state (s.stream.ask size) (.ok reply)] t
  filled : t.stream.filled = 0
  cursor : t.stream.cursor = 0
  next_eq : t.stream.next = s.stream.next + reply.data.length
  put : target.Room size s →
    t.lent = (target.put reply.data s).lent ∧
      t.stream.window = (target.put reply.data s).stream.window

/-- A source that keeps to the size of a request gives no more. -/
theorem Replied.length_le {reply : Reply} (h : Replied source target size reply s t)
    (hsource : ∀ request x data sums y, source.read request x = .ok (.chunk data sums) y →
      data.length ≤ request.size) : reply.data.length ≤ size := by
  obtain ⟨x, hread⟩ := h.read
  cases reply with
  | chunk data sums => exact hsource _ _ _ _ _ hread
  | ended code => exact Nat.zero_le _

theorem called_received (target : Target) {data sums : Bytes} {y : σ} {x : Recorded σ}
    (hx : x = s.source.push (.read s.source.state (s.stream.ask size)
      (.ok (.chunk data sums))) y) :
    s.Called [.read s.source.state (s.stream.ask size) (.ok (.chunk data sums))]
      (s.received target data sums x) := by
  subst hx
  exact ⟨.received target data sums _ s, calls_received, sums_received⟩

/-- An attempt that fails met a call that does. -/
theorem Tried.disturbed_of_error {e : StreamError}
    (h : Tried source.recorded target size s (.error e) t) : s.Disturbed t := by
  cases h with
  | refused e x hread =>
      obtain ⟨y, -, rfl⟩ := Source.read_recorded_eq_error.mp hread
      exact ⟨.refl _, _, rfl, Or.inl trivial⟩
  | crowded data sums x hread hdata hsums =>
      obtain ⟨y, -, hx⟩ := Source.read_recorded_eq_ok.mp hread
      have hcalled := called_received target hx
      refine ⟨hcalled.stream, _, hcalled.calls_eq, Or.inl fun hpasses => hsums ?_⟩
      exact ((passes_iff (length_holding _ _ _)).mp hpasses).1

/-- An attempt that found damage met a reply that fails. -/
theorem Tried.disturbed_of_damaged {data : Bytes} {mismatch : Mismatch}
    (h : Tried source.recorded target size s (.ok (.damaged data mismatch)) t) : s.Disturbed t := by
  obtain ⟨sums, -, hcalls, -, -, hverdict, -⟩ := h.damaged_reply
  refine ⟨h.alike, _, hcalls, Or.inl fun hpasses => ?_⟩
  rw [((passes_iff (length_holding _ _ _)).mp hpasses).2] at hverdict
  cases hverdict

/-- Putting no bytes anywhere changes nothing. -/
theorem Target.put_nil {s : Session σ} (h : target.Room size s) : target.put [] s = s := by
  cases target with
  | window =>
      show { s with stream := { s.stream with window := Bytes.write 0 [] s.stream.window } } = s
      rw [Bytes.write_nil (Nat.zero_le _)]
  | lent offset =>
      have h : offset + size ≤ s.lent.length := h
      show { s with lent := Bytes.write offset [] s.lent } = s
      rw [Bytes.write_nil (by omega)]

theorem put_received (data sums : Bytes) (x : Recorded σ) :
    (s.received target data sums x).lent = (target.put data s).lent ∧
      (s.received target data sums x).stream.window = (target.put data s).stream.window := by
  cases target <;> exact ⟨rfl, rfl⟩

/-- An attempt that ended got a reply without data. -/
theorem Tried.replied_of_ended (hfilled : s.stream.filled = 0) (hcursor : s.stream.cursor = 0)
    (h : Tried source.recorded target size s (.ok .ended) t) :
    ∃ reply, reply.data = [] ∧ Replied source target size reply s t := by
  have hbounds := h.bounds
  have hempty := And.intro (hbounds.1.trans hfilled) (hbounds.2.1.trans hcursor)
  cases h with
  | ended code x hread =>
      obtain ⟨y, hy, rfl⟩ := Source.read_recorded_eq_ok.mp hread
      refine ⟨.ended code, rfl, ⟨y, hy⟩, ⟨.refl _, rfl, rfl⟩, hempty.1, hempty.2,
        (Int.add_zero _).symm, fun hroom => ?_⟩
      have hput : target.put (Reply.ended code).data s = s := Target.put_nil hroom
      rw [hput]
      exact ⟨rfl, rfl⟩
  | empty sums x hread =>
      obtain ⟨y, hy, hx⟩ := Source.read_recorded_eq_ok.mp hread
      exact ⟨.chunk [] sums, rfl, ⟨y, hy⟩, called_received target hx, hempty.1, hempty.2,
        next_received.trans (Int.add_zero _).symm, fun _ => put_received [] sums x⟩

/-- An attempt that passed got a reply with so many bytes. -/
theorem Tried.replied_of_passed (hfilled : s.stream.filled = 0) (hcursor : s.stream.cursor = 0)
    {count : Nat} (h : Tried source.recorded target size s (.ok (.passed count)) t) :
    ∃ reply, reply.data ≠ [] ∧ count = reply.data.length ∧ Replied source target size reply s t := by
  have hbounds := h.bounds
  have hempty := And.intro (hbounds.1.trans hfilled) (hbounds.2.1.trans hcursor)
  cases h with
  | passed data sums x hread hdata =>
      obtain ⟨y, hy, hx⟩ := Source.read_recorded_eq_ok.mp hread
      have hcalled := called_received target hx
      refine ⟨.chunk data sums, hdata, rfl, ⟨y, hy⟩, ?_, hempty.1, hempty.2,
        congrArg (· + (data.length : Int)) next_received,
        fun _ => put_received data sums x⟩
      exact hcalled.of_alike .placed rfl rfl

/-- A fetch gets a reply, whatever the source does, or a call in it fails. -/
theorem ends_attempt_supplied (hs : s.stream.Ready) (hfilled : s.stream.filled = 0)
    (hcursor : s.stream.cursor = 0) (nesting : Nat) {attempts : Nat} (hattempts : 0 < attempts) :
    Ends (attempt source.recorded (seekNested source.recorded nesting) target size attempts) s
      (fun count t => s.Disturbed t ∨ ∃ reply,
        count = (if reply.data = [] then none else some reply.data.length) ∧
          Replied source target size reply s t)
      (fun _ t => s.Disturbed t) := by
  obtain ⟨left, rfl⟩ := Nat.exists_eq_succ_of_ne_zero (Nat.ne_of_gt hattempts)
  have hcalls := source.respects_calls
  refine ends_attempt_succ hs ?ended ?passed ?failed ?last ?alone ?retried
  case ended =>
    intro t ht
    obtain ⟨reply, hreply, hreplied⟩ := ht.replied_of_ended hfilled hcursor
    exact .inr ⟨reply, (if_pos hreply).symm, hreplied⟩
  case passed =>
    intro count t ht
    obtain ⟨reply, hreply, rfl, hreplied⟩ := ht.replied_of_passed hfilled hcursor
    exact .inr ⟨reply, (if_neg hreply).symm, hreplied⟩
  case failed => exact fun e t ht => ht.disturbed_of_error
  case last =>
    intro _ data mismatch t ht
    exact ht.disturbed_of_damaged.of_kept ((Kept.refl hcalls t).told _)
  case alone =>
    intro _ data mismatch t ht _
    exact ht.disturbed_of_damaged.of_kept (((Kept.refl hcalls t).told _).switched hcalls _)
  case retried =>
    intro _ data mismatch t ht _
    -- Whatever is fetched from here on, the damage stays among the calls.
    have hu := ht.disturbed_of_damaged.of_kept ((((Kept.refl hcalls t).told
      [s.stream.corruption data]).switched hcalls s.stream.next).told
        [.switched s.stream.name s.stream.next left])
    have hseek : ∀ position, Keeps s.Disturbed (seekNested source.recorded nesting position) :=
      fun position => keeps_disturbed hs fun _ ho => keeps_seekNested hcalls ho nesting position
    have hrest : Keeps s.Disturbed
        (attempt source.recorded (seekNested source.recorded nesting) target size left) :=
      keeps_disturbed hs fun _ ho =>
        keeps_attempt hcalls ho (fun position => keeps_seekNested hcalls ho nesting position) _ _ _
    refine (hseek _ _ hu).mono (fun _ v hv => ?_) (fun _ _ hv => hv)
    exact (hrest v hv).mono (fun _ _ hw => .inl hw) (fun _ _ hw => hw)

theorem ends_fetchWith_supplied (hs : s.stream.Ready) (hattempts : 0 < s.stream.attempts)
    (nesting : Nat) (target : Target) (size : Nat) :
    Ends (fetchWith source.recorded (seekNested source.recorded nesting) target size) s
      (fun count t => s.Disturbed t ∨ ∃ reply,
        count = (if reply.data = [] then none else some reply.data.length) ∧
          Replied source target size reply s t)
      (fun _ t => s.Disturbed t) := by
  have hcleared : s.Called [] s.cleared :=
    (Called.refl s).of_alike s.alike_cleared rfl rfl
  rw [ends_fetchWith]
  refine (ends_attempt_supplied (s := s.cleared) (s.alike_cleared.ready hs) rfl rfl nesting
    hattempts).mono (fun count t ht => ?_) (fun _ t ht => hcleared.disturbed ht)
  refine ht.imp hcleared.disturbed fun ⟨reply, hcount, hreplied⟩ => ⟨reply, hcount, ?_⟩
  refine ⟨hreplied.read, hcleared.trans hreplied.called, hreplied.filled, hreplied.cursor, hreplied.next_eq,
    fun hroom => ?_⟩
  have hput := hreplied.put (by cases target <;> exact hroom)
  cases target <;> exact hput

/-- Filling a window that is used up gets a reply into it, or a call in it fails. -/
theorem ends_refill_supplied (hs : s.stream.Ready) (hattempts : 0 < s.stream.attempts)
    (hused : s.stream.filled ≤ s.stream.cursor) (nesting : Nat) :
    Ends (refill source.recorded (nesting + 1)) s
      (fun _ t => s.Disturbed t ∨ ∃ reply u, Replied source .window s.stream.maxChunk reply s u ∧
        t = { u with stream := { u.stream with filled := reply.data.length } })
      (fun _ t => s.Disturbed t) := by
  rw [ends_refill_succ]
  refine ⟨fun hunused => absurd hunused (Nat.not_lt_of_le hused), fun _ => ?_⟩
  refine (ends_fetchWith_supplied hs hattempts nesting .window _).mono (fun count t ht => ?_)
    (fun _ _ ht => ht)
  obtain hdisturbed | ⟨reply, rfl, hreplied⟩ := ht
  · exact .inl (hdisturbed.of_alike .placed rfl)
  · refine .inr ⟨reply, t, hreplied, ?_⟩
    by_cases hreply : reply.data = []
    · rw [if_pos hreply, hreply]
      rfl
    · rw [if_neg hreply]
      rfl

end Stream

/-! ## Fetches in a row -/

/-- What a program needs of its source: so many bytes from a position on, asked for by requests whose
size depends on how many are still needed. -/
structure Demand where
  start : Int
  need : Nat
  size : Nat → Nat
  capacity : Option Nat

namespace Demand

/-- The request that is made after so many bytes. -/
def request (d : Demand) (got : Nat) : Request := ⟨d.start + got, d.size (d.need - got), d.capacity⟩

variable (d : Demand)

/-- Reads in a row, with the bytes that they got. Each was made while more was needed, for data from
where the one before ended, and got some. -/
inductive Row : List (Call σ) → Bytes → Prop where
  | nil : Row [] []
  | snoc {calls : List (Call σ)} {got : Bytes} {reply : Reply} (x : σ) :
      Row calls got → got.length < d.need → reply.data ≠ [] →
      Row (calls ++ [.read x (d.request got.length) (.ok reply)]) (got ++ reply.data)

/-- All the reads made for what is needed, with the bytes that they got. The last one reached what is
needed, or got no data. -/
inductive Supply : List (Call σ) → Bytes → Prop where
  | full {calls : List (Call σ)} {got : Bytes} :
      d.Row calls got → d.need ≤ got.length → Supply calls got
  | short {calls : List (Call σ)} {got : Bytes} {reply : Reply} (x : σ) :
      d.Row calls got → got.length < d.need → reply.data = [] →
      Supply (calls ++ [.read x (d.request got.length) (.ok reply)]) got

variable {d} {calls : List (Call σ)} {got : Bytes}

/-- Where nothing is needed, nothing is read. -/
theorem Supply.eq_nil (h : d.Supply calls got) (hneed : d.need = 0) : calls = [] := by
  cases h with
  | full hrow =>
      cases hrow with
      | nil => rfl
      | snoc x hrow hless => exact absurd hless (by omega)
  | short x hrow hless => exact absurd hless (by omega)

/-- The last read brought what there is beyond what is needed. It got no data if there is less than
that. -/
theorem Supply.last (h : d.Supply calls got) (hneed : 0 < d.need) :
    ∃ before x request reply, calls = before ++ [.read x request (.ok reply)] ∧
      got.drop d.need <:+ reply.data ∧ (got.length < d.need → reply.data = []) := by
  cases h with
  | full hrow hfull =>
      cases hrow with
      | nil => exact absurd hfull (Nat.not_le_of_lt hneed)
      | @snoc before got reply x hrow hless hdata =>
          refine ⟨before, x, _, reply, rfl, ?_, fun hshort => absurd hfull (Nat.not_le_of_lt hshort)⟩
          rw [List.drop_append, List.drop_of_length_le (Nat.le_of_lt hless), List.nil_append]
          exact List.drop_suffix _ _
  | @short before got reply x hrow hless hdata =>
      refine ⟨before, x, _, reply, rfl, ?_, fun _ => hdata⟩
      rw [List.drop_of_length_le (Nat.le_of_lt hless)]
      exact List.nil_suffix

end Demand

/-- From one session to the other the source supplied these bytes of what is needed. -/
structure Session.Supplied (d : Demand) (s : Session (Recorded σ)) (got : Bytes)
    (t : Session (Recorded σ)) : Prop where
  row : ∃ calls, s.Called calls t ∧ d.Row calls got
  next_eq : t.stream.next = d.start + got.length

namespace Session.Supplied

variable {source : Source σ} {d : Demand} {got : Bytes} {reply : Reply} {target : Stream.Target}
  {size : Nat} {s t u : Session (Recorded σ)}

theorem alike (h : Supplied d s got t) : s.stream.Alike t.stream := by
  obtain ⟨calls, hcalled, -⟩ := h.row
  exact hcalled.stream

theorem disturbed (h : Supplied d s got t) (hu : t.Disturbed u) : s.Disturbed u := by
  obtain ⟨calls, hcalled, -⟩ := h.row
  exact hcalled.disturbed hu

/-- Only how the stream is built, its place in the source, the checksums held and the calls matter. -/
theorem of_alike (h : Supplied d s got t) (hstream : t.stream.Alike u.stream)
    (hnext : u.stream.next = t.stream.next) (hsums : u.stream.sums = t.stream.sums)
    (hcalls : u.source.calls = t.source.calls) : Supplied d s got u := by
  obtain ⟨calls, hcalled, hrow⟩ := h.row
  exact ⟨⟨calls, hcalled.of_alike hstream hsums hcalls, hrow⟩, hnext.trans h.next_eq⟩

theorem ask_eq (h : Supplied d s got t) (hcapacity : d.capacity = s.stream.capacity)
    (hsize : size = d.size (d.need - got.length)) : t.stream.ask size = d.request got.length := by
  rw [Stream.ask, Demand.request, h.next_eq, h.alike.capacity, hcapacity, hsize]

/-- A reply with data is one more in the row. -/
theorem more (h : Supplied d s got t) (hcapacity : d.capacity = s.stream.capacity)
    (hsize : size = d.size (d.need - got.length)) (hless : got.length < d.need)
    (hu : Stream.Replied source target size reply t u) (hreply : reply.data ≠ []) :
    Supplied d s (got ++ reply.data) u := by
  obtain ⟨calls, hcalled, hrow⟩ := h.row
  have hcall := hu.called
  rw [h.ask_eq hcapacity hsize] at hcall
  refine ⟨⟨_, hcalled.trans hcall, .snoc _ hrow hless hreply⟩, ?_⟩
  rw [hu.next_eq, h.next_eq, List.length_append]
  omega

/-- A reply without data is the last one. -/
theorem short (h : Supplied d s got t) (hcapacity : d.capacity = s.stream.capacity)
    (hsize : size = d.size (d.need - got.length)) (hless : got.length < d.need)
    (hu : Stream.Replied source target size reply t u) (hreply : reply.data = []) :
    ∃ calls, s.Called calls u ∧ d.Supply calls got := by
  obtain ⟨calls, hcalled, hrow⟩ := h.row
  have hcall := hu.called
  rw [h.ask_eq hcapacity hsize] at hcall
  exact ⟨_, hcalled.trans hcall, .short _ hrow hless hreply⟩

/-- Nothing is read beyond what is needed. -/
theorem full (h : Supplied d s got t) (hfull : d.need ≤ got.length) :
    ∃ calls, s.Called calls t ∧ d.Supply calls got := by
  obtain ⟨calls, hcalled, hrow⟩ := h.row
  exact ⟨calls, hcalled, .full hrow hfull⟩

end Session.Supplied

end ChunkGuard
