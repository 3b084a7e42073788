import ChunkGuard.Proofs.Balance
import ChunkGuard.Proofs.Provenance
import ChunkGuard.Source.Script

/-!
# What a fetch says to its source

A fetch reads its source at one position. As long as a reply fails its checksums, it asks for another
copy there and reads again with the same request (`Stream.Rounds`), and the last reply decides what
becomes of the fetch (`Stream.Closing`). This holds of every source that keeps the stream's position a
start of a chunk, whatever it replies (`Stream.ends_fetchWith_conversed`).
-/

namespace ChunkGuard

open Session

variable {σ : Type}

namespace Stream

/-- The checksums held after a reply that brought some. -/
def holding (s : Stream) (held sums : Bytes) : Bytes :=
  if s.needsChecksum then Bytes.write 0 (sums.take held.length) held else held

/-- So many rounds of a fetch, from some checksums held to others. In a round a reply fails against the
checksums held, and there is another copy. -/
inductive Rounds (s : Stream) (size : Nat) : Nat → Bytes → List (Call σ) → Bytes → Prop where
  | nil (held : Bytes) : Rounds s size 0 held [] held
  | cons {rounds : Nat} {held held' data sums : Bytes} {mismatch : Mismatch} {calls : List (Call σ)}
      (x y : σ) :
      data ≠ [] → s.HasSums data.length →
      s.verdict (s.holding held sums) data = some mismatch →
      Rounds s size rounds (s.holding held sums) calls held' →
      Rounds s size (rounds + 1) held
        (.read x (s.ask size) (.ok (.chunk data sums)) :: .switch y s.next true :: calls) held'

/-- The last calls of a fetch with so many attempts left after them, with what the fetch gives for them
and the checksums held at the end. -/
inductive Closing (s : Stream) (size left : Nat) (held : Bytes) :
    List (Call σ) → Except StreamError (Option Bytes) → Bytes → Prop where
  | refused (x : σ) (e : StreamError) :
      Closing s size left held [.read x (s.ask size) (.error e)] (.error e) held
  | ended (x : σ) (below : Nat) :
      Closing s size left held [.read x (s.ask size) (.ok (.ended below))] (.ok none) held
  | empty (x : σ) (sums : Bytes) :
      Closing s size left held [.read x (s.ask size) (.ok (.chunk [] sums))] (.ok none)
        (s.holding held sums)
  | crowded {data : Bytes} (x : σ) (sums : Bytes) :
      data ≠ [] → ¬ s.HasSums data.length →
      Closing s size left held [.read x (s.ask size) (.ok (.chunk data sums))] (.error .expectation)
        (s.holding held sums)
  | passed {data sums : Bytes} (x : σ) :
      data ≠ [] → s.HasSums data.length → s.verdict (s.holding held sums) data = none →
      Closing s size left held [.read x (s.ask size) (.ok (.chunk data sums))] (.ok (some data))
        (s.holding held sums)
  | exhausted {data sums : Bytes} {mismatch : Mismatch} (x : σ) :
      data ≠ [] → s.HasSums data.length →
      s.verdict (s.holding held sums) data = some mismatch → left = 0 →
      Closing s size left held [.read x (s.ask size) (.ok (.chunk data sums))]
        (.error (.corrupted s.name mismatch)) (s.holding held sums)
  | alone {data sums : Bytes} {mismatch : Mismatch} (x y : σ) :
      data ≠ [] → s.HasSums data.length →
      s.verdict (s.holding held sums) data = some mismatch → left ≠ 0 →
      Closing s size left held
        [.read x (s.ask size) (.ok (.chunk data sums)), .switch y s.next false]
        (.error (.corrupted s.name mismatch)) (s.holding held sums)

/-- The bytes that a fetch gives. -/
def given : Except StreamError (Option Bytes) → Bytes
  | .ok (some data) => data
  | _ => []

/-- A fetch of at most so many attempts, from where its session was to where it ended. -/
structure Conversed (S : σ → σ → Prop) (target : Target) (size attempts : Nat)
    (s : Session (Recorded σ)) (result : Except StreamError (Option Bytes))
    (t : Session (Recorded σ)) : Prop where
  calls : ∃ rounds left held opening closing,
    rounds + left + 1 = attempts ∧
    t.source.calls = s.source.calls ++ (opening ++ closing) ∧
    s.stream.Rounds size rounds s.stream.sums opening held ∧
    s.stream.Closing size left held closing result t.stream.sums
  stream : s.stream.Alike t.stream
  source : S s.source.state t.source.state
  filled : t.stream.filled = 0
  cursor : t.stream.cursor = 0
  next_eq : t.stream.next = s.stream.next + (given result).length
  le_size : (given result).length ≤ size
  bytes : ∀ i < (given result).length, target.byteAt i t = (given result)[i]?
  spares : target.Room size s → target.Spares s t

/-- What a fetch relies on. The source keeps to the size of the request, and where it gives chunks to be
verified, the stream's position stays a start of a chunk after a look for another copy. -/
structure Relies (source : Source σ) (S : σ → σ → Prop) (size : Nat) (stream : Stream) (x : σ) :
    Prop where
  respects : source.Respects S
  le_size : ∀ y data sums z, S x y → source.read (stream.ask size) y = .ok (.chunk data sums) z →
    data.length ≤ size
  start_eq : ∀ y data sums z, S x y → source.read (stream.ask size) y = .ok (.chunk data sums) z →
    data ≠ [] → stream.needsChecksum →
    source.start (source.switch stream.next z).2 stream.next = stream.next

/-! ## Streams that say the same -/

section Alike

variable {s t : Stream} {size : Nat} (h : s.Alike t) (hnext : t.next = s.next)
include h

theorem Alike.holding (held sums : Bytes) : t.holding held sums = s.holding held sums := by
  rw [Stream.holding, Stream.holding, h.needsChecksum]

theorem Alike.hasSums_iff : t.HasSums size ↔ s.HasSums size := by
  rw [HasSums, HasSums, h.needsChecksum, h.maxChunk, h.room]

include hnext

theorem Alike.ask (size : Nat) : t.ask size = s.ask size := by
  rw [Stream.ask, Stream.ask, hnext, h.capacity]

theorem Alike.verdict (held data : Bytes) : t.verdict held data = s.verdict held data := by
  rw [Stream.verdict, Stream.verdict, h.needsChecksum, h.checksum, h.maxChunk, hnext]

theorem Rounds.alike {rounds : Nat} {held held' : Bytes} {calls : List (Call σ)}
    (ht : t.Rounds size rounds held calls held') : s.Rounds size rounds held calls held' := by
  induction ht with
  | nil held => exact .nil held
  | cons x y hdata hsums hverdict _ ih =>
      rw [h.ask hnext, hnext]
      rw [h.holding, h.verdict hnext] at hverdict
      rw [h.holding] at ih
      exact .cons x y hdata (h.hasSums_iff.mp hsums) hverdict ih

theorem Closing.alike {left : Nat} {held held' : Bytes} {calls : List (Call σ)}
    {result : Except StreamError (Option Bytes)}
    (ht : t.Closing size left held calls result held') :
    s.Closing size left held calls result held' := by
  have hask := h.ask hnext size
  cases ht with
  | refused x e => exact hask ▸ .refused x e
  | ended x below => exact hask ▸ .ended x below
  | empty x sums => exact hask ▸ h.holding held sums ▸ .empty x sums
  | crowded x sums hdata hsums =>
      exact hask ▸ h.holding held sums ▸ .crowded x sums hdata fun hs => hsums (h.hasSums_iff.mpr hs)
  | @passed data sums x hdata hsums hverdict =>
      rw [h.verdict hnext, h.holding] at hverdict
      exact hask ▸ h.holding held sums ▸ .passed x hdata (h.hasSums_iff.mp hsums) hverdict
  | @exhausted data sums mismatch x hdata hsums hverdict hleft =>
      rw [h.verdict hnext, h.holding] at hverdict
      rw [h.name, hask, h.holding]
      exact .exhausted x hdata (h.hasSums_iff.mp hsums) hverdict hleft
  | @alone data sums mismatch x y hdata hsums hverdict hleft =>
      rw [h.verdict hnext, h.holding] at hverdict
      rw [h.name, hask, h.holding, hnext]
      exact .alone x y hdata (h.hasSums_iff.mp hsums) hverdict hleft

end Alike

/-! ## One attempt -/

section Attempts

variable {S : σ → σ → Prop} {source : Source σ} {target : Target} {size : Nat}
  {s t u : Session (Recorded σ)}

theorem sums_received {data sums : Bytes} {x : Recorded σ} :
    (s.received target data sums x).stream.sums = s.stream.holding s.stream.sums sums := by
  cases target <;> rfl

theorem mismatch?_received_eq {data sums : Bytes} {x : Recorded σ} :
    (s.received target data sums x).stream.mismatch? data =
      s.stream.verdict (s.stream.holding s.stream.sums sums) data := by
  cases target <;> rfl

theorem next_received {data sums : Bytes} {x : Recorded σ} :
    (s.received target data sums x).stream.next = s.stream.next := by
  cases target <;> rfl

/-- A session built like it at the same position relies on the same, wherever the source went. -/
theorem Relies.alike {x y : σ} {stream stream' : Stream} (h : Relies source S size stream x)
    (hstream : stream.Alike stream') (hnext : stream'.next = stream.next) (hxy : S x y) :
    Relies source S size stream' y where
  respects := h.respects
  le_size z data sums z' hz hread := by
    rw [hstream.ask hnext] at hread
    exact h.le_size z data sums z' (h.respects.trans hxy hz) hread
  start_eq z data sums z' hz hread hdata hneeds := by
    rw [hstream.ask hnext] at hread
    rw [hstream.needsChecksum] at hneeds
    rw [hnext]
    exact h.start_eq z data sums z' (h.respects.trans hxy hz) hread hdata hneeds

/-- What an attempt leaves of the session that made it, apart from what came. -/
theorem Tried.frame (hrelies : Relies source S size s.stream s.source.state)
    {r : Except StreamError Attempt} (h : Tried source.recorded target size s r t) :
    s.stream.Alike t.stream ∧ S s.source.state t.source.state ∧
      (target.Room size s → target.Spares s t) := by
  have hkept := h.kept hrelies.respects.recorded (.refl hrelies.respects.recorded s)
  refine ⟨hkept.stream, hkept.source, fun hroom => ?_⟩
  have hput : ∀ data sums x,
      source.recorded.read (s.stream.ask size) s.source = .ok (.chunk data sums) x →
      target.Spares s (target.put data s) := by
    intro data sums x hread
    obtain ⟨y, hy, -⟩ := Source.read_recorded_eq_ok.mp hread
    exact Target.spares_put hroom (hrelies.le_size _ _ _ _ (hrelies.respects.refl _) hy)
  cases h with
  | refused e x hread => exact .refl target s
  | ended below x hread => exact .refl target s
  | empty sums x hread => cases target <;> exact hput _ _ _ hread
  | crowded data sums x hread => cases target <;> exact hput _ _ _ hread
  | passed data sums x hread => cases target <;> exact hput _ _ _ hread
  | damaged data sums x mismatch hread => cases target <;> exact hput _ _ _ hread

theorem calls_received {data sums : Bytes} {call : Call σ} {y : σ} :
    (s.received target data sums (s.source.push call y)).source.calls =
      s.source.calls ++ [call] := by
  cases target <;> rfl

/-- A reply that says that the data has ended closes a fetch. -/
theorem Tried.closing_of_ended (h : Tried source.recorded target size s (.ok .ended) t) (left : Nat) :
    ∃ closing, t.source.calls = s.source.calls ++ closing ∧
      s.stream.Closing size left s.stream.sums closing (.ok none) t.stream.sums ∧
      t.stream.next = s.stream.next := by
  cases h with
  | ended below x hread =>
      obtain ⟨y, -, rfl⟩ := Source.read_recorded_eq_ok.mp hread
      exact ⟨_, rfl, .ended _ below, rfl⟩
  | empty sums x hread =>
      obtain ⟨y, -, rfl⟩ := Source.read_recorded_eq_ok.mp hread
      exact ⟨_, calls_received, sums_received ▸ .empty _ sums, next_received⟩

/-- A reply that passes closes a fetch, and its bytes are then where they go. -/
theorem Tried.closing_of_passed (hrelies : Relies source S size s.stream s.source.state)
    {count : Nat} (h : Tried source.recorded target size s (.ok (.passed count)) t) (left : Nat) :
    ∃ closing data, count = data.length ∧ data.length ≤ size ∧
      t.source.calls = s.source.calls ++ closing ∧
      s.stream.Closing size left s.stream.sums closing (.ok (some data)) t.stream.sums ∧
      t.stream.next = s.stream.next + data.length ∧
      ∀ i < data.length, target.byteAt i t = data[i]? := by
  cases h with
  | passed data sums x hread hdata hsums hmismatch =>
      obtain ⟨y, hy, rfl⟩ := Source.read_recorded_eq_ok.mp hread
      rw [mismatch?_received_eq] at hmismatch
      have hle := hrelies.le_size _ _ _ _ (hrelies.respects.refl _) hy
      have hcalls : (s.received target data sums (s.source.push
          (.read s.source.state (s.stream.ask size) (.ok (.chunk data sums))) y)).source.calls =
          s.source.calls ++ [.read s.source.state (s.stream.ask size) (.ok (.chunk data sums))] :=
        calls_received
      refine ⟨_, data, rfl, hle, hcalls, ?_, ?_, fun i hi => ?_⟩
      · exact sums_received (s := s) ▸ .passed _ hdata hsums hmismatch
      · exact congrArg (· + (data.length : Int)) next_received
      · have hput : target.byteAt i (target.put data s) = data[i]? := Target.byteAt_put hi
        rw [← hput]
        cases target <;> rfl

/-- An error closes a fetch. -/
theorem Tried.closing_of_error {e : StreamError}
    (h : Tried source.recorded target size s (.error e) t) (left : Nat) :
    ∃ closing, t.source.calls = s.source.calls ++ closing ∧
      s.stream.Closing size left s.stream.sums closing (.error e) t.stream.sums ∧
      t.stream.next = s.stream.next := by
  cases h with
  | refused e x hread =>
      obtain ⟨y, -, rfl⟩ := Source.read_recorded_eq_error.mp hread
      exact ⟨_, rfl, .refused _ e, rfl⟩
  | crowded data sums x hread hdata hsums =>
      obtain ⟨y, -, rfl⟩ := Source.read_recorded_eq_ok.mp hread
      exact ⟨_, calls_received, sums_received ▸ .crowded _ sums hdata hsums, next_received⟩

/-- A reply that fails leaves its checksums to be held. -/
theorem Tried.damaged_reply {data : Bytes} {mismatch : Mismatch}
    (h : Tried source.recorded target size s (.ok (.damaged data mismatch)) t) :
    ∃ sums, source.read (s.stream.ask size) s.source.state = .ok (.chunk data sums) t.source.state ∧
      t.source.calls = s.source.calls ++
        [.read s.source.state (s.stream.ask size) (.ok (.chunk data sums))] ∧
      data ≠ [] ∧ s.stream.HasSums data.length ∧
      s.stream.verdict (s.stream.holding s.stream.sums sums) data = some mismatch ∧
      t.stream.sums = s.stream.holding s.stream.sums sums := by
  cases h with
  | damaged data sums x mismatch hread hdata hsums hmismatch =>
      obtain ⟨y, hy, rfl⟩ := Source.read_recorded_eq_ok.mp hread
      rw [mismatch?_received_eq] at hmismatch
      exact ⟨sums, by rw [source_received]; exact hy, calls_received, hdata, hsums, hmismatch,
        sums_received⟩

/-! ## The attempts of a fetch -/

theorem Target.Spares.of_lent (h : target.Spares s t) (hlent : u.lent = t.lent) :
    target.Spares s u := by
  cases target <;> simpa only [Target.Spares, hlent] using h

/-- A fetch that its first reply decides. What it does afterwards changes only the source and the
log. -/
theorem Conversed.of_tried (hrelies : Relies source S size s.stream s.source.state)
    (hfilled : s.stream.filled = 0) (hcursor : s.stream.cursor = 0)
    {r : Except StreamError Attempt} (h : Tried source.recorded target size s r t)
    (hstream : u.stream = t.stream) (hlent : u.lent = t.lent)
    (hsource : S t.source.state u.source.state) {left : Nat} {closing : List (Call σ)}
    {result : Except StreamError (Option Bytes)}
    (hcalls : u.source.calls = s.source.calls ++ closing)
    (hclosing : s.stream.Closing size left s.stream.sums closing result t.stream.sums)
    (hnext : t.stream.next = s.stream.next + (given result).length)
    (hle : (given result).length ≤ size)
    (hbytes : ∀ i < (given result).length, target.byteAt i u = (given result)[i]?) :
    Conversed S target size (left + 1) s result u where
  calls := ⟨0, left, _, [], closing, by omega, hcalls, .nil _, hstream ▸ hclosing⟩
  stream := hstream ▸ (h.frame hrelies).1
  source := hrelies.respects.trans (h.frame hrelies).2.1 hsource
  filled := hstream ▸ h.bounds.1.trans hfilled
  cursor := hstream ▸ h.bounds.2.1.trans hcursor
  next_eq := hstream ▸ hnext
  le_size := hle
  bytes := hbytes
  spares hroom := ((h.frame hrelies).2.2 hroom).of_lent hlent

/-- A fetch goes on after a reply that failed as one from there does. -/
theorem Conversed.again (hrelies : Relies source S size s.stream s.source.state)
    {data : Bytes} {mismatch : Mismatch} {left : Nat} {events : List Log.Event}
    {result : Except StreamError (Option Bytes)}
    (ht : Tried source.recorded target size s (.ok (.damaged data mismatch)) t)
    (hfound : (source.recorded.switch s.stream.next t.source).1.1 = true)
    (h : Conversed S target size left
      { t with source := (source.recorded.switch s.stream.next t.source).2, events } result u) :
    Conversed S target size (left + 1) s result u := by
  obtain ⟨halike, hsource, hspares⟩ := ht.frame hrelies
  have hnext := ht.bounds.2.2 data mismatch rfl
  obtain ⟨sums, -, hreply, hdata, hsums, hverdict, hheld⟩ := ht.damaged_reply
  -- The damaged reply and the look for another copy are one more round in front.
  obtain ⟨rounds, left', held, opening, closing, hleft, hcalls, hopening, hclosing⟩ := h.calls
  have hopening := hopening.alike halike hnext
  have hswitched : (source.recorded.switch s.stream.next t.source).2.calls =
      t.source.calls ++ [.switch t.source.state s.stream.next true] :=
    hfound ▸ rfl
  refine ⟨⟨rounds + 1, left', held, _, closing, by omega, ?_,
    .cons s.source.state t.source.state hdata hsums hverdict (hheld ▸ hopening),
    hclosing.alike halike hnext⟩, halike.trans h.stream, ?_, h.filled, h.cursor, ?_, h.le_size,
    h.bytes, fun hroom => ?_⟩
  · rw [hcalls, hswitched, hreply]
    simp
  · exact hrelies.respects.trans hsource (hrelies.respects.trans (hrelies.respects.switch _ _) h.source)
  · rw [h.next_eq, hnext]
  · have hspares := hspares hroom
    exact (hspares.of_lent rfl).trans (h.spares ((hspares.of_lent rfl).room hroom))

/-- What a fetch says and gives, if it isn't interrupted by fetches of its own. -/
theorem ends_attempt_conversed (hs : s.stream.Ready)
    (hrelies : Relies source S size s.stream s.source.state) (hfilled : s.stream.filled = 0)
    (hcursor : s.stream.cursor = 0) (nesting : Nat) {attempts : Nat} (hattempts : 0 < attempts) :
    Ends (attempt source.recorded (seekNested source.recorded nesting) target size attempts) s
      (fun count t => ∃ data, count = data.map List.length ∧
        Conversed S target size attempts s (.ok data) t)
      (fun e t => Conversed S target size attempts s (.error e) t) := by
  -- The induction is on the attempts left. What a fetch relies on holds again after another copy.
  induction attempts generalizing s with
  | zero => exact absurd hattempts (Nat.lt_irrefl 0)
  | succ left ih =>
      have hrefl := hrelies.respects.refl
      refine ends_attempt_succ hs ?ended ?passed ?failed ?last ?alone ?retried
      case ended =>
        intro t ht
        obtain ⟨closing, hcalls, hclosing, hnext⟩ := ht.closing_of_ended left
        exact ⟨none, rfl, .of_tried hrelies hfilled hcursor ht rfl rfl (hrefl _) hcalls hclosing
          (by simp [given, hnext]) (Nat.zero_le _) nofun⟩
      case passed =>
        intro count t ht
        obtain ⟨closing, data, rfl, hle, hcalls, hclosing, hnext, hbytes⟩ :=
          ht.closing_of_passed hrelies left
        exact ⟨some data, rfl, .of_tried hrelies hfilled hcursor ht rfl rfl (hrefl _) hcalls
          hclosing hnext hle hbytes⟩
      case failed =>
        intro e t ht
        obtain ⟨closing, hcalls, hclosing, hnext⟩ := ht.closing_of_error left
        exact .of_tried hrelies hfilled hcursor ht rfl rfl (hrefl _) hcalls hclosing
          (by simp [given, hnext]) (Nat.zero_le _) nofun
      case last =>
        intro hleft data mismatch t ht
        obtain ⟨sums, -, hreply, hdata, hsums, hverdict, hheld⟩ := ht.damaged_reply
        have hnext := ht.bounds.2.2 data mismatch rfl
        have hclosing : s.stream.Closing size left s.stream.sums
            [.read s.source.state (s.stream.ask size) (.ok (.chunk data sums))]
            (.error (.corrupted s.stream.name mismatch)) t.stream.sums := by
          rw [hheld]
          exact .exhausted _ hdata hsums hverdict hleft
        exact .of_tried (u := t.told [s.stream.corruption data]) hrelies hfilled hcursor ht rfl rfl
          (hrefl _) hreply hclosing (by simp [given, hnext]) (Nat.zero_le _) nofun
      case alone =>
        intro hleft data mismatch t ht hfound
        obtain ⟨sums, -, hreply, hdata, hsums, hverdict, hheld⟩ := ht.damaged_reply
        have hnext := ht.bounds.2.2 data mismatch rfl
        have hswitched : (source.recorded.switch s.stream.next t.source).2.calls =
            t.source.calls ++ [.switch t.source.state s.stream.next false] :=
          hfound ▸ rfl
        rw [hreply, List.append_assoc] at hswitched
        have hclosing : s.stream.Closing size left s.stream.sums
            [.read s.source.state (s.stream.ask size) (.ok (.chunk data sums)),
              .switch t.source.state s.stream.next false]
            (.error (.corrupted s.stream.name mismatch)) t.stream.sums := by
          rw [hheld]
          exact .alone _ _ hdata hsums hverdict hleft
        exact .of_tried (u := (t.told [s.stream.corruption data]).switched source.recorded
            s.stream.next) hrelies hfilled hcursor ht rfl rfl
          (hrelies.respects.switch s.stream.next t.source.state) hswitched hclosing
          (by simp [given, hnext]) (Nat.zero_le _) nofun
      case retried =>
        intro hleft data mismatch t ht hfound
        obtain ⟨sums, hread, -, hdata, -, hverdict, -⟩ := ht.damaged_reply
        obtain ⟨halike, hsource, -⟩ := ht.frame hrelies
        have hnext := ht.bounds.2.2 data mismatch rfl
        have hneeds : s.stream.needsChecksum := by
          refine Decidable.byContradiction fun hneeds => ?_
          rw [verdict_of_not_needsChecksum (Bool.eq_false_iff.mpr hneeds)] at hverdict
          cases hverdict
        -- The other copy keeps the position a start of a chunk, so the seek to it does nothing.
        have hstart := hrelies.start_eq _ _ _ _ (hrefl _) hread hdata hneeds
        refine ends_seekNested_next (halike.ready hs) hnext.symm (hnext ▸ hstart)
          (ht.bounds.1.trans hfilled) (ht.bounds.2.1.trans hcursor) ?_
        have hrelies' := hrelies.alike halike hnext
          (hrelies.respects.trans hsource (hrelies.respects.switch s.stream.next _))
        refine (ih (s := ((t.told [s.stream.corruption data]).switched source.recorded
            s.stream.next).told [.switched s.stream.name s.stream.next left])
          (halike.ready hs) hrelies' (ht.bounds.1.trans hfilled) (ht.bounds.2.1.trans hcursor)
          (Nat.pos_of_ne_zero hleft)).mono ?_ ?_
        · rintro count u ⟨result, hcount, hu⟩
          exact ⟨result, hcount, .again hrelies ht hfound hu⟩
        · intro e u hu
          exact .again hrelies ht hfound hu

/-- What a fetch says and gives. -/
theorem ends_fetchWith_conversed (hs : s.stream.Ready) (hattempts : 0 < s.stream.attempts)
    (hrelies : Relies source S size s.stream s.source.state) (nesting : Nat) :
    Ends (fetchWith source.recorded (seekNested source.recorded nesting) target size) s
      (fun count t => ∃ data, count = data.map List.length ∧
        Conversed S target size s.stream.attempts s (.ok data) t)
      (fun e t => Conversed S target size s.stream.attempts s (.error e) t) := by
  have halike := s.alike_cleared
  have hfrom : ∀ result t, Conversed S target size s.stream.attempts s.cleared result t →
      Conversed S target size s.stream.attempts s result t := by
    intro result t h
    obtain ⟨rounds, left, held, opening, closing, hleft, hcalls, hopening, hclosing⟩ := h.calls
    refine ⟨⟨rounds, left, held, opening, closing, hleft, hcalls, hopening.alike halike rfl,
      hclosing.alike halike rfl⟩, halike.trans h.stream, h.source, h.filled, h.cursor, h.next_eq,
      h.le_size, h.bytes, fun hroom => ?_⟩
    have hspares := h.spares (by cases target <;> exact hroom)
    cases target <;> exact hspares
  rw [ends_fetchWith]
  refine (ends_attempt_conversed (s := s.cleared) (halike.ready hs)
    (hrelies.alike halike rfl (hrelies.respects.refl _)) rfl rfl nesting hattempts).mono ?_ ?_
  · rintro count t ⟨data, hcount, ht⟩
    exact ⟨data, hcount, hfrom _ t ht⟩
  · exact fun e t ht => hfrom _ t ht

end Attempts

end Stream

/-! ## Any source -/

/-- Where the answers of a source may lead its state. -/
inductive Source.Leads (source : Source σ) (x : σ) : σ → Prop where
  | refl : Leads source x x
  | answered {y z : σ} (request : Request) (reply : Reply) :
      Leads source x y → source.read request y = .ok reply z → Leads source x z
  | refused {y z : σ} (request : Request) (e : StreamError) :
      Leads source x y → source.read request y = .error e z → Leads source x z
  | switched {y : σ} (position : Int) :
      Leads source x y → Leads source x (source.switch position y).2

theorem Source.Leads.trans {source : Source σ} {x y z : σ} (h : source.Leads x y)
    (h' : source.Leads y z) : source.Leads x z := by
  induction h' with
  | refl => exact h
  | answered request reply _ hread ih => exact .answered request reply ih hread
  | refused request e _ hread ih => exact .refused request e ih hread
  | switched position _ ih => exact .switched position ih

theorem Source.respects_leads (source : Source σ) : source.Respects source.Leads where
  refl x := .refl
  trans h h' := h.trans h'
  read request x := by
    cases hread : source.read request x with
    | ok reply y => exact .of_ok hread (.answered request reply .refl hread)
    | error e y => exact .of_error hread (.refused request e .refl hread)
  switch position x := .switched position .refl

/-- The relation leads nowhere that any relation respected by the answers doesn't. -/
theorem Source.Leads.respected {source : Source σ} {S : σ → σ → Prop} {x y : σ}
    (h : source.Leads x y) (hS : source.Respects S) : S x y := by
  induction h with
  | refl => exact hS.refl x
  | answered request reply _ hread ih => exact hS.trans ih ((hS.read request _).ok hread)
  | refused request e _ hread ih => exact hS.trans ih ((hS.read request _).error hread)
  | switched position _ ih => exact hS.trans ih (hS.switch position _)

/-- What a stream that verifies finds about bytes, among checksums that it holds: nothing if all chunks of
the bytes pass, and otherwise the first one that doesn't. -/
theorem Stream.verdict_iff {s : Stream} {c : Checksum} (hneeds : s.needsChecksum)
    (hc : s.checksum = some c) (hpos : 0 < s.maxChunk) (held : Bytes) {data : Bytes}
    (hdata : data.length + s.maxChunk ≤ Word.count) :
    (s.verdict held data = none ↔
      ∀ i, i * s.maxChunk < data.length → Chunk.Passes c.algorithm s.maxChunk held data i) ∧
    ∀ mismatch, s.verdict held data = some mismatch ↔
      ∃ i, i * s.maxChunk < data.length ∧ ¬ Chunk.Passes c.algorithm s.maxChunk held data i ∧
        (∀ j < i, Chunk.Passes c.algorithm s.maxChunk held data j) ∧
        mismatch = ⟨s.next + (i * s.maxChunk : Nat), Stored.loadAt i held,
          c.algorithm.sum (Bytes.slice (i * s.maxChunk) s.maxChunk data)⟩ := by
  refine ⟨?_, fun mismatch => ?_⟩
  · simp only [verdict_eq_none hneeds hc, Chunk.lt_count_iff hpos hdata]
  · rw [verdict_eq hneeds hc, Option.map_eq_some_iff]
    simp only [Chunk.firstFailing_eq_some, Chunk.lt_count_iff hpos hdata]
    constructor
    · rintro ⟨i, ⟨hi, hfails, hbefore⟩, rfl⟩
      exact ⟨i, hi, hfails, hbefore, rfl⟩
    · rintro ⟨i, hi, hfails, hbefore, rfl⟩
      exact ⟨i, ⟨hi, hfails, hbefore⟩, rfl⟩

/-- A fetch of a stream that verifies, from the start of a chunk, of any source that replies with no more
than it is asked for and no more than a read may bring. The source may fail, and it may give any bytes
and checksums. The fetch asks for its chunks, again after each look for another copy that a damaged
reply made it take, and no more often than its attempts allow. Its last reply says what it gives, and
the stream stays where it was unless bytes passed. The checksums held always have room for a reply,
and what is found about it is its first chunk that differs from the checksum held for it. -/
theorem fetch_converses {source : Source σ} {a : Algorithm} {options : Options} {stream : Stream}
    {x : σ} {s t : Session (Recorded σ)} {target : Stream.Target} {nesting size : Nat}
    (hstream : Stream.ofOptions? (some a) options = .ok stream)
    (hchunk : options.maxChunk < Word.half)
    (ht : Session.Reaches source.recorded (fun _ => True) (fun _ _ => True)
      { stream, source := { state := x } } t)
    (hs : t.Kept (fun _ _ => True) s) (hneeds : s.stream.needsChecksum)
    (hreplies : ∀ y data sums z, source.Leads s.source.state y →
      source.read (s.stream.ask size) y = .ok (.chunk data sums) z →
      data.length ≤ min size (chunksPerRead * options.maxChunk))
    (hstart : ∀ y, source.Leads s.source.state y → source.start y s.stream.next = s.stream.next)
    (hsize : size < Word.half) :
    Ends (Stream.fetchWith source.recorded (Stream.seekNested source.recorded nesting) target size) s
      (fun count u => ∃ data, count = data.map List.length ∧
        Stream.Conversed source.Leads target size options.attempts s (.ok data) u)
      (fun e u => Stream.Conversed source.Leads target size options.attempts s (.error e) u) ∧
    ∀ data : Bytes, data.length ≤ min size (chunksPerRead * options.maxChunk) →
      s.stream.HasSums data.length ∧
      ∀ held,
        (s.stream.verdict held data = none ↔
          ∀ i, i * options.maxChunk < data.length →
            Chunk.Passes a options.maxChunk held data i) ∧
        ∀ mismatch, s.stream.verdict held data = some mismatch ↔
          ∃ i, i * options.maxChunk < data.length ∧
            ¬ Chunk.Passes a options.maxChunk held data i ∧
            (∀ j < i, Chunk.Passes a options.maxChunk held data j) ∧
            mismatch = ⟨s.stream.next + (i * options.maxChunk : Nat), Stored.loadAt i held,
              a.sum (Bytes.slice (i * options.maxChunk) options.maxChunk data)⟩ := by
  obtain ⟨hpos, hattempts, hbuilt⟩ := Stream.eq_of_ofOptions? hstream
  have hready := Stream.ready_of_ofOptions? hstream
  obtain ⟨verify, hkept⟩ := ht.kept source.recorded.respects_true (fun _ _ _ => trivial) hready
  have halike := hkept.stream.trans hs.stream
  have hmaxChunk : s.stream.maxChunk = options.maxChunk := by rw [halike.maxChunk, hbuilt]
  have hchecksum : s.stream.checksum = some (.ofAlgorithm a) := by
    rw [halike.checksum, hbuilt]
    rfl
  have hroom : s.stream.sums.length = chunksPerRead * sumWidth := by
    rw [halike.room, hbuilt]
    exact Bytes.length_zeros _
  have hhalf : Word.half + Word.half = Word.count := rfl
  refine ⟨?_, fun data hdata => ?_⟩
  · have hrelies : Stream.Relies source source.Leads size s.stream s.source.state := by
      refine ⟨source.respects_leads, fun y data sums z hy hread => ?_, fun y _ _ z hy hread _ _ => ?_⟩
      · exact Nat.le_trans (hreplies y data sums z hy hread) (Nat.min_le_left _ _)
      · exact hstart _ (.switched _ (.answered _ _ hy hread))
    have hattempts' : s.stream.attempts = options.attempts := by rw [halike.attempts, hbuilt]
    rw [← hattempts']
    exact Stream.ends_fetchWith_conversed (halike.ready hready) (hattempts' ▸ hattempts) hrelies nesting
  · have hword : data.length + s.stream.maxChunk ≤ Word.count := by
      rw [hmaxChunk]
      omega
    have hverdict := fun held => Stream.verdict_iff hneeds hchecksum (hmaxChunk ▸ hpos) held hword
    rw [hmaxChunk] at hword hverdict
    refine ⟨fun _ => ?_, hverdict⟩
    rw [hmaxChunk, hroom]
    -- With more chunks than may be read at once, the last of them would begin past the data.
    refine Nat.mul_le_mul_right _ (Nat.le_of_not_lt fun hmore => ?_)
    have hlast := (Chunk.lt_count_iff hpos hword).mp hmore
    omega

/-- The answers of a script leave its alignment alone. -/
theorem Script.respects_start :
    Script.source.Respects fun y z => Script.source.start z = Script.source.start y where
  refl _ := rfl
  trans h h' := h'.trans h
  read request y := by
    obtain ⟨align, shift, replies, switches⟩ := y
    cases replies with
    | nil => rfl
    | cons reply rest => cases reply <;> rfl
  switch position y := by
    obtain ⟨align, shift, replies, switches⟩ := y
    cases switches <;> rfl

/-- The first reply is damaged, and after a look for another copy the second one passes. -/
theorem fetch_converses_after_damage :
    let sums := Stored.store (Algorithm.crc32.sum [1, 2])
    let x : Script :=
      { align := 2, replies := [.gives [1, 7] sums, .gives [1, 2] sums], switches := [true] }
    ∃ stream, Stream.ofOptions? (some .crc32) { maxChunk := 2, attempts := 2 } = .ok stream ∧
      Ends (Stream.fetchWith Script.source.recorded
          (Stream.seekNested Script.source.recorded 0) .window 2)
        { stream, source := { state := x } }
        (fun count u => count = some 2 ∧ u.stream.window = [1, 2] ∧ u.source.calls.length = 3 ∧
          ∃ data, count = data.map List.length ∧ Stream.Conversed Script.source.Leads .window 2 2
            { stream, source := { state := x } } (.ok data) u)
        (fun _ _ => False) := by
  intro sums x
  have hstream : Stream.ofOptions? (some .crc32) { maxChunk := 2, attempts := 2 } = .ok _ := rfl
  have hreplies : ∀ (stream : Stream) y data sums z,
      Script.source.read (stream.ask 2) y = .ok (.chunk data sums) z →
      data.length ≤ min 2 (chunksPerRead * 2) := by
    intro stream y data sums z hread
    have hle : data.length ≤ 2 := (Script.bounded_source _ _ _ _ _ hread).1
    exact Nat.le_min.mpr ⟨hle, Nat.le_trans hle (by decide)⟩
  have hconverses := (@fetch_converses _ Script.source .crc32 _ _ x _ _ .window 0 2 hstream
    (by decide) .refl (.refl Script.source.recorded.respects_true _) rfl
    (fun y data sums z _ hread => hreplies _ y data sums z hread)
    (fun y hy => by rw [hy.respected Script.respects_start]; rfl) (by decide)).1
  refine ⟨_, hstream, ?_⟩
  generalize hs : ({ stream := _, source := { state := x } } : Session (Recorded Script)) = s
    at hconverses ⊢
  have hruns : Ends (Stream.fetchWith Script.source.recorded
      (Stream.seekNested Script.source.recorded 0) .window 2) s
      (fun count u => count = some 2 ∧ u.stream.window = [1, 2] ∧ u.source.calls.length = 3)
      (fun _ _ => False) := by
    rw [← hs]
    decide +kernel
  refine (hruns.and hconverses).mono (fun count u hu => ?_) (fun _ _ hu => hu.1)
  exact ⟨hu.1.1, hu.1.2.1, hu.1.2.2, hu.2⟩

end ChunkGuard
