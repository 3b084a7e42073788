import ChunkGuard.Proofs.Comparison
import ChunkGuard.Proofs.Ends
import ChunkGuard.Stream.Operation

/-!
# One attempt at the source

`Stream.Tried` lists what a single attempt can come to, each case with the reply that leads to it
and the session that it leaves. `Stream.tried` says that there is no other. Every statement about
fetches rests on it, so nothing else takes the attempt apart again. The rules of the first section
take programs of a stream apart, its two loops by an invariant of their turns.
-/

namespace ChunkGuard

open Session

variable {σ : Type}

/-- The session with an empty window. -/
def Session.cleared (s : Session σ) : Session σ :=
  { s with stream := { s.stream with filled := 0, cursor := 0 } }

/-- The session after its stream has left the window for another position of the source. -/
def Session.jumped (next : Int) (s : Session σ) : Session σ :=
  { s with
    stream := { s.stream with
      filled := 0, cursor := 0, next, checksum := s.stream.checksum.map Checksum.reset } }

/-- The session after it handed out to nobody what is left of its window, or `size` bytes of it. -/
def Session.discarded (size : Int) (s : Session σ) : Session σ :=
  { s with
    stream := { s.stream with
      cursor := ((s.stream.cursor : Int) +
        min ((s.stream.filled : Int) - s.stream.cursor) size).toNat } }

theorem Session.cursor_discarded_le (s : Session σ) (size : Int) :
    (s.discarded size).stream.cursor ≤ s.stream.filled := by
  show ((s.stream.cursor : Int) + min ((s.stream.filled : Int) - s.stream.cursor) size).toNat ≤
    s.stream.filled
  omega

theorem Session.position_discarded (s : Session σ) {size : Int} (hsize : 0 ≤ size) :
    (s.discarded size).stream.position =
      s.stream.position + min ((s.stream.filled : Int) - s.stream.cursor) size := by
  show s.stream.next - ((s.stream.filled : Int) - (((s.stream.cursor : Int) +
    min ((s.stream.filled : Int) - s.stream.cursor) size).toNat : Nat)) = _
  rw [Stream.position]
  omega

/-! ## Rules for programs of a stream -/

section Rules

variable {source : Source σ} {s : Session σ} {E : StreamError → Session σ → Prop}
  {Q : Unit → Session σ → Prop}

@[simp] theorem Session.ends_getStream {Q : Stream → Session σ → Prop} :
    Ends getStream s Q E ↔ Q s.stream s := Iff.rfl

@[simp] theorem Session.ends_modifyStream {f : Stream → Stream} :
    Ends (modifyStream f) s Q E ↔ Q () { s with stream := f s.stream } := Iff.rfl

@[simp] theorem Session.ends_tell {events : List Log.Event} :
    Ends (tell events) s Q E ↔ Q () { s with events := s.events ++ events } := Iff.rfl

@[simp] theorem Session.ends_request {r : Request} {Q : Reply → Session σ → Prop} :
    Ends (request source r) s Q E ↔
      Ends (source.read r) s.source (fun reply x => Q reply { s with source := x })
        (fun e x => E e { s with source := x }) := ends_focus

@[simp] theorem Session.ends_switch {position : Int} {Q : Bool → Session σ → Prop} :
    Ends (switch source position) s Q E ↔
      Q (source.switch position s.source).1.1
        { s with
          source := (source.switch position s.source).2
          events := s.events ++ (source.switch position s.source).1.2 } := Iff.rfl

@[simp] theorem Stream.ends_clear : Ends Stream.clear s Q E ↔ Q () s.cleared := Iff.rfl

@[simp] theorem Stream.ends_copy {offset size : Nat} :
    Ends (Stream.copy offset size) s Q E ↔
      Q () { s with
        lent := Bytes.write offset (Bytes.padded s.stream.cursor size s.stream.window) s.lent
        stream := { s.stream with cursor := s.stream.cursor + size } } := Iff.rfl

@[simp] theorem Operation.ends_lend {buffer : Bytes} :
    Ends (Operation.lend buffer) s Q E ↔ Q () { s with lent := buffer } := Iff.rfl

@[simp] theorem Stream.ends_fetchWith {reseek : Int → StreamM σ Unit} {target : Stream.Target}
    {size : Nat} {Q : Option Nat → Session σ → Prop} :
    Ends (fetchWith source reseek target size) s Q E ↔
      Ends (attempt source reseek target size s.stream.attempts) s.cleared Q E := by
  simp only [fetchWith, ends_bind, ends_clear, ends_getStream, Session.cleared]

@[simp] theorem Stream.ends_fetchLent {offset size : Nat} {Q : Option Nat → Session σ → Prop} :
    Ends (fetchLent source offset size) s Q E ↔
      Ends (fetchWith source (seekNested source (s.stream.nesting + 1)) (.lent offset) size) s Q E := by
  simp only [fetchLent, ends_bind, ends_getStream]

@[simp] theorem Stream.ends_fill :
    Ends (fill source) s Q E ↔ Ends (refill source (s.stream.nesting + 2)) s Q E := by
  simp only [fill, ends_bind, ends_getStream]

@[simp] theorem Stream.ends_seek {position : Int} :
    Ends (seek source position) s Q E ↔
      Ends (seekNested source (s.stream.nesting + 2) position) s Q E := by
  simp only [seek, ends_bind, ends_getStream]

/-- The window is filled only when it is used up. -/
theorem Stream.ends_refill_succ {nesting : Nat} :
    Ends (refill source (nesting + 1)) s Q E ↔
      (s.stream.cursor < s.stream.filled → E .expectation s) ∧
        (¬ s.stream.cursor < s.stream.filled →
          Ends (fetchWith source (seekNested source nesting) .window s.stream.maxChunk) s
            (fun count t => Q () { t with stream := { t.stream with filled := count.getD 0 } }) E) := by
  have hseek : seekNested source nesting = seekWith source (refill source nesting) := rfl
  simp only [refill, fillWith, hseek, ends_bind, ends_getStream, ends_ite, ends_throw,
    ends_modifyStream]

/-- A seek stays in the window if it can. Otherwise it discards what is before the position in its
chunk. -/
theorem Stream.ends_seekWith {fill : StreamM σ Unit} {position : Int} :
    Ends (seekWith source fill position) s Q E ↔
      (position < 0 → Q () s) ∧
        (¬ position < 0 →
          (s.stream.next - s.stream.filled ≤ position ∧ position < s.stream.next →
            Q () { s with
              stream := { s.stream with
                cursor := (position - (s.stream.next - s.stream.filled)).toNat } }) ∧
          (¬ (s.stream.next - s.stream.filled ≤ position ∧ position < s.stream.next) →
            (position < source.start s.source position →
              E .expectation (s.jumped (source.start s.source position))) ∧
            (¬ position < source.start s.source position →
              Ends (discardWith fill
                  (s.stream.discardFuel (position - source.start s.source position))
                  (position - source.start s.source position))
                (s.jumped (source.start s.source position)) Q E))) := by
  simp only [seekWith, ends_ite, ends_bind, ends_pure, ends_getStream, ends_modifyStream, ends_get,
    ends_throw, Session.jumped]

/-- The loop rule for discarding. `I` holds before every turn, of the fuel and of what is left to
discard. `J` holds within a turn, between filling the window and handing out of it. -/
theorem Stream.ends_discardWith_of_turns {fill : StreamM σ Unit}
    {I J : Nat → Int → Session σ → Prop}
    (done : ∀ fuel size t, I fuel size t → size ≤ 0 → Q () t)
    (spent : ∀ size t, I 0 size t → 0 < size → E .nestedTooDeep t)
    (unused : ∀ fuel size t, I (fuel + 1) size t → 0 < size →
      t.stream.cursor < t.stream.filled → J fuel size t)
    (used : ∀ fuel size t, I (fuel + 1) size t → 0 < size → t.stream.filled ≤ t.stream.cursor →
      Ends fill t (fun _ u => (u.stream.filled = 0 → Q () u) ∧
        (u.stream.filled ≠ 0 → J fuel size u)) E)
    (step : ∀ fuel size t, J fuel size t →
      I fuel (size - min ((t.stream.filled : Int) - t.stream.cursor) size) (t.discarded size))
    {fuel : Nat} {size : Int} (h : I fuel size s) : Ends (discardWith fill fuel size) s Q E := by
  induction fuel generalizing s size with
  | zero =>
      simp only [discardWith, ends_ite, ends_throw, ends_pure]
      exact ⟨spent size s h, fun hsize => done 0 size s h (Int.not_lt.mp hsize)⟩
  | succ fuel ih =>
      simp only [discardWith, ends_ite, ends_bind, ends_pure, ends_getStream, ends_modifyStream]
      refine ⟨done _ size s h, fun hsize => ?_⟩
      have hpos : 0 < size := Int.not_le.mp hsize
      refine ⟨fun hused => ?_, fun hunused =>
        ih (step fuel size s (unused fuel size s h hpos (Nat.not_le.mp hunused)))⟩
      refine (used fuel size s h hpos hused).mono (fun _ u hu => ?_) (fun _ _ hu => hu)
      exact ⟨hu.1, fun hfilled => ih (step fuel size u (hu.2 hfilled))⟩

/-- Discarding keeps what filling the window and a step in it keep. -/
theorem Stream.keeps_discardWith_of_turns {fill : StreamM σ Unit} {I : Session σ → Prop}
    (hfill : Keeps I fill) (hstep : ∀ size t, I t → I (t.discarded size)) (fuel : Nat) (size : Int) :
    Keeps I (discardWith fill fuel size) := by
  intro s h
  refine ends_discardWith_of_turns (I := fun _ _ => I) (J := fun _ _ => I) (fun _ _ _ ht _ => ht)
    (fun _ _ ht _ => ht) (fun _ _ _ ht _ _ => ht) (fun _ _ t ht _ _ => ?_)
    (fun _ left t ht => hstep left t ht) h
  exact (hfill t ht).mono (fun _ _ hu => ⟨fun _ => hu, fun _ => hu⟩) (fun _ _ hu => hu)

/-- The loop rule for reading up to a size. `I` holds before every turn, of the fuel and of what was
read so far. -/
theorem Stream.ends_readUpTo_of_turns {offset size : Nat} {I : Nat → Nat → Session σ → Prop}
    {Q : Nat → Session σ → Prop} (spent : ∀ count t, I 0 count t → Q count t)
    (turn : ∀ fuel count t, I (fuel + 1) count t →
      Ends (readOnce source (offset + count) (size - count)) t
        (fun more u => (more = none → Q count u) ∧
          ∀ n, more = some n → (size ≤ count + n → Q (count + n) u) ∧
            (count + n < size → I fuel (count + n) u)) E)
    {fuel : Nat} (h : I fuel 0 s) : Ends (readUpTo source fuel offset size) s Q E := by
  -- What the loop returns counts from its own start, so the induction is on any turn of it.
  have hturns : ∀ fuel count t, I fuel count t →
      Ends (readUpTo source fuel (offset + count) (size - count)) t
        (fun more => Q (count + more)) E := by
    intro fuel
    induction fuel with
    | zero => exact spent
    | succ fuel ih =>
        intro count t ht
        simp only [readUpTo, ends_bind]
        refine (turn fuel count t ht).mono (fun more u hu => ?_) (fun _ _ hu => hu)
        cases more with
        | none => exact hu.1 rfl
        | some n =>
            obtain ⟨hfull, hmore⟩ := hu.2 n rfl
            simp only [ends_ite, ends_bind, ends_pure]
            refine ⟨fun hle => hfull (by omega), fun hless => ?_⟩
            have hrest := ih (count + n) u (hmore (by omega))
            rw [← Nat.add_assoc, Nat.sub_add_eq] at hrest
            exact hrest.mono (fun m v hv => Nat.add_assoc count n m ▸ hv) (fun _ _ hv => hv)
  have hall := hturns fuel 0 s h
  simp only [Nat.zero_add] at hall
  exact hall

/-- Reading up to a size keeps what every single read keeps. -/
theorem Stream.keeps_readUpTo_of_turns {I : Session σ → Prop}
    (honce : ∀ offset size, Keeps I (readOnce source offset size)) (fuel offset size : Nat) :
    Keeps I (readUpTo source fuel offset size) := by
  intro s h
  refine ends_readUpTo_of_turns (I := fun _ _ => I) (fun _ _ ht => ht) (fun _ count t ht => ?_) h
  exact (honce _ _ t ht).mono (fun _ _ hu => ⟨fun _ => hu, fun _ _ => ⟨fun _ => hu, fun _ => hu⟩⟩)
    (fun _ _ hu => hu)

end Rules

namespace Stream

/-- The running checksum, if there is one, has taken nothing. -/
def Ready (s : Stream) : Prop := ∀ c ∈ s.checksum, c.IsFresh

/-- A reset changes nothing about a ready stream's checksum. -/
theorem Ready.map_reset {s : Stream} (h : s.Ready) : s.checksum.map Checksum.reset = s.checksum := by
  cases hc : s.checksum with
  | none => rfl
  | some c => exact congrArg some (h c hc).reset_eq

/-- The number of bytes to hand out wraps as a word does. -/
theorem available_eq_mod {s : Stream} (h : s.cursor ≤ s.filled) :
    s.available = (s.filled - s.cursor) % Word.count := by
  have hsub : (s.filled : Int) - s.cursor = (s.filled - s.cursor : Nat) := by omega
  rw [available, Word.ofInt, hsub]
  rfl

/-- Checksums are asked for exactly where the stream verifies. -/
theorem isSome_capacity (s : Stream) : s.capacity.isSome = s.needsChecksum := by
  rw [capacity]
  cases s.needsChecksum <;> rfl

/-- What the stream asks its source for. -/
def ask (s : Stream) (size : Nat) : Request := ⟨s.next, size, s.capacity⟩

/-- The first chunk of the bytes that differs from its checksum, where the stream verifies. -/
def mismatch? (s : Stream) (bytes : Bytes) : Option Mismatch :=
  if s.needsChecksum then
    s.checksum.bind fun c =>
      (Chunk.firstFailing c.algorithm s.maxChunk s.sums bytes 0
        (Chunk.count bytes.length s.maxChunk)).map
        (Chunk.mismatchAt c.algorithm s.maxChunk s.sums bytes s.next)
  else none

/-- The checksums held are enough for so many bytes, where the stream verifies. -/
def HasSums (s : Stream) (size : Nat) : Prop :=
  s.needsChecksum → Chunk.count size s.maxChunk * sumWidth ≤ s.sums.length

end Stream

/-- The session after a reply with bytes, before these are compared. -/
def Session.received (target : Stream.Target) (data sums : Bytes) (x : σ) (s : Session σ) : Session σ :=
  let s := target.put data { s with source := x }
  { s with stream := s.stream.keeping sums }

/-- The session with events told to the log. -/
def Session.told (events : List Log.Event) (s : Session σ) : Session σ :=
  { s with events := s.events ++ events }

/-- The session after its source looked for another copy. -/
def Session.switched (source : Source σ) (position : Int) (s : Session σ) : Session σ :=
  { s with
    source := (source.switch position s.source).2
    events := s.events ++ (source.switch position s.source).1.2 }

/-- The session moved forward in its source. -/
def Session.advanced (count : Nat) (s : Session σ) : Session σ :=
  { s with stream := { s.stream with next := s.stream.next + count } }

namespace Stream

/-- What an attempt can come to. -/
inductive Tried (source : Source σ) (target : Target) (size : Nat) (s : Session σ) :
    Except StreamError Attempt → Session σ → Prop where
  | refused (e x) :
      source.read (s.stream.ask size) s.source = .error e x →
      Tried source target size s (.error e) { s with source := x }
  | ended (below x) :
      source.read (s.stream.ask size) s.source = .ok (.ended below) x →
      Tried source target size s (.ok .ended) { s with source := x }
  | empty (sums x) :
      source.read (s.stream.ask size) s.source = .ok (.chunk [] sums) x →
      Tried source target size s (.ok .ended) (s.received target [] sums x)
  | crowded (data sums x) :
      source.read (s.stream.ask size) s.source = .ok (.chunk data sums) x →
      data ≠ [] → ¬ s.stream.HasSums data.length →
      Tried source target size s (.error .expectation) (s.received target data sums x)
  | passed (data sums x) :
      source.read (s.stream.ask size) s.source = .ok (.chunk data sums) x →
      data ≠ [] → s.stream.HasSums data.length →
      (s.received target data sums x).stream.mismatch? data = none →
      Tried source target size s (.ok (.passed data.length))
        ((s.received target data sums x).advanced data.length)
  | damaged (data sums x mismatch) :
      source.read (s.stream.ask size) s.source = .ok (.chunk data sums) x →
      data ≠ [] → s.stream.HasSums data.length →
      (s.received target data sums x).stream.mismatch? data = some mismatch →
      Tried source target size s (.ok (.damaged data mismatch)) (s.received target data sums x)

section Rules

variable {s : Session σ} {E : StreamError → Session σ → Prop}

@[simp] theorem ends_deliver {target : Target} {bytes : Bytes} {Q : Unit → Session σ → Prop} :
    Ends (deliver target bytes) s Q E ↔ Q () (target.put bytes s) := Iff.rfl

@[simp] theorem ends_keepSums {sums : Bytes} {Q : Unit → Session σ → Prop} :
    Ends (keepSums sums) s Q E ↔ Q () { s with stream := s.stream.keeping sums } := Iff.rfl

/-- The comparison finds what `mismatch?` says, and it changes nothing about a ready stream. -/
theorem ends_compare (hs : s.stream.Ready) {bytes : Bytes} {Q : Option Mismatch → Session σ → Prop}
    (hQ : s.stream.HasSums bytes.length → Q (s.stream.mismatch? bytes) s)
    (hE : ¬ s.stream.HasSums bytes.length → E .expectation s) :
    Ends (Stream.compare bytes) s Q E := by
  simp only [Stream.compare, ends_bind, ends_getStream, ends_ite, ends_throw, ends_pure,
    Decidable.not_not]
  refine ⟨fun hneeds => ?_, fun hneeds => ⟨fun hfew => hE fun h => ?_, fun hroom => ?_⟩⟩
  · have hnone : s.stream.mismatch? bytes = none := by
      rw [mismatch?, if_neg hneeds]
    exact hnone ▸ hQ fun h => absurd h hneeds
  · exact Nat.not_le_of_lt hfew (h hneeds)
  · have hQ := hQ fun _ => Nat.le_of_not_lt hroom
    cases hc : s.stream.checksum with
    | none => simpa [mismatch?, hc] using hQ
    | some c =>
        have hcompare := compareChunks_eq (hs c hc) s.stream.maxChunk s.stream.sums bytes
          s.stream.next (Chunk.count bytes.length s.stream.maxChunk) 0
        rw [Nat.zero_mul, List.drop_zero] at hcompare
        have hsame : { s with stream := { s.stream with checksum := some c } } = s := by
          rw [← hc]
        simp only [ends_bind, ends_modifyStream, ends_pure, hcompare, hsame]
        simpa only [mismatch?, hneeds, hc, if_true, Option.bind_some] using hQ

end Rules

section Received

variable {s : Session σ} {target : Target} {data sums : Bytes} {x : σ}

theorem source_received : (s.received target data sums x).source = x := by
  cases target <;> rfl

theorem checksum_received :
    (s.received target data sums x).stream.checksum = s.stream.checksum := by
  cases target <;> rfl

theorem needsChecksum_received :
    (s.received target data sums x).stream.needsChecksum = s.stream.needsChecksum := by
  cases target <;> rfl

theorem maxChunk_received :
    (s.received target data sums x).stream.maxChunk = s.stream.maxChunk := by
  cases target <;> rfl

theorem length_sums_keeping {s : Stream} : (s.keeping sums).sums.length = s.sums.length := by
  have hlength : (Bytes.write 0 (sums.take s.sums.length) s.sums).length = s.sums.length := by
    rw [Bytes.length_write, List.length_take]
    omega
  simp only [keeping]
  split
  · exact hlength
  · rfl

theorem length_sums_received :
    (s.received target data sums x).stream.sums.length = s.stream.sums.length := by
  cases target <;> exact length_sums_keeping

theorem hasSums_received {size : Nat} :
    (s.received target data sums x).stream.HasSums size ↔ s.stream.HasSums size := by
  rw [HasSums, HasSums, needsChecksum_received, maxChunk_received, length_sums_received]

/-- Damage is only found where checksums were asked for. -/
theorem isSome_capacity_of_mismatch? {mismatch : Mismatch}
    (h : (s.received target data sums x).stream.mismatch? data = some mismatch) :
    s.stream.capacity.isSome := by
  rw [isSome_capacity, ← needsChecksum_received]
  refine Decidable.byContradiction fun hneeds => ?_
  rw [mismatch?, if_neg hneeds] at h
  cases h

end Received

/-- What the constructors of `Tried` list is all that an attempt comes to. -/
theorem tried {source : Source σ} {s : Session σ} (hs : s.stream.Ready) (target : Target)
    (size : Nat) :
    Ends (tryOnce source target size) s (fun a t => Tried source target size s (.ok a) t)
      (fun e t => Tried source target size s (.error e) t) := by
  simp only [tryOnce, ends_bind, ends_getStream, ends_request]
  cases hread : source.read (s.stream.ask size) s.source with
  | error e x => exact .of_error hread (.refused e x hread)
  | ok reply x =>
      refine .of_ok hread ?_
      cases reply with
      | ended below => exact .ended below x hread
      | chunk data sums =>
          have hready : (s.received target data sums x).stream.Ready := by
            rw [Ready, checksum_received]
            exact hs
          simp only [ends_bind, ends_deliver, ends_ite, ends_keepSums, ends_pure,
            List.isEmpty_iff]
          refine ⟨fun hempty => ?_, fun hdata => ?_⟩
          · subst hempty
            exact .empty sums x hread
          · refine ends_compare hready (fun hsums => ?_) (fun hsums => ?_)
            · have hsums := hasSums_received.mp hsums
              cases hmismatch : (s.received target data sums x).stream.mismatch? data with
              | none => exact .passed data sums x hread hdata hsums hmismatch
              | some mismatch => exact .damaged data sums x mismatch hread hdata hsums hmismatch
            · exact .crowded data sums x hread hdata fun h => hsums (hasSums_received.mpr h)

/-- The event about bytes at the stream's position that failed. -/
def corruption (s : Stream) (data : Bytes) : Log.Event :=
  .corrupted s.name s.next (s.next + data.length) data

/-- A fetch with attempts left ends as one attempt does, unless that found damage: then it fails
after the last attempt and without another copy, and otherwise seeks and tries again. -/
theorem ends_attempt_succ {source : Source σ} {reseek : Int → StreamM σ Unit} {target : Target}
    {size left : Nat} {s : Session σ} {Q : Option Nat → Session σ → Prop}
    {E : StreamError → Session σ → Prop} (hs : s.stream.Ready)
    (ended : ∀ t, Tried source target size s (.ok .ended) t → Q none t)
    (passed : ∀ count t, Tried source target size s (.ok (.passed count)) t → Q (some count) t)
    (failed : ∀ e t, Tried source target size s (.error e) t → E e t)
    (last : left = 0 → ∀ data mismatch t,
      Tried source target size s (.ok (.damaged data mismatch)) t →
      E (.corrupted s.stream.name mismatch) (t.told [s.stream.corruption data]))
    (alone : left ≠ 0 → ∀ data mismatch t,
      Tried source target size s (.ok (.damaged data mismatch)) t →
      (source.switch s.stream.next t.source).1.1 = false →
      E (.corrupted s.stream.name mismatch)
        ((t.told [s.stream.corruption data]).switched source s.stream.next))
    (retried : left ≠ 0 → ∀ data mismatch t,
      Tried source target size s (.ok (.damaged data mismatch)) t →
      (source.switch s.stream.next t.source).1.1 = true →
      Ends (reseek s.stream.next)
        (((t.told [s.stream.corruption data]).switched source s.stream.next).told
          [.switched s.stream.name s.stream.next left])
        (fun _ u => Ends (attempt source reseek target size left) u Q E) E) :
    Ends (attempt source reseek target size (left + 1)) s Q E := by
  simp only [attempt, ends_bind, ends_getStream]
  refine (tried hs target size).mono (fun a t ht => ?_) failed
  cases a with
  | ended => exact ended t ht
  | passed count => exact passed count t ht
  | damaged data mismatch =>
      simp only [ends_bind, ends_tell, ends_ite, ends_throw, ends_switch]
      refine ⟨fun hleft => last hleft data mismatch t ht, fun hleft => ⟨fun hfound => ?_, ?_⟩⟩
      · exact retried hleft data mismatch t ht hfound
      · intro hfound
        exact alone hleft data mismatch t ht (Bool.eq_false_iff.mpr hfound)

/-- A fetch with attempts left ends where the source says that the data has ended. -/
theorem ends_attempt_ended {source : Source σ} {reseek : Int → StreamM σ Unit} {target : Target}
    {size left : Nat} {s : Session σ} {x : σ} {below : Nat} {Q : Option Nat → Session σ → Prop}
    {E : StreamError → Session σ → Prop}
    (hread : source.read (s.stream.ask size) s.source = .ok (.ended below) x)
    (h : Q none { s with source := x }) :
    Ends (attempt source reseek target size (left + 1)) s Q E := by
  simp only [attempt, tryOnce, ends_bind, ends_getStream, ends_request]
  exact .of_ok hread h

/-- A fetch with attempts left fails where the source does. -/
theorem ends_attempt_refused {source : Source σ} {reseek : Int → StreamM σ Unit} {target : Target}
    {size left : Nat} {s : Session σ} {x : σ} {e : StreamError} {Q : Option Nat → Session σ → Prop}
    {E : StreamError → Session σ → Prop}
    (hread : source.read (s.stream.ask size) s.source = .error e x)
    (h : E e { s with source := x }) :
    Ends (attempt source reseek target size (left + 1)) s Q E := by
  simp only [attempt, tryOnce, ends_bind, ends_getStream, ends_request]
  exact .of_error hread h

/-! ## Seeking to where the stream is -/

theorem jumped_eq_self {s : Session σ} (hs : s.stream.Ready) (hfilled : s.stream.filled = 0)
    (hcursor : s.stream.cursor = 0) : s.jumped s.stream.next = s := by
  rw [Session.jumped, hs.map_reset]
  obtain ⟨stream, source, lent, events⟩ := s
  cases stream
  cases hfilled
  cases hcursor
  rfl

theorem ends_discardWith_zero {fill : StreamM σ Unit} {fuel : Nat} {s : Session σ}
    {Q : Unit → Session σ → Prop} {E : StreamError → Session σ → Prop} (h : Q () s) :
    Ends (discardWith fill fuel 0) s Q E := by
  cases fuel with
  | zero => exact h
  | succ fuel => exact h

/-- At the start of a chunk and with an empty window, seeking to where the stream is does nothing,
so a failover goes on from where it was. -/
theorem ends_seekNested_next {source : Source σ} {nesting : Nat} {position : Int} {s : Session σ}
    {Q : Unit → Session σ → Prop} {E : StreamError → Session σ → Prop} (hs : s.stream.Ready)
    (hposition : position = s.stream.next)
    (hstart : source.start s.source s.stream.next = s.stream.next)
    (hfilled : s.stream.filled = 0) (hcursor : s.stream.cursor = 0) (h : Q () s) :
    Ends (seekNested source nesting position) s Q E := by
  subst hposition
  rw [seekNested, ends_seekWith, hstart]
  refine ⟨fun _ => h, fun _ => ⟨fun hinside => absurd hinside.2 (Int.lt_irrefl _), fun _ =>
    ⟨fun hbefore => absurd hbefore (Int.lt_irrefl _), fun _ => ?_⟩⟩⟩
  rw [Int.sub_self, jumped_eq_self hs hfilled hcursor]
  exact ends_discardWith_zero h

end Stream

end ChunkGuard
