import ChunkGuard.Proofs.Ending
import ChunkGuard.Proofs.Integrity

/-!
# Where a stream over replicas can be

As long as the data of the replicas ends by some position and nobody seeks past another one, the
stream stays between the start and these two, and so does every call that it makes of its source
(`Session.InRange`). On the way no internal check fails. The lemmas follow the programs of a stream
once, for buffers of any size. They also say what a stream comes to at the end of the data, which is
where less is read than asked for, and nowhere else (`Session.Ended`).
-/

namespace ChunkGuard

open Session

/-! ## Calls -/

/-- The call was at a position between the start and `reach`, and data that came ends by `most` and
came with the checksums of its chunks, for which there was room. -/
def Call.InRange (checksum : Option Algorithm) (chunk : Nat) (most reach : Int) :
    Call Replicas → Prop
  | .read _ request outcome =>
    0 ≤ request.position ∧ request.position ≤ reach ∧
      (∀ capacity ∈ request.capacity, checksum.isSome ∧ capacity = chunksPerRead * sumWidth) ∧
      ∀ data sums, outcome = .ok (.chunk data sums) →
        request.position + data.length ≤ most ∧
          ∀ capacity ∈ request.capacity,
            sums.length = Chunk.count data.length chunk * sumWidth ∧ sums.length ≤ capacity
  | .switch .. => True

theorem Call.InRange.mono {checksum : Option Algorithm} {chunk : Nat} {call : Call Replicas}
    {most most' reach reach' : Int} (h : call.InRange checksum chunk most reach)
    (hmost : most ≤ most') (hreach : reach ≤ reach') :
    call.InRange checksum chunk most' reach' := by
  cases call with
  | switch => trivial
  | read before request outcome =>
      obtain ⟨hnonneg, hle, hcapacity, hcame⟩ := h
      refine ⟨hnonneg, Int.le_trans hle hreach, hcapacity, fun data sums hdata => ?_⟩
      exact ⟨Int.le_trans (hcame data sums hdata).1 hmost, (hcame data sums hdata).2⟩

/-- Replicas fail for their format or for a request that doesn't suit them, and never because
something is wrong with themselves. -/
theorem Replicas.Answered.code_ne {r : Replicas} {request : Request} {e : StreamError}
    (h : r.Answered request (.error e)) : e.report.code ≠ .internalExpectationFail := by
  cases h <;> exact fun hcode => by cases hcode

/-! ## Sessions -/

/-- The stream and all that was asked of its source are between the start and `reach`, and the data
in the window ends by `most`, as that of all replicas does. -/
structure Session.InRange (checksum : Option Algorithm) (chunk : Nat) (most reach : Int)
    (s : Session (Recorded Replicas)) : Prop where
  matched : s.Matched checksum chunk
  attempts_pos : 0 < s.stream.attempts
  cursor_le : s.stream.cursor ≤ s.stream.filled
  filled_le : (s.stream.filled : Int) ≤ s.stream.next
  filled_le_chunk : s.stream.filled ≤ chunk
  most_le : most ≤ reach
  size_le : ∀ i, ((s.source.state.get i).data.bytes.length : Int) ≤ most
  inside : 0 < s.stream.filled → s.stream.next ≤ most
  next_le : s.stream.next ≤ reach
  calls : ∀ call ∈ s.source.calls, call.InRange checksum chunk most reach

namespace Session.InRange

variable {checksum : Option Algorithm} {chunk : Nat} {most most' reach reach' : Int}
  {s t : Session (Recorded Replicas)}

theorem next_nonneg (h : s.InRange checksum chunk most reach) : 0 ≤ s.stream.next := by
  have hfilled := h.filled_le
  omega

theorem position_nonneg (h : s.InRange checksum chunk most reach) : 0 ≤ s.stream.position := by
  have hfilled := h.filled_le
  rw [Stream.position]
  omega

theorem position_le (h : s.InRange checksum chunk most reach) :
    s.stream.position ≤ s.stream.next := by
  have hcursor := h.cursor_le
  rw [Stream.position]
  omega

theorem position_of_used (h : s.InRange checksum chunk most reach)
    (hused : s.stream.filled ≤ s.stream.cursor) : s.stream.position = s.stream.next := by
  have hcursor := h.cursor_le
  rw [Stream.position]
  omega

/-- The number of bytes left in the window doesn't wrap. -/
theorem available_eq (h : s.InRange checksum chunk most reach) :
    s.stream.available = s.stream.filled - s.stream.cursor := by
  have hcursor := h.cursor_le
  have hchunk := h.filled_le_chunk
  have hhalf : Word.half < Word.count := by decide
  have hlimit := h.matched.chunk_lt
  rw [Stream.available_eq_mod hcursor, Nat.mod_eq_of_lt (by omega)]

theorem mono (h : s.InRange checksum chunk most reach) (hmost : most ≤ most')
    (hreach : reach ≤ reach') (hle : most' ≤ reach') : s.InRange checksum chunk most' reach' where
  matched := h.matched
  attempts_pos := h.attempts_pos
  cursor_le := h.cursor_le
  filled_le := h.filled_le
  filled_le_chunk := h.filled_le_chunk
  most_le := hle
  size_le i := Int.le_trans (h.size_le i) hmost
  inside hfilled := Int.le_trans (h.inside hfilled) hmost
  next_le := Int.le_trans h.next_le hreach
  calls call hcall := (h.calls call hcall).mono hmost hreach

/-- Moving in the window stays in range. -/
theorem moved (h : s.InRange checksum chunk most reach) {n : Nat} (hn : n ≤ s.stream.filled) :
    InRange checksum chunk most reach { s with stream := { s.stream with cursor := n } } :=
  ⟨h.matched.alike .placed rfl, h.attempts_pos, hn, h.filled_le,
    h.filled_le_chunk, h.most_le, h.size_le, h.inside, h.next_le, h.calls⟩

theorem lending (h : s.InRange checksum chunk most reach) (buffer : Bytes) :
    InRange checksum chunk most reach { s with lent := buffer } :=
  ⟨h.matched.alike (.refl _) rfl, h.attempts_pos, h.cursor_le, h.filled_le, h.filled_le_chunk,
    h.most_le, h.size_le, h.inside, h.next_le, h.calls⟩

/-- With an empty window the stream may be anywhere in range. -/
theorem emptied (h : s.InRange checksum chunk most reach) (halike : s.stream.Alike t.stream)
    (hsource : t.source = s.source) (hfilled : t.stream.filled = 0) (hcursor : t.stream.cursor = 0)
    (hnonneg : 0 ≤ t.stream.next) (hreach : t.stream.next ≤ reach) :
    t.InRange checksum chunk most reach where
  matched := h.matched.alike halike hsource
  attempts_pos := halike.attempts ▸ h.attempts_pos
  cursor_le := by omega
  filled_le := by omega
  filled_le_chunk := by omega
  most_le := h.most_le
  size_le := hsource ▸ h.size_le
  inside := by omega
  next_le := hreach
  calls := hsource ▸ h.calls

/-- Asking the source and changing replicas stays in range if the new calls do. -/
theorem called (h : s.InRange checksum chunk most reach) (call : Call Replicas) {stream : Stream}
    {source : Recorded Replicas} (halike : s.stream.Alike stream)
    (hmoved : s.source.state.Moved source.state) (hcalls : source.calls = s.source.calls ++ [call])
    (hcall : call.InRange checksum chunk most reach) (hcursor : stream.cursor = s.stream.cursor)
    (hfilled : stream.filled = s.stream.filled) (hnext : stream.next = s.stream.next)
    (lent : Bytes) (events : List Log.Event) :
    InRange checksum chunk most reach { stream, source, lent, events } where
  matched := h.matched.moved halike hmoved
  attempts_pos := halike.attempts ▸ h.attempts_pos
  cursor_le := by rw [hcursor, hfilled]; exact h.cursor_le
  filled_le := by rw [hfilled, hnext]; exact h.filled_le
  filled_le_chunk := hfilled ▸ h.filled_le_chunk
  most_le := h.most_le
  size_le i := by rw [hmoved.data]; exact h.size_le i
  inside := by rw [hfilled, hnext]; exact h.inside
  next_le := hnext ▸ h.next_le
  calls next hnext := by
    rw [hcalls] at hnext
    obtain hold | hnew := List.mem_append.mp hnext
    · exact h.calls next hold
    · exact List.mem_singleton.mp hnew ▸ hcall

end Session.InRange

/-! ## Fetching -/

/-- A recorded source of replicas answers as replicas do, and notes the call. -/
theorem Replicas.answered_of_ok {request : Request} {reply : Reply} {x y : Recorded Replicas}
    (h : source.recorded.read request x = .ok reply y) :
    x.state.Answered request (.ok reply) ∧ x.state.Reread y.state ∧
      y.calls = x.calls ++ [.read x.state request (.ok reply)] := by
  obtain ⟨z, hz, rfl⟩ := Source.read_recorded_eq_ok.mp h
  obtain ⟨hanswered, hreread⟩ := (ends_read x.state request).ok hz
  exact ⟨hanswered, hreread, rfl⟩

theorem Replicas.answered_of_error {request : Request} {e : StreamError} {x y : Recorded Replicas}
    (h : source.recorded.read request x = .error e y) :
    x.state.Answered request (.error e) ∧ y.state = x.state ∧
      y.calls = x.calls ++ [.read x.state request (.error e)] := by
  obtain ⟨z, hz, rfl⟩ := Source.read_recorded_eq_error.mp h
  obtain ⟨hanswered, hsame⟩ := (ends_read x.state request).error hz
  exact ⟨hanswered, hsame, rfl⟩

/-- The window is empty, and the source is read next at `next`. -/
structure Session.Vacant (checksum : Option Algorithm) (chunk : Nat) (most reach next : Int)
    (s : Session (Recorded Replicas)) : Prop where
  inRange : s.InRange checksum chunk most reach
  filled : s.stream.filled = 0
  cursor : s.stream.cursor = 0
  next_eq : s.stream.next = next

namespace Session.Vacant

variable {checksum : Option Algorithm} {chunk : Nat} {most reach p : Int}
  {s t : Session (Recorded Replicas)} {target : Stream.Target} {size : Nat}

theorem position_eq (h : s.Vacant checksum chunk most reach p) : s.stream.position = p := by
  have hfilled := h.filled
  have hcursor := h.cursor
  rw [Stream.position, h.next_eq]
  omega

/-- What the stream asks for is a call in range, whatever the answer. -/
theorem inRange_ask (h : s.Vacant checksum chunk most reach p)
    {outcome : Except StreamError Reply}
    (hanswered : s.source.state.Answered (s.stream.ask size) outcome) :
    (Call.read s.source.state (s.stream.ask size) outcome).InRange checksum chunk most reach := by
  have hmatched := h.inRange.matched
  refine ⟨h.inRange.next_nonneg, h.inRange.next_le, fun capacity hcapacity => ?_,
    fun data sums hdata => ?_⟩
  · have hcapacity : s.stream.capacity = some capacity := hcapacity
    have hneeds : s.stream.needsChecksum := by
      rw [← Stream.isSome_capacity, hcapacity]
      rfl
    obtain ⟨a, ha, -⟩ := hmatched.checksum_of_needsChecksum hneeds
    have hsome : checksum.isSome := by rw [ha]; rfl
    rw [Stream.capacity, if_pos hneeds] at hcapacity
    rw [← Option.some.inj hcapacity]
    exact ⟨hsome, hmatched.room hsome⟩
  · subst hdata
    obtain ⟨-, hend, hsums⟩ := hanswered.inside
    rw [hmatched.chunk_eq] at hsums
    exact ⟨Int.le_trans hend (h.inRange.size_le _), hsums⟩

theorem told (h : s.Vacant checksum chunk most reach p) (events : List Log.Event) :
    (s.told events).Vacant checksum chunk most reach p :=
  ⟨h.inRange.emptied (.refl _) rfl h.filled h.cursor h.inRange.next_nonneg h.inRange.next_le,
    h.filled, h.cursor, h.next_eq⟩

theorem switched (h : s.Vacant checksum chunk most reach p) (position : Int) :
    (s.switched Replicas.source.recorded position).Vacant checksum chunk most reach p :=
  ⟨h.inRange.called (.switch s.source.state position _) (.refl _)
    (Replicas.moved_switch _ position) rfl trivial rfl rfl rfl _ _, h.filled, h.cursor, h.next_eq⟩

/-- With the data in its place, the stream is where it was. -/
theorem received (h : s.Vacant checksum chunk most reach p) (target : Stream.Target)
    {data sums : Bytes} {x : Recorded Replicas}
    (hread : Replicas.source.recorded.read (s.stream.ask size) s.source =
      .ok (.chunk data sums) x) :
    (s.received target data sums x).Vacant checksum chunk most reach p := by
  obtain ⟨hanswered, hreread, hcalls⟩ := Replicas.answered_of_ok hread
  have hcalled := fun stream (halike : s.stream.Alike stream) hcursor hfilled hnext =>
    h.inRange.called _ halike hreread.moved hcalls (h.inRange_ask hanswered) hcursor hfilled hnext
  have halike := Stream.Alike.received target data sums x s
  cases target with
  | window =>
      exact ⟨hcalled _ halike rfl rfl rfl _ _, h.filled, h.cursor, h.next_eq⟩
  | lent offset =>
      exact ⟨hcalled _ halike rfl rfl rfl _ _, h.filled, h.cursor, h.next_eq⟩

/-- Whatever an attempt comes to, the stream is where it was unless bytes passed. -/
theorem tried (h : s.Vacant checksum chunk most reach p) {r : Except StreamError Stream.Attempt}
    (htried : Stream.Tried Replicas.source.recorded target size s r t)
    (hr : ∀ n, r ≠ .ok (.passed n)) : t.Vacant checksum chunk most reach p := by
  cases htried with
  | refused e x hread =>
      obtain ⟨hanswered, hsame, hcalls⟩ := Replicas.answered_of_error hread
      exact ⟨h.inRange.called _ (.refl _) (hsame ▸ .refl _) hcalls (h.inRange_ask hanswered) rfl rfl
        rfl _ _, h.filled, h.cursor, h.next_eq⟩
  | ended code x hread =>
      obtain ⟨hanswered, hreread, hcalls⟩ := Replicas.answered_of_ok hread
      exact ⟨h.inRange.called _ (.refl _) hreread.moved hcalls (h.inRange_ask hanswered) rfl rfl rfl
        _ _, h.filled, h.cursor, h.next_eq⟩
  | empty sums x hread => exact h.received target hread
  | crowded data sums x hread => exact h.received target hread
  | passed data sums x => exact absurd rfl (hr data.length)
  | damaged data sums x mismatch hread => exact h.received target hread

/-- There are always checksums enough for the data that came. -/
theorem hasSums (h : s.Vacant checksum chunk most reach p) {data sums : Bytes}
    {x : Recorded Replicas}
    (hread : Replicas.source.recorded.read (s.stream.ask size) s.source =
      .ok (.chunk data sums) x) : s.stream.HasSums data.length := by
  intro hneeds
  have hmatched := h.inRange.matched
  obtain ⟨-, -, hsums⟩ := (Replicas.answered_of_ok hread).1.inside
  have hcapacity : s.stream.sums.length ∈ (s.stream.ask size).capacity := by
    show s.stream.capacity = _
    rw [Stream.capacity, if_pos hneeds]
  obtain ⟨hlength, hroom⟩ := hsums _ hcapacity
  rw [hmatched.maxChunk_eq, ← hmatched.chunk_eq, ← hlength]
  exact hroom

/-- An attempt fails only as replicas do. -/
theorem code_ne (h : s.Vacant checksum chunk most reach p) {e : StreamError}
    (htried : Stream.Tried Replicas.source.recorded target size s (.error e) t) :
    e.report.code ≠ .internalExpectationFail := by
  cases htried with
  | refused _ x hread => exact (Replicas.answered_of_error hread).1.code_ne
  | crowded data sums x hread _ hfew => exact absurd (h.hasSums hread) hfew

/-- Where the data has ended, the replica read now has nothing at the stream's position, and no other
has taken its place. -/
theorem ended (h : s.Vacant checksum chunk most reach p) (hsize : 0 < size)
    (htried : Stream.Tried Replicas.source.recorded target size s (.ok .ended) t) :
    (t.source.state.size : Int) ≤ p ∧ s.source.state.Reread t.source.state := by
  have hend : ∀ {reply : Reply} {x : Recorded Replicas},
      Replicas.source.recorded.read (s.stream.ask size) s.source = .ok reply x → reply.IsEnd →
      (x.state.size : Int) ≤ p ∧ s.source.state.Reread x.state := by
    intro reply x hread hreply
    obtain ⟨hanswered, hreread, -⟩ := Replicas.answered_of_ok hread
    have hposition : (s.stream.ask size).position = p := h.next_eq
    have hnonneg := h.inRange.next_nonneg
    have hnext := h.next_eq
    refine ⟨?_, hreread⟩
    rw [hreread.size]
    refine Int.not_lt.mp fun hinside => (hanswered.has_iff hsize).mp ?_ hreply
    omega
  cases htried with
  | ended code x hread => exact hend hread trivial
  | empty sums x hread =>
      rw [Stream.source_received]
      exact hend hread rfl

/-- Where the replica read now has nothing at the stream's position, an attempt finds that the data
has ended. -/
theorem eq_ended (h : s.Vacant checksum chunk most reach p)
    (hend : (s.source.state.size : Int) ≤ p) {r : Except StreamError Stream.Attempt}
    (htried : Stream.Tried Replicas.source.recorded target size s r t) : r = .ok .ended := by
  have hposition : (s.stream.ask size).position = p := h.next_eq
  have hnone : ∀ data sums x, Replicas.source.recorded.read (s.stream.ask size) s.source =
      .ok (.chunk data sums) x → data = [] := fun data sums x hread => by
    have hanswered := (Replicas.answered_of_ok hread).1
    cases hanswered <;> omega
  cases htried with
  | refused e x hread =>
      have hanswered := (Replicas.answered_of_error hread).1
      cases hanswered <;> omega
  | ended code x => rfl
  | empty sums x => rfl
  | crowded data sums x hread hdata => exact absurd (hnone data sums x hread) hdata
  | passed data sums x hread hdata => exact absurd (hnone data sums x hread) hdata
  | damaged data sums x mismatch hread hdata => exact absurd (hnone data sums x hread) hdata

/-- Bytes that passed move the stream forward inside of the data. -/
theorem passed (h : s.Vacant checksum chunk most reach p) {n : Nat}
    (htried : Stream.Tried Replicas.source.recorded target size s (.ok (.passed n)) t) :
    t.Vacant checksum chunk most reach (p + n) ∧ 0 < n ∧ n ≤ size ∧ p + n ≤ most := by
  cases htried with
  | passed data sums x hread hdata =>
      obtain ⟨hle, hend, -⟩ := (Replicas.answered_of_ok hread).1.inside
      have hposition : (s.stream.ask size).position = p := h.next_eq
      have hmost := Int.le_trans (hposition ▸ hend) (h.inRange.size_le _)
      have hreceived := h.received target hread
      have hnext : ((s.received target data sums x).advanced data.length).stream.next =
          p + data.length := congrArg (· + (data.length : Int)) hreceived.next_eq
      have hnonneg := h.inRange.next_nonneg
      have hat := h.next_eq
      refine ⟨⟨hreceived.inRange.emptied .placed rfl hreceived.filled
        hreceived.cursor ?_ ?_, hreceived.filled, hreceived.cursor, hnext⟩,
        List.length_pos_iff.mpr hdata, hle, hmost⟩
      · omega
      · rw [hnext]
        exact Int.le_trans hmost h.inRange.most_le

/-- Damage is found from the start of a chunk only, so the seek between two attempts stays. -/
theorem start_eq (h : s.Vacant checksum chunk most reach p) {bytes : Bytes} {mismatch : Mismatch}
    (htried : Stream.Tried Replicas.source.recorded target size s
      (.ok (.damaged bytes mismatch)) t)
    {u : Session (Recorded Replicas)} (hu : u.Vacant checksum chunk most reach p) :
    Replicas.source.recorded.start u.source u.stream.next = u.stream.next := by
  cases htried with
  | damaged _ sums x _ hread _ _ hmismatch =>
      have hstart := (Replicas.answered_of_ok hread).1.start_eq
        (Stream.isSome_capacity_of_mismatch? hmismatch)
      have hnext : u.stream.next = (s.stream.ask size).position :=
        hu.next_eq.trans h.next_eq.symm
      rw [h.inRange.matched.chunk_eq] at hstart
      show Chunk.start _ _ = _
      rw [hnext, hu.inRange.matched.chunk_eq]
      exact hstart

/-- What a fetch comes to: bytes that move the stream forward inside of the data, or nothing where
the replica read last has no more data. -/
structure Fetched (checksum : Option Algorithm) (chunk : Nat) (most reach p : Int) (size : Nat)
    (count : Option Nat) (t : Session (Recorded Replicas)) : Prop where
  vacant : t.Vacant checksum chunk most reach (p + count.getD 0)
  bytes : ∀ n ∈ count, 0 < n ∧ n ≤ size ∧ p + n ≤ most
  ended : count = none → (t.source.state.size : Int) ≤ p

/-- A fetch stays in range, and it fails only for damage or as replicas do. -/
theorem ends_attempt (h : s.Vacant checksum chunk most reach p) (hsize : 0 < size)
    (nesting : Nat) {attempts : Nat} (hattempts : 0 < attempts) :
    Ends (Stream.attempt Replicas.source.recorded
        (Stream.seekNested Replicas.source.recorded nesting) target size attempts) s
      (Fetched checksum chunk most reach p size)
      (fun e t => t.Vacant checksum chunk most reach p ∧
        e.report.code ≠ .internalExpectationFail) := by
  induction attempts generalizing s with
  | zero => exact absurd hattempts (Nat.lt_irrefl 0)
  | succ left ih =>
      refine Stream.ends_attempt_succ h.inRange.matched.ready ?ended ?passed ?failed ?last ?alone
        ?retried
      case ended =>
        intro t ht
        exact ⟨by simpa using h.tried ht nofun, fun n hn => absurd hn (Option.not_mem_none n),
          fun _ => (h.ended hsize ht).1⟩
      case passed =>
        intro count t ht
        obtain ⟨hvacant, hbytes⟩ := h.passed ht
        exact ⟨hvacant, fun n hn => Option.mem_some.mp hn ▸ hbytes, nofun⟩
      case failed =>
        intro e t ht
        exact ⟨h.tried ht nofun, h.code_ne ht⟩
      case last =>
        intro _ data mismatch t ht
        exact ⟨(h.tried ht nofun).told _, nofun⟩
      case alone =>
        intro _ data mismatch t ht _
        exact ⟨((h.tried ht nofun).told _).switched _,
          nofun⟩
      case retried =>
        intro hleft data mismatch t ht _
        -- The seek before the next attempt stays, so the induction goes on from where this one was.
        have hu := (((h.tried ht nofun).told
          [s.stream.corruption data]).switched s.stream.next).told
            [.switched s.stream.name s.stream.next left]
        exact Stream.ends_seekNested_next hu.inRange.matched.ready (h.next_eq.trans hu.next_eq.symm)
          (h.start_eq ht hu) hu.filled hu.cursor (ih hu (Nat.pos_of_ne_zero hleft))

/-- Where the data has ended, a fetch comes to nothing and does nothing but ask. -/
theorem ends_attempt_of_ended (h : s.Vacant checksum chunk most reach p) (hsize : 0 < size)
    (hend : (s.source.state.size : Int) ≤ p) (reseek : Int → StreamM (Recorded Replicas) Unit)
    {attempts : Nat} (hattempts : 0 < attempts) :
    Ends (Stream.attempt Replicas.source.recorded reseek target size attempts) s
      (fun count t => count = none ∧ t.Vacant checksum chunk most reach p ∧
        (t.source.state.size : Int) ≤ p ∧ s.source.state.Reread t.source.state)
      (fun _ _ => False) := by
  obtain ⟨left, rfl⟩ : ∃ left, attempts = left + 1 := ⟨attempts - 1, by omega⟩
  refine Stream.ends_attempt_succ h.inRange.matched.ready (fun t ht => ?_) (fun count t ht => ?_)
    (fun e t ht => ?_) (fun _ data mismatch t ht => ?_) (fun _ data mismatch t ht _ => ?_)
    (fun _ data mismatch t ht _ => ?_)
  · exact ⟨rfl, h.tried ht nofun, h.ended hsize ht⟩
  all_goals cases h.eq_ended hend ht

end Session.Vacant

namespace Session.InRange

variable {checksum : Option Algorithm} {chunk : Nat} {most reach : Int}
  {s t : Session (Recorded Replicas)}

/-- A stream whose window is used up empties it where it is. -/
theorem vacant_cleared (h : s.InRange checksum chunk most reach)
    (hused : s.stream.filled ≤ s.stream.cursor) :
    s.cleared.Vacant checksum chunk most reach s.stream.position :=
  ⟨h.emptied s.alike_cleared rfl rfl rfl h.next_nonneg h.next_le, rfl, rfl,
    (h.position_of_used hused).symm⟩

/-- What a program leaves in range when it fails, with an error that isn't an internal one. -/
def Failed (checksum : Option Algorithm) (chunk : Nat) (most reach : Int) (e : StreamError)
    (t : Session (Recorded Replicas)) : Prop :=
  t.InRange checksum chunk most reach ∧ e.report.code ≠ .internalExpectationFail

theorem ends_fetchWith (h : s.InRange checksum chunk most reach)
    (hused : s.stream.filled ≤ s.stream.cursor) (target : Stream.Target) {size : Nat}
    (hsize : 0 < size) (nesting : Nat) :
    Ends (Stream.fetchWith Replicas.source.recorded
        (Stream.seekNested Replicas.source.recorded nesting) target size) s
      (Vacant.Fetched checksum chunk most reach s.stream.position size)
      (Failed checksum chunk most reach) := by
  rw [Stream.ends_fetchWith]
  exact ((h.vacant_cleared hused).ends_attempt hsize nesting h.attempts_pos).mono
    (fun _ _ ht => ht) (fun _ _ ht => ⟨ht.1.inRange, ht.2⟩)

/-! ## Filling and seeking -/

/-- The window was filled, or is empty where the data has ended, and the stream is where it was. -/
structure Filled (checksum : Option Algorithm) (chunk : Nat) (most reach p : Int)
    (t : Session (Recorded Replicas)) : Prop where
  inRange : t.InRange checksum chunk most reach
  cursor : t.stream.cursor = 0
  position : t.stream.position = p
  ended : t.stream.filled = 0 → t.Ended

/-- The data fetched into the window is there to be handed out. -/
theorem filled_of_fetched {p : Int} {count : Option Nat} (hp : 0 ≤ p)
    (ht : Vacant.Fetched checksum chunk most reach p chunk count t) :
    Filled checksum chunk most reach p
      { t with stream := { t.stream with filled := count.getD 0 } } := by
  have h := ht.vacant.inRange
  have hcursor := ht.vacant.cursor
  have hnext := ht.vacant.next_eq
  have hnonneg := h.next_nonneg
  have hbytes : count = none ∧ count.getD 0 = 0 ∨ 0 < count.getD 0 ∧ count.getD 0 ≤ chunk ∧
      p + (count.getD 0 : Nat) ≤ most := by
    cases count with
    | none => exact .inl ⟨rfl, rfl⟩
    | some n => exact .inr (ht.bytes n rfl)
  have hposition : t.stream.next - ((count.getD 0 : Nat) - (t.stream.cursor : Int)) = p := by omega
  refine ⟨⟨h.matched.alike .placed rfl, h.attempts_pos, ?_, ?_, ?_,
    h.most_le, h.size_le, ?_, h.next_le, h.calls⟩, hcursor, hposition, fun hzero => ⟨?_, ?_⟩⟩
  · show t.stream.cursor ≤ count.getD 0
    omega
  · show ((count.getD 0 : Nat) : Int) ≤ t.stream.next
    omega
  · show count.getD 0 ≤ chunk
    omega
  · show 0 < count.getD 0 → t.stream.next ≤ most
    omega
  · show count.getD 0 ≤ t.stream.cursor
    have hzero : count.getD 0 = 0 := hzero
    omega
  · have hzero : count.getD 0 = 0 := hzero
    have hnone : count = none := by
      obtain ⟨hnone, -⟩ | ⟨hpos, -⟩ := hbytes
      · exact hnone
      · exact absurd hzero (Nat.ne_of_gt hpos)
    exact Int.le_trans (ht.ended hnone) (Int.le_of_eq hposition.symm)

/-- Filling a window that is used up stays in range. -/
theorem ends_refill (h : s.InRange checksum chunk most reach)
    (hused : s.stream.filled ≤ s.stream.cursor) (nesting : Nat) :
    Ends (Stream.refill Replicas.source.recorded (nesting + 1)) s
      (fun _ t => Filled checksum chunk most reach s.stream.position t)
      (Failed checksum chunk most reach) := by
  have hmaxChunk := h.matched.maxChunk_eq
  rw [Stream.ends_refill_succ, hmaxChunk]
  refine ⟨fun hunused => absurd hunused (Nat.not_lt_of_le hused), fun _ => ?_⟩
  exact (h.ends_fetchWith hused .window h.matched.chunk_pos nesting).mono
    (fun _ _ ht => filled_of_fetched h.position_nonneg ht) (fun _ _ ht => ht)

/-- Discarding goes as far as asked, or to where the data has ended. With a step for each byte it
comes to an end. -/
theorem ends_discardWith (h : s.InRange checksum chunk most reach) (nesting : Nat) {fuel : Nat}
    {size : Int} (hfuel : size ≤ fuel) :
    Ends (Stream.discardWith (Stream.refill Replicas.source.recorded (nesting + 1)) fuel size) s
      (fun _ t => t.InRange checksum chunk most reach ∧
        (t.stream.position = s.stream.position + max size 0 ∨ t.Ended))
      (Failed checksum chunk most reach) := by
  -- Where the stream is and what is left to discard keep adding up to the same position.
  refine Stream.ends_discardWith_of_turns
    (I := fun fuel left t => t.InRange checksum chunk most reach ∧
      t.stream.position + max left 0 = s.stream.position + max size 0 ∧ left ≤ fuel)
    (J := fun fuel left t => t.InRange checksum chunk most reach ∧
      t.stream.position + max left 0 = s.stream.position + max size 0 ∧ left ≤ fuel + 1 ∧
      0 < left ∧ t.stream.cursor < t.stream.filled)
    (fun fuel left t ht hleft => ⟨ht.1, .inl (by omega)⟩)
    (fun left t ht hleft => absurd ht.2.2 (by omega))
    (fun fuel left t ht hleft hunused => ⟨ht.1, ht.2.1, ht.2.2, hleft, hunused⟩) ?used ?step
    ⟨h, rfl, hfuel⟩
  case used =>
    rintro fuel left t ⟨ht, hposition, hfuel⟩ hleft hused
    refine (ht.ends_refill hused nesting).mono (fun _ u hu => ?_) (fun _ _ hu => hu)
    have hcursor := hu.cursor
    exact ⟨fun hempty => ⟨hu.inRange, .inr (hu.ended hempty)⟩, fun hfilled =>
      ⟨hu.inRange, hu.position ▸ hposition, hfuel, hleft, by omega⟩⟩
  case step =>
    rintro fuel left t ⟨ht, hposition, hfuel, hleft, hunused⟩
    have hafter := t.position_discarded (Int.le_of_lt hleft)
    exact ⟨ht.moved (t.cursor_discarded_le left), by omega, by omega⟩

/-- Seeking within reach goes to the position, or in its chunk to where the data has ended. -/
theorem ends_seek (h : s.InRange checksum chunk most reach) {position : Int}
    (hreach : position ≤ reach) :
    Ends (Stream.seek Replicas.source.recorded position) s
      (fun _ t => t.InRange checksum chunk most reach ∧ (position < 0 → t = s) ∧
        (0 ≤ position → t.stream.position = position ∨ t.Ended))
      (Failed checksum chunk most reach) := by
  rw [Stream.ends_seek, Stream.seekNested, Stream.ends_seekWith]
  refine ⟨fun hneg => ⟨h, fun _ => rfl, fun hpos => absurd hneg (Int.not_lt.mpr hpos)⟩,
    fun hpos => ⟨fun hwindow => ?_, fun _ => ?_⟩⟩
  · refine ⟨h.moved (by omega), fun hneg => absurd hneg hpos, fun _ => .inl ?_⟩
    rw [Stream.position]
    dsimp only
    omega
  obtain ⟨p, rfl⟩ : ∃ p : Nat, position = p := ⟨position.toNat, by omega⟩
  have hstart : Replicas.source.recorded.start s.source p = (p - p % chunk : Nat) := by
    show Replicas.start s.source.state p = _
    rw [Replicas.start, h.matched.chunk_eq, Chunk.start_natCast h.matched.chunk_lt]
  have hle : ((p - p % chunk : Nat) : Int) ≤ p := by omega
  have hjump : (s.jumped (p - p % chunk : Nat)).Vacant checksum chunk most reach
      (p - p % chunk : Nat) :=
    ⟨h.emptied (s.alike_jumped h.matched.ready _) rfl rfl rfl (Int.natCast_nonneg _)
      (Int.le_trans hle hreach), rfl, rfl, rfl⟩
  rw [hstart]
  refine ⟨fun hbefore => absurd hbefore (Int.not_lt.mpr hle), fun _ => ?_⟩
  refine (hjump.inRange.ends_discardWith _ ?_).mono (fun _ t ht => ?_) (fun _ _ ht => ht)
  · rw [Stream.discardFuel]
    have hnonneg := Nat.zero_le ((s.stream.nesting + 1) * (s.stream.maxChunk + 1))
    omega
  · refine ⟨ht.1, fun hneg => absurd hneg hpos, fun _ => ht.2.imp (fun hplace => ?_) id⟩
    rw [hplace, hjump.position_eq]
    omega

/-! ## Reading -/

/-- Reading a byte moves forward by one inside of the data, unless the data has ended. -/
theorem ends_readByte (h : s.InRange checksum chunk most reach) :
    Ends (Stream.readByte Replicas.source.recorded) s
      (fun byte t => t.InRange checksum chunk most reach ∧
        (byte = none → t.Ended ∧ t.stream.position = s.stream.position))
      (Failed checksum chunk most reach) := by
  simp only [Stream.readByte, ends_bind, ends_getStream, ends_ite, ends_pure, ends_modifyStream,
    Stream.ends_fill]
  refine ⟨fun hused => ?_, fun hunused => ⟨fun hused => absurd hused hunused, fun _ =>
    ⟨h.moved (by omega), fun hnone => absurd hnone (Option.some_ne_none _)⟩⟩⟩
  refine (h.ends_refill hused _).mono (fun _ t ht => ?_) (fun _ _ ht => ht)
  have hcursor := ht.cursor
  exact ⟨fun hempty => ⟨ht.inRange, fun _ => ⟨ht.ended (by omega), ht.position⟩⟩,
    fun hfilled => ⟨ht.inRange.moved (by omega),
      fun hnone => absurd hnone (Option.some_ne_none _)⟩⟩

/-- So many bytes were read from `p` on, all of them inside of the data. -/
structure Advanced (checksum : Option Algorithm) (chunk : Nat) (most reach p : Int) (count : Nat)
    (t : Session (Recorded Replicas)) : Prop where
  inRange : t.InRange checksum chunk most reach
  position : t.stream.position = p + count
  inside : 0 < count → p + count ≤ most

theorem Filled.advanced {p : Int} (h : Filled checksum chunk most reach p t) :
    Advanced checksum chunk most reach p 0 t :=
  ⟨h.inRange, h.position.trans (Int.add_zero p).symm, fun hpos => absurd hpos (Nat.lt_irrefl 0)⟩

/-- Bytes of the window are inside of the data. -/
theorem copied (h : s.InRange checksum chunk most reach) (offset : Nat) {n : Nat}
    (hn : n ≤ s.stream.filled - s.stream.cursor) :
    Advanced checksum chunk most reach s.stream.position n
      { s with
        lent := Bytes.write offset (Bytes.padded s.stream.cursor n s.stream.window) s.lent
        stream := { s.stream with cursor := s.stream.cursor + n } } := by
  have hcursor := h.cursor_le
  have hinside := h.inside
  refine ⟨(h.moved (n := s.stream.cursor + n) (by omega)).lending _, ?_, fun hpos => ?_⟩
  · rw [Stream.position, Stream.position]
    dsimp only
    omega
  · rw [Stream.position]
    omega

/-- A single read moves forward by what it says, inside of the data, unless the data has ended. -/
theorem ends_readOnce (h : s.InRange checksum chunk most reach) (offset : Nat) {size : Nat}
    (hsize : 0 < size) :
    Ends (Stream.readOnce Replicas.source.recorded offset size) s
      (fun count t => Advanced checksum chunk most reach s.stream.position (count.getD 0) t ∧
        (∀ n ∈ count, 0 < n ∧ n ≤ size) ∧ (count = none → t.Ended))
      (Failed checksum chunk most reach) := by
  simp only [Stream.readOnce, ends_bind, ends_getStream, ends_ite, ends_pure, Stream.ends_copy,
    Stream.ends_fill, Stream.ends_fetchLent]
  rw [h.available_eq]
  refine ⟨fun hzero => ⟨fun _ => ?past, fun _ => ?through⟩, fun hsome => ?window⟩
  case past =>
    refine (h.ends_fetchWith (by omega) (.lent offset) hsize _).mono (fun count t ht => ?_)
      (fun _ _ ht => ht)
    refine ⟨⟨ht.vacant.inRange, ht.vacant.position_eq, fun hpos => ?_⟩,
      fun n hn => ⟨(ht.bytes n hn).1, (ht.bytes n hn).2.1⟩, fun hnone => ⟨?_, ?_⟩⟩
    · cases count with
      | none => exact absurd hpos (Nat.lt_irrefl 0)
      | some n => exact (ht.bytes n rfl).2.2
    · rw [ht.vacant.filled]
      exact Nat.zero_le _
    · rw [ht.vacant.position_eq, hnone]
      exact Int.le_trans (ht.ended hnone) (Int.le_of_eq (Int.add_zero _).symm)
  case through =>
    refine (h.ends_refill (by omega) _).mono (fun _ t ht => ⟨fun hempty => ?_, fun hfilled => ?_⟩)
      (fun _ _ ht => ht)
    · exact ⟨ht.advanced, fun n hn => absurd hn (Option.not_mem_none n),
        fun _ => ht.ended hempty⟩
    · have hcursor := ht.cursor
      have hcopied := ht.inRange.copied offset (n := min t.stream.filled size) (by omega)
      refine ⟨ht.position ▸ hcopied, fun n hn => ?_,
        fun hnone => absurd hnone (Option.some_ne_none _)⟩
      rw [← Option.mem_some.mp hn]
      omega
  case window =>
    refine ⟨h.copied offset (Nat.min_le_left _ _), fun n hn => ?_,
      fun hnone => absurd hnone (Option.some_ne_none _)⟩
    rw [← Option.mem_some.mp hn]
    omega

/-- Reading up to a size moves forward by what it says, and less only where the data has ended. -/
theorem ends_readUpTo (h : s.InRange checksum chunk most reach) {fuel offset size : Nat}
    (hsize : 0 < size) (hfuel : size ≤ fuel) :
    Ends (Stream.readUpTo Replicas.source.recorded fuel offset size) s
      (fun count t => Advanced checksum chunk most reach s.stream.position count t ∧
        count ≤ size ∧ (count < size → t.Ended))
      (Failed checksum chunk most reach) := by
  -- The fuel covers what is left to read, so it isn't spent before the range is full.
  refine Stream.ends_readUpTo_of_turns
    (I := fun fuel count t => Advanced checksum chunk most reach s.stream.position count t ∧
      count < size ∧ size ≤ count + fuel)
    (fun count t ht => absurd ht.2.1 (Nat.not_lt_of_le ht.2.2)) (fun fuel count t ht => ?_)
    ⟨⟨h, (Int.add_zero _).symm, fun hpos => absurd hpos (Nat.lt_irrefl 0)⟩, hsize, by omega⟩
  obtain ⟨ht, hless, hfuel⟩ := ht
  refine (ht.inRange.ends_readOnce (offset + count) (Nat.sub_pos_of_lt hless)).mono
    (fun more u hu => ?_) (fun _ _ hu => hu)
  obtain ⟨hu, hmore, hend⟩ := hu
  have hposition := ht.position
  have hinside := ht.inside
  have hposition' := hu.position
  have hinside' := hu.inside
  have hall : Advanced checksum chunk most reach s.stream.position (count + more.getD 0) u :=
    ⟨hu.inRange, by omega, fun _ => by omega⟩
  refine ⟨fun hnone => ?_, fun n hn => ?_⟩
  · subst hnone
    exact ⟨hall, Nat.le_of_lt hless, fun _ => hend rfl⟩
  · subst hn
    obtain ⟨hpos, hle⟩ := hmore n rfl
    rw [Option.getD_some] at hall
    exact ⟨fun hfull => ⟨hall, by omega, fun hless => absurd hless (Nat.not_lt_of_le hfull)⟩,
      fun hless => ⟨hall, hless, by omega⟩⟩

/-- A read moves forward by what it says, and less than asked for only where the data has ended. -/
theorem ends_read (h : s.InRange checksum chunk most reach) (offset size : Nat) :
    Ends (Stream.read Replicas.source.recorded offset size) s
      (fun count t => Advanced checksum chunk most reach s.stream.position (count.getD 0) t ∧
        count.getD 0 ≤ size ∧ (count.getD 0 < size → t.Ended) ∧ (count = none → 0 < size))
      (Failed checksum chunk most reach) := by
  simp only [Stream.read, ends_bind, ends_get, ends_ite, ends_pure, ends_throw]
  refine ⟨fun _ => ⟨h, by decide⟩, fun hrange => ⟨fun hzero => ?_, fun hsome => ?_⟩⟩
  · exact ⟨⟨h, (Int.add_zero _).symm, fun hpos => absurd hpos (Nat.lt_irrefl 0)⟩, Nat.zero_le _,
      fun hless => absurd hzero (Nat.ne_of_gt hless),
      fun hnone => absurd hnone (Option.some_ne_none _)⟩
  refine (h.ends_readUpTo (Nat.pos_of_ne_zero hsome) (Nat.le_refl _)).mono (fun count t ht => ?_)
    (fun _ _ ht => ht)
  by_cases hzero : count = 0
  · subst hzero
    exact ⟨ht.1, ht.2.1, ht.2.2, fun _ => Nat.pos_of_ne_zero hsome⟩
  · rw [if_neg hzero]
    exact ⟨ht.1, ht.2.1, ht.2.2, fun hnone => absurd hnone (Option.some_ne_none _)⟩

/-! ## Reading where the data has ended -/

/-- The stream stayed at the end of the data, where no more was done than asking for some. -/
structure Stayed (s t : Session (Recorded Replicas)) : Prop where
  ended : t.Ended
  position : t.stream.position = s.stream.position
  reread : s.source.state.Reread t.source.state

/-- Where the data has ended, a fetch comes to nothing. -/
theorem ends_fetchWith_of_ended (h : s.InRange checksum chunk most reach) (hend : s.Ended)
    (target : Stream.Target) {size : Nat} (hsize : 0 < size)
    (reseek : Int → StreamM (Recorded Replicas) Unit) :
    Ends (Stream.fetchWith Replicas.source.recorded reseek target size) s
      (fun count t => count = none ∧ t.stream.filled = 0 ∧ Stayed s t) (fun _ _ => False) := by
  rw [Stream.ends_fetchWith]
  refine ((h.vacant_cleared hend.used).ends_attempt_of_ended hsize hend.size_le reseek
    h.attempts_pos).mono (fun _ t ht => ?_) (fun _ _ ht => ht)
  obtain ⟨hnone, hvacant, hsize, hreread⟩ := ht
  refine ⟨hnone, hvacant.filled, ⟨?_, ?_⟩, hvacant.position_eq, hreread⟩
  · rw [hvacant.filled]
    exact Nat.zero_le _
  · rw [hvacant.position_eq]
    exact hsize

/-- Where the data has ended, filling the window does nothing. -/
theorem ends_refill_of_ended (h : s.InRange checksum chunk most reach) (hend : s.Ended)
    (nesting : Nat) :
    Ends (Stream.refill Replicas.source.recorded (nesting + 1)) s
      (fun _ t => t.stream.filled = 0 ∧ Stayed s t) (fun _ _ => False) := by
  rw [Stream.ends_refill_succ]
  refine ⟨fun hunused => absurd hunused (Nat.not_lt_of_le hend.used), fun _ => ?_⟩
  refine (h.ends_fetchWith_of_ended hend .window
    (h.matched.maxChunk_eq ▸ h.matched.chunk_pos) _).mono (fun count t ht => ?_)
    (fun _ _ ht => ht)
  obtain ⟨rfl, ht⟩ := ht
  -- The window was empty before it was set to what came, so nothing changed.
  have hsame : (none : Option Nat).getD 0 = t.stream.filled := ht.1.symm
  rw [hsame]
  exact ht

/-- Where the data has ended, there is no byte to read, whatever the sidecar holds. -/
theorem ends_readByte_of_ended (h : s.InRange checksum chunk most reach) (hend : s.Ended) :
    Ends (Stream.readByte Replicas.source.recorded) s (fun byte t => byte = none ∧ Stayed s t)
      (fun _ _ => False) := by
  simp only [Stream.readByte, ends_bind, ends_getStream, ends_ite, ends_pure, ends_modifyStream,
    Stream.ends_fill]
  refine ⟨fun _ => ?_, fun hunused => absurd hend.used hunused⟩
  refine (h.ends_refill_of_ended hend _).mono (fun _ t ht => ?_) (fun _ _ ht => ht)
  exact ⟨fun _ => ⟨trivial, ht.2⟩, fun hmore => absurd (ht.1 ▸ Nat.zero_le _) hmore⟩

/-- Where the data has ended, a read reads nothing, whatever the sidecar holds. -/
theorem ends_read_of_ended (h : s.InRange checksum chunk most reach) (hend : s.Ended)
    {offset size : Nat} (hsize : 0 < size) :
    Ends (Stream.read Replicas.source.recorded offset size) s
      (fun count t => count = none ∧ Stayed s t)
      (fun e _ => e = .outsideBuffer ∧ s.lent.length < offset + size) := by
  simp only [Stream.read, ends_bind, ends_get, ends_ite, ends_pure, ends_throw]
  refine ⟨fun hrange => ⟨trivial, by omega⟩, fun hrange => ⟨fun hzero => absurd hzero (by omega),
    fun _ => ?_⟩⟩
  obtain ⟨fuel, rfl⟩ : ∃ fuel, size = fuel + 1 := ⟨size - 1, by omega⟩
  have hused := hend.used
  simp only [Stream.readUpTo, Stream.readOnce, ends_bind, ends_getStream, ends_ite, ends_pure,
    Stream.ends_copy, Stream.ends_fill, Stream.ends_fetchLent]
  rw [h.available_eq]
  refine ⟨fun _ => ⟨fun _ => ?past, fun _ => ?through⟩, fun hsome => absurd hsome (by omega)⟩
  case past =>
    refine (h.ends_fetchWith_of_ended hend (.lent offset) hsize _).mono (fun count t ht => ?_)
      (fun _ _ hfalse => hfalse.elim)
    obtain ⟨rfl, -, hstayed⟩ := ht
    exact ⟨rfl, hstayed⟩
  case through =>
    refine (h.ends_refill_of_ended hend _).mono (fun _ t ht => ?_)
      (fun _ _ hfalse => hfalse.elim)
    exact ⟨fun _ => ⟨rfl, ht.2⟩, fun hmore => absurd ht.1 hmore⟩

end Session.InRange

end ChunkGuard
