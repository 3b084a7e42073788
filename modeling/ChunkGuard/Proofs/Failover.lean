import ChunkGuard.Proofs.Integrity

/-!
# What a failover comes to

Replicas are read one after the other, from the current one on, until one is intact where the fetch
is or no attempt or no replica is left. A single attempt reads the current replica once and finds it
intact or not (`Stream.Facing.tried`). By induction on the attempts left, a fetch ends at the first
intact replica (`Stream.Facing.ends_attempt_intact`) or fails at the last one in reach
(`Stream.Facing.ends_attempt_damaged`).
-/

namespace ChunkGuard

open Session

/-! ## Which replicas are read -/

/-- The replica that a request was made to. -/
def Call.reader? : Call Replicas → Option Nat
  | .read before _ _ => some before.current
  | .switch _ _ _ => none

namespace Recorded

/-- The replicas that the requests so far were made to, in order. -/
def readers (r : Recorded Replicas) : List Nat := r.calls.filterMap Call.reader?

theorem readers_push_read (r : Recorded Replicas) (before : Replicas) (request : Request)
    (outcome : Except StreamError Reply) (state : Replicas) :
    (r.push (.read before request outcome) state).readers = r.readers ++ [before.current] :=
  List.filterMap_append

theorem readers_push_switch (r : Recorded Replicas) (before : Replicas) (position : Int)
    (found : Bool) (state : Replicas) :
    (r.push (.switch before position found) state).readers = r.readers := by
  rw [readers, push, List.filterMap_append]
  exact List.append_nil _

/-- From the first state on to the second, no replica before the current one was read. -/
structure Onward (x y : Recorded Replicas) : Prop where
  inOrder : x.state.InOrder → y.state.InOrder
  forward : x.state.InOrder → x.state.current ≤ y.state.current
  readers : x.state.InOrder → ∃ added, y.readers = x.readers ++ added ∧ added.Pairwise (· ≤ ·) ∧
    ∀ i ∈ added, x.state.current ≤ i ∧ i ≤ y.state.current

namespace Onward

variable {x y z : Recorded Replicas}

theorem refl (x : Recorded Replicas) : Onward x x :=
  ⟨id, fun _ => Nat.le_refl _, fun _ => ⟨[], (List.append_nil _).symm, .nil, by simp⟩⟩

theorem trans (h : Onward x y) (h' : Onward y z) : Onward x z where
  inOrder hx := h'.inOrder (h.inOrder hx)
  forward hx := Nat.le_trans (h.forward hx) (h'.forward (h.inOrder hx))
  readers hx := by
    obtain ⟨added, hy, hsorted, hadded⟩ := h.readers hx
    obtain ⟨added', hz, hsorted', hadded'⟩ := h'.readers (h.inOrder hx)
    have hxy := h.forward hx
    have hyz := h'.forward (h.inOrder hx)
    refine ⟨added ++ added', by rw [hz, hy, List.append_assoc],
      List.pairwise_append.mpr ⟨hsorted, hsorted', fun i hi j hj => ?_⟩, fun i hi => ?_⟩
    · exact Nat.le_trans (hadded i hi).2 (hadded' j hj).1
    · obtain hi | hi := List.mem_append.mp hi
      · exact ⟨(hadded i hi).1, Nat.le_trans (hadded i hi).2 hyz⟩
      · exact ⟨Nat.le_trans hxy (hadded' i hi).1, (hadded' i hi).2⟩

/-- A request is made to the current replica. -/
theorem push_read {state : Replicas} (h : x.state.Moved state) (request : Request)
    (outcome : Except StreamError Reply) :
    Onward x (x.push (.read x.state request outcome) state) where
  inOrder := h.inOrder
  forward := h.forward
  readers hx := by
    refine ⟨[x.state.current], x.readers_push_read _ _ _ _, List.pairwise_singleton _ _,
      fun i hi => ?_⟩
    rw [List.mem_singleton.mp hi]
    exact ⟨Nat.le_refl _, h.forward hx⟩

theorem push_switch {state : Replicas} (h : x.state.Moved state) (position : Int) (found : Bool) :
    Onward x (x.push (.switch x.state position found) state) where
  inOrder := h.inOrder
  forward := h.forward
  readers _ := ⟨[], by rw [readers_push_switch, List.append_nil], .nil, by simp⟩

end Onward

theorem Restocked.onward {x y : Recorded Replicas} (h : Restocked x y) : Onward x y where
  inOrder := h.inOrder
  forward _ := Nat.le_of_eq h.current.symm
  readers _ := ⟨[], by rw [readers, h.calls, List.append_nil, readers], .nil, by simp⟩

end Recorded

/-- Every answer goes onward. -/
theorem Replicas.respects_onward : Replicas.source.recorded.Respects Recorded.Onward where
  refl := .refl
  trans := .trans
  read request x := by
    have hmoved := respects_moved.read request x.state
    cases hm : Replicas.source.recorded.read request x with
    | ok reply y =>
        obtain ⟨state, hstate, rfl⟩ := Source.read_recorded_eq_ok.mp hm
        exact .of_ok hm (.push_read (hmoved.ok hstate) _ _)
    | error e y =>
        obtain ⟨state, hstate, rfl⟩ := Source.read_recorded_eq_error.mp hm
        exact .of_error hm (.push_read (hmoved.error hstate) _ _)
  switch position x := .push_switch (x.state.moved_switch position) position _

/-! ## Replicas that differ in their bytes only -/

namespace Replicas

/-- All replicas hold data of one size, each with a stored checksum for every chunk of it. -/
structure Uniform (n : Nat) (r : Replicas) : Prop where
  size : ∀ i < r.list.length, (r.get i).data.size = n
  stored : ∀ i < r.list.length, ∀ index, index * r.chunk < n →
    (index + 1) * sumWidth ≤ (r.get i).sums.size

/-- The chunks of so many bytes from a position on all have their stored checksums in the replica at
an index. -/
def Intact (a : Algorithm) (position size : Nat) (r : Replicas) (i : Nat) : Prop :=
  ∀ index < Chunk.count size r.chunk,
    Chunk.Passes a r.chunk (r.get i).sums.bytes (r.get i).data.bytes (position / r.chunk + index)

/-- The first of these chunks that doesn't have its stored checksum, by its number in the data. -/
structure FirstDamaged (a : Algorithm) (position size : Nat) (r : Replicas) (i number : Nat) : Prop
    where
  le : position / r.chunk ≤ number
  lt : number < position / r.chunk + Chunk.count size r.chunk
  fails : ¬ Chunk.Passes a r.chunk (r.get i).sums.bytes (r.get i).data.bytes number
  before : ∀ j, position / r.chunk ≤ j → j < number →
    Chunk.Passes a r.chunk (r.get i).sums.bytes (r.get i).data.bytes j

/-- What is reported of chunk number `number` of the replica at an index. -/
def mismatchIn (a : Algorithm) (r : Replicas) (i number : Nat) : Mismatch :=
  Chunk.mismatchAt a r.chunk (r.get i).sums.bytes (r.get i).data.bytes 0 number

variable {a : Algorithm} {n position size : Nat} {r r' : Replicas}

instance (i : Nat) : Decidable (r.Intact a position size i) :=
  inferInstanceAs (Decidable (∀ _ < _, _))

theorem Uniform.moved (h : r.Uniform n) (hr : r.Moved r') : r'.Uniform n where
  size i hi := by
    rw [Storage.size, hr.data]
    exact h.size i (hr.length ▸ hi)
  stored i hi index hindex := by
    rw [Storage.size, hr.sums]
    exact h.stored i (hr.length ▸ hi) index (hr.chunk ▸ hindex)

theorem Moved.intact_iff (h : r.Moved r') (i : Nat) :
    r'.Intact a position size i ↔ r.Intact a position size i := by
  rw [Intact, Intact, h.chunk, h.data, h.sums]

theorem Moved.firstDamaged (h : r.Moved r') {i number : Nat}
    (hr : r'.FirstDamaged a position size i number) : r.FirstDamaged a position size i number := by
  obtain ⟨hle, hlt, hfails, hbefore⟩ := hr
  rw [h.chunk, h.data, h.sums] at hfails hbefore
  rw [h.chunk] at hle hlt
  exact ⟨hle, hlt, hfails, hbefore⟩

theorem FirstDamaged.not_intact {i number : Nat} (h : r.FirstDamaged a position size i number) :
    ¬ r.Intact a position size i := by
  intro hintact
  obtain ⟨index, rfl⟩ := Nat.exists_eq_add_of_le h.le
  exact h.fails (hintact index (Nat.lt_of_add_lt_add_left h.lt))

theorem Moved.mismatchIn_eq (h : r.Moved r') (a : Algorithm) (i number : Nat) :
    r'.mismatchIn a i number = r.mismatchIn a i number := by
  rw [mismatchIn, mismatchIn, h.chunk, h.data, h.sums]

end Replicas

/-! ## One attempt -/

/-- The number of bytes that are read at once of `rest` bytes that are left: whole chunks, as many
as fit into `size` bytes and as one request may ask for, up to the end of the data. -/
def Chunk.batch (chunk size rest : Nat) : Nat := min (min (size / chunk) chunksPerRead * chunk) rest

/-- The replicas from the current one on were read once each, up to the one at an index, which is
the current one now. -/
structure Session.Through (s t : Session (Recorded Replicas)) (i : Nat) : Prop where
  kept : s.Kept (fun x y => x.state.Moved y.state) t
  current : t.source.state.current = i
  readers : t.source.readers =
    s.source.readers ++ List.range' s.source.state.current (i + 1 - s.source.state.current)

namespace Session

variable {s t u : Session (Recorded Replicas)} {i : Nat}

/-- Before the last replica, the source goes to the next one and reads nothing. -/
theorem switched_next (h : s.source.state.InOrder)
    (hnext : s.source.state.current + 1 < s.source.state.list.length) (position : Int) :
    (Replicas.source.recorded.switch position s.source).1.1 = true ∧
      (s.switched Replicas.source.recorded position).source.state.current =
        s.source.state.current + 1 ∧
      (s.switched Replicas.source.recorded position).source.readers = s.source.readers := by
  have hswitch := Replicas.switch_next h hnext position
  refine ⟨?_, ?_, Recorded.readers_push_switch _ _ _ _ _⟩
  · exact congrArg (fun answer => answer.1.1) hswitch
  · exact congrArg (fun answer => answer.2.current) hswitch

/-- At the last replica the source stays and reads nothing. -/
theorem switched_last (h : s.source.state.InOrder)
    (hlast : s.source.state.current + 1 = s.source.state.list.length) (position : Int) :
    (Replicas.source.recorded.switch position s.source).1.1 = false ∧
      (s.switched Replicas.source.recorded position).source.state.current =
        s.source.state.current ∧
      (s.switched Replicas.source.recorded position).source.readers = s.source.readers := by
  have hswitch := Replicas.switch_last h hlast position
  refine ⟨?_, ?_, Recorded.readers_push_switch _ _ _ _ _⟩
  · exact congrArg (fun answer => answer.1.1) hswitch
  · exact congrArg (fun answer => answer.2.current) hswitch

namespace Through

theorem told (h : s.Through t i) (events : List Log.Event) : s.Through (t.told events) i :=
  ⟨h.kept.told events, h.current, h.readers⟩

/-- Looking for another copy reads none. -/
theorem switched_last (h : s.Through t i) (ht : t.source.state.InOrder)
    (hlast : t.source.state.current + 1 = t.source.state.list.length) (position : Int) :
    s.Through (t.switched Replicas.source.recorded position) i := by
  obtain ⟨-, hcurrent, hreaders⟩ := Session.switched_last ht hlast position
  exact ⟨h.kept.switched Replicas.respects_moved.recorded position, hcurrent.trans h.current,
    hreaders.trans h.readers⟩

/-- After the current replica, those from the next one on are read. -/
theorem trans_next {v : Session (Recorded Replicas)} (h : s.Through t s.source.state.current)
    (htu : t.Kept (fun x y => x.state.Moved y.state) u)
    (hcurrent : u.source.state.current = s.source.state.current + 1)
    (hreaders : u.source.readers = t.source.readers) (huv : u.Through v i)
    (hi : s.source.state.current < i) : s.Through v i where
  kept := (h.kept.trans Replicas.respects_moved.recorded htu).trans
    Replicas.respects_moved.recorded huv.kept
  current := huv.current
  readers := by
    have hone : s.source.state.current + 1 - s.source.state.current = 1 := by omega
    obtain ⟨m, hm⟩ : ∃ m, i + 1 - s.source.state.current = m + 1 :=
      ⟨i - s.source.state.current, by omega⟩
    have hm' : i + 1 - (s.source.state.current + 1) = m := by omega
    rw [huv.readers, hreaders, h.readers, hcurrent, hone, hm, hm', List.range'_succ,
      List.append_assoc]
    rfl

end Through

end Session

/-- The fetch ended at the replica at an index, with so many of its bytes from a position on. -/
structure Session.FetchedFrom (target : Stream.Target) (p count : Nat)
    (s t : Session (Recorded Replicas)) (i : Nat) : Prop where
  through : s.Through t i
  next_eq : t.stream.next = (p + count : Nat)
  bytes : ∀ k < count, target.byteAt k t = (s.source.state.get i).data.bytes[p + k]?

namespace Stream

/-- A fetch under way that verifies: the source will be read at the start of a chunk and before the
end of the data, and the window is empty. -/
structure Facing (a : Algorithm) (chunk n p : Nat) (s : Session (Recorded Replicas)) : Prop where
  matched : s.Matched (some a) chunk
  needsChecksum : s.stream.needsChecksum
  uniform : s.source.state.Uniform n
  filled : s.stream.filled = 0
  cursor : s.stream.cursor = 0
  next_eq : s.stream.next = p
  aligned : p % chunk = 0
  inside : p < n

namespace Facing

variable {a : Algorithm} {chunk n p size : Nat} {target : Target}
  {s t : Session (Recorded Replicas)}

theorem kept (h : Facing a chunk n p s) (hst : s.Kept (fun x y => x.state.Moved y.state) t)
    (hfilled : t.stream.filled = 0) (hcursor : t.stream.cursor = 0) (hnext : t.stream.next = p) :
    Facing a chunk n p t where
  matched := h.matched.kept hst
  needsChecksum := hst.stream.needsChecksum ▸ h.needsChecksum
  uniform := h.uniform.moved hst.source
  filled := hfilled
  cursor := hcursor
  next_eq := hnext
  aligned := h.aligned
  inside := h.inside

theorem size_eq (h : Facing a chunk n p s) : s.source.state.size = n :=
  h.uniform.size _ h.matched.inOrder.current_lt

theorem ask_capacity (h : Facing a chunk n p s) (size : Nat) :
    (s.stream.ask size).capacity = some (chunksPerRead * sumWidth) := by
  show s.stream.capacity = _
  rw [capacity, if_pos h.needsChecksum, h.matched.room rfl]

theorem batch_eq (h : Facing a chunk n p s) :
    s.source.state.batch p size (chunksPerRead * sumWidth) = Chunk.batch chunk size (n - p) := by
  rw [Replicas.batch, h.size_eq, h.matched.chunk_eq]
  rfl

/-- The sidecar of the current replica has the checksums of a batch. -/
theorem stored (h : Facing a chunk n p s) (hfits : size + chunk ≤ Word.count) :
    (p / chunk + Chunk.count (Chunk.batch chunk size (n - p)) chunk) * sumWidth ≤
      s.source.state.sidecar.length := by
  have hcurrent := h.matched.inOrder.current_lt
  have hchunk := h.matched.chunk_pos
  have hstart : p / chunk * chunk = p := Nat.div_mul_cancel (Nat.dvd_of_mod_eq_zero h.aligned)
  have hbatch : Chunk.batch chunk size (n - p) ≤ size := by
    rw [← h.batch_eq]
    exact Replicas.batch_le_size _ _ _ _
  have hrest : Chunk.batch chunk size (n - p) ≤ n - p := Nat.min_le_right _ _
  have hinside := h.inside
  have hstored := h.uniform.stored _ hcurrent
  rw [h.matched.chunk_eq] at hstored
  cases hcount : Chunk.count (Chunk.batch chunk size (n - p)) chunk with
  | zero =>
      cases hfirst : p / chunk with
      | zero => simp
      | succ last =>
          have hlast : (last + 1) * chunk = p := hfirst ▸ hstart
          rw [Nat.add_mul] at hlast
          exact hstored last (by omega)
  | succ last =>
      have hlast : last * chunk < Chunk.batch chunk size (n - p) :=
        (Chunk.lt_count_iff hchunk (by omega)).mp (by omega)
      have hindex : (p / chunk + last) * chunk < n := by
        rw [Nat.add_mul, hstart]
        omega
      exact hstored _ hindex

/-- The current replica answers with a batch. -/
theorem read_eq (h : Facing a chunk n p s) (hsize : chunk ≤ size)
    (hfits : size + chunk ≤ Word.count) :
    ∃ data sums state, s.source.state.Part (s.stream.ask size) p data sums ∧
      data.length = Chunk.batch chunk size (n - p) ∧
      state.current = s.source.state.current ∧
      Replicas.source.recorded.read (s.stream.ask size) s.source =
        .ok (.chunk data sums)
          (s.source.push (.read s.source.state (s.stream.ask size) (.ok (.chunk data sums))) state) := by
  have hchunk := h.matched.chunk_eq
  have hhalf : s.source.state.chunk < Word.half := hchunk ▸ h.matched.chunk_lt
  have hinside : p < s.source.state.size := h.size_eq ▸ h.inside
  have hsome : min (size / s.source.state.chunk) (chunksPerRead * sumWidth / sumWidth) ≠ 0 := by
    have hone : 0 < size / s.source.state.chunk :=
      Nat.div_pos (hchunk ▸ hsize) (hchunk ▸ h.matched.chunk_pos)
    have hdiv : chunksPerRead * sumWidth / sumWidth = chunksPerRead := rfl
    have hpos : 0 < chunksPerRead := by decide
    omega
  have hstored := h.stored hfits
  rw [← h.batch_eq, ← hchunk] at hstored
  have hanswer : ∀ answer, s.source.state.Answered (s.stream.ask size) answer → answer = _ :=
    fun answer hanswered => hanswered.eq_batch h.next_eq hinside (h.ask_capacity size) hhalf
      (hchunk ▸ h.aligned) hsome hstored
  have hread := Replicas.ends_read s.source.state (s.stream.ask size)
  cases hm : Replicas.read (s.stream.ask size) s.source.state with
  | error e state =>
      have herror := hanswer _ (hread.error hm).1
      cases herror
  | ok reply state =>
      obtain ⟨hanswered, hreread⟩ := hread.ok hm
      have hreply := Except.ok.inj (hanswer _ hanswered)
      subst hreply
      have hsmall : min size s.source.state.size + s.source.state.chunk ≤ Word.count :=
        Nat.le_trans (Nat.add_le_add_right (Nat.min_le_left _ _) _) (hchunk ▸ hfits)
      obtain ⟨p', hpart⟩ := hanswered.part (hchunk ▸ h.matched.chunk_pos) hhalf hsmall
      have hp : (p' : Int) = p := hpart.position.symm.trans h.next_eq
      obtain rfl : p' = p := Int.ofNat_inj.mp hp
      refine ⟨_, _, state, hpart, ?_, hreread.current,
        Source.read_recorded_eq_ok.mpr ⟨state, hm, rfl⟩⟩
      have hend := Replicas.add_batch_le (Nat.le_of_lt hinside) size (chunksPerRead * sumWidth)
      rw [Bytes.length_slice, ← h.batch_eq]
      exact Nat.min_eq_left (Nat.le_sub_of_add_le' hend)

/-- There is room for the checksums of a batch. -/
theorem hasSums (h : Facing a chunk n p s) (hfits : size + chunk ≤ Word.count) :
    s.stream.HasSums (Chunk.batch chunk size (n - p)) := by
  intro _
  have hchunk := h.matched.chunk_eq
  have hsmall : s.source.state.batch p size (chunksPerRead * sumWidth) + s.source.state.chunk ≤
      Word.count := by
    have hbatch := s.source.state.batch_le_size p size (chunksPerRead * sumWidth)
    omega
  have hcount := Replicas.count_batch_le (hchunk ▸ h.matched.chunk_pos) hsmall
  rw [h.matched.room rfl, h.matched.maxChunk_eq, ← h.batch_eq, ← hchunk]
  exact Nat.mul_le_mul_right _ (Nat.le_trans hcount (Nat.min_le_right _ _))

section Replies

variable {data sums : Bytes} {x : Recorded Replicas}

/-- What is found about a part of the current replica is its first damaged chunk. -/
theorem mismatch?_eq (h : Facing a chunk n p s) (hsums : s.stream.HasSums data.length)
    (hpart : s.source.state.Part (s.stream.ask size) p data sums) :
    (s.received target data sums x).stream.mismatch? data =
      (Chunk.firstFailing a s.source.state.chunk sums data 0
        (Chunk.count data.length s.source.state.chunk)).map
        (Chunk.mismatchAt a s.source.state.chunk sums data p) := by
  have hmaxChunk := h.matched.maxChunk_eq.trans h.matched.chunk_eq.symm
  rw [mismatch?_received hsums fun _ => ?_, verdict_eq h.needsChecksum h.matched.checksum_eq,
    hmaxChunk, h.next_eq]
  · rfl
  · exact Nat.le_of_eq (by rw [hpart.length_sums (h.ask_capacity size ▸ rfl), hmaxChunk])

/-- The reply read the current replica once, whether it passes or not. -/
theorem through_received (target : Target) {state : Replicas}
    (hcurrent : state.current = s.source.state.current)
    (hread : Replicas.source.recorded.read (s.stream.ask size) s.source =
      .ok (.chunk data sums)
        (s.source.push (.read s.source.state (s.stream.ask size) (.ok (.chunk data sums))) state)) :
    s.Through (s.received target data sums
      (s.source.push (.read s.source.state (s.stream.ask size) (.ok (.chunk data sums))) state))
      s.source.state.current where
  kept := Kept.received Replicas.respects_moved.recorded
    (.refl Replicas.respects_moved.recorded s) hread
  current := by
    rw [source_received]
    exact hcurrent
  readers := by
    rw [source_received, Recorded.readers_push_read, Nat.add_sub_cancel_left]
    rfl

/-- With a part in its place that doesn't pass, the fetch is under way as before. -/
theorem received (h : Facing a chunk n p s)
    (hkept : s.Kept (fun x y => x.state.Moved y.state) (s.received target data sums x)) :
    Facing a chunk n p (s.received target data sums x) := by
  refine h.kept hkept ?_ ?_ ?_
  · cases target <;> exact h.filled
  · cases target <;> exact h.cursor
  · cases target <;> exact h.next_eq

/-- A part that passes is fetched. -/
theorem fetched (h : Facing a chunk n p s)
    (hpart : s.source.state.Part (s.stream.ask size) p data sums)
    (hthrough : s.Through (s.received target data sums x) s.source.state.current) :
    s.FetchedFrom target p data.length ((s.received target data sums x).advanced data.length)
      s.source.state.current where
  through := ⟨hthrough.kept.of_alike .placed rfl rfl,
    hthrough.current, hthrough.readers⟩
  next_eq := by
    have hnext : (s.received target data sums x).stream.next = s.stream.next := by
      cases target <;> rfl
    show (s.received target data sums x).stream.next + (data.length : Int) = _
    rw [hnext, h.next_eq]
    rfl
  bytes k hk := by
    have hput : target.byteAt k (target.put data s) = data[k]? := Target.byteAt_put hk
    have hdata : data[k]? = s.source.state.bytes[p + k]? := by
      rw [hpart.data_eq, Bytes.getElem?_slice, if_pos hk]
    show _ = s.source.state.bytes[p + k]?
    rw [← hdata, ← hput]
    cases target <;> rfl

/-- A part passes exactly if the replica is intact there. -/
theorem intact_of_part (h : Facing a chunk n p s)
    (hpart : s.source.state.Part (s.stream.ask size) p data sums)
    (hnone : Chunk.firstFailing a s.source.state.chunk sums data 0
      (Chunk.count data.length s.source.state.chunk) = none) :
    s.source.state.Intact a p data.length s.source.state.current := by
  have hsome : (s.stream.ask size).capacity.isSome := h.ask_capacity size ▸ rfl
  intro index hindex
  exact (hpart.passes_iff hsome hindex a).mp (Chunk.firstFailing_eq_none.mp hnone index hindex)

theorem firstDamaged_of_part (h : Facing a chunk n p s)
    (hpart : s.source.state.Part (s.stream.ask size) p data sums) {index : Nat}
    (hindex : Chunk.firstFailing a s.source.state.chunk sums data 0
      (Chunk.count data.length s.source.state.chunk) = some index) :
    s.source.state.FirstDamaged a p data.length s.source.state.current
        (p / s.source.state.chunk + index) ∧
      Chunk.mismatchAt a s.source.state.chunk sums data p index =
        s.source.state.mismatchIn a s.source.state.current (p / s.source.state.chunk + index) := by
  have hsome : (s.stream.ask size).capacity.isSome := h.ask_capacity size ▸ rfl
  obtain ⟨hlt, hfails, hbefore⟩ := Chunk.firstFailing_eq_some.mp hindex
  have hpasses := fun j (hj : j < Chunk.count data.length s.source.state.chunk) =>
    hpart.passes_iff hsome hj a
  refine ⟨⟨Nat.le_add_right _ _, Nat.add_lt_add_left hlt _, fun hstored => ?_, fun j hle hj => ?_⟩,
    hpart.mismatchAt_eq hsome hlt a⟩
  · exact hfails ((hpasses index hlt).mpr hstored)
  · obtain ⟨i, rfl⟩ := Nat.exists_eq_add_of_le hle
    exact (hpasses i (by omega)).mp (hbefore i (by omega))

end Replies

/-- An attempt reads the current replica once and passes if that is intact. Otherwise it finds the
first chunk damaged there, and the fetch is under way as before. -/
theorem tried (h : Facing a chunk n p s) (hsize : chunk ≤ size) (hfits : size + chunk ≤ Word.count)
    {r : Except StreamError Attempt} (ht : Tried Replicas.source.recorded target size s r t) :
    s.source.state.Intact a p (Chunk.batch chunk size (n - p)) s.source.state.current ∧
        r = .ok (.passed (Chunk.batch chunk size (n - p))) ∧
        s.FetchedFrom target p (Chunk.batch chunk size (n - p)) t s.source.state.current ∨
      ∃ data number,
        s.source.state.FirstDamaged a p (Chunk.batch chunk size (n - p)) s.source.state.current
          number ∧
        r = .ok (.damaged data (s.source.state.mismatchIn a s.source.state.current number)) ∧
        Facing a chunk n p t ∧ s.Through t s.source.state.current := by
  obtain ⟨data, sums, state, hpart, hlength, hcurrent, hread⟩ := h.read_eq hsize hfits
  have hpos := hpart.pos (Nat.lt_of_lt_of_le h.matched.chunk_pos hsize)
  have hsums := h.hasSums hfits
  rw [← hlength] at hsums ⊢
  have hthrough := through_received target hcurrent hread
  cases ht with
  | refused e y hy =>
      rw [hread] at hy
      cases hy
  | ended below y hy =>
      rw [hread] at hy
      cases hy
  | empty sums' y hy =>
      rw [hread] at hy
      cases hy
      exact absurd hpos (Nat.lt_irrefl 0)
  | crowded data' sums' y hy _ hfew =>
      rw [hread] at hy
      cases hy
      exact absurd hsums hfew
  | passed data' sums' y hy _ _ hmismatch =>
      rw [hread] at hy
      cases hy
      rw [h.mismatch?_eq hsums hpart, Option.map_eq_none_iff] at hmismatch
      exact .inl ⟨h.intact_of_part hpart hmismatch, rfl, h.fetched hpart hthrough⟩
  | damaged data' sums' y m hy _ _ hmismatch =>
      rw [hread] at hy
      cases hy
      rw [h.mismatch?_eq hsums hpart] at hmismatch
      obtain ⟨index, hindex, rfl⟩ := Option.map_eq_some_iff.mp hmismatch
      obtain ⟨hfirst, hreport⟩ := h.firstDamaged_of_part hpart hindex
      exact .inr ⟨data, _, hfirst, by rw [hreport], h.received hthrough.kept, hthrough⟩

/-! ## All attempts -/

/-- A fetch at the start of a chunk doesn't move when the stream seeks to where it is. -/
theorem start_eq (h : Facing a chunk n p s) :
    Replicas.source.recorded.start s.source s.stream.next = s.stream.next := by
  show Replicas.start s.source.state _ = _
  rw [h.next_eq, Replicas.start, h.matched.chunk_eq, Chunk.start_natCast h.matched.chunk_lt,
    h.aligned, Nat.sub_zero]

theorem told (h : Facing a chunk n p s) (events : List Log.Event) :
    Facing a chunk n p (s.told events) :=
  h.kept ((Kept.refl Replicas.respects_moved.recorded s).told events) h.filled h.cursor h.next_eq

theorem switched (h : Facing a chunk n p s) (position : Int) :
    Facing a chunk n p (s.switched Replicas.source.recorded position) :=
  h.kept (Kept.switched Replicas.respects_moved.recorded
    (.refl Replicas.respects_moved.recorded s) position) h.filled h.cursor h.next_eq

/-- After a damaged replica that isn't the last one, the fetch goes on at the next one, and what is
read then is read after the damaged one. -/
theorem retried (h : Facing a chunk n p t) (hthrough : s.Through t s.source.state.current)
    (hnext : s.source.state.current + 1 < s.source.state.list.length) (position : Int)
    (event event' : Log.Event) :
    Facing a chunk n p
        (((t.told [event]).switched Replicas.source.recorded position).told [event']) ∧
      s.Kept (fun x y => x.state.Moved y.state)
        (((t.told [event]).switched Replicas.source.recorded position).told [event']) ∧
      (((t.told [event]).switched Replicas.source.recorded position).told [event']).source.state.current =
        s.source.state.current + 1 ∧
      ∀ v i, s.source.state.current < i →
        (((t.told [event]).switched Replicas.source.recorded position).told [event']).Through v i →
        s.Through v i := by
  have hnext : t.source.state.current + 1 < t.source.state.list.length := by
    rw [hthrough.current, hthrough.kept.source.length]
    exact hnext
  obtain ⟨-, hcurrent, hreaders⟩ := Session.switched_next h.matched.inOrder hnext position
  rw [hthrough.current] at hcurrent
  have hkept : t.Kept (fun x y => x.state.Moved y.state)
      (((t.told [event]).switched Replicas.source.recorded position).told [event']) :=
    (((Kept.refl Replicas.respects_moved.recorded t).told _).switched
      Replicas.respects_moved.recorded position).told _
  exact ⟨((h.told _).switched position).told _,
    hthrough.kept.trans Replicas.respects_moved.recorded hkept, hcurrent,
    fun v i hi hv => hthrough.trans_next hkept hcurrent hreaders hv hi⟩

/-- A fetch with attempts left ends at the current replica if that is intact. Otherwise it fails, if
this was the last attempt or the last replica, or else goes on at the next replica. -/
theorem ends_attempt_succ (h : Facing a chunk n p s) (hsize : chunk ≤ size)
    (hfits : size + chunk ≤ Word.count) {nesting left : Nat}
    {Q : Option Nat → Session (Recorded Replicas) → Prop}
    {E : StreamError → Session (Recorded Replicas) → Prop}
    (intact : s.source.state.Intact a p (Chunk.batch chunk size (n - p)) s.source.state.current →
      ∀ t, s.FetchedFrom target p (Chunk.batch chunk size (n - p)) t s.source.state.current →
        Q (some (Chunk.batch chunk size (n - p))) t)
    (stopped : left = 0 ∨ s.source.state.current + 1 = s.source.state.list.length →
      ∀ number t, s.source.state.FirstDamaged a p (Chunk.batch chunk size (n - p))
        s.source.state.current number →
      Facing a chunk n p t → s.Through t s.source.state.current →
        E (.corrupted s.stream.name (s.source.state.mismatchIn a s.source.state.current number)) t)
    (onward : left ≠ 0 → s.source.state.current + 1 < s.source.state.list.length →
      ¬ s.source.state.Intact a p (Chunk.batch chunk size (n - p)) s.source.state.current →
      ∀ u, Facing a chunk n p u → s.Kept (fun x y => x.state.Moved y.state) u →
        u.source.state.current = s.source.state.current + 1 →
        (∀ v i, s.source.state.current < i → u.Through v i → s.Through v i) →
        Ends (attempt Replicas.source.recorded (seekNested Replicas.source.recorded nesting) target
          size left) u Q E) :
    Ends (attempt Replicas.source.recorded (seekNested Replicas.source.recorded nesting) target size
      (left + 1)) s Q E := by
  have hcases := fun r t (ht : Tried Replicas.source.recorded target size s r t) =>
    h.tried hsize hfits ht
  have hlength : ∀ t : Session (Recorded Replicas), s.Through t s.source.state.current →
      t.source.state.current = s.source.state.current ∧
        t.source.state.list.length = s.source.state.list.length :=
    fun t ht => ⟨ht.current, ht.kept.source.length⟩
  refine Stream.ends_attempt_succ h.matched.ready ?ended ?passed ?failed ?last ?alone ?retried
  case ended =>
    intro t ht
    obtain ⟨-, hr, -⟩ | ⟨_, _, -, hr, -⟩ := hcases _ t ht <;> cases hr
  case passed =>
    intro count t ht
    obtain ⟨hintact, hr, hfetched⟩ | ⟨_, _, -, hr, -⟩ := hcases _ t ht
    · cases hr
      exact intact hintact t hfetched
    · cases hr
  case failed =>
    intro e t ht
    obtain ⟨-, hr, -⟩ | ⟨_, _, -, hr, -⟩ := hcases _ t ht <;> cases hr
  case last =>
    intro hleft data mismatch t ht
    obtain ⟨-, hr, -⟩ | ⟨_, number, hdamaged, hr, hfacing, hthrough⟩ := hcases _ t ht
    · cases hr
    · cases hr
      exact stopped (.inl hleft) number _ hdamaged (hfacing.told _) (hthrough.told _)
  case alone =>
    intro _ data mismatch t ht hfound
    obtain ⟨-, hr, -⟩ | ⟨_, number, hdamaged, hr, hfacing, hthrough⟩ := hcases _ t ht
    · cases hr
    · cases hr
      have hlast : s.source.state.current + 1 = s.source.state.list.length := by
        refine Nat.le_antisymm h.matched.inOrder.current_lt (Nat.le_of_not_lt fun hnext => ?_)
        obtain ⟨htrue, -⟩ := Session.switched_next hfacing.matched.inOrder
          (by rw [hthrough.current, hthrough.kept.source.length]; exact hnext) s.stream.next
        exact Bool.false_ne_true (hfound.symm.trans htrue)
      have hlast' : t.source.state.current + 1 = t.source.state.list.length := by
        rw [hthrough.current, hthrough.kept.source.length]
        exact hlast
      exact stopped (.inr hlast) number _ hdamaged ((hfacing.told _).switched _)
        ((hthrough.told _).switched_last hfacing.matched.inOrder hlast' _)
  case retried =>
    intro hleft data mismatch t ht hfound
    obtain ⟨-, hr, -⟩ | ⟨_, number, hdamaged, hr, hfacing, hthrough⟩ := hcases _ t ht
    · cases hr
    · have hnext : t.source.state.current + 1 < t.source.state.list.length := by
        refine Nat.lt_of_le_of_ne hfacing.matched.inOrder.current_lt fun hlast => ?_
        obtain ⟨hfalse, -⟩ := Session.switched_last hfacing.matched.inOrder hlast s.stream.next
        exact Bool.false_ne_true (hfalse.symm.trans hfound)
      rw [hthrough.current, hthrough.kept.source.length] at hnext
      obtain ⟨hu, hkept, hcurrent, hrest⟩ := hfacing.retried hthrough hnext s.stream.next
        (s.stream.corruption data) (.switched s.stream.name s.stream.next left)
      have hposition := h.next_eq.trans hu.next_eq.symm
      refine Stream.ends_seekNested_next hu.matched.ready hposition hu.start_eq hu.filled hu.cursor ?_
      exact onward hleft hnext hdamaged.not_intact _ hu hkept hcurrent hrest

/-- With an intact replica in reach, a fetch ends at the first one. -/
theorem ends_attempt_intact (h : Facing a chunk n p s) (hsize : chunk ≤ size)
    (hfits : size + chunk ≤ Word.count) {nesting attempts i : Nat}
    (hle : s.source.state.current ≤ i)
    (hlt : i < min s.source.state.list.length (s.source.state.current + attempts))
    (hintact : s.source.state.Intact a p (Chunk.batch chunk size (n - p)) i)
    (hbefore : ∀ j, s.source.state.current ≤ j → j < i →
      ¬ s.source.state.Intact a p (Chunk.batch chunk size (n - p)) j) :
    Ends (attempt Replicas.source.recorded (seekNested Replicas.source.recorded nesting) target size
        attempts) s
      (fun count t => count = some (Chunk.batch chunk size (n - p)) ∧
        s.FetchedFrom target p (Chunk.batch chunk size (n - p)) t i)
      (fun _ _ => False) := by
  induction attempts generalizing s with
  | zero => omega
  | succ left ih =>
      refine h.ends_attempt_succ hsize hfits ?intact ?stopped ?onward
      case intact =>
        intro hcurrent t ht
        obtain rfl | hafter := Nat.eq_or_lt_of_le hle
        · exact ⟨rfl, ht⟩
        · exact absurd hcurrent (hbefore _ (Nat.le_refl _) hafter)
      case stopped =>
        intro hlast number t hdamaged
        obtain rfl : i = s.source.state.current := by omega
        exact absurd hintact hdamaged.not_intact
      case onward =>
        intro hleft hnext hdamaged u hu hkept hcurrent hrest
        have hmoved := hkept.source
        -- The replica that was read is damaged, so the intact one comes after it.
        have hafter : s.source.state.current < i := by
          refine Nat.lt_of_le_of_ne hle fun hsame => ?_
          subst hsame
          exact hdamaged hintact
        refine (ih hu (by omega) ?_ ((hmoved.intact_iff i).mpr hintact) fun j hj hlt => ?_).mono
          (fun count t ht => ?_) (fun _ _ ht => ht)
        · rw [hmoved.length, hcurrent]
          omega
        · rw [hmoved.intact_iff]
          exact hbefore j (by omega) hlt
        · obtain ⟨hcount, hthrough, hnext, hbytes⟩ := ht
          refine ⟨hcount, hrest t i hafter hthrough, hnext, fun k hk => ?_⟩
          rw [hbytes k hk, hmoved.data]

/-- Without an intact replica in reach, a fetch fails at the last one that it reads. -/
theorem ends_attempt_damaged (h : Facing a chunk n p s) (hsize : chunk ≤ size)
    (hfits : size + chunk ≤ Word.count) {nesting attempts last : Nat} (hattempts : 0 < attempts)
    (hlast : last + 1 =
      s.source.state.current + min attempts (s.source.state.list.length - s.source.state.current))
    (hdamaged : ∀ j, s.source.state.current ≤ j → j ≤ last →
      ¬ s.source.state.Intact a p (Chunk.batch chunk size (n - p)) j) :
    Ends (attempt Replicas.source.recorded (seekNested Replicas.source.recorded nesting) target size
        attempts) s
      (fun _ _ => False)
      (fun e t => ∃ number,
        s.source.state.FirstDamaged a p (Chunk.batch chunk size (n - p)) last number ∧
        e = .corrupted s.stream.name (s.source.state.mismatchIn a last number) ∧
        t.stream.next = p ∧ s.Through t last) := by
  induction attempts generalizing s with
  | zero => exact absurd hattempts (Nat.lt_irrefl 0)
  | succ left ih =>
      have hcurrent := h.matched.inOrder.current_lt
      refine h.ends_attempt_succ hsize hfits ?intact ?stopped ?onward
      case intact =>
        intro hintact
        exact absurd hintact (hdamaged _ (Nat.le_refl _) (by omega))
      case stopped =>
        intro hstop number t hfirst ht hthrough
        obtain rfl : last = s.source.state.current := by omega
        exact ⟨number, hfirst, rfl, ht.next_eq, hthrough⟩
      case onward =>
        intro hleft hnext _ u hu hkept hcurrent hrest
        have hmoved := hkept.source
        refine (ih hu (Nat.pos_of_ne_zero hleft) ?_ fun j hj hle => ?_).mono (fun _ _ ht => ht)
          (fun e t ht => ?_)
        · rw [hmoved.length, hcurrent]
          omega
        · rw [hmoved.intact_iff]
          exact hdamaged j (by omega) hle
        · obtain ⟨number, hfirst, he, hposition, hthrough⟩ := ht
          refine ⟨number, hmoved.firstDamaged hfirst, ?_, hposition, hrest t last (by omega) hthrough⟩
          rw [he, hkept.stream.name, hmoved.mismatchIn_eq]

end Facing

end Stream

/-- On replicas with data of one size and complete sidecars, a fetch that verifies at the start of a
chunk ends at the first intact replica from the current one on, as long as attempts and replicas
reach that far. Otherwise it fails at the last replica in reach, with the first damaged chunk there.
Every replica up to that one is read once, and no run afterwards reads one before the current one.
All this holds in every session of a run, and in the middle of its operations. -/
theorem fetch_ends_at_first_intact {a : Algorithm} {options : Options}
    {list : List (Option Storage × Option Storage)} {replicas : Replicas} {stream : Stream}
    {s t : Session (Recorded Replicas)} {target : Stream.Target} {nesting size n p : Nat}
    (hreplicas : Replicas.ofList? list options.maxChunk = .ok replicas)
    (hstream : Stream.ofOptions? (some a) options = .ok stream)
    (hchunk : options.maxChunk < Word.half)
    (ht : Session.Reaches Replicas.source.recorded Operation.Fits Recorded.Restocked
      { stream, source := { state := replicas } } t)
    (hs : t.Kept (fun x y => x.state.Moved y.state) s) (hneeds : s.stream.needsChecksum)
    (huniform : s.source.state.Uniform n) (hnext : s.stream.next = p)
    (haligned : p % options.maxChunk = 0) (hinside : p < n) (hsize : options.maxChunk ≤ size)
    (hfits : size < Word.half) :
    (∀ i, s.source.state.current ≤ i →
      i < min s.source.state.list.length (s.source.state.current + options.attempts) →
      s.source.state.Intact a p (Chunk.batch options.maxChunk size (n - p)) i →
      (∀ j, s.source.state.current ≤ j → j < i →
        ¬ s.source.state.Intact a p (Chunk.batch options.maxChunk size (n - p)) j) →
      Ends (Stream.fetchWith Replicas.source.recorded
          (Stream.seekNested Replicas.source.recorded nesting) target size) s
        (fun count u => count = some (Chunk.batch options.maxChunk size (n - p)) ∧
          s.FetchedFrom target p (Chunk.batch options.maxChunk size (n - p)) u i)
        (fun _ _ => False)) ∧
    ((∀ i, s.source.state.current ≤ i →
        i < min s.source.state.list.length (s.source.state.current + options.attempts) →
        ¬ s.source.state.Intact a p (Chunk.batch options.maxChunk size (n - p)) i) →
      ∀ last, last = s.source.state.current +
        min options.attempts (s.source.state.list.length - s.source.state.current) - 1 →
      Ends (Stream.fetchWith Replicas.source.recorded
          (Stream.seekNested Replicas.source.recorded nesting) target size) s
        (fun _ _ => False)
        (fun e u => ∃ number,
          s.source.state.FirstDamaged a p (Chunk.batch options.maxChunk size (n - p)) last number ∧
          e = .corrupted options.name (s.source.state.mismatchIn a last number) ∧
          u.stream.next = p ∧ s.Through u last)) ∧
    ∀ u, Session.Reaches Replicas.source.recorded Operation.Fits Recorded.Restocked s u →
      ∃ added, u.source.readers = s.source.readers ++ added ∧ added.Pairwise (· ≤ ·) ∧
        ∀ i ∈ added, s.source.state.current ≤ i ∧ i ≤ u.source.state.current := by
  have hmatched := (Session.Sound.of_reaches hreplicas hstream hchunk ht).matched.kept hs
  obtain ⟨-, hpos, hbuilt⟩ := Stream.eq_of_ofOptions? hstream
  obtain ⟨verify, hkept⟩ := ht.kept Replicas.respects_onward (fun _ _ h => h.onward)
    (Stream.ready_of_ofOptions? hstream)
  have hattempts : s.stream.attempts = options.attempts := by
    rw [hs.stream.attempts, hkept.stream.attempts, hbuilt]
  have hname : s.stream.name = options.name := by
    rw [hs.stream.name, hkept.stream.name, hbuilt]
  have hword : size + options.maxChunk ≤ Word.count := by
    have hhalf : Word.half + Word.half = Word.count := rfl
    omega
  have hfacing : Stream.Facing a options.maxChunk n p s.cleared :=
    ⟨hmatched.alike s.alike_cleared rfl, hneeds, huniform, rfl, rfl, hnext, haligned, hinside⟩
  have hthrough : ∀ u i, s.cleared.Through u i → s.Through u i := fun u i hu =>
    ⟨⟨s.alike_cleared.trans hu.kept.stream, hu.kept.source, hu.kept.events⟩, hu.current, hu.readers⟩
  simp only [Stream.ends_fetchWith, hattempts]
  refine ⟨fun i hle hlt hintact hbefore => ?_, fun hdamaged last hlast => ?_, fun u hu => ?_⟩
  · refine (hfacing.ends_attempt_intact hsize hword hle hlt hintact hbefore).mono
      (fun count u hu => ⟨hu.1, ?_⟩) (fun _ _ hu => hu)
    exact ⟨hthrough u i hu.2.through, hu.2.next_eq, hu.2.bytes⟩
  · have hcurrent := hmatched.inOrder.current_lt
    have hlast : last + 1 = s.cleared.source.state.current +
        min options.attempts (s.cleared.source.state.list.length - s.cleared.source.state.current) := by
      show last + 1 = s.source.state.current +
        min options.attempts (s.source.state.list.length - s.source.state.current)
      omega
    have hdamaged : ∀ i, s.cleared.source.state.current ≤ i → i ≤ last →
        ¬ s.cleared.source.state.Intact a p (Chunk.batch options.maxChunk size (n - p)) i := by
      intro i hle hi
      have hle : s.source.state.current ≤ i := hle
      exact hdamaged i hle (by omega)
    refine (hfacing.ends_attempt_damaged hsize hword hpos hlast hdamaged).mono
      (fun _ _ hu => hu) (fun e u hu => ?_)
    obtain ⟨number, hfirst, he, hposition, hu⟩ := hu
    exact ⟨number, hfirst, hname ▸ he, hposition, hthrough u last hu⟩
  · obtain ⟨_, hu⟩ := hu.kept Replicas.respects_onward (fun _ _ h => h.onward) hmatched.ready
    exact hu.source.readers hmatched.inOrder

/-- With the second of three replicas current and damaged, a fetch ends at the third one. -/
theorem fetch_ends_at_third :
    ∃ replicas stream,
      Replicas.ofList?
        ([Replica.ofBytes .crc32 2 [1, 2, 3],
          ⟨{ bytes := [1, 7, 3] }, { bytes := Sidecar.ofBytes .crc32 2 [1, 2, 3] }⟩,
          Replica.ofBytes .crc32 2 [1, 2, 3]].map Replica.storages) 2 = .ok replicas ∧
      Stream.ofOptions? (some .crc32) { maxChunk := 2, attempts := 2 } = .ok stream ∧
      ∃ s, s = (Operation.switch 0).after Replicas.source.recorded
          { stream, source := { state := replicas } } ∧
        Ends (Stream.fetchWith Replicas.source.recorded
            (Stream.seekNested Replicas.source.recorded 0) .window 2) s
          (fun count u => count = some 2 ∧ s.FetchedFrom .window 0 2 u 2) (fun _ _ => False) := by
  have hreplicas : Replicas.ofList?
      ([Replica.ofBytes .crc32 2 [1, 2, 3],
        ⟨{ bytes := [1, 7, 3] }, { bytes := Sidecar.ofBytes .crc32 2 [1, 2, 3] }⟩,
        Replica.ofBytes .crc32 2 [1, 2, 3]].map Replica.storages) 2 = .ok _ := rfl
  have hstream : Stream.ofOptions? (some .crc32) { maxChunk := 2, attempts := 2 } = .ok _ := rfl
  refine ⟨_, _, hreplicas, hstream, _, rfl, ?_⟩
  generalize hs : (Operation.switch 0).after (Replicas.source : Source Replicas).recorded _ = s
  have hstate : s.stream.needsChecksum = true ∧ s.stream.next = 0 ∧ s.source.state.current = 1 ∧
      s.source.state.chunk = 2 ∧ s.source.state.list.length = 3 ∧
      (∀ i < 3, (s.source.state.get i).data.size = 3 ∧ (s.source.state.get i).sums.size = 8) ∧
      s.source.state.Intact .crc32 0 2 2 ∧ ¬ s.source.state.Intact .crc32 0 2 1 := by
    rw [← hs]
    decide +kernel
  obtain ⟨hneeds, hnext, hcurrent, hchunk, hlength, hsizes, hintact, hdamaged⟩ := hstate
  have huniform : s.source.state.Uniform 3 := by
    refine ⟨fun i hi => (hsizes i (by omega)).1, fun i hi index hindex => ?_⟩
    rw [(hsizes i (by omega)).2]
    rw [hchunk] at hindex
    show (index + 1) * 4 ≤ 8
    omega
  refine (fetch_ends_at_first_intact hreplicas hstream (by decide)
    (hs ▸ .perform (.switch 0) .refl (fun _ hbuffer => absurd hbuffer (Option.not_mem_none _)))
    (.refl Replicas.respects_moved.recorded _) hneeds huniform hnext (by decide) (by decide)
    (by decide) (by decide)).1 2 (by omega) ?_ hintact fun j hle hlt => ?_
  · rw [hlength, hcurrent]
    decide
  · obtain rfl : j = 1 := by omega
    exact hdamaged

end ChunkGuard
