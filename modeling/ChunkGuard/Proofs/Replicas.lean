import ChunkGuard.Proofs.Frame
import ChunkGuard.Source.Recorded
import ChunkGuard.Source.Replicas

/-!
# Reading replicas and changing between them

`Replicas.Answered` lists the answers of replicas to a request, each with its condition. Every request
has one (`Replicas.exists_answered`), and by `Replicas.Answered.read_eq` it changes nothing but how
often the current replica was read (`Replicas.Reread`). Marks are put from the first replica on, without
a gap (`Replicas.InOrder`), so a change goes to the next replica and never back (`switch_next`,
`switch_last`).
-/

namespace ChunkGuard

namespace Replicas

/-- The data of the replica that is read now. -/
def bytes (r : Replicas) : Bytes := (r.get r.current).data.bytes

/-- The size is the number of bytes in the current replica. -/
theorem size_eq_length (r : Replicas) : r.size = r.bytes.length := rfl

/-- The sidecar of the replica that is read now. -/
def sidecar (r : Replicas) : Bytes := (r.get r.current).sums.bytes

/-- The number of bytes that a verified request is answered with: whole chunks, as far as there is
room for them and for their checksums, up to the end of the data. -/
def batch (r : Replicas) (offset size capacity : Nat) : Nat :=
  min (min (size / r.chunk) (capacity / sumWidth) * r.chunk) (r.size - offset)

/-! ## Requests -/

/-- The second set of replicas differs from the first in how often the current one was read. -/
structure Reread (r r' : Replicas) : Prop where
  chunk : r'.chunk = r.chunk
  current : r'.current = r.current
  marked : r'.marked = r.marked
  length : r'.list.length = r.list.length
  data : ∀ i, (r'.get i).data.bytes = (r.get i).data.bytes
  sums : ∀ i, (r'.get i).sums.bytes = (r.get i).sums.bytes
  others : ∀ i, i ≠ r.current → r'.list[i]? = r.list[i]?

namespace Reread

variable {r r' : Replicas}

theorem refl (r : Replicas) : r.Reread r :=
  ⟨rfl, rfl, rfl, rfl, fun _ => rfl, fun _ => rfl, fun _ _ => rfl⟩

/-- The current data has the same size. -/
theorem size (h : r.Reread r') : r'.size = r.size := by
  rw [Replicas.size, h.current]
  exact congrArg List.length (h.data r.current)

/-- The current sidecar is the same. -/
theorem sidecar (h : r.Reread r') : r'.sidecar = r.sidecar := by
  rw [Replicas.sidecar, h.current]
  exact h.sums r.current

end Reread

/-- A replica that holds the same bytes takes the place of the current one. -/
theorem reread_alter (r : Replicas) (f : Replica → Replica)
    (hdata : (f (r.get r.current)).data.bytes = (r.get r.current).data.bytes)
    (hsums : (f (r.get r.current)).sums.bytes = (r.get r.current).sums.bytes) :
    r.Reread (r.alter r.current f) := by
  have hget : ∀ i, (r.alter r.current f).get i = r.get i ∨
      i = r.current ∧ (r.alter r.current f).get i = f (r.get r.current) := by
    intro i
    by_cases hi : i = r.current
    · subst hi
      cases hr : r.list[r.current]? with
      | none => exact .inl (by simp [get, alter, List.getD_eq_getElem?_getD, hr])
      | some replica => exact .inr ⟨rfl, by simp [get, alter, List.getD_eq_getElem?_getD, hr]⟩
    · exact .inl (by simp [get, alter, List.getD_eq_getElem?_getD, Ne.symm hi])
  refine ⟨rfl, rfl, rfl, List.length_modify .., fun i => ?_, fun i => ?_, fun i hi => ?_⟩
  · obtain h | ⟨rfl, h⟩ := hget i
    · rw [h]
    · rw [h, hdata]
  · obtain h | ⟨rfl, h⟩ := hget i
    · rw [h]
    · rw [h, hsums]
  · exact List.getElem?_modify_ne _ _ (Ne.symm hi)

/-- The replicas after so many reads of the current one's data and of its sidecar. -/
def reading (data sums : Nat) (r : Replicas) : Replicas :=
  r.alter r.current fun replica =>
    { data := { replica.data with reads := replica.data.reads + data }
      sums := { replica.sums with reads := replica.sums.reads + sums } }

/-- Reads only count. -/
theorem reread_reading (r : Replicas) (data sums : Nat) : r.Reread (r.reading data sums) :=
  reread_alter r _ rfl rfl

/-- Only what becomes of the current replica matters. -/
theorem alter_current_congr {r : Replicas} {f g : Replica → Replica}
    (h : f (r.get r.current) = g (r.get r.current)) :
    r.alter r.current f = r.alter r.current g := by
  have hlist : r.list.modify r.current f = r.list.modify r.current g := by
    refine List.ext_getElem? fun i => ?_
    by_cases hi : r.current = i
    · subst hi
      cases hr : r.list[r.current]? with
      | none =>
          rw [List.getElem?_modify_eq, List.getElem?_modify_eq, hr]
          rfl
      | some replica =>
          rw [get, List.getD_eq_getElem?_getD, hr, Option.getD_some] at h
          rw [List.getElem?_modify_eq, List.getElem?_modify_eq, hr]
          exact congrArg some h
    · rw [List.getElem?_modify_ne _ _ hi, List.getElem?_modify_ne _ _ hi]
  rw [alter, alter, hlist]

/-- Reads follow each other. -/
theorem reading_reading (r : Replicas) (data sums data' sums' : Nat) :
    (r.reading data sums).reading data' sums' = r.reading (data + data') (sums + sums') := by
  simp only [reading, alter, List.modify_modify_eq, Function.comp_def, Nat.add_assoc]

/-- Data inside of the current replica is read. -/
theorem readData_eq {r : Replicas} {offset size : Nat} (h : offset + size ≤ r.size) :
    readData offset size r = .ok (Bytes.slice offset size r.bytes) (r.reading 1 0) := by
  have hread : Storing.read offset size (r.get r.current).data = .ok _ _ := Storage.read_eq_ok h
  simp only [readData, focus, hread]
  exact congrArg (EStateM.Result.ok _) (alter_current_congr rfl)

/-- Checksums inside of the current sidecar are read. -/
theorem readSums_eq {r : Replicas} {offset size : Nat} (h : offset + size ≤ r.sidecar.length) :
    readSums offset size r = .ok (Bytes.slice offset size r.sidecar) (r.reading 0 1) := by
  have hread : Storing.read offset size (r.get r.current).sums = .ok _ _ := Storage.read_eq_ok h
  simp only [readSums, focus, hread]
  exact congrArg (EStateM.Result.ok _) (alter_current_congr rfl)

/-- The answers to a request, each with what it depends on. -/
inductive Answered (r : Replicas) (request : Request) : Except StreamError Reply → Prop where
  | outside :
      request.position < 0 ∨ (r.size : Int) ≤ request.position →
      Answered r request (.ok (.ended 1))
  | plain (offset : Nat) :
      request.position = offset → offset < r.size → request.capacity = none →
      Answered r request
        (.ok (.chunk (Bytes.slice offset (min request.size (r.size - offset)) r.bytes) []))
  | unaligned (offset capacity : Nat) :
      request.position = offset → offset < r.size → request.capacity = some capacity →
      Chunk.offset r.chunk offset ≠ 0 →
      Answered r request (.error .unaligned)
  | belowChunk (offset capacity : Nat) :
      request.position = offset → offset < r.size → request.capacity = some capacity →
      Chunk.offset r.chunk offset = 0 →
      min (request.size / r.chunk) (capacity / sumWidth) = 0 →
      Answered r request (.error .belowChunk)
  | malformed (offset capacity : Nat) :
      request.position = offset → offset < r.size → request.capacity = some capacity →
      Chunk.offset r.chunk offset = 0 →
      min (request.size / r.chunk) (capacity / sumWidth) ≠ 0 →
      r.sidecar.length <
        (offset / r.chunk + Chunk.count (r.batch offset request.size capacity) r.chunk) *
          sumWidth →
      Answered r request (.error .malformed)
  | verified (offset capacity : Nat) :
      request.position = offset → offset < r.size → request.capacity = some capacity →
      Chunk.offset r.chunk offset = 0 →
      min (request.size / r.chunk) (capacity / sumWidth) ≠ 0 →
      (offset / r.chunk + Chunk.count (r.batch offset request.size capacity) r.chunk) *
        sumWidth ≤ r.sidecar.length →
      Answered r request
        (.ok (.chunk (Bytes.slice offset (r.batch offset request.size capacity) r.bytes)
          (Bytes.slice (offset / r.chunk * sumWidth)
            (Chunk.count (r.batch offset request.size capacity) r.chunk * sumWidth) r.sidecar)))

/-- Every request has an answer. -/
theorem exists_answered (r : Replicas) (request : Request) :
    ∃ answer, Answered r request answer := by
  by_cases hout : request.position < 0 ∨ (r.size : Int) ≤ request.position
  · exact ⟨_, .outside hout⟩
  obtain ⟨offset, hoffset⟩ : ∃ offset : Nat, request.position = offset :=
    ⟨request.position.toNat, by omega⟩
  have hinside : offset < r.size := by omega
  cases hcapacity : request.capacity with
  | none => exact ⟨_, .plain offset hoffset hinside hcapacity⟩
  | some capacity =>
      by_cases haligned : Chunk.offset r.chunk offset = 0
      · by_cases hsome : min (request.size / r.chunk) (capacity / sumWidth) = 0
        · exact ⟨_, .belowChunk offset capacity hoffset hinside hcapacity haligned hsome⟩
        by_cases hstored : r.sidecar.length <
            (offset / r.chunk + Chunk.count (r.batch offset request.size capacity) r.chunk) *
              sumWidth
        · exact ⟨_, .malformed offset capacity hoffset hinside hcapacity haligned hsome hstored⟩
        · exact ⟨_, .verified offset capacity hoffset hinside hcapacity haligned hsome
            (Nat.le_of_not_lt hstored)⟩
      · exact ⟨_, .unaligned offset capacity hoffset hinside hcapacity haligned⟩

/-- What a request leaves: a read of the data where it is answered with data, and one of the sidecar
where checksums were asked for with it. Nothing else was read. -/
def served (r : Replicas) (request : Request) : Except StreamError Reply → Replicas
  | .ok (.chunk _ _) => r.reading 1 (if request.capacity.isSome then 1 else 0)
  | .ok (.ended _) => r
  | .error _ => r

/-- What a request leaves differs in its counts at most. -/
theorem reread_served (r : Replicas) (request : Request) (answer : Except StreamError Reply) :
    r.Reread (r.served request answer) := by
  cases answer with
  | error e => exact .refl r
  | ok reply =>
      cases reply with
      | ended below => exact .refl r
      | chunk data sums => exact r.reread_reading _ _

/-- Inside of the data, a request is answered by whether checksums are asked for. -/
theorem ends_read_of_inside {r : Replicas} {request : Request} {offset : Nat}
    (hoffset : request.position = offset) (hinside : offset < r.size)
    {Q : Reply → Replicas → Prop} {E : StreamError → Replicas → Prop}
    (h : Ends (match request.capacity with
      | none => do return .chunk (← readData offset (min request.size (r.size - offset))) []
      | some capacity => readChunks offset request.size capacity) r Q E) :
    Ends (read request) r Q E := by
  have hin : ¬ (request.position < 0 ∨ r.size ≤ request.position.toNat) := by omega
  obtain rfl : request.position.toNat = offset := by omega
  simp only [read, ends_bind, ends_get, ends_ite, ends_pure]
  exact ⟨fun hout => absurd hout hin, fun _ => h⟩

/-- A request is answered so, and it leaves all as it was but the number of reads. -/
theorem Answered.read_eq {r : Replicas} {request : Request} {answer : Except StreamError Reply}
    (h : Answered r request answer) :
    read request r = leaving (r.served request answer) answer := by
  refine Ends.eq_leaving ?_
  cases h with
  | outside hout =>
      simp only [read, ends_bind, ends_get, ends_ite, ends_pure]
      exact ⟨fun _ => ⟨trivial, rfl⟩, fun hin => absurd (by omega) hin⟩
  | plain offset hoffset hlt hcapacity =>
      refine ends_read_of_inside hoffset hlt ?_
      simp only [hcapacity, ends_bind, ends_pure]
      refine .of_ok (readData_eq (by omega)) ⟨rfl, ?_⟩
      simp only [served, hcapacity]
      rfl
  | unaligned offset capacity hoffset hlt hcapacity hunaligned =>
      refine ends_read_of_inside hoffset hlt ?_
      simp only [hcapacity, readChunks, ends_bind, ends_get, ends_ite, ends_throw]
      exact ⟨fun _ => ⟨trivial, rfl⟩, fun haligned => absurd hunaligned haligned⟩
  | belowChunk offset capacity hoffset hlt hcapacity haligned hnone =>
      refine ends_read_of_inside hoffset hlt ?_
      simp only [hcapacity, readChunks, ends_bind, ends_get, ends_ite, ends_throw]
      exact ⟨fun hunaligned => absurd haligned hunaligned, fun _ =>
        ⟨fun _ => ⟨trivial, rfl⟩, fun hsome => absurd hnone hsome⟩⟩
  | malformed offset capacity hoffset hlt hcapacity haligned hsome hshort =>
      refine ends_read_of_inside hoffset hlt ?_
      simp only [hcapacity, readChunks, ends_bind, ends_get, ends_ite, ends_throw]
      exact ⟨fun hunaligned => absurd haligned hunaligned, fun _ =>
        ⟨fun hnone => absurd hnone hsome, fun _ =>
          ⟨fun _ => ⟨trivial, rfl⟩, fun hroom => absurd hshort hroom⟩⟩⟩
  | verified offset capacity hoffset hlt hcapacity haligned hsome hroom =>
      refine ends_read_of_inside hoffset hlt ?_
      simp only [hcapacity, readChunks, ends_bind, ends_get, ends_ite, ends_throw, ends_pure]
      refine ⟨fun hunaligned => absurd haligned hunaligned, fun _ =>
        ⟨fun hnone => absurd hnone hsome, fun _ =>
          ⟨fun hshort => absurd hroom (Nat.not_le_of_lt hshort), fun _ => ?_⟩⟩⟩
      have hsidecar := (r.reread_reading 1 0).sidecar
      have hstored : offset / r.chunk * sumWidth +
          Chunk.count (r.batch offset request.size capacity) r.chunk * sumWidth ≤
            (r.reading 1 0).sidecar.length := by
        rw [hsidecar, ← Nat.add_mul]
        exact hroom
      refine .of_ok (readData_eq (by omega)) (.of_ok (readSums_eq hstored) ⟨?_, ?_⟩)
      · rw [hsidecar]
        rfl
      · simp only [served, hcapacity, reading_reading]
        rfl

/-- A request has one of these answers, and it leaves all as it was but the number of reads. -/
theorem ends_read (r : Replicas) (request : Request) :
    Ends (read request) r (fun reply r' => Answered r request (.ok reply) ∧ r.Reread r')
      (fun e r' => Answered r request (.error e) ∧ r' = r) := by
  obtain ⟨answer, hanswer⟩ := r.exists_answered request
  refine .of_leaving hanswer.read_eq (fun reply hreply => ?_) (fun e he => ?_)
  · exact ⟨hreply ▸ hanswer, r.reread_served request answer⟩
  · exact ⟨he ▸ hanswer, by rw [he, served]⟩

/-! ## Changes of replicas -/

/-- The replicas before the current one are marked, and the ones after it are not. The current one
is marked only if it is the last. -/
structure InOrder (r : Replicas) : Prop where
  current_lt : r.current < r.list.length
  marked_of_lt : ∀ i < r.current, i ∈ r.marked
  le_of_marked : ∀ i ∈ r.marked, i ≤ r.current
  last_of_marked : r.current ∈ r.marked → r.current + 1 = r.list.length

/-- Reads don't mark any replica. -/
theorem Reread.inOrder {r r' : Replicas} (h : r.Reread r') (hr : r.InOrder) : r'.InOrder := by
  refine ⟨?_, ?_, ?_, ?_⟩
  · rw [h.current, h.length]
    exact hr.current_lt
  · rw [h.current, h.marked]
    exact hr.marked_of_lt
  · rw [h.current, h.marked]
    exact hr.le_of_marked
  · rw [h.current, h.marked, h.length]
    exact hr.last_of_marked

/-- The marks with the current replica among them. -/
def markedNow (r : Replicas) : List Nat :=
  if r.current ∈ r.marked then r.marked else r.current :: r.marked

/-- The current replica is marked, beside those that were. -/
theorem mem_markedNow {r : Replicas} {i : Nat} :
    i ∈ r.markedNow ↔ i = r.current ∨ i ∈ r.marked := by
  simp only [markedNow]
  split
  · constructor
    · exact .inr
    · rintro (rfl | hi)
      · assumption
      · exact hi
  · exact List.mem_cons

/-- Before the last replica, a change goes to the next one. -/
theorem switch_next {r : Replicas} (h : r.InOrder) (hnext : r.current + 1 < r.list.length)
    (position : Int) :
    r.switch position =
      ((true, [.replicaFailed r.current position (r.current + 1)]),
        { r with marked := r.markedNow, current := r.current + 1 }) := by
  have hunmarked : r.current + 1 ∉ r.markedNow := by
    rw [mem_markedNow]
    rintro (hi | hi)
    · omega
    · exact absurd (h.le_of_marked _ hi) (by omega)
  have hothers : r.others.find? (· ∉ r.markedNow) = some (r.current + 1) := by
    obtain ⟨n, hn⟩ : ∃ n, r.list.length - 1 = n + 1 := ⟨r.list.length - 2, by omega⟩
    rw [others, hn, List.range_succ_eq_map, List.map_cons, Nat.add_zero,
      Nat.mod_eq_of_lt hnext, List.find?_cons_of_pos]
    exact decide_eq_true hunmarked
  rw [markedNow] at hothers ⊢
  simp only [switch, hothers]

/-- At the last replica there is none to change to. -/
theorem switch_last {r : Replicas} (h : r.InOrder) (hlast : r.current + 1 = r.list.length)
    (position : Int) :
    r.switch position =
      ((false, [.noReplicaLeft position]), { r with marked := r.markedNow }) := by
  have hothers : r.others.find? (· ∉ r.markedNow) = none := by
    rw [List.find?_eq_none]
    intro i hi
    obtain ⟨step, hstep, rfl⟩ := List.mem_map.mp hi
    have hstep : step < r.list.length - 1 := List.mem_range.mp hstep
    -- Counting on from the last replica starts again at the first.
    have hwrap : (r.current + 1 + step) % r.list.length = step := by
      rw [hlast, Nat.add_mod_left, Nat.mod_eq_of_lt (by omega)]
    rw [hwrap, decide_eq_true_eq, Decidable.not_not, mem_markedNow]
    exact .inr (h.marked_of_lt step (by omega))
  rw [markedNow] at hothers ⊢
  simp only [switch, hothers]

/-- A change keeps the order of the marks. -/
theorem InOrder.switch {r : Replicas} (h : r.InOrder) (position : Int) :
    (r.switch position).2.InOrder := by
  by_cases hnext : r.current + 1 < r.list.length
  · rw [switch_next h hnext]
    refine ⟨hnext, fun i hi => ?_, fun i hi => ?_, fun hi => ?_⟩
    · rw [mem_markedNow]
      obtain hi | hi : i = r.current ∨ i < r.current := by
        have hi : i < r.current + 1 := hi
        omega
      · exact .inl hi
      · exact .inr (h.marked_of_lt i hi)
    · obtain hi | hi := mem_markedNow.mp hi
      · exact Nat.le_succ_of_le (Nat.le_of_eq hi)
      · exact Nat.le_succ_of_le (h.le_of_marked i hi)
    · obtain hi | hi := mem_markedNow.mp hi
      · exact absurd hi (Nat.succ_ne_self _)
      · exact absurd (h.le_of_marked _ hi) (Nat.not_succ_le_self _)
  · have hlast : r.current + 1 = r.list.length := by
      have := h.current_lt
      omega
    rw [switch_last h hlast]
    refine ⟨h.current_lt, fun i hi => mem_markedNow.mpr (.inr (h.marked_of_lt i hi)),
      fun i hi => ?_, fun _ => hlast⟩
    obtain hi | hi := mem_markedNow.mp hi
    · exact Nat.le_of_eq hi
    · exact h.le_of_marked i hi

/-! ## Both together -/

/-- A look for another copy leaves the storages alone. -/
theorem list_switch (r : Replicas) (position : Int) : (r.switch position).2.list = r.list := by
  simp only [switch]
  split <;> rfl

/-- The size of chunks stays. -/
theorem chunk_switch (r : Replicas) (position : Int) : (r.switch position).2.chunk = r.chunk := by
  simp only [switch]
  split <;> rfl

/-- A look for another copy leaves each replica. -/
theorem get_switch (r : Replicas) (position : Int) (i : Nat) :
    (r.switch position).2.get i = r.get i := by
  rw [get, get, list_switch]

/-- What requests and changes of replicas do: nothing to the bytes, and the marks stay in order with
the current replica moving forward only. -/
structure Moved (r r' : Replicas) : Prop where
  chunk : r'.chunk = r.chunk
  length : r'.list.length = r.list.length
  data : ∀ i, (r'.get i).data.bytes = (r.get i).data.bytes
  sums : ∀ i, (r'.get i).sums.bytes = (r.get i).sums.bytes
  inOrder : r.InOrder → r'.InOrder
  forward : r.InOrder → r.current ≤ r'.current

namespace Moved

variable {r r' : Replicas}

theorem refl (r : Replicas) : r.Moved r :=
  ⟨rfl, rfl, fun _ => rfl, fun _ => rfl, id, fun _ => Nat.le_refl _⟩

theorem trans (h : r.Moved r') (h' : r'.Moved r'') : r.Moved r'' where
  chunk := h'.chunk.trans h.chunk
  length := h'.length.trans h.length
  data i := (h'.data i).trans (h.data i)
  sums i := (h'.sums i).trans (h.sums i)
  inOrder hr := h'.inOrder (h.inOrder hr)
  forward hr := Nat.le_trans (h.forward hr) (h'.forward (h.inOrder hr))

end Moved

/-- Reads are among what may happen between looks. -/
theorem Reread.moved {r r' : Replicas} (h : r.Reread r') : r.Moved r' :=
  ⟨h.chunk, h.length, h.data, h.sums, h.inOrder, fun _ => Nat.le_of_eq h.current.symm⟩

/-- A look is among what may happen between looks. -/
theorem moved_switch (r : Replicas) (position : Int) : r.Moved (r.switch position).2 := by
  refine ⟨r.chunk_switch position, congrArg List.length (r.list_switch position), fun i => ?_,
    fun i => ?_, fun hr => hr.switch position, fun hr => ?_⟩
  · rw [get_switch]
  · rw [get_switch]
  · by_cases hnext : r.current + 1 < r.list.length
    · rw [switch_next hr hnext]
      exact Nat.le_succ _
    · have hcurrent := hr.current_lt
      exact Nat.le_of_eq (by rw [switch_last hr (by omega)])

/-- Every answer of the source is a move. -/
theorem respects_moved : source.Respects Moved where
  refl := Moved.refl
  trans := Moved.trans
  read request r :=
    (ends_read r request).mono (fun _ _ h => h.2.moved) (fun _ _ h => h.2 ▸ Moved.refl r)
  switch position r := r.moved_switch position

end Replicas

end ChunkGuard
