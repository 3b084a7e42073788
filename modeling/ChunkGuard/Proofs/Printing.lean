import ChunkGuard.Proofs.Erasure
import ChunkGuard.Proofs.Resting
import ChunkGuard.Proofs.Sidecar
import ChunkGuard.Tool

/-!
# What is printed of copies

Copies of some data, each with the data's sidecar, are printed in batches: every batch from the first
copy that has it undamaged, the copies before that of the last batch left out (`Tool.copyOf?`). The
loop prints batch after batch up to the first one that no copy is left for (`Tool.Pumping.ends_pump`).
-/

namespace ChunkGuard

/-! ## Batches of chunks -/

/-- Data of one length has the same chunks in a part exactly if it is the same there. -/
theorem Chunk.forall_slice_iff {chunk first width : Nat} {x y : Bytes} (hchunk : 0 < chunk)
    (hword : width * chunk + chunk ≤ Word.count) (hlength : x.length = y.length) :
    (∀ index < count (min (width * chunk) (y.length - first * chunk)) chunk,
        Bytes.slice ((first + index) * chunk) chunk x =
          Bytes.slice ((first + index) * chunk) chunk y) ↔
      Bytes.slice (first * chunk) (width * chunk) x =
        Bytes.slice (first * chunk) (width * chunk) y := by
  constructor
  · intro hsame
    apply List.ext_getElem?
    intro k
    rw [Bytes.getElem?_slice, Bytes.getElem?_slice]
    by_cases hpart : k < width * chunk
    · rw [if_pos hpart, if_pos hpart]
      by_cases hinside : first * chunk + k < y.length
      · have hindex : k / chunk < count (min (width * chunk) (y.length - first * chunk)) chunk := by
          have hle := Nat.div_mul_le_self k chunk
          rw [lt_count_iff hchunk (by omega)]
          omega
        have hbyte := congrArg (fun b : Bytes => b[k % chunk]?) (hsame _ hindex)
        have hplace : (first + k / chunk) * chunk + k % chunk = first * chunk + k := by
          rw [Nat.add_mul, Nat.add_assoc, Nat.mul_comm (k / chunk), Nat.div_add_mod]
        simpa only [Bytes.getElem?_slice, Nat.mod_lt k hchunk, if_true, hplace] using hbyte
      · rw [List.getElem?_eq_none (by omega), List.getElem?_eq_none (by omega)]
    · rw [if_neg hpart, if_neg hpart]
  · intro hsame index hindex
    have hstart := (lt_count_iff hchunk (by omega)).mp hindex
    have hle : (index + 1) * chunk ≤ width * chunk :=
      Nat.mul_le_mul_right chunk
        (Nat.lt_of_mul_lt_mul_right (by omega : index * chunk < width * chunk))
    rw [← slice_part (.inl hle), ← slice_part (.inl hle), hsame]

namespace Tool

/-- Chunks have bytes. -/
theorem chunkSize_pos : 0 < chunkSize := by decide

/-- Batch number `index` of some data. -/
def batch (index : Nat) (data : Bytes) : Bytes := Bytes.slice (index * batchSize) batchSize data

/-- The first copy from one on that has a batch as the data has it. -/
def nextCopy? (copies : List Bytes) (data : Bytes) (index first : Nat) : Option Nat :=
  (List.range copies.length).find? fun i =>
    first ≤ i ∧ batch index (copies.getD i []) = batch index data

/-- The copy that a batch is printed from: the first one that has it as the data has it, from that of
the batch before it on. -/
def copyOf? (copies : List Bytes) (data : Bytes) : Nat → Option Nat
  | 0 => nextCopy? copies data 0 0
  | index + 1 => (copyOf? copies data index).bind (nextCopy? copies data (index + 1))

/-- The copy is as long as the data, and every chunk in which it differs has another checksum. -/
structure IsCopy (a : Algorithm) (data copy : Bytes) : Prop where
  length_eq : copy.length = data.length
  differs : ∀ index,
    Bytes.slice (index * chunkSize) chunkSize copy ≠ Bytes.slice (index * chunkSize) chunkSize data →
    a.sum (Bytes.slice (index * chunkSize) chunkSize copy) ≠
      a.sum (Bytes.slice (index * chunkSize) chunkSize data)

variable {copies : List Bytes} {data : Bytes} {index first i : Nat}

/-- The copy found has the batch, and no copy before it has. -/
theorem nextCopy?_eq_some :
    nextCopy? copies data index first = some i ↔
      (first ≤ i ∧ batch index (copies.getD i []) = batch index data) ∧ i < copies.length ∧
        ∀ j < i, first ≤ j → batch index (copies.getD j []) ≠ batch index data := by
  rw [nextCopy?, List.find?_range_eq_some]
  simp only [decide_eq_true_eq, List.mem_range, Bool.not_eq_true', decide_eq_false_iff_not, not_and,
    ne_eq]

/-- No copy is found if none has the batch. -/
theorem nextCopy?_eq_none :
    nextCopy? copies data index first = none ↔
      ∀ j < copies.length, first ≤ j → batch index (copies.getD j []) ≠ batch index data := by
  simp only [nextCopy?, List.find?_eq_none, List.mem_range, decide_eq_true_eq, not_and, ne_eq]

end Tool

/-! ## Replicas that hold copies -/

/-- The replicas hold the copies, each with the sidecar of the data. -/
structure Replicas.Store (a : Algorithm) (data : Bytes) (copies : List Bytes) (r : Replicas) : Prop
    where
  chunk : r.chunk = Tool.chunkSize
  length : r.list.length = copies.length
  bytes : ∀ i, (r.get i).data.bytes = copies.getD i []
  sums : ∀ i < copies.length, (r.get i).sums.bytes = Sidecar.ofBytes a Tool.chunkSize data

namespace Replicas.Store

variable {a : Algorithm} {data : Bytes} {copies : List Bytes} {r r' : Replicas}

/-- Replicas that were only read or marked still hold the copies. -/
theorem moved (h : r.Store a data copies) (hr : r.Moved r') : r'.Store a data copies where
  chunk := hr.chunk.trans h.chunk
  length := hr.length.trans h.length
  bytes i := (hr.data i).trans (h.bytes i)
  sums i hi := (hr.sums i).trans (h.sums i hi)

/-- Copies are as long as the data, and the sidecars have a checksum for each of its chunks. -/
theorem uniform (h : r.Store a data copies) (hcopies : ∀ copy ∈ copies, Tool.IsCopy a data copy)
    (hword : data.length + Tool.chunkSize ≤ Word.count) : r.Uniform data.length where
  size i hi := by
    rw [h.length] at hi
    rw [Storage.size, h.bytes, List.getD_eq_getElem?_getD, List.getElem?_eq_getElem hi,
      Option.getD_some]
    exact (hcopies _ (List.getElem_mem hi)).length_eq
  stored i hi index hindex := by
    rw [h.chunk] at hindex
    have hcount := (Chunk.lt_count_iff Tool.chunkSize_pos hword).mpr hindex
    rw [Storage.size, h.sums i (h.length ▸ hi), Sidecar.length_ofBytes, Nat.mul_comm]
    exact Nat.mul_le_mul_left sumWidth hcount

/-- A chunk of a copy passes exactly if it is the chunk of the data. -/
theorem passes_iff (h : r.Store a data copies) (hcopies : ∀ copy ∈ copies, Tool.IsCopy a data copy)
    (hword : data.length + Tool.chunkSize ≤ Word.count) {i index : Nat} (hi : i < copies.length)
    (hindex : index * Tool.chunkSize < data.length) :
    Chunk.Passes a r.chunk (r.get i).sums.bytes (r.get i).data.bytes index ↔
      Bytes.slice (index * Tool.chunkSize) Tool.chunkSize (copies.getD i []) =
        Bytes.slice (index * Tool.chunkSize) Tool.chunkSize data := by
  have hcount := (Chunk.lt_count_iff Tool.chunkSize_pos hword).mpr hindex
  have hstored := Sidecar.passes_ofBytes (a := a) hcount
  have hcopy : Tool.IsCopy a data (copies.getD i []) := by
    rw [List.getD_eq_getElem?_getD, List.getElem?_eq_getElem hi, Option.getD_some]
    exact hcopies _ (List.getElem_mem hi)
  rw [h.chunk, h.bytes, h.sums i hi, Chunk.Passes, ← hstored]
  constructor
  · intro hsum
    exact Decidable.byContradiction fun hne => hcopy.differs index hne hsum
  · intro hsame
    rw [hsame]

/-- A replica is intact in a batch exactly if its copy has the batch as the data has it. -/
theorem intact_iff (h : r.Store a data copies) (hcopies : ∀ copy ∈ copies, Tool.IsCopy a data copy)
    (hword : data.length + Tool.chunkSize ≤ Word.count) {i index : Nat} (hi : i < copies.length)
    (hinside : index * Tool.batchSize < data.length) :
    r.Intact a (index * Tool.batchSize)
        (min Tool.batchSize (data.length - index * Tool.batchSize)) i ↔
      Tool.batch index (copies.getD i []) = Tool.batch index data := by
  have hlength : (copies.getD i []).length = data.length := by
    rw [← h.bytes]
    exact (h.uniform hcopies hword).size i (h.length ▸ hi)
  have hbatch : Tool.batchSize = chunksPerRead * Tool.chunkSize := rfl
  have hstart : index * Tool.batchSize = index * chunksPerRead * Tool.chunkSize :=
    (Nat.mul_assoc _ _ _).symm
  have hroom : chunksPerRead * Tool.chunkSize + Tool.chunkSize ≤ Word.count := by decide
  rw [Tool.batch, Tool.batch, Replicas.Intact, h.chunk]
  rw [hstart] at hinside ⊢
  rw [Nat.mul_div_cancel _ Tool.chunkSize_pos, hbatch,
    ← Chunk.forall_slice_iff Tool.chunkSize_pos hroom hlength]
  refine forall_congr' fun j => forall_congr' fun hj => ?_
  have hinside : (index * chunksPerRead + j) * Tool.chunkSize < data.length := by
    have hlt := (Chunk.lt_count_iff Tool.chunkSize_pos (by omega)).mp hj
    rw [Nat.add_mul]
    omega
  rw [← h.passes_iff hcopies hword hi hinside, h.chunk]

end Replicas.Store

/-! ## The loop -/

namespace Tool

section Turns

variable {σ τ : Type} {source : Source σ} {fuel : Nat} {s : Session σ} {d : Desk}

/-- Each turn reads once, prints what came, and goes on until the data has ended. -/
theorem ends_pump_succ {Q : Session σ → Desk → Prop} {E : Failure → Desk → Prop} :
    Ends (pump source (fuel + 1) s) d Q E ↔
      Ends (Stream.read source 0 batchSize) s
        (fun count t =>
          (count = none → Q t d) ∧
            ∀ n ∈ count, Ends (pump source fuel t) { d with output := d.output ++ t.lent.take n } Q E)
        (fun e t => E (.stream e) { d with events := d.events ++ t.events }) := by
  simp only [Ends, pump]
  cases Stream.read source 0 batchSize s with
  | error e t => rfl
  | ok count t =>
      cases count with
      | none => exact ⟨fun h => ⟨fun _ => h, nofun⟩, fun h => h.1 rfl⟩
      | some n =>
          refine ⟨fun h => ⟨nofun, fun m hm => ?_⟩, fun h => h.2 n rfl⟩
          obtain rfl := Option.mem_some.mp hm
          exact h

/-- The loop prints of a source what it prints of another one that answers alike. -/
theorem ends_pump_of_paired {C : σ → τ → Prop} {source' : Source τ} {t : Session τ}
    (hcouples : source.Couples (fun _ => C) source') (hpaired : Session.Paired (fun _ => C) s t)
    {Q : Session τ → Desk → Prop} {E : Failure → Desk → Prop}
    (h : Ends (pump source' fuel t) d Q E) :
    Ends (pump source fuel s) d
      (fun s d => ∃ t, Session.Paired (fun _ => C) s t ∧ Q t d) E := by
  induction fuel generalizing s t d with
  | zero => exact ⟨t, hpaired, h⟩
  | succ fuel ih =>
      rw [ends_pump_succ] at h ⊢
      have hread := Stream.coupled_read hcouples
        (Stream.coupled_compare fun hC _ => hC) 0 batchSize s t hpaired
      refine hread.mono ?_ ?_
      · rintro count s' ⟨t', ht, hpaired'⟩
        obtain ⟨hend, hnext⟩ := h.ok ht
        refine ⟨fun hnone => ⟨t', hpaired', hend hnone⟩, fun n hn => ?_⟩
        have hrest := hnext n hn
        obtain ⟨y, -, rfl⟩ := id hpaired'
        exact ih hpaired' hrest
      · rintro e s' ⟨t', ht, y, -, rfl⟩
        exact h.error ht

end Turns

variable {a : Algorithm} {copies : List Bytes} {data : Bytes} {index : Nat}

/-- A batch that was read is printed after those before it. -/
theorem take_append_batch (data lent copy : Bytes)
    (hinside : index * batchSize < data.length) (hcopy : batch index copy = batch index data)
    (hbytes : ∀ k < min batchSize (data.length - index * batchSize),
      lent[k]? = copy[index * batchSize + k]?) :
    data.take (index * batchSize) ++ lent.take (min batchSize (data.length - index * batchSize)) =
      data.take ((index + 1) * batchSize) := by
  have hlent : lent.take (min batchSize (data.length - index * batchSize)) = batch index data := by
    apply List.ext_getElem?
    intro k
    have hbyte := congrArg (fun b : Bytes => b[k]?) hcopy
    simp only [batch, Bytes.getElem?_slice] at hbyte ⊢
    rw [List.getElem?_take]
    by_cases hk : k < min batchSize (data.length - index * batchSize)
    · rw [if_pos (by omega), if_pos (by omega)] at hbyte
      rw [if_pos hk, if_pos (by omega), hbytes k hk, hbyte]
    · rw [if_neg hk]
      by_cases hroom : k < batchSize
      · rw [if_pos hroom, List.getElem?_eq_none (by omega)]
      · rw [if_neg hroom]
  rw [hlent, batch, Bytes.slice, Nat.add_mul, Nat.one_mul, List.take_add]

/-- All of the data was printed, every batch from a certain one on from its copy. -/
structure Printed (copies : List Bytes) (data : Bytes) (index : Nat) (d t : Desk) : Prop where
  output : t.output = data
  tree : t.tree = d.tree
  all : ∀ i, index ≤ i → i * batchSize < data.length → (copyOf? copies data i).isSome

/-- The printing stopped at the first batch, from a certain one on, that no copy was left for. -/
structure Stopped (copies : List Bytes) (data : Bytes) (index last : Nat) (failure : Failure)
    (d t : Desk) : Prop where
  output : t.output = data.take (last * batchSize)
  tree : t.tree = d.tree
  failure : ∃ e, failure = .stream e
  inside : last * batchSize < data.length
  none : copyOf? copies data last = none
  before : ∀ i, index ≤ i → i < last → (copyOf? copies data i).isSome

/-- What is printed from the batch after one on goes on from that one. -/
theorem Printed.of_next {d t : Desk} {output : Bytes} (hsome : (copyOf? copies data index).isSome)
    (h : Printed copies data (index + 1) { d with output } t) : Printed copies data index d t := by
  refine ⟨h.output, h.tree, fun i hle hi => ?_⟩
  obtain rfl | hlt := Nat.eq_or_lt_of_le hle
  · exact hsome
  · exact h.all i hlt hi

/-- Where the printing stops from the batch after one on, it stops from that one on. -/
theorem Stopped.of_next {d t : Desk} {output : Bytes} {last : Nat} {failure : Failure}
    (hsome : (copyOf? copies data index).isSome)
    (h : Stopped copies data (index + 1) last failure { d with output } t) :
    Stopped copies data index last failure d t := by
  refine ⟨h.output, h.tree, h.failure, h.inside, h.none, fun i hle hi => ?_⟩
  obtain rfl | hlt := Nat.eq_or_lt_of_le hle
  · exact hsome
  · exact h.before i hlt hi

/-- A batch is to be read next, from the copy that was current last on, and all batches before it
were printed. -/
structure Pumping (a : Algorithm) (copies : List Bytes) (data : Bytes) (index : Nat)
    (s : Session (Recorded Replicas)) (d : Desk) : Prop where
  resting : Stream.Resting a chunkSize data.length (min data.length (index * batchSize)) s
  store : s.source.state.Store a data copies
  current : copyOf? copies data index = nextCopy? copies data index s.source.state.current
  lent : s.lent.length = batchSize
  attempts : copies.length ≤ s.stream.attempts
  output : d.output = data.take (index * batchSize)

namespace Pumping

variable {s : Session (Recorded Replicas)} {d : Desk}

/-- Before the end the stream rests where the batch starts. -/
theorem resting_of_inside (h : Pumping a copies data index s d)
    (hinside : index * batchSize < data.length) :
    Stream.Resting a chunkSize data.length (index * batchSize) s := by
  have hresting := h.resting
  rwa [Nat.min_eq_right (Nat.le_of_lt hinside)] at hresting

/-- Batches start where chunks do. -/
theorem aligned (index : Nat) : index * batchSize % chunkSize = 0 := by
  rw [batchSize, ← Nat.mul_assoc, Nat.mul_mod_left]

/-- Where the data has ended nothing is read. -/
theorem ends_read_of_ended (h : Pumping a copies data index s d)
    (hend : data.length ≤ index * batchSize) :
    Ends (Stream.read Replicas.source.recorded 0 batchSize) s (fun count _ => count = none)
      (fun _ _ => False) := by
  have hresting := h.resting
  have hcurrent := hresting.matched.inOrder.current_lt
  have hattempts : 0 < s.stream.attempts :=
    Nat.lt_of_lt_of_le (Nat.zero_lt_of_lt hcurrent) (h.store.length ▸ h.attempts)
  rw [Nat.min_eq_left hend] at hresting
  exact (hresting.ends_read_of_ended (Nat.le_refl _) hattempts (by decide)
    (Nat.le_of_eq h.lent.symm)).mono (fun _ _ ht => ht.1) (fun _ _ hfalse => hfalse)

variable (hcopies : ∀ copy ∈ copies, IsCopy a data copy)
  (hword : data.length + chunkSize ≤ Word.count)
include hcopies hword

/-- A batch that no copy is left for can't be read. -/
theorem ends_read_of_none (h : Pumping a copies data index s d)
    (hinside : index * batchSize < data.length) (hnone : copyOf? copies data index = none) :
    Ends (Stream.read Replicas.source.recorded 0 batchSize) s (fun _ _ => False)
      (fun _ _ => True) := by
  have hleft := nextCopy?_eq_none.mp (h.current.symm.trans hnone)
  have hlength := h.store.length
  refine (h.resting_of_inside hinside).ends_read_damaged (by decide) (by decide) (aligned index)
    hinside (by decide) (Nat.le_of_eq h.lent.symm) (hlength ▸ h.attempts) fun j hle hj => ?_
  rw [h.store.intact_iff hcopies hword (hlength ▸ hj) hinside]
  exact hleft j (hlength ▸ hj) hle

/-- A batch that a copy is left for is read from there, and once it is printed, the batch after it
is to be read. -/
theorem ends_read_of_some (h : Pumping a copies data index s d)
    (hinside : index * batchSize < data.length) {i : Nat}
    (hsome : copyOf? copies data index = some i) :
    Ends (Stream.read Replicas.source.recorded 0 batchSize) s
      (fun count t => ∃ n, count = some n ∧
        Pumping a copies data (index + 1) t { d with output := d.output ++ t.lent.take n })
      (fun _ _ => False) := by
  obtain ⟨⟨hle, hbatch⟩, hi, hbefore⟩ := nextCopy?_eq_some.mp (h.current.symm.trans hsome)
  have hlength := h.store.length
  have hattempts := h.attempts
  refine ((h.resting_of_inside hinside).ends_read_intact (by decide) (by decide) (aligned index)
    hinside (by decide) (Nat.le_of_eq h.lent.symm) hle (by omega) (by omega)
    ((h.store.intact_iff hcopies hword hi hinside).mpr hbatch) fun j hj hlt => ?_).mono
    (fun count t ht => ?_) (fun _ _ hfalse => hfalse)
  · rw [h.store.intact_iff hcopies hword (by omega) hinside]
    exact hbefore j hlt hj
  obtain ⟨rfl, ht⟩ := ht
  have hplace : index * batchSize + min batchSize (data.length - index * batchSize) =
      min data.length ((index + 1) * batchSize) := by
    rw [Nat.add_mul, Nat.one_mul]
    omega
  refine ⟨_, rfl, hplace ▸ ht.resting, h.store.moved ht.kept.source, ?_, ht.length.trans h.lent,
    ht.kept.stream.attempts ▸ hattempts, ?_⟩
  · rw [copyOf?, hsome, ht.current, Option.bind_some]
  · show d.output ++ _ = _
    rw [h.output]
    exact take_append_batch data t.lent _ hinside hbatch fun k hk => by
      rw [ht.bytes k hk, h.store.bytes]

/-- From a batch on, either all of the rest is printed, or what comes before the first batch that no
copy is left for. -/
theorem ends_pump (h : Pumping a copies data index s d) {fuel : Nat}
    (hfuel : data.length - index * batchSize < fuel) :
    Ends (pump Replicas.source fuel (s.mapSource Recorded.state)) d
      (fun _ t => Printed copies data index d t)
      (fun failure t => ∃ last, Stopped copies data index last failure d t) := by
  -- Each batch uses up one unit of fuel and at least one byte of what is left, up to the end.
  induction fuel generalizing s d index with
  | zero => exact absurd hfuel (Nat.not_lt_zero _)
  | succ fuel ih =>
      rw [ends_pump_succ, (Stream.carried_read (Source.carries_recorded _) 0 batchSize).ends]
      by_cases hinside : index * batchSize < data.length
      · cases hcopy : copyOf? copies data index with
        | none =>
            exact (h.ends_read_of_none hcopies hword hinside hcopy).mono
              (fun _ _ hfalse => hfalse.elim) (fun e t _ => ⟨index, h.output, rfl, ⟨e, rfl⟩, hinside,
                hcopy, fun i hle hi => absurd hi (Nat.not_lt_of_le hle)⟩)
        | some i =>
            have hsome : (copyOf? copies data index).isSome := by
              rw [hcopy]
              rfl
            refine (h.ends_read_of_some hcopies hword hinside hcopy).mono (fun count t ht => ?_)
              (fun _ _ hfalse => hfalse.elim)
            obtain ⟨n, rfl, ht⟩ := ht
            refine ⟨nofun, fun m hm => ?_⟩
            obtain rfl := Option.mem_some.mp hm
            have hless : data.length - (index + 1) * batchSize < fuel := by
              have hpos : 0 < batchSize := by decide
              rw [Nat.add_mul, Nat.one_mul]
              omega
            exact (ih ht hless).mono (fun _ _ hu => hu.of_next hsome)
              (fun _ _ hu => hu.imp fun _ hu => hu.of_next hsome)
      · have hend := Nat.le_of_not_lt hinside
        refine (h.ends_read_of_ended hend).mono (fun count t ht => ?_)
          (fun _ _ hfalse => hfalse.elim)
        obtain rfl := ht
        refine ⟨fun _ => ⟨?_, rfl, fun i hle hi => ?_⟩, nofun⟩
        · rw [h.output, List.take_of_length_le hend]
        · exact absurd (Nat.mul_le_mul_right batchSize hle) (by omega)

end Pumping

end Tool

end ChunkGuard
