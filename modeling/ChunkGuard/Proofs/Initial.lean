import ChunkGuard.Checksum.Sidecar
import ChunkGuard.Proofs.Replicas

/-!
# Streams and replicas as they are built

What `Stream.ofOptions?` and `Replicas.ofList?` give when they don't refuse: a ready stream with an
empty window at the start of the data, and replicas of which the first is read and none is marked.
-/

namespace ChunkGuard

/-- A stream that was built has chunks that aren't empty, attempts, checksums of the stored width,
and nothing in its window. -/
theorem Stream.eq_of_ofOptions? {checksum : Option Algorithm} {o : Options} {s : Stream}
    (h : Stream.ofOptions? checksum o = .ok s) :
    0 < o.maxChunk ∧ 0 < o.attempts ∧
      s = {
        verify := o.verify, maxChunk := o.maxChunk, attempts := o.attempts, name := o.name
        nesting := o.nesting
        checksum := checksum.map Checksum.ofAlgorithm
        sums := if checksum.isSome then Bytes.zeros (chunksPerRead * sumWidth) else [] } := by
  simp only [ofOptions?, bind, Except.bind, pure, Except.pure, throw, throwThe,
    MonadExceptOf.throw] at h
  by_cases hchunk : o.maxChunk = 0
  · rw [if_pos hchunk] at h
    cases h
  by_cases hattempts : o.attempts = 0
  · rw [if_neg hchunk, if_pos hattempts] at h
    cases h
  by_cases hwidth : checksum.isSome ∧ o.sumWidth ≠ sumWidth
  · rw [if_neg hchunk, if_neg hattempts, if_pos hwidth] at h
    cases h
  rw [if_neg hchunk, if_neg hattempts, if_neg hwidth] at h
  cases h
  refine ⟨Nat.pos_of_ne_zero hchunk, Nat.pos_of_ne_zero hattempts, ?_⟩
  by_cases hsome : checksum.isSome
  · have hwidth : o.sumWidth = sumWidth := Decidable.not_not.mp fun hne => hwidth ⟨hsome, hne⟩
    rw [hwidth]
  · rw [if_neg hsome, if_neg hsome]

/-- A replica made of some data and its sidecar. -/
def Replica.ofBytes (a : Algorithm) (chunk : Nat) (data : Bytes) : Replica :=
  ⟨{ bytes := data }, { bytes := Sidecar.ofBytes a chunk data }⟩

/-- A replica as it is handed over, with both of its storages. -/
def Replica.storages {ρ : Type} (r : Replica ρ) : Option ρ × Option ρ := (some r.data, some r.sums)

theorem Replica.storages_inj {r r' : Replica} (h : r.storages = r'.storages) : r = r' := by
  cases r
  cases r'
  cases h
  rfl

namespace Replicas

/-- Only a list of replicas with both storages is taken over. -/
theorem map_storages_of_mapM {list : List (Option Storage × Option Storage)}
    {replicas : List Replica} {f : Option Storage × Option Storage → Except StreamError Replica}
    (hf : ∀ pair replica, f pair = .ok replica → pair = replica.storages)
    (h : list.mapM f = .ok replicas) : list = replicas.map Replica.storages := by
  induction list generalizing replicas with
  | nil =>
      cases h
      rfl
  | cons pair list ih =>
      rw [List.mapM_cons] at h
      cases hpair : f pair with
      | error e =>
          rw [hpair] at h
          cases h
      | ok replica =>
          rw [hpair] at h
          cases hlist : list.mapM f with
          | error e =>
              simp only [hlist, bind, Except.bind] at h
              cases h
          | ok rest =>
              simp only [hlist, bind, Except.bind, pure, Except.pure] at h
              cases h
              rw [List.map_cons, ← hf pair replica hpair, ← ih hlist]

/-- Replicas that were built are those handed over, each with both storages, and nothing has been
done with them yet. -/
theorem eq_of_ofList? {list : List (Option Storage × Option Storage)} {chunk : Nat} {r : Replicas}
    (h : ofList? list chunk = .ok r) :
    list = r.list.map Replica.storages ∧ list ≠ [] ∧ 0 < chunk ∧ r = { list := r.list, chunk } := by
  simp only [ofList?, bind, Except.bind, pure, Except.pure, throw, throwThe,
    MonadExceptOf.throw] at h
  by_cases hempty : list.isEmpty
  · rw [if_pos hempty] at h
    cases h
  by_cases hchunk : chunk = 0
  · rw [if_neg hempty, if_pos hchunk] at h
    cases h
  rw [if_neg hempty, if_neg hchunk] at h
  split at h
  · cases h
  rename_i replicas hmap
  cases h
  refine ⟨map_storages_of_mapM (fun pair replica hpair => ?_) hmap,
    fun hnil => hempty (List.isEmpty_iff.mpr hnil), Nat.pos_of_ne_zero hchunk, rfl⟩
  split at hpair
  · cases hpair
    rfl
  · cases hpair

theorem get_eq_getElem {r : Replicas} {i : Nat} (hi : i < r.list.length) :
    r.get i = r.list[i] := by
  rw [get, List.getD_eq_getElem?_getD, List.getElem?_eq_getElem hi, Option.getD_some]

theorem inOrder_of_new {list : List Replica} {chunk : Nat} (h : list ≠ []) :
    InOrder { list, chunk } where
  current_lt := List.length_pos_iff.mpr h
  marked_of_lt i hi := absurd hi (Nat.not_lt_zero i)
  le_of_marked _ hi := absurd hi List.not_mem_nil
  last_of_marked h := absurd h List.not_mem_nil

end Replicas

/-! ## Streams that were built -/

namespace Stream

variable {checksum : Option Algorithm} {o : Options} {s : Stream}

theorem ready_of_ofOptions? (h : Stream.ofOptions? checksum o = .ok s) : s.Ready := by
  obtain ⟨-, -, rfl⟩ := eq_of_ofOptions? h
  intro c hc
  obtain ⟨algorithm, -, rfl⟩ := Option.map_eq_some_iff.mp hc
  rfl

/-- A stream that verifies was built with a checksum, and with room for the stored checksums of
one read. -/
theorem checksum_of_ofOptions? (h : Stream.ofOptions? checksum o = .ok s) (hs : s.needsChecksum) :
    ∃ algorithm, checksum = some algorithm ∧ s.checksum = some (.ofAlgorithm algorithm) ∧
      s.sums.length = chunksPerRead * sumWidth := by
  obtain ⟨-, -, rfl⟩ := eq_of_ofOptions? h
  cases checksum with
  | none => exact absurd hs (by rw [needsChecksum]; exact Bool.and_false _ ▸ Bool.false_ne_true)
  | some algorithm => exact ⟨algorithm, rfl, rfl, Bytes.length_zeros _⟩

end Stream

end ChunkGuard
