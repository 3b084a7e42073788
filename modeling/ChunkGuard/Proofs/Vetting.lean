import ChunkGuard.Proofs.Handing
import ChunkGuard.Proofs.Integrity
import Mathlib.Data.List.Infix

/-!
# Turning verification on

Turning verification on leaves the window as it is. From then on every byte handed out was compared
by a call made since, or it is one of those that the window held already (`vetted_or_buffered`). The
latter may never have been compared, and each of them can be had without another call. So what is
handed out is verified from the next byte on exactly if nothing unverified is in the window.
-/

namespace ChunkGuard

open Session

/-- The call asked for checksums. -/
def Call.asked {σ : Type} : Call σ → Bool
  | .read _ request _ => request.capacity.isSome
  | .switch .. => false

/-- One of the calls asked for checksums and delivered the byte at an offset. Its chunk came with it,
and it passed. -/
def Vetted (checksum : Option Algorithm) (chunk offset : Nat) (byte : UInt8)
    (calls : List (Call Replicas)) : Prop :=
  ∃ before request data sums, .read before request (.ok (.chunk data sums)) ∈ calls ∧
    request.capacity.isSome ∧ before.Delivers checksum chunk offset byte request data

theorem Vetted.mono {checksum : Option Algorithm} {chunk offset : Nat} {byte : UInt8}
    {calls calls' : List (Call Replicas)} (h : Vetted checksum chunk offset byte calls)
    (hsubset : calls ⊆ calls') : Vetted checksum chunk offset byte calls' := by
  obtain ⟨before, request, data, sums, hcall, hvetted⟩ := h
  exact ⟨before, request, data, sums, hsubset hcall, hvetted⟩

/-- The window holds the byte at an offset. -/
def Stream.Buffers (offset : Nat) (byte : UInt8) (s : Stream) : Prop :=
  ∃ i < s.filled, s.window[i]? = some byte ∧ offset = s.next.toNat - s.filled + i

variable {checksum : Option Algorithm} {chunk : Nat} {s t : Session (Recorded Replicas)}

/-- The byte at an offset was vetted since a session, or the window of that session held it. -/
def VettedSince (checksum : Option Algorithm) (chunk : Nat) (t : Session (Recorded Replicas))
    (offset : Nat) (byte : UInt8) (r : Recorded Replicas) : Prop :=
  Vetted checksum chunk offset byte (r.calls.drop t.source.calls.length) ∨
    t.stream.Buffers offset byte

theorem lasting_vettedSince (checksum : Option Algorithm) (chunk : Nat)
    (t : Session (Recorded Replicas)) : Lasting (VettedSince checksum chunk t) :=
  fun _ _ _ _ h hcalls => h.imp_left fun hvetted => hvetted.mono (hcalls.drop _).subset

/-- Sessions that verify and come after another one bring bytes that are vetted since. -/
theorem evidence_vettedSince (checksum : Option Algorithm) (chunk : Nat)
    (t : Session (Recorded Replicas)) :
    Evidence checksum chunk (VettedSince checksum chunk t)
      (fun s => s.stream.needsChecksum ∧ t.source.calls.length ≤ s.source.calls.length) where
  brought hP hbrought := by
    obtain ⟨before, request, data, sums, -, hdelivers, hcall, -, hasked⟩ := hbrought
    exact .inl ⟨before, request, data, sums, List.drop_subset_drop_left _ hP.2 hcall,
      hasked.trans hP.1, hdelivers⟩
  since h hxy _ := lasting_vettedSince checksum chunk t _ _ _ _ h hxy.calls_prefix
  kept hP hst := ⟨hst.stream.needsChecksum.trans hP.1,
    Nat.le_trans hP.2 hst.source.calls.length_le⟩

theorem Session.Sound.setVerify (h : t.Sound checksum chunk) (verify : Bool) :
    Session.Sound checksum chunk
      ((Operation.setVerify verify).after Replicas.source.recorded t) :=
  Operation.after_of_ends (Session.Sound.keeps (fun _ hbuffer => absurd hbuffer
    (Option.not_mem_none _)) t h)

/-- From where verification was turned on, the window holds vetted bytes and those that it held
then. -/
theorem Session.Sound.vetted_of_reaches {a : Algorithm} (h : t.Sound (some a) chunk)
    (hu : Session.Reaches Replicas.source.recorded
      (fun operation => operation.Fits ∧ operation ≠ .setVerify false) Recorded.Restocked
      ((Operation.setVerify true).after Replicas.source.recorded t) u) :
    u.Backed (VettedSince (some a) chunk t) (some a) chunk ∧ u.stream.needsChecksum ∧
      t.source.calls.length ≤ u.source.calls.length := by
  have hstart : Backed (VettedSince (some a) chunk t) (some a) chunk
      ((Operation.setVerify true).after Replicas.source.recorded t) :=
    (h.setVerify true).of_window fun i hi byte hbyte _ => .inr ⟨i, hi, hbyte, rfl⟩
  have hneeds : ((Operation.setVerify true).after Replicas.source.recorded
      t).stream.needsChecksum := by
    show (true && t.stream.checksum.isSome) = true
    rw [h.matched.checksum_eq]
    rfl
  refine hu.keeps
    (I := fun s => s.Backed (VettedSince (some a) chunk t) (some a) chunk ∧
      s.stream.needsChecksum ∧ t.source.calls.length ≤ s.source.calls.length)
    ⟨hstart, hneeds, Nat.le_refl _⟩ (fun operation hallowed => ?_) (fun s x hs hx => ?_)
  · refine Backed.keeps (evidence_vettedSince (some a) chunk t) hallowed.1
      fun verify hoperation s hs => ?_
    cases verify with
    | false => exact absurd hoperation hallowed.2
    | true => exact ⟨Bool.and_eq_true_iff.mpr ⟨rfl, (Bool.and_eq_true_iff.mp hs.1).2⟩, hs.2⟩
  · refine ⟨hs.1.restocked hx fun _ _ hbyte => ?_, hs.2.1, ?_⟩
    · exact lasting_vettedSince (some a) chunk t _ _ _ _ hbyte (hx.calls ▸ List.prefix_refl _)
    · rw [hx.calls]
      exact hs.2.2

/-- A byte of the window can be had without a call. -/
theorem Session.Sound.ends_seek_buffered (h : t.Sound checksum chunk) {offset : Nat} {byte : UInt8}
    (hbyte : t.stream.Buffers offset byte) :
    Ends ((Operation.seek offset).perform Replicas.source.recorded) t
      (fun _ u => Ends (Operation.readByte.perform Replicas.source.recorded) u
        (fun outcome v => outcome = .byte (some byte) ∧ v.source = t.source) (fun _ _ => False))
      (fun _ _ => False) := by
  obtain ⟨i, hi, hbyte, rfl⟩ := hbyte
  have hfilled := h.filled_le
  have hcursor : (((t.stream.next.toNat - t.stream.filled + i : Nat) : Int) -
      (t.stream.next - t.stream.filled)).toNat = i := by omega
  simp only [Operation.perform, ends_bind, ends_pure, Stream.ends_seek, Stream.seekNested,
    Stream.ends_seekWith]
  refine ⟨fun hneg => by omega, fun _ => ⟨fun _ => ?_, fun houtside => absurd ?_ houtside⟩⟩
  · rw [hcursor]
    simp only [Stream.readByte, ends_bind, ends_getStream, ends_ite, ends_pure, ends_modifyStream]
    refine ⟨fun hused => absurd hi (Nat.not_lt_of_le hused), fun _ =>
      ⟨fun hused => absurd hi (Nat.not_lt_of_le hused), fun _ => ⟨?_, trivial⟩⟩⟩
    rw [List.getD_eq_getElem?_getD, hbyte, Option.getD_some]
  · omega

/-- After verification was turned on, with anything done before, every byte that an operation hands
out was vetted by a call made since, or the window held it at that moment, brought by a call that
perhaps asked for no checksums. Every byte that the window held then can be had without a call. -/
theorem vetted_or_buffered {a : Algorithm} {options : Options}
    {list : List (Option Storage × Option Storage)} {replicas : Replicas} {stream : Stream}
    {t u : Session (Recorded Replicas)}
    (hreplicas : Replicas.ofList? list options.maxChunk = .ok replicas)
    (hstream : Stream.ofOptions? (some a) options = .ok stream)
    (hchunk : options.maxChunk < Word.half)
    (ht : Session.Reaches Replicas.source.recorded Operation.Fits Recorded.Restocked
      { stream, source := { state := replicas } } t)
    (hu : Session.Reaches Replicas.source.recorded
      (fun operation => operation.Fits ∧ operation ≠ .setVerify false) Recorded.Restocked
      ((Operation.setVerify true).after Replicas.source.recorded t) u) :
    u.stream.needsChecksum ∧
      (∀ (operation : Operation) (outcome : Outcome) (v : Session (Recorded Replicas)),
        operation.Fits → operation.perform Replicas.source.recorded u = .ok outcome v →
        ∀ i byte, (operation.handed outcome v)[i]? = some byte →
          ∃ offset, operation.ReadsAt u i offset ∧
            (Vetted (some a) options.maxChunk offset byte
                (v.source.calls.drop t.source.calls.length) ∨
              t.stream.Buffers offset byte ∧
                Brought (some a) options.maxChunk offset byte t.source)) ∧
      ∀ offset byte, t.stream.Buffers offset byte →
        Ends ((Operation.seek offset).perform Replicas.source.recorded)
          ((Operation.setVerify true).after Replicas.source.recorded t)
          (fun _ v => Ends (Operation.readByte.perform Replicas.source.recorded) v
            (fun outcome w => outcome = .byte (some byte) ∧ w.source = t.source)
            (fun _ _ => False))
          (fun _ _ => False) := by
  have hsound := Session.Sound.of_reaches hreplicas hstream hchunk ht
  obtain ⟨hbacked, hverifies, hlength⟩ := hsound.vetted_of_reaches hu
  refine ⟨hverifies, fun operation outcome v hfits hv i byte hbyte => ?_, fun offset byte hbyte =>
    (hsound.setVerify true).ends_seek_buffered hbyte⟩
  have hhanded := Backed.ends_handed (evidence_vettedSince (some a) options.maxChunk t)
    (lasting_vettedSince (some a) options.maxChunk t) ⟨hverifies, hlength⟩ hbacked hfits
  obtain ⟨offset, hoffset, hvetted⟩ := hhanded.ok hv i byte hbyte
  refine ⟨offset, hoffset, hvetted.imp_right fun hbuffers => ⟨hbuffers, ?_⟩⟩
  obtain ⟨i, hi, hbyte, rfl⟩ := hbuffers
  obtain ⟨byte', hbyte', hbrought⟩ := hsound.window i hi
  rw [hbyte] at hbyte'
  exact Option.some.inj hbyte' ▸ hbrought

/-- Of two chunks the first is read unverified. A byte of the second, read once verification is on,
is vetted. -/
theorem vetted_after_seek :
    ∃ replicas stream,
      Replicas.ofList? ([Replica.ofBytes .crc32 2 [1, 2, 3]].map Replica.storages) 2 =
        .ok replicas ∧
      Stream.ofOptions? (some .crc32) { maxChunk := 2, verify := false } = .ok stream ∧
      ∃ t, t = Operation.readByte.after Replicas.source.recorded
          { stream, source := { state := replicas } } ∧
        Ends (Operation.readByte.perform Replicas.source.recorded)
          ((Operation.seek 2).after Replicas.source.recorded
            ((Operation.setVerify true).after Replicas.source.recorded t))
          (fun outcome v => outcome = .byte (some 3) ∧
            Vetted (some .crc32) 2 2 3 (v.source.calls.drop t.source.calls.length))
          (fun _ _ => False) := by
  have hreplicas : Replicas.ofList?
      ([Replica.ofBytes .crc32 2 [1, 2, 3]].map Replica.storages) 2 = .ok _ := rfl
  have hstream : Stream.ofOptions? (some .crc32) { maxChunk := 2, verify := false } = .ok _ := rfl
  refine ⟨_, _, hreplicas, hstream, _, rfl, ?_⟩
  have hfits : ∀ operation : Operation, operation.buffer? = none → operation.Fits :=
    fun operation hnone buffer hbuffer => by
      rw [hnone] at hbuffer
      cases hbuffer
  generalize ht : Operation.readByte.after (Replicas.source : Source Replicas).recorded _ = t
  generalize hu : (Operation.seek 2).after (Replicas.source : Source Replicas).recorded _ = u
  have hrun : t.stream.next = 2 ∧ t.stream.filled = 2 ∧ u.stream.position = 2 ∧
      Ends (Operation.readByte.perform Replicas.source.recorded) u
        (fun outcome _ => outcome = .byte (some 3)) (fun _ _ => False) := by
    rw [← hu, ← ht]
    decide +kernel
  obtain ⟨hnext, hfilled, hposition, hrun⟩ := hrun
  obtain ⟨_, v, hv, rfl⟩ := hrun.exists_ok
  obtain ⟨offset, hoffset, hvetted⟩ := (vetted_or_buffered (t := t) (u := u) hreplicas hstream
    (by decide) (ht ▸ .perform .readByte .refl (hfits _ rfl))
    (hu ▸ .perform (.seek 2) .refl ⟨hfits _ rfl, by decide⟩)).2.1 .readByte _ v (hfits _ rfl) hv 0 3
    rfl
  have hoffset : offset = u.stream.position.toNat + 0 := hoffset
  rw [hposition] at hoffset
  have hoffset : offset = 2 := hoffset
  subst hoffset
  obtain hvetted | ⟨⟨i, hi, -, hout⟩, -⟩ := hvetted
  · exact .of_ok hv ⟨rfl, hvetted⟩
  · rw [hnext, hfilled] at hout
    rw [hfilled] at hi
    have hout : 2 = 2 - 2 + i := hout
    omega

/-- A damaged chunk is read unverified. A byte of it is handed out after verification was turned
on, without a call, though the chunk differs from its checksum. -/
theorem not_vetted_after_setVerify :
    ∃ replicas stream,
      Replicas.ofList?
        ([⟨{ bytes := [1, 7, 3] }, { bytes := Sidecar.ofBytes .crc32 2 [1, 2, 3] }⟩].map
          Replica.storages) 2 = .ok replicas ∧
      Stream.ofOptions? (some .crc32) { maxChunk := 2, verify := false } = .ok stream ∧
      ∃ t, t = Operation.run Replicas.source.recorded { stream, source := { state := replicas } }
          [.readByte, .setVerify true] ∧
        t.stream.needsChecksum ∧
        Ends (Operation.readByte.perform Replicas.source.recorded) t
          (fun outcome u => outcome = .byte (some 7) ∧
            ¬ Vetted (some .crc32) 2 1 7 u.source.calls ∧
            ¬ Chunk.Passes .crc32 2 u.source.state.sidecar u.source.state.bytes 0)
          (fun _ _ => False) := by
  refine ⟨_, _, rfl, rfl, _, rfl, by decide +kernel, ?_⟩
  generalize ht : Operation.run (Replicas.source : Source Replicas).recorded _ _ = t
  have hrun : Ends (Operation.readByte.perform Replicas.source.recorded) t
      (fun outcome u => outcome = .byte (some 7) ∧ (∀ call ∈ u.source.calls, call.asked = false) ∧
        ¬ Chunk.Passes .crc32 2 u.source.state.sidecar u.source.state.bytes 0)
      (fun _ _ => False) := by
    rw [← ht]
    decide +kernel
  refine hrun.mono (fun outcome u hu => ⟨hu.1, ?_, hu.2.2⟩) (fun _ _ hfalse => hfalse)
  rintro ⟨before, request, data, sums, hcall, hasked, -⟩
  exact absurd ((hu.2.1 _ hcall).symm.trans hasked) Bool.false_ne_true

end ChunkGuard
