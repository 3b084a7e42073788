import ChunkGuard.Proofs.Coupling
import ChunkGuard.Proofs.FileVector
import ChunkGuard.Proofs.Sidecar
import ChunkGuard.Source.Replicas
import Mathlib.Data.List.Forall2

/-!
# Files as storages

An open file that works serves as a string of bytes (`OpenFile.Shows.serves`, `OpenFile.holds`), so
that a sidecar can be written from a file to a file. To reads it answers as a storage in memory with
its bytes does (`OpenFile.answers_mirrors`). Replicas in files then mirror replicas in memory: they
answer requests alike and change to the same replica (`Replicas.couples_source`), so a stream does the
same on both.
-/

namespace ChunkGuard

/-! ## Storages that answer alike -/

/-- Storages of two kinds that go together have the same size and answer reads alike. -/
structure Storing.Answers {ρ ρ' : Type} [Storing ρ] [Storing ρ'] (M : ρ → ρ' → Prop) : Prop where
  size_eq : ∀ {x y}, M x y → size x = size y
  coupled_read : ∀ offset size, Coupled M (read offset size) (read offset size)

/-! ## Replicas that go together -/

namespace Replicas

variable {ρ ρ' : Type} {M : ρ → ρ' → Prop} {x : Replicas ρ} {y : Replicas ρ'}

/-- Replicas of two kinds whose storages go together, with the same one being read and the same ones
marked. -/
structure Mirrors (M : ρ → ρ' → Prop) (x : Replicas ρ) (y : Replicas ρ') : Prop where
  chunk_eq : x.chunk = y.chunk
  current_eq : x.current = y.current
  marked_eq : x.marked = y.marked
  length_eq : x.list.length = y.list.length
  inside : x.current < x.list.length
  data : ∀ {i : Nat} {r : Replica ρ} {r' : Replica ρ'},
    x.list[i]? = some r → y.list[i]? = some r' → M r.data r'.data
  sums : ∀ {i : Nat} {r : Replica ρ} {r' : Replica ρ'},
    x.list[i]? = some r → y.list[i]? = some r' → M r.sums r'.sums

namespace Mirrors

/-- Replicas in two lists of the same chunks, with the first one being read and none marked. -/
theorem of_forall₂ {list : List (Replica ρ)} {list' : List (Replica ρ')} (hsome : list ≠ [])
    (h : List.Forall₂ (fun r r' => M r.data r'.data ∧ M r.sums r'.sums) list list') (chunk : Nat) :
    Mirrors M { list, chunk } { list := list', chunk } := by
  obtain ⟨hlength, hget⟩ := List.forall₂_iff_get.mp h
  have hboth : ∀ {i : Nat} {r : Replica ρ} {r' : Replica ρ'}, list[i]? = some r →
      list'[i]? = some r' → M r.data r'.data ∧ M r.sums r'.sums := by
    intro i r r' hr hr'
    obtain ⟨hi, rfl⟩ := List.getElem?_eq_some_iff.mp hr
    obtain ⟨hi', rfl⟩ := List.getElem?_eq_some_iff.mp hr'
    exact hget i hi hi'
  exact ⟨rfl, rfl, rfl, hlength, List.length_pos_iff.mpr hsome, fun hr hr' => (hboth hr hr').1,
    fun hr hr' => (hboth hr hr').2⟩

/-- A change that keeps the replicas together may be made to the current ones. -/
theorem alter (h : Mirrors M x y) {f : Replica ρ → Replica ρ} {g : Replica ρ' → Replica ρ'}
    (hdata : ∀ {r r'}, M r.data r'.data → M (f r).data (g r').data)
    (hsums : ∀ {r r'}, M r.sums r'.sums → M (f r).sums (g r').sums) :
    Mirrors M (x.alter x.current f) (y.alter y.current g) := by
  have hget : ∀ {i : Nat} {r : Replica ρ} {r' : Replica ρ'},
      (x.alter x.current f).list[i]? = some r → (y.alter y.current g).list[i]? = some r' →
      ∃ p p', x.list[i]? = some p ∧ y.list[i]? = some p' ∧
        (r = p ∧ r' = p' ∨ r = f p ∧ r' = g p') := by
    intro i r r' hr hr'
    rw [Replicas.alter, List.getElem?_modify, h.current_eq] at hr
    rw [Replicas.alter, List.getElem?_modify] at hr'
    obtain ⟨p, hp, rfl⟩ := Option.map_eq_some_iff.mp hr
    obtain ⟨p', hp', rfl⟩ := Option.map_eq_some_iff.mp hr'
    refine ⟨p, p', hp, hp', ?_⟩
    by_cases hi : y.current = i
    · exact .inr ⟨by rw [if_pos hi], by rw [if_pos hi]⟩
    · exact .inl ⟨by rw [if_neg hi], by rw [if_neg hi]⟩
  refine ⟨h.chunk_eq, h.current_eq, h.marked_eq, ?_, ?_, fun hr hr' => ?_, fun hr hr' => ?_⟩
  · show (x.list.modify _ _).length = (y.list.modify _ _).length
    rw [List.length_modify, List.length_modify, h.length_eq]
  · show x.current < (x.list.modify _ _).length
    rw [List.length_modify]
    exact h.inside
  · obtain ⟨p, p', hp, hp', ⟨rfl, rfl⟩ | ⟨rfl, rfl⟩⟩ := hget hr hr'
    · exact h.data hp hp'
    · exact hdata (h.data hp hp')
  · obtain ⟨p, p', hp, hp', ⟨rfl, rfl⟩ | ⟨rfl, rfl⟩⟩ := hget hr hr'
    · exact h.sums hp hp'
    · exact hsums (h.sums hp hp')

/-- Both sets change to the same replica. -/
theorem switch (h : Mirrors M x y) (position : Int) :
    (y.switch position).1 = (x.switch position).1 ∧
      Mirrors M (x.switch position).2 (y.switch position).2 := by
  have hothers : y.others = x.others := by rw [others, others, h.current_eq, h.length_eq]
  simp only [Replicas.switch, hothers, ← h.marked_eq, ← h.current_eq]
  generalize (if x.current ∈ x.marked then x.marked else x.current :: x.marked) = marked
  cases hnext : x.others.find? (· ∉ marked) with
  | none => exact ⟨rfl, h.chunk_eq, rfl, rfl, h.length_eq, h.inside, h.data, h.sums⟩
  | some next =>
      obtain ⟨step, -, rfl⟩ := List.mem_map.mp (List.mem_of_find?_eq_some hnext)
      have hnext : (x.current + 1 + step) % x.list.length < x.list.length :=
        Nat.mod_lt _ (Nat.zero_lt_of_lt h.inside)
      exact ⟨rfl, h.chunk_eq, rfl, rfl, h.length_eq, hnext, h.data, h.sums⟩

section Reading

variable [Storing ρ] [Storing ρ']

/-- The replicas that are read go together. -/
theorem get_current (h : Mirrors M x y) :
    M (x.get x.current).data (y.get y.current).data ∧
      M (x.get x.current).sums (y.get y.current).sums := by
  have hx := List.getElem?_eq_getElem h.inside
  have hy := List.getElem?_eq_getElem (h.length_eq ▸ h.inside)
  rw [get, get, ← h.current_eq, List.getD_eq_getElem?_getD, List.getD_eq_getElem?_getD, hx, hy]
  exact ⟨h.data hx hy, h.sums hx hy⟩

variable (hanswers : Storing.Answers M)
include hanswers

/-- The data being read has the same size. -/
theorem size_eq (h : Mirrors M x y) : x.size = y.size := hanswers.size_eq h.get_current.1

end Reading

end Mirrors

section Reading

variable [Storing ρ] [Storing ρ'] (hanswers : Storing.Answers M)
include hanswers

/-- The data being read is read alike. -/
theorem coupled_readData (offset size : Nat) :
    Coupled (Mirrors M) (readData offset size) (readData offset size) :=
  coupled_focus (fun _ _ _ => hanswers.coupled_read offset size) (fun h => h.get_current.1)
    fun h hxy => h.alter (fun _ => hxy) fun hsums => hsums

/-- The sidecar of the data being read is read alike. -/
theorem coupled_readSums (offset size : Nat) :
    Coupled (Mirrors M) (readSums offset size) (readSums offset size) :=
  coupled_focus (fun _ _ _ => hanswers.coupled_read offset size) (fun h => h.get_current.2)
    fun h hxy => h.alter (fun hdata => hdata) fun _ => hxy

/-- Replicas that go together answer requests alike. -/
theorem coupled_answer (request : Request) :
    Coupled (Mirrors M) (Replicas.read request) (Replicas.read request) := by
  rw [Replicas.read, Replicas.read]
  refine coupled_get_bind fun x y h => ?_
  rw [h.size_eq hanswers]
  refine .ite (coupled_pure _) ?_
  cases request.capacity with
  | none => exact (coupled_readData hanswers _ _).bind fun _ => coupled_pure _
  | some capacity =>
      dsimp only
      rw [readChunks, readChunks]
      refine coupled_get_bind ?_
      intro x y h
      rw [h.size_eq hanswers, h.chunk_eq, hanswers.size_eq h.get_current.2]
      refine .checked ?_
      refine .checked ?_
      refine .checked ?_
      exact (coupled_readData hanswers _ _).bind fun _ =>
        (coupled_readSums hanswers _ _).bind fun _ => coupled_pure _

/-- A stream does the same on both. -/
theorem couples_source :
    Source.Couples (fun _ => Mirrors M) (source (ρ := ρ)) (source (ρ := ρ')) where
  alike h _ := h
  reset h := h
  verifying h _ := h
  read _ request := coupled_answer hanswers request
  start h := by
    funext position
    exact congrArg (Chunk.start · position) h.chunk_eq.symm
  switch h position := ⟨_, Prod.ext (h.switch position).1 rfl, (h.switch position).2⟩

end Reading

end Replicas

/-! ## Open files -/

namespace OpenFile

variable {name : String} {place : Place} {writable : Bool} {limit : Nat} {bytes : Bytes}
  {f : OpenFile}

/-- A file that works is read again and again. -/
theorem Shows.serves (h : f.Shows name place writable limit bytes) :
    Storing.Serves bytes fun _ => f where
  size_eq _ := h.size_eq
  read_eq {_ offset size} hinside := by
    have hread : Ends ((read offset size).adaptExcept FileError.toStream) f
        (fun b g => b = Bytes.slice offset size bytes ∧ g = f) (fun _ _ => False) := by
      rw [ends_adaptExcept]
      refine (h.ends_read offset size).mono (fun b g hg => ⟨hg.2.2, hg.1⟩) (fun e g hg => ?_)
      exact absurd hg.2.1 (Nat.not_lt_of_le hinside)
    obtain ⟨b, g, hread, rfl, rfl⟩ := hread.exists_ok
    exact hread

/-- A file that works and may be written is resized and written to as its bytes are, up to the
greatest size that it can have. -/
theorem holds (name : String) (place : Place) (limit : Nat) :
    Storing.Holds (limit + 1) fun bytes (f : OpenFile) =>
      f.Shows name place true limit bytes ∧ bytes.length ≤ limit + 1 where
  ends_resize {n bytes f} hn h := by
    show Ends ((resize n).adaptExcept FileError.toStream) f _ _
    rw [ends_adaptExcept]
    refine (h.1.ends_resize h.2 hn).mono (fun _ g hg => ⟨hg, ?_⟩) (fun _ _ hfalse => hfalse)
    rw [Bytes.length_resize]
    exact hn
  ends_write {offset src bytes f} hsome hinside h := by
    have hlimit := h.2
    have hpos := List.length_pos_iff.mpr hsome
    show Ends ((write offset src).adaptExcept FileError.toStream) f _ _
    rw [ends_adaptExcept]
    refine (h.1.ends_write (by omega) (.inl hsome)).mono (fun _ g hg => ⟨hg, ?_⟩)
      (fun _ _ hfalse => hfalse)
    rw [Bytes.length_write, Nat.max_eq_right hinside]
    exact hlimit

/-- The file works, and the storage holds its bytes under its name. -/
def Mirrors (f : OpenFile) (s : Storage) : Prop :=
  ∃ name place writable limit,
    f.Shows name place writable limit s.bytes ∧ s.medium = .file name

/-- A file that works answers reads as a storage in memory does. -/
theorem answers_mirrors : Storing.Answers Mirrors where
  size_eq h := by
    obtain ⟨_, _, _, _, hshows, -⟩ := h
    exact hshows.size_eq
  coupled_read offset size := by
    rintro f s ⟨name, place, writable, limit, hshows, hmedium⟩
    have hmirrors : f.Mirrors { s with reads := s.reads + 1 } :=
      ⟨name, place, writable, limit, hshows, hmedium⟩
    show Ends ((read offset size).adaptExcept FileError.toStream) f _ _
    rw [ends_adaptExcept]
    refine (hshows.ends_read offset size).mono ?_ ?_
    · rintro _ _ ⟨rfl, hinside, rfl⟩
      exact ⟨_, Storage.read_eq_ok (Nat.le_of_not_lt hinside), hmirrors⟩
    · rintro _ _ ⟨rfl, hpast, rfl⟩
      refine ⟨_, ?_, hmirrors⟩
      rw [← hmedium]
      exact Storage.read_eq_error hpast

end OpenFile

end ChunkGuard
