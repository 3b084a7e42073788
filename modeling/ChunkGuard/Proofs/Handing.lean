import ChunkGuard.Proofs.Backing

/-!
# What operations hand out

`Operation.handed` are the bytes that an operation hands out, and `Operation.ReadsAt` says from which
offsets of the data it reads them. Knowledge of bytes that no further call takes back is known of all
bytes handed out, whichever operation hands them out (`Session.Backed.ends_handed`). A positioned
read may fetch once more after its bytes are in the buffer, when it goes back to where the stream
was. That is why the knowledge has to last.
-/

namespace ChunkGuard

open Session

variable {σ : Type}

namespace Operation

/-- The bytes that an operation with an outcome handed out. -/
def handed (operation : Operation) (outcome : Outcome) (t : Session σ) : Bytes :=
  match operation, outcome with
  | readByte, .byte byte => byte.toList
  | read _ offset _, .count count => Bytes.padded offset count.toNat t.lent
  | readFully _ offset size, _ => Bytes.padded offset size t.lent
  | readAt _ _ offset _, .count count => Bytes.padded offset count.toNat t.lent
  | readFullyAt _ _ offset size, _ => Bytes.padded offset size t.lent
  | _, _ => []

/-- The operation reads the byte that it hands out at an index from this offset. A complete read at a
negative position may change its place between its parts. -/
def ReadsAt (operation : Operation) (s : Session σ) (i offset : Nat) : Prop :=
  match operation with
  | readAt position _ _ _ =>
    offset = (if position < 0 then s.stream.position else position).toNat + i
  | readFullyAt position _ _ _ => 0 ≤ position → offset = position.toNat + i
  | _ => offset = s.stream.position.toNat + i

end Operation

/-- What is said of the bytes of a buffer is said of those that are read from it. -/
theorem forall_padded {Q : Nat → UInt8 → Prop} {lent : Bytes} {offset count : Nat}
    (h : ∀ i < count, ∃ byte, lent[offset + i]? = some byte ∧ Q i byte) {i : Nat} {byte : UInt8}
    (hi : (Bytes.padded offset count lent)[i]? = some byte) : Q i byte := by
  rw [Bytes.getElem?_padded] at hi
  by_cases hcount : i < count
  · obtain ⟨b, hb, hQ⟩ := h i hcount
    rw [if_pos hcount, List.getD_eq_getElem?_getD, hb, Option.getD_some] at hi
    exact Option.some.inj hi ▸ hQ
  · rw [if_neg hcount] at hi
    cases hi

/-- What `B` says stays true whatever calls follow. -/
def Lasting (B : Nat → UInt8 → Recorded Replicas → Prop) : Prop :=
  ∀ x y offset byte, B offset byte x → x.calls <+: y.calls → B offset byte y

namespace Session.Backed

variable {checksum : Option Algorithm} {chunk : Nat} {B : Nat → UInt8 → Recorded Replicas → Prop}
  {P : Session (Recorded Replicas) → Prop} {s t u : Session (Recorded Replicas)}

/-! ## Complete reads -/

/-- A complete read hands out as many bytes as asked for. -/
theorem ends_readFully (hB : Evidence checksum chunk B P) (hP : P s)
    (h : s.Backed B checksum chunk) (offset size : Nat) :
    Ends ((Stream.seekable Replicas.source.recorded).readFully offset size) s
      (fun _ t => Delivered B checksum chunk offset size s t) (fun _ _ => True) := by
  suffices hparts : ∀ fuel done, size ≤ fuel →
      Ends (Seekable.readParts (fun _ => (Stream.seekable Replicas.source.recorded).read) fuel done
        offset size) s (fun _ t => Delivered B checksum chunk offset size s t)
        (fun _ _ => True) from hparts size 0 (Nat.le_refl _)
  intro fuel
  induction fuel generalizing s offset size with
  | zero =>
      intro done hfuel
      rw [Nat.le_zero.mp hfuel]
      exact Delivered.refl h offset
  | succ fuel ih =>
      intro done hfuel
      simp only [Seekable.readParts, ends_ite, ends_bind, ends_pure, ends_throw,
        Stream.ends_seekable_read]
      refine ⟨fun hzero => hzero ▸ .refl h offset, fun _ => ?_⟩
      refine (h.ends_read hB hP offset size).mono (fun count t ht => ⟨fun _ => trivial, fun hpos => ?_⟩)
        (fun _ _ _ => trivial)
      obtain ⟨ht, hle, -⟩ := ht
      cases count with
      | none => exact absurd (by decide : (-1 : Int) ≤ 0) hpos
      | some n =>
          have hle : n ≤ size := hle
          have hpos : ¬ (n : Int) ≤ 0 := hpos
          refine (ih (hB.kept hP ht.kept) ht.backed (offset + n) (size - n) (done + n)
            (by omega)).mono (fun _ u hu => ?_) (fun _ _ _ => trivial)
          have htogether := ht.trans hu hB h
          rwa [Option.getD_some, Nat.add_sub_cancel' hle] at htogether

/-! ## Positioned reads -/

/-- So many bytes were handed out to the lent buffer from an offset on, each with evidence for the
offset that `place` gives it. Nothing before them was touched. -/
structure Placed (B : Nat → UInt8 → Recorded Replicas → Prop) (checksum : Option Algorithm)
    (chunk : Nat) (place : Nat → Nat → Prop) (offset count : Nat)
    (s t : Session (Recorded Replicas)) : Prop where
  backed : t.Backed B checksum chunk
  before : ∀ i < offset, t.lent[i]? = s.lent[i]?
  bytes : ∀ i < count, ∃ byte, t.lent[offset + i]? = some byte ∧
    ∃ o, place i o ∧ B o byte t.source
  kept : s.Kept Recorded.Grown t

theorem Placed.refl (h : s.Backed B checksum chunk) (place : Nat → Nat → Prop) (offset : Nat) :
    Placed B checksum chunk place offset 0 s s :=
  ⟨h, fun _ _ => rfl, fun i hi => absurd hi (Nat.not_lt_zero i), .refl Replicas.respects_grown s⟩

/-- A read from where a seek went is one at the position, for it hands out nothing where the seek
stopped short. -/
theorem ends_read_of_sought (hB : Evidence checksum chunk B P) (hP : P s)
    (h : s.Backed B checksum chunk) {position : Int}
    (hplace : s.stream.position = position ∨ s.Ended) (offset size : Nat) :
    Ends (Stream.read Replicas.source.recorded offset size) s
      (fun count t => Placed B checksum chunk (fun i o => o = position.toNat + i) offset
        (count.getD 0) s t ∧ count.getD 0 ≤ size)
      (fun _ _ => True) := by
  have hread := h.ends_read hB hP offset size
  obtain hposition | hend := hplace
  · refine hread.mono (fun count t ht => ?_) (fun _ _ _ => trivial)
    obtain ⟨ht, hle, -⟩ := ht
    refine ⟨⟨ht.backed, ht.before, fun i hi => ?_, ht.kept⟩, hle⟩
    obtain ⟨byte, hbyte, hbacked⟩ := ht.bytes i hi
    exact ⟨byte, hbyte, _, by rw [hposition], hbacked⟩
  · refine (hread.and (h.ends_read_of_ended hend offset size)).mono (fun count t ht => ?_)
      (fun _ _ _ => trivial)
    obtain ⟨⟨ht, hle, -⟩, hzero⟩ := ht
    exact ⟨⟨ht.backed, ht.before, fun i hi => absurd hi (by omega), ht.kept⟩, hle⟩

/-- Bytes read at one position after the other are read together. -/
theorem Placed.trans {place place' : Nat → Nat → Prop} {offset n m : Nat}
    (h : Placed B checksum chunk place offset n s t)
    (h' : Placed B checksum chunk place' (offset + n) m t u) (hlasting : Lasting B)
    (hplace : ∀ i o, place' i o → place (n + i) o) :
    Placed B checksum chunk place offset (n + m) s u := by
  refine ⟨h'.backed, fun i hi => ?_, fun i hi => ?_, h.kept.trans Replicas.respects_grown h'.kept⟩
  · exact (h'.before i (by omega)).trans (h.before i hi)
  · by_cases hfirst : i < n
    · obtain ⟨byte, hbyte, o, ho, hbacked⟩ := h.bytes i hfirst
      refine ⟨byte, (h'.before _ (by omega)).trans hbyte, o, ho, ?_⟩
      exact hlasting _ _ _ _ hbacked h'.kept.source.calls
    · obtain ⟨byte, hbyte, o, ho, hbacked⟩ := h'.bytes (i - n) (by omega)
      have hindex : offset + n + (i - n) = offset + i := by omega
      have hplaced := hplace _ _ ho
      rw [Nat.add_sub_cancel' (Nat.le_of_not_lt hfirst)] at hplaced
      rw [hindex] at hbyte
      exact ⟨byte, hbyte, o, hplaced, hbacked⟩

section Lasting

variable (hB : Evidence checksum chunk B P) (hlasting : Lasting B)
include hB hlasting

/-- A positioned read hands out bytes from its position on. -/
theorem ends_readAt (hP : P s) (h : s.Backed B checksum chunk) (position : Int)
    (offset size : Nat) :
    Ends ((Stream.seekable Replicas.source.recorded).readAt position offset size) s
      (fun count t => Placed B checksum chunk
        (fun i o => o = (if position < 0 then s.stream.position else position).toNat + i) offset
        count.toNat s t ∧ count.toNat ≤ size)
      (fun _ _ => True) := by
  simp only [Seekable.readAt, ends_ite, ends_bind, ends_get, ends_pure, ends_throw, ends_tryCatch,
    Stream.ends_seekable_read]
  refine ⟨fun _ => trivial, fun _ => ⟨fun _ => ⟨.refl h _ offset, Nat.zero_le _⟩, fun _ => ?_⟩⟩
  -- Whatever fails on the way, nothing is handed out.
  have hfails : ∀ t : Session (Recorded Replicas),
      Ends (Stream.seek Replicas.source.recorded s.stream.position) t (fun _ _ => True)
        (fun _ _ => True) := fun _ => .trivial
  refine (h.ends_seek hB hP position).mono (fun _ t ht => ?_) (fun _ t _ => hfails t)
  obtain ⟨ht, hneg, hpos⟩ := ht
  have hplace : t.stream.position = (if position < 0 then s.stream.position else position) ∨
      t.Ended := by
    split
    · exact .inl (congrArg (fun u => u.stream.position) (hneg (by assumption)))
    · exact hpos (by omega)
  have hback : ∀ (n : Nat) (v : Session (Recorded Replicas)),
      Placed B checksum chunk
        (fun i o => o = (if position < 0 then s.stream.position else position).toNat + i) offset n
        t v ∧ n ≤ size →
      Ends (Stream.seek Replicas.source.recorded s.stream.position) v
        (fun _ w => Placed B checksum chunk
          (fun i o => o = (if position < 0 then s.stream.position else position).toNat + i) offset
          n s w ∧ n ≤ size) (fun _ _ => True) := by
    rintro n v ⟨hv, hle⟩
    have hkept := ht.kept.trans Replicas.respects_grown hv.kept
    refine (hv.backed.ends_seek hB (hB.kept hP hkept) _).mono (fun _ w hw => ⟨?_, hle⟩)
      (fun _ _ _ => trivial)
    refine ⟨hw.1.backed, fun i hi => ?_, fun i hi => ?_,
      hkept.trans Replicas.respects_grown hw.1.kept⟩
    · rw [hw.1.lent, hv.before i hi, ht.lent]
    · obtain ⟨byte, hbyte, o, ho, hbacked⟩ := hv.bytes i hi
      exact ⟨byte, hw.1.lent ▸ hbyte, o, ho, hlasting _ _ _ _ hbacked hw.1.kept.source.calls⟩
  refine (ends_read_of_sought hB (hB.kept hP ht.kept) ht.backed hplace offset size).mono
    (fun count v hv => ?_) (fun _ v _ => hfails v)
  cases count with
  | none => exact hback 0 v hv
  | some n => exact hback n v hv

/-- A complete read at a position hands out bytes from its position on. -/
theorem ends_readFullyAt (hP : P s) (h : s.Backed B checksum chunk) (position : Int)
    (offset size : Nat) :
    Ends ((Stream.seekable Replicas.source.recorded).readFullyAt position offset size) s
      (fun _ t => Placed B checksum chunk (fun i o => 0 ≤ position → o = position.toNat + i) offset
        size s t)
      (fun _ _ => True) := by
  suffices hparts : ∀ fuel (done : Nat), size ≤ fuel →
      Ends (Seekable.readParts
          (fun done => (Stream.seekable Replicas.source.recorded).readAt (position + done)) fuel
          done offset size) s
        (fun _ t => Placed B checksum chunk (fun i o => 0 ≤ position → o = position.toNat + done + i)
          offset size s t) (fun _ _ => True) from hparts size 0 (Nat.le_refl _)
  intro fuel
  induction fuel generalizing s offset size with
  | zero =>
      intro done hfuel
      rw [Nat.le_zero.mp hfuel]
      exact Placed.refl h _ offset
  | succ fuel ih =>
      intro done hfuel
      simp only [Seekable.readParts, ends_ite, ends_bind, ends_pure, ends_throw]
      refine ⟨fun hzero => hzero ▸ .refl h _ offset, fun _ => ?_⟩
      refine (ends_readAt hB hlasting hP h (position + done) offset size).mono (fun count t ht => ?_)
        (fun _ _ _ => trivial)
      obtain ⟨ht, hle⟩ := ht
      refine ⟨fun _ => trivial, fun hpos => ?_⟩
      refine (ih (hB.kept hP ht.kept) ht.backed (offset + count.toNat) (size - count.toNat)
        (done + count.toNat) (by omega)).mono (fun _ u hu => ?_) (fun _ _ _ => trivial)
      have hfirst : Placed B checksum chunk (fun i o => 0 ≤ position → o = position.toNat + done + i)
          offset count.toNat s t := by
        refine ⟨ht.backed, ht.before, fun i hi => ?_, ht.kept⟩
        obtain ⟨byte, hbyte, o, ho, hbacked⟩ := ht.bytes i hi
        refine ⟨byte, hbyte, o, fun hnonneg => ?_, hbacked⟩
        rw [ho, if_neg (by omega)]
        omega
      have htogether : Placed B checksum chunk
          (fun i o => 0 ≤ position → o = position.toNat + done + i) offset
          (count.toNat + (size - count.toNat)) s u := by
        refine hfirst.trans hu hlasting fun i o ho hnonneg => ?_
        rw [ho hnonneg]
        omega
      rwa [Nat.add_sub_cancel' hle] at htogether

/-! ## All operations -/

/-- Every byte that an operation hands out has evidence for the offset that it was read from. -/
theorem ends_handed (hP : P s) (h : s.Backed B checksum chunk) {operation : Operation}
    (hfits : operation.Fits) :
    Ends (operation.perform Replicas.source.recorded) s
      (fun outcome t => ∀ i byte, (operation.handed outcome t)[i]? = some byte →
        ∃ offset, operation.ReadsAt s i offset ∧ B offset byte t.source)
      (fun _ _ => True) := by
  have hlent : ∀ buffer, operation.buffer? = some buffer →
      Backed B checksum chunk { s with lent := buffer } ∧ P { s with lent := buffer } :=
    fun buffer hbuffer =>
      ⟨h.lending (hfits buffer hbuffer), hB.kept hP (.of_same (.refl _) rfl rfl)⟩
  cases operation with
  | readByte =>
      simp only [Operation.perform, ends_bind, ends_pure]
      refine (h.ends_readByte hB hP).mono (fun byte t ht i b hi => ?_) (fun _ _ _ => trivial)
      cases byte with
      | none => cases hi
      | some b' =>
          cases i with
          | zero => exact ⟨_, rfl, ht.2.1 b hi⟩
          | succ i => cases hi
  | read buffer offset size =>
      obtain ⟨hbacked, hP⟩ := hlent buffer rfl
      simp only [Operation.perform, ends_bind, ends_pure, Operation.ends_lend,
        Stream.ends_seekable_read]
      refine (hbacked.ends_read hB hP offset size).mono (fun count t ht i byte hi => ?_)
        (fun _ _ _ => trivial)
      refine ⟨_, rfl, forall_padded ht.1.bytes ?_⟩
      cases count <;> exact hi
  | readFully buffer offset size =>
      obtain ⟨hbacked, hP⟩ := hlent buffer rfl
      simp only [Operation.perform, ends_bind, ends_pure, Operation.ends_lend]
      refine (hbacked.ends_readFully hB hP offset size).mono (fun _ t ht i byte hi => ?_)
        (fun _ _ _ => trivial)
      exact ⟨_, rfl, forall_padded ht.bytes hi⟩
  | readAt position buffer offset size =>
      obtain ⟨hbacked, hP⟩ := hlent buffer rfl
      simp only [Operation.perform, ends_bind, ends_pure, Operation.ends_lend]
      refine (ends_readAt hB hlasting hP hbacked position offset size).mono
        (fun count t ht i byte hi => ?_) (fun _ _ _ => trivial)
      exact forall_padded ht.1.bytes hi
  | readFullyAt position buffer offset size =>
      obtain ⟨hbacked, hP⟩ := hlent buffer rfl
      simp only [Operation.perform, ends_bind, ends_pure, Operation.ends_lend]
      refine (ends_readFullyAt hB hlasting hP hbacked position offset size).mono
        (fun _ t ht i byte hi => ?_) (fun _ _ _ => trivial)
      exact forall_padded ht.bytes hi
  | seek position => exact Ends.trivial.mono (fun _ _ _ i byte hi => by cases hi) (fun _ _ _ => trivial)
  | skip count => exact Ends.trivial.mono (fun _ _ _ i byte hi => by cases hi) (fun _ _ _ => trivial)
  | switch position =>
      exact Ends.trivial.mono (fun _ _ _ i byte hi => by cases hi) (fun _ _ _ => trivial)
  | setVerify verify =>
      exact Ends.trivial.mono (fun _ _ _ i byte hi => by cases hi) (fun _ _ _ => trivial)
  | mark limit => exact trivial
  | reset => exact trivial

end Lasting

end Session.Backed

end ChunkGuard
