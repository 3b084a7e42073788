import ChunkGuard.Proofs.Frame
import ChunkGuard.Source.Recorded

/-!
# Histories

The history of a recorded source tells which call brought the byte at an offset: the last one whose
reply covers it (`Recorded.bringer`). Calls from an offset on don't change what is told about the
bytes before it (`Recorded.Since`).
-/

namespace ChunkGuard

variable {σ : Type}

/-- The call was answered with the byte at an offset. -/
def Call.covers (offset : Nat) : Call σ → Bool
  | .read _ request (.ok (.chunk data _)) =>
    decide (request.position ≤ offset ∧ (offset : Int) < request.position + data.length)
  | _ => false

theorem Call.covers_chunk {before : σ} {request : Request} {data sums : Bytes} {offset : Nat} :
    (Call.read before request (.ok (.chunk data sums))).covers offset ↔
      request.position ≤ offset ∧ (offset : Int) < request.position + data.length :=
  decide_eq_true_iff

namespace Recorded

/-- The last call that was answered with the byte at an offset. -/
def bringer (offset : Nat) (r : Recorded σ) : Option (Call σ) :=
  (r.calls.filter (Call.covers offset)).getLast?

/-- The second history continues the first one, with no call that was answered with a byte before
the offset. -/
def Since (offset : Nat) (x y : Recorded σ) : Prop :=
  ∃ added, y.calls = x.calls ++ added ∧ ∀ call ∈ added, ∀ i < offset, call.covers i = false

variable {x y z : Recorded σ} {offset : Nat} {call : Call σ}

theorem bringer_push (h : call.covers offset) (state : σ) :
    (x.push call state).bringer offset = some call := by
  rw [bringer, push, List.filter_append, List.filter_cons_of_pos h, List.filter_nil,
    List.getLast?_concat]

namespace Since

theorem refl (x : Recorded σ) : Since offset x x :=
  ⟨[], (List.append_nil _).symm, fun _ hcall => absurd hcall List.not_mem_nil⟩

theorem trans (h : Since offset x y) (h' : Since offset y z) : Since offset x z := by
  obtain ⟨added, hy, hadded⟩ := h
  obtain ⟨added', hz, hadded'⟩ := h'
  refine ⟨added ++ added', by rw [hz, hy, List.append_assoc], fun call hcall => ?_⟩
  obtain hcall | hcall := List.mem_append.mp hcall
  · exact hadded call hcall
  · exact hadded' call hcall

theorem mono {offset' : Nat} (h : Since offset x y) (hle : offset' ≤ offset) :
    Since offset' x y := by
  obtain ⟨added, hy, hadded⟩ := h
  exact ⟨added, hy, fun call hcall i hi => hadded call hcall i (Nat.lt_of_lt_of_le hi hle)⟩

theorem push (x : Recorded σ) (state : σ) (h : ∀ i < offset, call.covers i = false) :
    Since offset x (x.push call state) := by
  refine ⟨[call], rfl, fun added hadded => ?_⟩
  rw [List.mem_singleton.mp hadded]
  exact h

theorem calls_prefix (h : Since offset x y) : x.calls <+: y.calls := by
  obtain ⟨added, hy, -⟩ := h
  exact ⟨added, hy.symm⟩

/-- What is told about the bytes before the offset stays the same. -/
theorem bringer_eq (h : Since offset x y) {i : Nat} (hi : i < offset) :
    y.bringer i = x.bringer i := by
  obtain ⟨added, hy, hadded⟩ := h
  have hnone : added.filter (Call.covers i) = [] := by
    rw [List.filter_eq_nil_iff]
    intro call hcall
    rw [hadded call hcall i hi]
    exact Bool.false_ne_true
  rw [bringer, bringer, hy, List.filter_append, hnone, List.append_nil]

end Since

end Recorded

/-- A call at a position was answered with no byte before it. -/
theorem Call.covers_read_of_lt {before : σ} {request : Request}
    {outcome : Except StreamError Reply} {i : Nat} (h : (i : Int) < request.position) :
    (Call.read before request outcome).covers i = false := by
  cases outcome with
  | error e => rfl
  | ok reply =>
      cases reply with
      | ended below => rfl
      | chunk data sums => exact decide_eq_false fun hcovers => absurd hcovers.1 (Int.not_le.mpr h)

namespace Source

variable {source : Source σ} {request : Request} {r r' : Recorded σ}

/-- A recorded source answers as its source does, and notes the call. -/
theorem read_recorded_eq_ok {reply : Reply} :
    source.recorded.read request r = .ok reply r' ↔
      ∃ x, source.read request r.state = .ok reply x ∧
        r' = r.push (.read r.state request (.ok reply)) x := by
  simp only [recorded]
  split
  · rename_i reply' x hread
    rw [hread]
    constructor
    · intro h
      cases h
      exact ⟨x, rfl, rfl⟩
    · rintro ⟨x', hx', rfl⟩
      cases hx'
      rfl
  · rename_i e x hread
    rw [hread]
    constructor
    · intro h
      cases h
    · rintro ⟨x', hx', -⟩
      cases hx'

/-- A recorded source fails as its source does, and notes the call. -/
theorem read_recorded_eq_error {e : StreamError} :
    source.recorded.read request r = .error e r' ↔
      ∃ x, source.read request r.state = .error e x ∧
        r' = r.push (.read r.state request (.error e)) x := by
  simp only [recorded]
  split
  · rename_i reply' x hread
    rw [hread]
    constructor
    · intro h
      cases h
    · rintro ⟨x', hx', -⟩
      cases hx'
  · rename_i e' x hread
    rw [hread]
    constructor
    · intro h
      cases h
      exact ⟨x, rfl, rfl⟩
    · rintro ⟨x', hx', rfl⟩
      cases hx'
      rfl

/-- A source gives no more than was asked for while its answers are noted. -/
theorem Bounded.recorded (h : source.Bounded) : source.recorded.Bounded := by
  intro request before data sums after hread
  obtain ⟨state, hstate, -⟩ := read_recorded_eq_ok.mp hread
  exact h request before.state data sums state hstate

/-- What the answers of a source respect, they respect while they are noted. -/
theorem Respects.recorded {S : σ → σ → Prop} (h : source.Respects S) :
    source.recorded.Respects fun x y => S x.state y.state where
  refl x := h.refl x.state
  trans hxy hyz := h.trans hxy hyz
  read request x := by
    have hread := h.read request x.state
    cases hm : source.recorded.read request x with
    | ok reply y =>
        obtain ⟨state, hstate, rfl⟩ := read_recorded_eq_ok.mp hm
        exact .of_ok hm (hread.ok hstate)
    | error e y =>
        obtain ⟨state, hstate, rfl⟩ := read_recorded_eq_error.mp hm
        exact .of_error hm (hread.error hstate)
  switch position x := h.switch position x.state

/-- Calls are noted after those noted before. -/
theorem respects_calls : source.recorded.Respects fun x y => x.calls <+: y.calls where
  refl x := List.prefix_refl _
  trans hxy hyz := hxy.trans hyz
  read request x := by
    cases hm : source.recorded.read request x with
    | ok reply y =>
        obtain ⟨state, -, rfl⟩ := read_recorded_eq_ok.mp hm
        exact .of_ok hm (List.prefix_append _ _)
    | error e y =>
        obtain ⟨state, -, rfl⟩ := read_recorded_eq_error.mp hm
        exact .of_error hm (List.prefix_append _ _)
  switch position x := List.prefix_append _ _

end Source

end ChunkGuard
