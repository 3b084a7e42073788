import ChunkGuard.Proofs.Integrity

/-!
# Replicas follow each other

Replicas are read in the order in which they were handed over. Each look for another copy, from a
failover of the stream or from outside, goes on to the next replica as long as there is one, so of `n`
replicas the first `n - 1` looks succeed and no other, and no replica is come back to
(`switches_in_order`). All that a look needs to know is in its place among the looks, whatever was read,
sought or stored in between.
-/

namespace ChunkGuard

variable {σ : Type}

/-! ## Looks for another copy -/

/-- The state that the source was in before the call. -/
def Call.before : Call σ → σ
  | .read before _ _ => before
  | .switch before _ _ => before

/-- Whether there was another copy, if the call looked for one. -/
def Call.found? : Call σ → Option Bool
  | .read .. => none
  | .switch _ _ found => some found

/-- The calls that looked for another copy, the first one first. -/
def Recorded.looks (x : Recorded σ) : List (Call σ) := x.calls.filter (·.found?.isSome)

theorem Recorded.looks_push_read (x : Recorded σ) (before : σ) (request : Request)
    (outcome : Except StreamError Reply) (state : σ) :
    (x.push (.read before request outcome) state).looks = x.looks := by
  rw [looks, push, List.filter_append]
  exact List.append_nil _

theorem Recorded.looks_push_switch (x : Recorded σ) (before : σ) (position : Int) (found : Bool)
    (state : σ) :
    (x.push (.switch before position found) state).looks =
      x.looks ++ [.switch before position found] := by
  rw [looks, push, List.filter_append]
  rfl

namespace Replicas

/-- A look marks the current replica and goes to the next one, or stays at the last. -/
theorem InOrder.switch_eq {r : Replicas} (h : r.InOrder) (position : Int) :
    (r.switch position).1.1 = decide (r.current + 1 < r.list.length) ∧
      (r.switch position).2 =
        { r with marked := r.markedNow, current := min (r.current + 1) (r.list.length - 1) } := by
  by_cases hnext : r.current + 1 < r.list.length
  · have hmin : min (r.current + 1) (r.list.length - 1) = r.current + 1 := by omega
    rw [switch_next h hnext, hmin]
    exact ⟨(decide_eq_true hnext).symm, rfl⟩
  · have hcurrent := h.current_lt
    have hmin : min (r.current + 1) (r.list.length - 1) = r.current := by omega
    rw [switch_last h (by omega), hmin]
    exact ⟨(decide_eq_false hnext).symm, rfl⟩

/-- A replica that is marked while it is read was looked away from in vain, and a further look leaves
everything as it is. -/
theorem InOrder.switch_of_marked {r : Replicas} (h : r.InOrder) (hmarked : r.current ∈ r.marked)
    (position : Int) : (r.switch position).2 = r := by
  have hlast := h.last_of_marked hmarked
  have hmin : min (r.current + 1) (r.list.length - 1) = r.current := by omega
  rw [(h.switch_eq position).2, markedNow, if_pos hmarked, hmin]

end Replicas

/-! ## The looks of a run -/

/-- What holds at every place of a list and of a further element behind it holds at every place of the
longer list. -/
theorem forall_getElem?_concat {α : Type} {P : Nat → α → Prop} {l : List α} {a : α}
    (h : ∀ k x, l[k]? = some x → P k x) (ha : P l.length a) (k : Nat) (x : α)
    (hx : (l ++ [a])[k]? = some x) : P k x := by
  obtain hk | rfl | hk := Nat.lt_trichotomy k l.length
  · rw [List.getElem?_append_left hk] at hx
    exact h k x hx
  · rw [List.getElem?_concat_length] at hx
    cases hx
    exact ha
  · rw [List.getElem?_eq_none (by rw [List.length_append, List.length_singleton]; omega)] at hx
    cases hx

/-- Of `n` replicas, the call is the look number `k`, counted from zero: it was made at replica `k`, or
at the last one, and there was another copy if a replica comes after that one. -/
def Call.InTurn (n k : Nat) (call : Call Replicas) : Prop :=
  call.before.current = min k (n - 1) ∧ call.found? = some (decide (k + 1 < n))

/-- The replica read now and the answers of all looks are told by the number of looks. -/
structure Recorded.Succeeding (n : Nat) (x : Recorded Replicas) : Prop where
  inOrder : x.state.InOrder
  length : x.state.list.length = n
  current : x.state.current = min x.looks.length (n - 1)
  /-- After a look in vain the last replica is marked. -/
  marked : n ≤ x.looks.length → x.state.current ∈ x.state.marked
  turn : ∀ (k : Nat) (call : Call Replicas), x.looks[k]? = some call → call.InTurn n k
  forward : x.calls.Pairwise fun call later => call.before.current ≤ later.before.current
  reached : ∀ call ∈ x.calls, call.before.current ≤ x.state.current

namespace Recorded.Succeeding

variable {n : Nat} {x y : Recorded Replicas}

/-- No call was made at an earlier replica than the calls before it. -/
theorem forward_concat (h : x.Succeeding n) {call : Call Replicas}
    (hcall : call.before = x.state) :
    (x.calls ++ [call]).Pairwise fun call later => call.before.current ≤ later.before.current := by
  refine List.pairwise_append.mpr ⟨h.forward, List.pairwise_singleton _ _, ?_⟩
  intro earlier hearlier later hlater
  rw [List.mem_singleton.mp hlater, hcall]
  exact h.reached earlier hearlier

/-- All calls were made at replicas up to the one that is read after a further call. -/
theorem reached_concat (h : x.Succeeding n) {call : Call Replicas} (hcall : call.before = x.state)
    {state : Replicas} (hforward : x.state.current ≤ state.current) :
    ∀ earlier ∈ x.calls ++ [call], earlier.before.current ≤ state.current := by
  intro earlier hearlier
  obtain hearlier | hearlier := List.mem_append.mp hearlier
  · exact Nat.le_trans (h.reached earlier hearlier) hforward
  · rw [List.mem_singleton.mp hearlier, hcall]
    exact hforward

/-- A request changes nothing about the looks. -/
theorem read (h : x.Succeeding n) (request : Request) (outcome : Except StreamError Reply)
    {state : Replicas} (hstate : x.state.Reread state) :
    (x.push (.read x.state request outcome) state).Succeeding n := by
  have hlooks := x.looks_push_read x.state request outcome state
  refine ⟨hstate.inOrder h.inOrder, hstate.length.trans h.length, ?_, ?_, ?_,
    h.forward_concat rfl, h.reached_concat rfl (Nat.le_of_eq hstate.current.symm)⟩
  · rw [hlooks]
    exact hstate.current.trans h.current
  · rw [hlooks]
    show n ≤ x.looks.length → state.current ∈ state.marked
    rw [hstate.current, hstate.marked]
    exact h.marked
  · rw [hlooks]
    exact h.turn

/-- The number of looks is as good as the current replica to say what a further look does. -/
theorem switch_eq (h : x.Succeeding n) (position : Int) :
    (x.state.switch position).1.1 = decide (x.looks.length + 1 < n) ∧
      (x.state.switch position).2 =
        { x.state with
          marked := x.state.markedNow, current := min (x.looks.length + 1) (n - 1) } := by
  obtain ⟨hfound, hafter⟩ := h.inOrder.switch_eq position
  have hcurrent := h.current
  have hlt := h.inOrder.current_lt
  rw [h.length] at hfound hafter hlt
  have hnext : min (x.state.current + 1) (n - 1) = min (x.looks.length + 1) (n - 1) := by omega
  refine ⟨?_, hnext ▸ hafter⟩
  rw [hfound, decide_eq_decide]
  omega

/-- A look is answered by its place among the looks. -/
theorem switch (h : x.Succeeding n) (position : Int) :
    (x.push (.switch x.state position (x.state.switch position).1.1)
      (x.state.switch position).2).Succeeding n := by
  obtain ⟨hfound, hafter⟩ := h.switch_eq position
  have hlooks := x.looks_push_switch x.state position (x.state.switch position).1.1
    (x.state.switch position).2
  have hlength : (x.push (.switch x.state position (x.state.switch position).1.1)
      (x.state.switch position).2).looks.length = x.looks.length + 1 := by
    rw [hlooks, List.length_append, List.length_singleton]
  refine ⟨h.inOrder.switch position, ?_, ?_, fun hmany => ?_, ?_, h.forward_concat rfl,
    h.reached_concat rfl ((x.state.moved_switch position).forward h.inOrder)⟩
  · exact (congrArg List.length (x.state.list_switch position)).trans h.length
  · rw [hlength]
    exact congrArg Replicas.current hafter
  · rw [hlength] at hmany
    have hcurrent := h.current
    have hlast : min (x.looks.length + 1) (n - 1) = x.state.current := by omega
    rw [hlast] at hafter
    show (x.state.switch position).2.current ∈ (x.state.switch position).2.marked
    rw [hafter]
    exact Replicas.mem_markedNow.mpr (.inl rfl)
  · rw [hlooks]
    exact forall_getElem?_concat h.turn ⟨h.current, congrArg some hfound⟩

/-- Whatever becomes of the storages, the looks stay what they were. -/
theorem restocked (h : x.Succeeding n) (hy : x.Restocked y) : y.Succeeding n := by
  have hlooks : y.looks = x.looks := by rw [looks, looks, hy.calls]
  refine ⟨hy.inOrder h.inOrder, hy.length.trans h.length, ?_, ?_, ?_, ?_, ?_⟩
  · rw [hlooks, hy.current]
    exact h.current
  · rw [hlooks, hy.current, hy.marked]
    exact h.marked
  · rw [hlooks]
    exact h.turn
  · rw [hy.calls]
    exact h.forward
  · rw [hy.calls, hy.current]
    exact h.reached

/-- The looks that succeeded are the first ones, one for each replica but the first. -/
theorem filter_found (h : x.Succeeding n) :
    x.looks.filter (·.found? = some true) = x.looks.take (n - 1) := by
  have htake : (x.looks.take (n - 1)).filter (·.found? = some true) = x.looks.take (n - 1) := by
    refine List.filter_eq_self.mpr fun call hcall => ?_
    obtain ⟨k, hk⟩ := List.mem_iff_getElem?.mp hcall
    rw [List.getElem?_take] at hk
    split at hk
    · rename_i hlt
      refine decide_eq_true ?_
      rw [(h.turn k call hk).2, decide_eq_true (show k + 1 < n by omega)]
    · cases hk
  have hdrop : (x.looks.drop (n - 1)).filter (·.found? = some true) = [] := by
    refine List.filter_eq_nil_iff.mpr fun call hcall => ?_
    obtain ⟨k, hk⟩ := List.mem_iff_getElem?.mp hcall
    rw [List.getElem?_drop] at hk
    rw [(h.turn _ call hk).2, decide_eq_false (show ¬ n - 1 + k + 1 < n by omega)]
    decide
  have hsplit := congrArg (List.filter (·.found? = some true)) (List.take_append_drop (n - 1) x.looks)
  rw [List.filter_append, htake, hdrop, List.append_nil] at hsplit
  exact hsplit.symm

end Recorded.Succeeding

/-- The answers of replicas keep them in succession. -/
theorem Replicas.respects_succeeding (n : Nat) :
    source.recorded.Respects fun x y => x.Succeeding n → y.Succeeding n where
  refl _ := id
  trans hxy hyz hx := hyz (hxy hx)
  read request x := by
    have hread := Replicas.ends_read x.state request
    cases hm : source.recorded.read request x with
    | ok reply y =>
        obtain ⟨state, hstate, rfl⟩ := Source.read_recorded_eq_ok.mp hm
        exact .of_ok hm fun hx => hx.read request _ (hread.ok hstate).2
    | error e y =>
        obtain ⟨state, hstate, rfl⟩ := Source.read_recorded_eq_error.mp hm
        exact .of_error hm fun hx => hx.read request _ ((hread.error hstate).2 ▸ .refl _)
  switch position x hx := hx.switch position

/-- Replicas that were just built are at the first one, and nobody has looked for another. -/
theorem Recorded.Succeeding.of_new {list : List (Option Storage × Option Storage)} {chunk : Nat}
    {replicas : Replicas} (h : Replicas.ofList? list chunk = .ok replicas) :
    Recorded.Succeeding list.length { state := replicas } := by
  obtain ⟨hlist, hne, -, hreplicas⟩ := Replicas.eq_of_ofList? h
  have hlength : replicas.list.length = list.length := by rw [hlist, List.length_map]
  have hpos := List.length_pos_iff.mpr hne
  refine ⟨?_, hlength, ?_, fun hnone => absurd hnone (Nat.not_le_of_lt hpos), nofun,
    List.Pairwise.nil, nofun⟩
  · rw [hreplicas]
    refine Replicas.inOrder_of_new fun hnil => hne ?_
    rw [hlist, hnil, List.map_nil]
  · rw [hreplicas]
    exact (Nat.zero_min _).symm

/-- In any run of a stream on `n` replicas, whatever is stored in between, the replica number `k`, or the
last one, is current after `k` looks for another copy, each of which found one if there was a replica
left. So no call is made at a replica that an earlier call was made after, at most `n - 1` looks ever
succeed, and these are the first ones. A further look goes the same way. In vain it changes nothing but
the marks, and behind another one in vain it changes nothing. -/
theorem switches_in_order {list : List (Option Storage × Option Storage)} {chunk : Nat}
    {replicas : Replicas} {checksum : Option Algorithm} {options : Options} {stream : Stream}
    {t : Session (Recorded Replicas)} (hreplicas : Replicas.ofList? list chunk = .ok replicas)
    (hstream : Stream.ofOptions? checksum options = .ok stream)
    (ht : Session.Reaches Replicas.source.recorded (fun _ => True) Recorded.Restocked
      { stream, source := { state := replicas } } t) :
    let n := list.length
    let looks := t.source.looks
    t.source.state.current = min looks.length (n - 1) ∧
    (∀ (k : Nat) (call : Call Replicas), looks[k]? = some call →
      call.before.current = min k (n - 1) ∧ call.found? = some (decide (k + 1 < n))) ∧
    (looks.filter (·.found? = some true) = looks.take (n - 1)) ∧
    (t.source.calls.Pairwise fun call later => call.before.current ≤ later.before.current) ∧
    (∀ call ∈ t.source.calls, call.before.current ≤ t.source.state.current) ∧
    ∀ position, ∃ found u,
      (Operation.switch position).perform Replicas.source.recorded t = .ok (.flag found) u ∧
      u.source.looks = looks ++ [.switch t.source.state position found] ∧
      (found = true ↔ looks.length + 1 < n) ∧
      u.source.state.current = min (looks.length + 1) (n - 1) ∧
      (found = false →
        u.source.state = { t.source.state with marked := u.source.state.marked }) ∧
      (n ≤ looks.length → u.source.state = t.source.state) := by
  obtain ⟨verify, hkept⟩ := ht.kept (Replicas.respects_succeeding list.length)
    (fun _ _ hy hx => hx.restocked hy) (Stream.ready_of_ofOptions? hstream)
  have h : t.source.Succeeding list.length := hkept.source (.of_new hreplicas)
  refine ⟨h.current, h.turn, h.filter_found, h.forward, h.reached, fun position => ?_⟩
  obtain ⟨hfound, hafter⟩ := h.switch_eq position
  have hcurrent := h.current
  have hperform : (Operation.switch position).perform Replicas.source.recorded t =
      .ok (.flag (t.source.state.switch position).1.1)
        { t with
          source := t.source.push (.switch t.source.state position
            (t.source.state.switch position).1.1) (t.source.state.switch position).2
          events := t.events ++ (t.source.state.switch position).1.2 } := rfl
  refine ⟨_, _, hperform, t.source.looks_push_switch _ _ _ _, ?_, congrArg Replicas.current hafter,
    fun hvain => ?_, fun hmany => h.inOrder.switch_of_marked (h.marked hmany) position⟩
  · rw [hfound, decide_eq_true_iff]
  · rw [hfound, decide_eq_false_iff_not] at hvain
    have hstay : min (t.source.looks.length + 1) (list.length - 1) = t.source.state.current := by
      omega
    show (t.source.state.switch position).2 =
      { t.source.state with marked := (t.source.state.switch position).2.marked }
    rw [hafter, hstay]

/-- Three replicas, the first of which is damaged: the stream looks for another copy once and its caller
three times, and the last two looks are in vain. -/
theorem switches_in_order_three_replicas :
    let intact := Replica.ofBytes .crc32 2 [1, 2, 3, 4]
    let list := [Replica.storages { intact with data := { bytes := [9, 2, 3, 4] } },
      intact.storages, intact.storages]
    let operations := [Operation.readByte, .switch 7, .seek 2, .switch 0, .readByte, .switch (-1)]
    ∃ replicas stream, Replicas.ofList? list 2 = .ok replicas ∧
      Stream.ofOptions? (some .crc32) { maxChunk := 2 } = .ok stream ∧
      Session.Reaches Replicas.source.recorded (fun _ => True) Recorded.Restocked
        { stream, source := { state := replicas } }
        (Operation.run Replicas.source.recorded { stream, source := { state := replicas } }
          operations) ∧
      let t := Operation.run Replicas.source.recorded { stream, source := { state := replicas } }
        operations
      t.source.looks.length = 4 ∧ t.source.state.current = 2 ∧
      (t.source.looks.filter (·.found? = some true)).length = 2 := by
  intro intact list operations
  have hreplicas : Replicas.ofList? list 2 = .ok _ := rfl
  have hstream : Stream.ofOptions? (some .crc32) { maxChunk := 2 } = .ok _ := rfl
  refine ⟨_, _, hreplicas, hstream, Session.Reaches.refl.run operations fun _ _ => trivial, ?_⟩
  intro t
  obtain ⟨hcurrent, -, hfound, -⟩ := switches_in_order hreplicas hstream (t := t)
    (Session.Reaches.refl.run operations fun _ _ => trivial)
  have hlength : t.source.looks.length = 4 := by decide +kernel
  refine ⟨hlength, ?_, ?_⟩
  · rw [hcurrent, hlength]
    rfl
  · rw [hfound, List.length_take, hlength]
    rfl

end ChunkGuard
