import ChunkGuard.Proofs.Coupling
import ChunkGuard.Source.Recorded

/-!
# A history changes nothing

Where two sources answer alike, their states related by a function, a stream does the same on both
(`Source.Carries`, `Stream.carried_read`). A recorded source answers as its source does, so what is
proved of a stream with a history holds without one (`Source.carries_recorded`).
-/

namespace ChunkGuard

variable {ε σ τ α β : Type}

/-! ## Computations that commute with a function between states -/

/-- Begun in a state and in what it is carried to, the two computations end alike, in a state and in
what that is carried to. -/
def Carried (f : σ → τ) (m : EStateM ε σ α) (m' : EStateM ε τ α) : Prop :=
  ∀ s, Ends m s (fun a t => m' (f s) = .ok a (f t)) (fun e t => m' (f s) = .error e (f t))

section Rules

variable {f : σ → τ} {m : EStateM ε σ α} {m' : EStateM ε τ α}

/-- What is said of one computation is said of the other. -/
theorem Carried.ends (h : Carried f m m') {s : σ} {Q : α → τ → Prop} {E : ε → τ → Prop} :
    Ends m' (f s) Q E ↔ Ends m s (fun a t => Q a (f t)) (fun e t => E e (f t)) := by
  have hs := h s
  cases hm : m s with
  | ok a t =>
      have hm' := hs.ok hm
      simp only [Ends, hm, hm']
  | error e t =>
      have hm' := hs.error hm
      simp only [Ends, hm, hm']

/-- To carry a computation over is to couple it by the map. -/
theorem carried_iff_coupled : Carried f m m' ↔ Coupled (fun s t => t = f s) m m' := by
  constructor
  · rintro h s _ rfl
    exact (h s).mono (fun a t ht => ⟨f t, ht, rfl⟩) (fun e t ht => ⟨f t, ht, rfl⟩)
  · intro h s
    refine (h s (f s) rfl).mono ?_ ?_
    · rintro a t ⟨_, ht, rfl⟩
      exact ht
    · rintro e t ⟨_, ht, rfl⟩
      exact ht

/-- Computations that are carried over are so in a row. -/
theorem Carried.bind {k : α → EStateM ε σ β} {k' : α → EStateM ε τ β} (h : Carried f m m')
    (hk : ∀ a, Carried f (k a) (k' a)) : Carried f (m >>= k) (m' >>= k') :=
  carried_iff_coupled.mpr ((carried_iff_coupled.mp h).bind fun a => carried_iff_coupled.mp (hk a))

end Rules

/-! ## Sources -/

/-- The function takes the states of the first source to states of the second one, in which that
answers as the first one does. -/
structure Source.Carries (f : σ → τ) (source : Source σ) (source' : Source τ) : Prop where
  read : ∀ request, Carried f (source.read request) (source'.read request)
  start : ∀ x, source'.start (f x) = source.start x
  switch : ∀ position x, source'.switch position (f x) =
    ((source.switch position x).1, f (source.switch position x).2)

/-- A recorded source answers as its source does. -/
theorem Source.carries_recorded (source : Source σ) :
    source.recorded.Carries Recorded.state source where
  read request x := by
    cases hread : source.read request x.state with
    | ok reply y =>
        have hrecorded : source.recorded.read request x =
            .ok reply (x.push (.read x.state request (.ok reply)) y) := by
          simp only [Source.recorded, hread]
        exact .of_ok hrecorded rfl
    | error e y =>
        have hrecorded : source.recorded.read request x =
            .error e (x.push (.read x.state request (.error e)) y) := by
          simp only [Source.recorded, hread]
        exact .of_error hrecorded rfl
  start _ := rfl
  switch _ _ := rfl

/-- The session on the source that another state belongs to. -/
def Session.mapSource (f : σ → τ) (s : Session σ) : Session τ :=
  { stream := s.stream, source := f s.source, lent := s.lent, events := s.events }

/-! ## Streams -/

variable {f : σ → τ} {source : Source σ} {source' : Source τ}

/-- A source that is carried over is coupled to what it is carried to. -/
theorem Source.Carries.couples (h : source.Carries f source') :
    source.Couples (fun _ x y => y = f x) source' where
  alike h _ := h
  reset h := h
  verifying h _ := h
  read _ request := carried_iff_coupled.mp (h.read request)
  start := by
    rintro stream x _ rfl
    exact h.start x
  switch := by
    rintro stream x _ rfl position
    exact ⟨_, h.switch position x, rfl⟩

/-- Paired sessions are those with the source mapped. -/
theorem Session.paired_iff_mapSource {s : Session σ} {t : Session τ} :
    Session.Paired (fun _ x y => y = f x) s t ↔ t = s.mapSource f := by
  constructor
  · rintro ⟨_, rfl, rfl⟩
    rfl
  · rintro rfl
    exact ⟨_, rfl, rfl⟩

/-- A read does the same on both sources. -/
theorem Stream.carried_read (h : source.Carries f source') (offset size : Nat) :
    Carried (Session.mapSource f) (Stream.read source offset size) (Stream.read source' offset size) := by
  have hread := Stream.coupled_read h.couples (Stream.coupled_compare fun hC _ => hC) offset size
  rw [carried_iff_coupled]
  intro s t hst
  exact (hread s t (Session.paired_iff_mapSource.mpr hst)).mono
    (fun _ _ ⟨u, hu, hpaired⟩ => ⟨u, hu, Session.paired_iff_mapSource.mp hpaired⟩)
    (fun _ _ ⟨u, hu, hpaired⟩ => ⟨u, hu, Session.paired_iff_mapSource.mp hpaired⟩)

end ChunkGuard
