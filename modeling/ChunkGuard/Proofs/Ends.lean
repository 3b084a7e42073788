import ChunkGuard.Focus

/-!
# How computations end

`Ends m s Q E` says in one statement how the computation `m`, begun in the state `s`, ends: with a
result that satisfies `Q` or with an error that satisfies `E`, each together with the state left
behind. The rules of the first section take a program apart along its text. `leaving` is the outcome
and the state left behind as one value. `Keeps I m` is the special case of an invariant that survives
success and failure alike.
-/

namespace ChunkGuard

variable {ε σ τ α β : Type}

/-- The computation, begun in the state, gives a result with `Q` or fails with `E`. -/
def Ends (m : EStateM ε σ α) (s : σ) (Q : α → σ → Prop) (E : ε → σ → Prop) : Prop :=
  match m s with
  | .ok a t => Q a t
  | .error e t => E e t

instance {m : EStateM ε σ α} {s : σ} {Q : α → σ → Prop} {E : ε → σ → Prop}
    [∀ a t, Decidable (Q a t)] [∀ e t, Decidable (E e t)] : Decidable (Ends m s Q E) :=
  match hm : m s with
  | .ok a t => decidable_of_iff (Q a t) (by simp only [Ends, hm])
  | .error e t => decidable_of_iff (E e t) (by simp only [Ends, hm])

/-! ## Rules -/

section Rules

variable {m : EStateM ε σ α} {s : σ} {Q : α → σ → Prop} {E : ε → σ → Prop}

/-- A result that is known ends the computation as it says. -/
theorem Ends.of_ok {a : α} {t : σ} (hm : m s = .ok a t) (h : Q a t) : Ends m s Q E := by
  simp only [Ends, hm]
  exact h

/-- An error that is known ends the computation as it says. -/
theorem Ends.of_error {e : ε} {t : σ} (hm : m s = .error e t) (h : E e t) : Ends m s Q E := by
  simp only [Ends, hm]
  exact h

/-- What is said of results holds of the one given. -/
theorem Ends.ok {a : α} {t : σ} (h : Ends m s Q E) (hm : m s = .ok a t) : Q a t := by
  simpa only [Ends, hm] using h

/-- What is said of errors holds of the one raised. -/
theorem Ends.error {e : ε} {t : σ} (h : Ends m s Q E) (hm : m s = .error e t) : E e t := by
  simpa only [Ends, hm] using h

/-- A computation that cannot fail gives a result. -/
theorem Ends.exists_ok (h : Ends m s Q (fun _ _ => False)) : ∃ a t, m s = .ok a t ∧ Q a t := by
  cases hm : m s with
  | ok a t => exact ⟨a, t, rfl, h.ok hm⟩
  | error e t => exact (h.error hm).elim

/-- A computation that cannot give a result fails. -/
theorem Ends.exists_error (h : Ends m s (fun _ _ => False) E) : ∃ e t, m s = .error e t ∧ E e t := by
  cases hm : m s with
  | ok a t => exact (h.ok hm).elim
  | error e t => exact ⟨e, t, rfl, h.error hm⟩

/-- What follows from both ends may be said in their place. -/
theorem Ends.mono {Q' : α → σ → Prop} {E' : ε → σ → Prop} (h : Ends m s Q E)
    (hQ : ∀ a t, Q a t → Q' a t) (hE : ∀ e t, E e t → E' e t) : Ends m s Q' E' := by
  cases hm : m s with
  | ok a t => exact .of_ok hm (hQ a t (h.ok hm))
  | error e t => exact .of_error hm (hE e t (h.error hm))

/-- What is said of the ends severally is said of them together. -/
theorem Ends.and {Q' : α → σ → Prop} {E' : ε → σ → Prop} (h : Ends m s Q E)
    (h' : Ends m s Q' E') :
    Ends m s (fun a t => Q a t ∧ Q' a t) (fun e t => E e t ∧ E' e t) := by
  cases hm : m s with
  | ok a t => exact .of_ok hm ⟨h.ok hm, h'.ok hm⟩
  | error e t => exact .of_error hm ⟨h.error hm, h'.error hm⟩

/-- Every computation ends. -/
theorem Ends.trivial : Ends m s (fun _ _ => True) (fun _ _ => True) := by
  cases hm : m s with
  | ok a t => exact .of_ok hm True.intro
  | error e t => exact .of_error hm True.intro

@[simp] theorem ends_pure {a : α} : Ends (pure a) s Q E ↔ Q a s := Iff.rfl

@[simp] theorem ends_throw {e : ε} : Ends (throw e) s Q E ↔ E e s := Iff.rfl

@[simp] theorem ends_get {Q : σ → σ → Prop} : Ends get s Q E ↔ Q s s := Iff.rfl

@[simp] theorem ends_set {t : σ} {Q : PUnit → σ → Prop} : Ends (set t) s Q E ↔ Q ⟨⟩ t := Iff.rfl

@[simp] theorem ends_modify {f : σ → σ} {Q : PUnit → σ → Prop} :
    Ends (modify f) s Q E ↔ Q ⟨⟩ (f s) := Iff.rfl

/-- What comes second begins where the first one ends, and an error of the first one ends both. -/
@[simp] theorem ends_bind {f : α → EStateM ε σ β} {Q : β → σ → Prop} :
    Ends (m >>= f) s Q E ↔ Ends m s (fun a t => Ends (f a) t Q E) E := by
  simp only [Ends, bind, EStateM.bind]
  cases m s <;> rfl

/-- A choice ends as the program chosen does. -/
@[simp] theorem ends_ite {c : Prop} [Decidable c] {n : EStateM ε σ α} :
    Ends (if c then m else n) s Q E ↔ (c → Ends m s Q E) ∧ (¬ c → Ends n s Q E) := by
  by_cases h : c <;> simp [h]

/-- Work on a part ends as the part does, put back into the whole. -/
@[simp] theorem ends_focus {part : τ → σ} {update : σ → τ → τ} {s : τ} {Q : α → τ → Prop}
    {E : ε → τ → Prop} :
    Ends (focus part update m) s Q E ↔
      Ends m (part s) (fun a t => Q a (update t s)) (fun e t => E e (update t s)) := by
  simp only [Ends, focus]
  cases m (part s) <;> rfl

/-- Errors may be told in other words. -/
@[simp] theorem ends_adaptExcept {ε' : Type} {f : ε → ε'} {E : ε' → σ → Prop} :
    Ends (m.adaptExcept f) s Q E ↔ Ends m s Q (fun e t => E (f e) t) := by
  simp only [Ends, EStateM.adaptExcept]
  cases m s <;> rfl

/-- An error is caught in the state that it left behind. -/
@[simp] theorem ends_tryCatch {handle : ε → EStateM ε σ α} :
    Ends (tryCatch m handle) s Q E ↔ Ends m s Q (fun e t => Ends (handle e) t Q E) := by
  simp only [Ends, tryCatch, tryCatchThe, MonadExceptOf.tryCatch]
  delta EStateM.tryCatch
  cases m s <;> rfl

end Rules

/-! ## Outcomes and the states they leave -/

/-- A result or an error, with the state that it leaves behind. -/
def leaving (t : σ) : Except ε α → EStateM.Result ε σ α
  | .ok a => .ok a t
  | .error e => .error e t

/-- Every end is an outcome with the state left behind. -/
theorem exists_leaving (r : EStateM.Result ε σ α) : ∃ t outcome, r = leaving t outcome := by
  cases r with
  | ok a t => exact ⟨t, .ok a, rfl⟩
  | error e t => exact ⟨t, .error e, rfl⟩

section Leaving

variable {m : EStateM ε σ α} {s t : σ} {outcome : Except ε α}

/-- If both ends are the one outcome, the computation is known. -/
theorem Ends.eq_leaving (h : Ends m s (fun a u => outcome = .ok a ∧ u = t)
    (fun e u => outcome = .error e ∧ u = t)) : m s = leaving t outcome := by
  cases hm : m s with
  | ok a u =>
      obtain ⟨rfl, rfl⟩ := h.ok hm
      rfl
  | error e u =>
      obtain ⟨rfl, rfl⟩ := h.error hm
      rfl

/-- A computation that is known ends with its outcome. -/
theorem Ends.of_leaving (hm : m s = leaving t outcome) {Q : α → σ → Prop} {E : ε → σ → Prop}
    (hQ : ∀ a, outcome = .ok a → Q a t) (hE : ∀ e, outcome = .error e → E e t) : Ends m s Q E := by
  cases outcome with
  | ok a => exact .of_ok hm (hQ a rfl)
  | error e => exact .of_error hm (hE e rfl)

end Leaving

/-! ## Invariants -/

/-- The computation keeps the invariant, whether it gives a result or fails. -/
def Keeps (I : σ → Prop) (m : EStateM ε σ α) : Prop :=
  ∀ s, I s → Ends m s (fun _ => I) (fun _ => I)

section Invariants

variable {I : σ → Prop} {m : EStateM ε σ α}

theorem keeps_pure (a : α) : Keeps I (pure a : EStateM ε σ α) := fun _ h => h

theorem keeps_throw (e : ε) : Keeps I (throw e : EStateM ε σ α) := fun _ h => h

theorem keeps_modify {f : σ → σ} (h : ∀ s, I s → I (f s)) :
    Keeps I (modify f : EStateM ε σ PUnit) := h

/-- What two programs keep they keep in a row. -/
theorem Keeps.bind {f : α → EStateM ε σ β} (hm : Keeps I m) (hf : ∀ a, Keeps I (f a)) :
    Keeps I (m >>= f) := by
  intro s hs
  rw [ends_bind]
  exact (hm s hs).mono (fun a t ht => hf a t ht) (fun _ _ ht => ht)

end Invariants

end ChunkGuard
