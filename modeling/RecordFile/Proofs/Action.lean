import Mathlib
import RecordFile.Store

/-!
# What an action ends with

An action on a state ends with a result or halts. `WP m s Q E` says that `m`, started in `s`, ends
with a result and a state that satisfy `Q`, or halts for a reason and in a state that satisfy `E`.
Since actions are deterministic and total, this is the whole behaviour of `m` in `s`:
`WP.bind_iff` takes a sequence apart, and `WP.mono` weakens what is known at its end.

`endState m s` is the state `m` leaves behind, whichever way it ends.
-/

namespace RecordFile

/-- `m`, started in `s`, ends in `Q` or halts in `E`. -/
def WP {σ α : Type} (m : Action σ α) (s : σ) (Q : α → σ → Prop) (E : Halt → σ → Prop) : Prop :=
  match m s with
  | .ok a s' => Q a s'
  | .error e s' => E e s'

/-- The state that `m`, started in `s`, leaves behind. -/
def endState {σ α : Type} (m : Action σ α) (s : σ) : σ :=
  match m s with
  | .ok _ s' => s'
  | .error _ s' => s'

section

variable {σ α β : Type} {s : σ} {Q Q' : α → σ → Prop} {E E' : Halt → σ → Prop}

instance {m : Action σ α} [∀ a s', Decidable (Q a s')] [∀ e s', Decidable (E e s')] :
    Decidable (WP m s Q E) :=
  match h : m s with
  | .ok a s' => decidable_of_iff (Q a s') (by rw [WP, h])
  | .error e s' => decidable_of_iff (E e s') (by rw [WP, h])

theorem WP.mono {m : Action σ α} (h : WP m s Q E) (hQ : ∀ a s', Q a s' → Q' a s')
    (hE : ∀ e s', E e s' → E' e s') : WP m s Q' E' := by
  unfold WP at *
  split at h
  · exact hQ _ _ h
  · exact hE _ _ h

theorem WP.and {m : Action σ α} (h : WP m s Q E) (h' : WP m s Q' E') :
    WP m s (fun a s' => Q a s' ∧ Q' a s') (fun e s' => E e s' ∧ E' e s') := by
  unfold WP at *
  split <;> simp_all

/-- What holds of the state an action leaves behind, whichever way it ends. -/
theorem WP.of_endState {P : σ → Prop} {m : Action σ α} (h : P (endState m s)) :
    WP m s (fun _ => P) (fun _ => P) := by
  unfold WP endState at *
  split <;> simp_all

/-- An action ends as it does. -/
theorem WP.self (m : Action σ α) (s : σ) :
    WP m s (fun a s' => m s = .ok a s') fun e s' => m s = .error e s' := by
  unfold WP
  split <;> assumption

theorem WP.ok {m : Action σ α} {a : α} {s' : σ} (h : WP m s Q E) (hm : m s = .ok a s') :
    Q a s' := by
  rwa [WP, hm] at h

theorem WP.error {m : Action σ α} {e : Halt} {s' : σ} (h : WP m s Q E) (hm : m s = .error e s') :
    E e s' := by
  rwa [WP, hm] at h

/-- An action that cannot halt in `E` ends with a result. -/
theorem WP.exists_ok {m : Action σ α} (h : WP m s Q E) (hE : ∀ e s', m s = .error e s' → ¬ E e s') :
    ∃ a s', m s = .ok a s' ∧ Q a s' := by
  unfold WP at h
  split at h
  · exact ⟨_, _, ‹_›, h⟩
  · exact absurd h (hE _ _ ‹_›)

theorem WP.bind_iff {m : Action σ β} {f : β → Action σ α} :
    WP (m >>= f) s Q E ↔ WP m s (fun b s' => WP (f b) s' Q E) E := by
  simp only [WP, bind, EStateM.bind]
  cases m s <;> rfl

theorem WP.map_iff {m : Action σ β} {f : β → α} :
    WP (f <$> m) s Q E ↔ WP m s (fun b s' => Q (f b) s') E := by
  simp only [WP, Functor.map, EStateM.map]
  cases m s <;> rfl

theorem WP.orAbort_some {a : α} : WP (orAbort (some a)) s Q E ↔ Q a s := Iff.rfl

end

@[simp] theorem orAbort_some_bind {σ α β : Type} (a : α) (f : α → Action σ β) :
    orAbort (some a) >>= f = f a := rfl

@[simp] theorem ofExcept_ok_bind {σ α β : Type} (a : α) (f : α → Action σ β) :
    ofExcept (.ok a) >>= f = f a := rfl

@[simp] theorem ofExcept_error_bind {σ α β : Type} (e : Error) (f : α → Action σ β) :
    ofExcept (.error e) >>= f = fail e := rfl

section

variable {σ α β : Type} {s : σ}

theorem endState_ok {m : Action σ α} {a : α} {s' : σ} (h : m s = .ok a s') : endState m s = s' := by
  rw [endState, h]

theorem endState_discard (m : Action σ α) (s : σ) : endState (discard m) s = endState m s := by
  simp only [endState, discard, Functor.mapConst, Function.comp_apply, EStateM.map]
  cases m s <;> rfl

theorem bind_ok {m : Action σ β} {f : β → Action σ α} {b : β} {s' : σ} (h : m s = .ok b s') :
    (m >>= f) s = f b s' := by
  simp only [bind, EStateM.bind, h]

theorem bind_error {m : Action σ β} {f : β → Action σ α} {e : Halt} {s' : σ}
    (h : m s = .error e s') : (m >>= f) s = .error e s' := by
  simp only [bind, EStateM.bind, h]

theorem discard_error {m : Action σ α} {e : Halt} {s' : σ} (h : m s = .error e s') :
    discard m s = .error e s' := by
  simp only [discard, Functor.mapConst, Function.comp_apply, EStateM.map, h]

/-- The state after a sequence is the state after its first part or after its second. -/
theorem endState_bind (m : Action σ β) (f : β → Action σ α) :
    endState (m >>= f) s = endState m s ∨
      ∃ b, endState (m >>= f) s = endState (f b) (endState m s) := by
  simp only [endState, bind, EStateM.bind]
  cases h : m s with
  | ok b s' => exact .inr ⟨b, rfl⟩
  | error e s' => exact .inl rfl

end

end RecordFile
