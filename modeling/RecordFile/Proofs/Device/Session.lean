import RecordFile.Proofs.Device.Lawful

/-!
# What sessions keep

A session on a lawful device reads, writes and appends as its file does, unless the device fails
the call (`Session.wp_read`, `wp_write`, `wp_append`, `wp_size`).

`Keeps R m` says that `m` relates the state it starts in to the one it leaves behind by `R`,
whichever way it ends. A relation that every call keeps is kept by every operation, which is proved
once for all relations: `ReadStable` ones are kept by the operations that only read, `UpdateStable`
ones by those that do not append, `WriteStable` ones by all. Two of them are used throughout:
`Session.Same` (nothing was written) and `Session.SizeLe` (the file did not shrink).

`Ends m s Q E` is `WP m s Q E` for runs that leave a file whose length is a word. Since no
operation shrinks the file, its length is then a word all the way.
-/

namespace RecordFile

namespace Session

variable {δ : Type} [Device δ] [LawfulDevice δ]

/-- The file of the device. -/
def file (s : Session δ) : File := LawfulDevice.file s.device

/-- What the history of the device, if it remembers one, tells about appended bytes. -/
def ledger (s : Session δ) : Option Ledger := (LawfulDevice.history s.device).map .of

/-- The length of the file is a word, as all lengths are that a device can tell. -/
def Fits (s : Session δ) : Prop := s.file.size < wordLimit

/-- A file that reaches past the words does not fit. -/
theorem not_fits {s : Session δ} {n : Nat} (hle : n ≤ s.file.size) (hlimit : wordLimit ≤ n) :
    ¬ s.Fits :=
  Nat.not_lt_of_le (Nat.le_trans hlimit hle)

instance (s : Session δ) : Decidable s.Fits := inferInstanceAs (Decidable (_ < _))

/-- The file and the count of extensions are as they were, and nothing was lost. -/
structure Same (s s' : Session δ) : Prop where
  file_eq : s'.file = s.file
  chainExtensions_eq : s'.counters.chainExtensions = s.counters.chainExtensions
  ledger_eq : (∀ k, s.ledger = some k → k.pending = 0) → s'.ledger = s.ledger

/-- The file did not get shorter. -/
def SizeLe (s s' : Session δ) : Prop := s.file.size ≤ s'.file.size

theorem Same.refl (s : Session δ) : Same s s := ⟨rfl, rfl, fun _ => rfl⟩

theorem Same.trans {s₁ s₂ s₃ : Session δ} (h : Same s₁ s₂) (h' : Same s₂ s₃) : Same s₁ s₃ where
  file_eq := h'.file_eq.trans h.file_eq
  chainExtensions_eq := h'.chainExtensions_eq.trans h.chainExtensions_eq
  ledger_eq hp := by
    have heq := h.ledger_eq hp
    exact (h'.ledger_eq (heq ▸ hp)).trans heq

theorem Same.sizeLe {s s' : Session δ} (h : Same s s') : SizeLe s s' :=
  Nat.le_of_eq (congrArg File.size h.file_eq).symm

/-- The ledger after one more call. -/
theorem ledger_of_history {s : Session δ} {d : δ} {c : Counters} {e : Event}
    (h : LawfulDevice.history d = (LawfulDevice.history s.device).map (e :: ·)) :
    ledger ⟨d, c⟩ = s.ledger.map (·.after e) := by
  simp only [ledger, h, Option.map_map]
  rfl

/-- A call that leaves the file and the ledger alone. -/
theorem same_of_history {s : Session δ} {d : δ} {c : Counters} {e : Event}
    (hfile : LawfulDevice.file d = s.file)
    (hcount : c.chainExtensions = s.counters.chainExtensions)
    (hhist : LawfulDevice.history d = (LawfulDevice.history s.device).map (e :: ·))
    (he : ∀ k : Ledger, k.pending = 0 → k.after e = k) : Same s ⟨d, c⟩ where
  file_eq := hfile
  chainExtensions_eq := hcount
  ledger_eq hp := by
    rw [ledger_of_history hhist]
    cases hk : s.ledger with
    | none => rfl
    | some k => exact congrArg some (he k (hp k hk))

omit [Device δ] [LawfulDevice δ] in
theorem wp_call_iff {α : Type} {action : Action δ α} {s : Session δ} {Q : α → Session δ → Prop}
    {E : Halt → Session δ → Prop} :
    WP (call action) s Q E ↔ WP action s.device (fun a d => Q a ⟨d, s.counters⟩)
      (fun e d => E e ⟨d, s.counters⟩) := by
  obtain ⟨device, counters⟩ := s
  simp only [WP, call]
  cases action device <;> rfl

omit [Device δ] [LawfulDevice δ] in
theorem wp_count_iff {change : Counters → Counters} {s : Session δ} {Q : Unit → Session δ → Prop}
    {E : Halt → Session δ → Prop} :
    WP (count change) s Q E ↔ Q () ⟨s.device, change s.counters⟩ := Iff.rfl

theorem wp_read (s : Session δ) (offset length : Nat) : WP (read offset length) s
    (fun bytes s' => Same s s' ∧ slice? s.file.bytes offset length = some bytes)
    (fun _ s' => Same s s' ∧ (LawfulDevice.infallible δ → s.file.size < offset + length)) := by
  rw [read, WP.bind_iff, wp_call_iff]
  refine (LawfulDevice.wp_read s.device offset length).mono (fun bytes d h => ?_) fun _ d h => ?_
  · exact ⟨same_of_history h.1 rfl h.2.1 fun _ _ => rfl, h.2.2⟩
  · exact ⟨same_of_history h.1 rfl h.2.1 fun _ => Ledger.after_of_failed rfl, h.2.2⟩

theorem wp_size (s : Session δ) : WP size s
    (fun n s' => Same s s' ∧ n = s.file.size)
    (fun _ s' => Same s s' ∧ ¬ LawfulDevice.infallible δ) := by
  rw [size, wp_call_iff]
  refine (LawfulDevice.wp_size s.device).mono (fun n d h => ?_) fun _ d h => ?_
  · exact ⟨same_of_history h.2.1 rfl h.2.2 fun _ _ => rfl, h.1⟩
  · exact ⟨same_of_history h.1 rfl h.2.1 fun _ => Ledger.after_of_failed rfl, h.2.2⟩

theorem wp_sync (s : Session δ) : WP (call Device.sync) s
    (fun _ s' => Same s s') (fun _ s' => Same s s' ∧ ¬ LawfulDevice.infallible δ) := by
  rw [wp_call_iff]
  refine (LawfulDevice.wp_sync s.device).mono (fun n d h => ?_) fun _ d h => ?_
  · exact same_of_history h.1 rfl h.2 fun _ _ => rfl
  · exact ⟨same_of_history h.1 rfl h.2.1 fun _ => Ledger.after_of_failed rfl, h.2.2⟩

/-- A write goes through inside the file and settles what was appended before; it fails without
effect, and loses what was appended. -/
theorem wp_write (s : Session δ) (offset : Nat) (data : ByteArray) : WP (write offset data) s
    (fun _ s' => s'.file = ⟨overwrite s.file.bytes offset data⟩ ∧
      s'.counters.chainExtensions = s.counters.chainExtensions ∧
      s'.ledger = s.ledger.map (fun k => ⟨0, k.lost⟩) ∧ offset + data.size ≤ s.file.size)
    (fun _ s' => s'.file = s.file ∧
      s'.counters.chainExtensions = s.counters.chainExtensions ∧
      s'.ledger = s.ledger.map (fun k => ⟨0, k.lost + k.pending⟩) ∧
      (LawfulDevice.infallible δ → s.file.size < offset + data.size)) := by
  rw [write, WP.bind_iff, wp_call_iff]
  refine (LawfulDevice.wp_write s.device offset data).mono (fun _ d h => ?_) fun _ d h => ?_
  · obtain ⟨hfile, hhist, hle⟩ := h
    exact ⟨hfile, rfl, ledger_of_history hhist, hle⟩
  · exact ⟨h.1, rfl, ledger_of_history h.2.1, h.2.2⟩

/-- An append puts bytes at the end, which are pending from then on. -/
theorem wp_append (s : Session δ) (data : ByteArray) : WP (call (Device.append data)) s
    (fun offset s' => offset = s.file.size ∧ s'.file = ⟨s.file.bytes ++ data⟩ ∧
      s'.counters.chainExtensions = s.counters.chainExtensions ∧
      s'.ledger = s.ledger.map (fun k => ⟨k.pending + data.size, k.lost⟩))
    (fun _ s' => s'.file = s.file ∧
      s'.counters.chainExtensions = s.counters.chainExtensions ∧
      s'.ledger = s.ledger.map (fun k => ⟨0, k.lost + k.pending⟩) ∧
      ¬ LawfulDevice.infallible δ) := by
  rw [wp_call_iff]
  refine (LawfulDevice.wp_append s.device data).mono (fun _ d h => ?_) fun _ d h => ?_
  · obtain ⟨hoffset, hfile, hhist⟩ := h
    exact ⟨hoffset, hfile, rfl, ledger_of_history hhist⟩
  · exact ⟨h.1, rfl, ledger_of_history h.2.1, h.2.2⟩

/-! ## Relations that calls keep -/

/-- A preorder on sessions that reading keeps. -/
class ReadStable (R : Session δ → Session δ → Prop) : Prop where
  refl (s : Session δ) : R s s
  trans {s₁ s₂ s₃ : Session δ} : R s₁ s₂ → R s₂ s₃ → R s₁ s₃
  read (s : Session δ) (offset length : Nat) : R s (endState (read offset length) s)
  size (s : Session δ) : R s (endState Session.size s)

/-- A preorder on sessions that reading and writing keep. -/
class UpdateStable (R : Session δ → Session δ → Prop) : Prop extends ReadStable R where
  write (s : Session δ) (offset : Nat) (data : ByteArray) : R s (endState (write offset data) s)
  sync (s : Session δ) : R s (endState (call Device.sync) s)

/-- A preorder on sessions that reading, writing and appending keep, whatever is counted. -/
class WriteStable (R : Session δ → Session δ → Prop) : Prop extends UpdateStable R where
  append (s : Session δ) (data : ByteArray) : R s (endState (call (Device.append data)) s)
  count (s : Session δ) (change : Counters → Counters) : R s (endState (count change) s)

/-- From every state, `m` leads to a state that `R` relates to it, whichever way it ends. -/
class Keeps (R : Session δ → Session δ → Prop) {α : Type} (m : Action (Session δ) α) : Prop where
  holds (s : Session δ) : R s (endState m s)

end Session

/-- What holds of the state left behind, from what holds of both ways to end. -/
theorem WP.endState {σ α : Type} {P : σ → Prop} {m : Action σ α} {s : σ}
    (h : WP m s (fun _ => P) (fun _ => P)) : P (endState m s) := by
  unfold WP RecordFile.endState at *
  split at h <;> simp_all

namespace Session

variable {δ : Type} [Device δ] [LawfulDevice δ]

instance : ReadStable (δ := δ) Same where
  refl := .refl
  trans := .trans
  read s offset length := ((wp_read s offset length).mono (fun _ _ h => h.1) fun _ _ h => h.1).endState
  size s := ((wp_size s).mono (fun _ _ h => h.1) fun _ _ h => h.1).endState

theorem size_of_write {s : Session δ} {offset : Nat} {data : ByteArray} :
    WP (write offset data) s (fun _ s' => s'.file.size = s.file.size)
      (fun _ s' => s'.file.size = s.file.size) := by
  refine (wp_write s offset data).mono (fun _ s' h => ?_) fun _ s' h => congrArg File.size h.1
  rw [h.1]
  exact size_overwrite h.2.2.2

instance : WriteStable (δ := δ) SizeLe where
  refl _ := Nat.le_refl _
  trans := Nat.le_trans
  read s offset length := (ReadStable.read s offset length : Same s _).sizeLe
  size s := (ReadStable.size s : Same s _).sizeLe
  write s offset data := (size_of_write.mono (fun _ _ h => Nat.le_of_eq h.symm)
    (fun _ _ h => Nat.le_of_eq h.symm)).endState
  append s data := by
    refine ((wp_append s data).mono (fun _ s' h => ?_) fun _ s' h => ?_).endState
    · show s.file.size ≤ s'.file.size
      rw [h.2.1]
      exact Nat.le_trans (Nat.le_add_right ..) (Nat.le_of_eq ByteArray.size_append.symm)
    · exact Nat.le_of_eq (congrArg File.size h.1).symm
  sync s := ((wp_sync s).mono (fun _ _ h => h.sizeLe) fun _ _ h => h.1.sizeLe).endState
  count _ _ := Nat.le_refl _

section Keeps

variable {R : Session δ → Session δ → Prop} {α β : Type}

instance [ReadStable R] (offset length : Nat) : Keeps R (read offset length) :=
  ⟨fun s => ReadStable.read s offset length⟩

instance [ReadStable R] : Keeps R (Session.size : Action (Session δ) Nat) := ⟨ReadStable.size⟩

instance [UpdateStable R] (offset : Nat) (data : ByteArray) : Keeps R (write offset data) :=
  ⟨fun s => UpdateStable.write s offset data⟩

instance [WriteStable R] (data : ByteArray) : Keeps R (call (Device.append data)) :=
  ⟨fun s => WriteStable.append s data⟩

instance [UpdateStable R] : Keeps R (call (Device.sync : Action δ Unit)) := ⟨UpdateStable.sync⟩

instance [WriteStable R] (change : Counters → Counters) : Keeps R (count change) :=
  ⟨fun s => WriteStable.count s change⟩

instance [ReadStable R] (a : α) : Keeps R (pure a) := ⟨ReadStable.refl⟩

instance [ReadStable R] (e : Error) : Keeps R (fail e : Action (Session δ) α) := ⟨ReadStable.refl⟩

instance [ReadStable R] (result : Except Error α) : Keeps R (ofExcept result) := by
  cases result <;> exact ⟨ReadStable.refl⟩

instance [ReadStable R] (found : Option α) : Keeps R (orAbort found) := by
  cases found <;> exact ⟨ReadStable.refl⟩

instance Keeps.bind [ReadStable R] (m : Action (Session δ) β) (f : β → Action (Session δ) α) [Keeps R m]
    [∀ b, Keeps R (f b)] : Keeps R (m >>= f) where
  holds s := by
    rcases endState_bind (s := s) m f with h | ⟨b, h⟩ <;> rw [h]
    · exact Keeps.holds s
    · exact ReadStable.trans (Keeps.holds s) (Keeps.holds _)

instance (m : Action (Session δ) β) (f : β → α) [Keeps R m] : Keeps R (f <$> m) where
  holds s := by
    have h : R s (endState m s) := Keeps.holds s
    simp only [endState, Functor.map, EStateM.map] at h ⊢
    cases hm : m s <;> simpa [hm] using h

instance (m : Action (Session δ) β) (a : α) [Keeps R m] : Keeps R (Functor.mapConst a m) :=
  inferInstanceAs (Keeps R ((fun _ => a) <$> m))

instance (m : Action (Session δ) β) [Keeps R m] : Keeps R (discard m) :=
  inferInstanceAs (Keeps R (Functor.mapConst PUnit.unit m))

instance (c : Prop) [Decidable c] (m m' : Action (Session δ) α) [Keeps R m] [Keeps R m'] :
    Keeps R (if c then m else m') := by
  split <;> infer_instance

instance (c : Prop) [Decidable c] (m : c → Action (Session δ) α) (m' : ¬ c → Action (Session δ) α)
    [∀ h, Keeps R (m h)] [∀ h, Keeps R (m' h)] : Keeps R (if h : c then m h else m' h) := by
  split <;> infer_instance

end Keeps

end Session

/-! ## Runs that leave a file of a length that is a word -/

/-- If `m`, started in `s`, leaves a file whose length is a word, it ends in `Q` or halts in `E`. -/
def Ends {δ α : Type} [Device δ] [LawfulDevice δ] (m : Action (Session δ) α) (s : Session δ)
    (Q : α → Session δ → Prop) (E : Halt → Session δ → Prop) : Prop :=
  WP m s (fun a s' => s'.Fits → Q a s') (fun e s' => s'.Fits → E e s')

namespace Ends

variable {δ : Type} [Device δ] [LawfulDevice δ] {α β : Type} {s : Session δ}
  {Q Q' : α → Session δ → Prop} {E E' : Halt → Session δ → Prop}

theorem of_wp {m : Action (Session δ) α} (h : WP m s Q E) : Ends m s Q E :=
  h.mono (fun _ _ h _ => h) fun _ _ h _ => h

theorem mono {m : Action (Session δ) α} (h : Ends m s Q E)
    (hQ : ∀ a s', s'.Fits → Q a s' → Q' a s') (hE : ∀ e s', s'.Fits → E e s' → E' e s') :
    Ends m s Q' E' :=
  WP.mono h (fun a s' h hfit => hQ a s' hfit (h hfit)) fun e s' h hfit => hE e s' hfit (h hfit)

theorem and {m : Action (Session δ) α} (h : Ends m s Q E) (h' : Ends m s Q' E') :
    Ends m s (fun a s' => Q a s' ∧ Q' a s') (fun e s' => E e s' ∧ E' e s') :=
  (WP.and h h').mono (fun _ _ h hfit => ⟨h.1 hfit, h.2 hfit⟩) fun _ _ h hfit => ⟨h.1 hfit, h.2 hfit⟩

/-- What a run ends in that leaves a file whose length is a word. -/
theorem wp {m : Action (Session δ) α} (h : Ends m s Q E) (hfit : (endState m s).Fits) :
    WP m s Q E :=
  ((WP.of_endState hfit).and h).mono (fun _ _ h => h.2 h.1) fun _ _ h => h.2 h.1

/-- Only starts with a file whose length is a word matter. -/
theorem of_fits {m : Action (Session δ) α} [hm : Session.Keeps Session.SizeLe m]
    (h : s.Fits → Ends m s Q E) : Ends m s Q E := by
  by_cases hs : s.Fits
  · exact h hs
  · have hend : s.file.size ≤ (endState m s).file.size := hm.holds s
    have hnot : ¬ (endState m s).Fits := fun hfit => hs (Nat.lt_of_le_of_lt hend hfit)
    exact (WP.of_endState (P := fun s' => ¬ s'.Fits) hnot).mono
      (fun _ _ h hfit => absurd hfit h) fun _ _ h hfit => absurd hfit h

/-- The second part of a sequence starts with a file whose length is a word. -/
theorem bind {m : Action (Session δ) β} {f : β → Action (Session δ) α}
    {P : β → Session δ → Prop} [∀ b, Session.Keeps Session.SizeLe (f b)] (h : Ends m s P E)
    (hf : ∀ b s', s'.Fits → P b s' → Ends (f b) s' Q E) : Ends (m >>= f) s Q E := by
  refine WP.bind_iff.mpr (WP.mono h (fun b s' h => ?_) fun _ _ h => h)
  exact of_fits fun hfit => hf b s' hfit (h hfit)

theorem pure {a : α} (h : Q a s) : Ends (pure a) s Q E := fun _ => h

theorem fail {e : Error} (h : E (.error e) s) : Ends (fail e) s Q E := fun _ => h

end Ends

end RecordFile
