import RecordFile.Proofs.Walk.Keeps

/-!
# Metering

The counters of a session follow the calls that the device was asked for. Reads and writes are
counted call by call. An extension appends its block in chunks and counts the block when the last of
them is in place, so a failed append leaves chunks in the file that are never counted. `abandoned`
computes from the history how many bytes these are.

`Session.Metered s owed s'` says that since `s` the counters have followed the calls except for
abandoned bytes and for `owed` bytes of the block that is being appended. With nothing owed, every
call keeps that (`Session.metered_updateStable`), and so does an extension, whichever of its calls
fails (`Session.metered_growStable`).
-/

namespace RecordFile

namespace Event

/-- The bytes that the call has moved if it is one of the kind. -/
def moved (call : Call) (e : Event) : Nat := if e.call = call ∧ e.done then e.bytes else 0

/-- The bytes that the call has abandoned after the earlier ones: if it is an append and failed, those
that were appended before it. -/
def abandoned (e : Event) (earlier : List Event) : Nat :=
  if e.call = .append ∧ ¬ e.done then (Ledger.of earlier).pending else 0

end Event

/-- The bytes that the calls of a kind have moved. -/
def moved (call : Call) (history : List Event) : Nat := (history.map (·.moved call)).sum

/-- The bytes that were appended to blocks of which a later append failed. -/
def abandoned : (history : List Event) → Nat
  | [] => 0
  | e :: earlier => e.abandoned earlier + abandoned earlier

/-- Bytes are pending only after an append that went through. -/
theorem Ledger.pending_after {e : Event} {k : Ledger} (hk : k.pending = 0)
    (he : e.done = true → e.call ≠ .append) : (k.after e).pending = 0 := by
  unfold after
  split
  · have := he ‹_›
    cases hcall : e.call <;> simp_all
  · rfl

theorem moved_cons (call : Call) (e : Event) (earlier : List Event) :
    moved call (e :: earlier) = e.moved call + moved call earlier := by
  simp [moved]

/-- Where no append failed, nothing is abandoned. -/
theorem abandoned_of_done {history : List Event}
    (h : ∀ e ∈ history, e.call = .append → e.done = true) : abandoned history = 0 := by
  induction history with
  | nil => rfl
  | cons e earlier ih =>
    obtain ⟨he, h⟩ := List.forall_mem_cons.mp h
    have hnone : e.abandoned earlier = 0 := if_neg fun hfail => hfail.2 (he hfail.1)
    rw [abandoned, hnone, ih h]

namespace Session

variable {δ : Type} [Device δ] [LawfulDevice δ] {s t : Session δ}

/-- From `s` to `t`, the device was asked for `issued`, the latest call first. The counters have
followed these calls except for what was abandoned and for `owed` bytes. -/
structure Metering (s : Session δ) (issued : List Event) (owed : Nat) (t : Session δ) : Prop where
  history_eq : LawfulDevice.history t.device = (LawfulDevice.history s.device).map (issued ++ ·)
  bytesRead_eq : t.counters.bytesRead = s.counters.bytesRead + moved .read issued
  bytesWritten_eq : t.counters.bytesWritten + owed + abandoned issued =
    s.counters.bytesWritten + moved .write issued + moved .append issued

/-- From `s` to `t`, the counters have followed the calls except for what was abandoned and for the
bytes that were appended last, which are the `owed` ones. -/
def Metered (s : Session δ) (owed : Nat) (t : Session δ) : Prop :=
  ∃ issued, Metering s issued owed t ∧ (Ledger.of issued).pending = owed

theorem Metered.refl (s : Session δ) : Metered s 0 s :=
  ⟨[], ⟨by simp, rfl, rfl⟩, rfl⟩

namespace Metering

variable {issued : List Event} {owed : Nat}

/-- The counters after one more call. -/
theorem event (h : Metering s issued owed t) {e : Event} {d : δ} {c : Counters} {owed' : Nat}
    (hhist : LawfulDevice.history d = (LawfulDevice.history t.device).map (e :: ·))
    (hread : c.bytesRead = t.counters.bytesRead + e.moved .read)
    (hwritten : c.bytesWritten + owed' + e.abandoned issued =
      t.counters.bytesWritten + owed + e.moved .write + e.moved .append) :
    Metering s (e :: issued) owed' ⟨d, c⟩ where
  history_eq := by
    rw [hhist, h.history_eq, Option.map_map]
    rfl
  bytesRead_eq := by
    have := h.bytesRead_eq
    simp only [moved_cons]
    omega
  bytesWritten_eq := by
    have := h.bytesWritten_eq
    simp only [moved_cons, abandoned]
    omega

/-- A write leaves nothing that was appended last, whether it goes through or not. -/
theorem write (h : Metering s issued 0 t) (offset : Nat) (data : ByteArray) :
    WP (Session.write offset data) t (fun _ => Metered s 0) (fun _ => Metered s 0) := by
  rw [Session.write, WP.bind_iff, wp_call_iff]
  refine (LawfulDevice.wp_write t.device offset data).mono (fun _ d hd => ?_) fun _ d hd => ?_
  · exact ⟨_, h.event hd.2.1 rfl rfl, rfl⟩
  · exact ⟨_, h.event hd.2.1 rfl rfl, rfl⟩

/-- What was appended last is counted. -/
theorem count (h : Metering s issued owed t) : WP (Session.count fun c =>
    { c with bytesWritten := c.bytesWritten + owed }) t (fun _ => Metering s issued 0)
      fun _ _ => False :=
  ⟨h.history_eq, h.bytesRead_eq, h.bytesWritten_eq⟩

end Metering

namespace Metered

/-- A call that is not a successful append. -/
theorem event (h : Metered s 0 t) {e : Event} {d : δ} {c : Counters}
    (hhist : LawfulDevice.history d = (LawfulDevice.history t.device).map (e :: ·))
    (he : e.done = true → e.call ≠ .append)
    (hread : c.bytesRead = t.counters.bytesRead + e.moved .read)
    (hwritten : c.bytesWritten = t.counters.bytesWritten + e.moved .write) : Metered s 0 ⟨d, c⟩ := by
  obtain ⟨issued, h, hpending⟩ := h
  have happend : e.moved .append = 0 := if_neg fun hmoved => he hmoved.2 hmoved.1
  have habandoned : e.abandoned issued = 0 := by
    unfold Event.abandoned
    split
    · exact hpending
    · rfl
  exact ⟨_, h.event hhist hread (by omega), Ledger.pending_after hpending he⟩

/-- A call that moves no bytes. -/
theorem idle {α : Type} {action : Action δ α} {kind : Call} {bytes : Nat} (h : Metered s 0 t)
    (hkind : kind ≠ .read ∧ kind ≠ .write ∧ kind ≠ .append)
    (haction : WP action t.device
      (fun _ d => LawfulDevice.history d =
        (LawfulDevice.history t.device).map (⟨kind, bytes, true⟩ :: ·))
      fun _ d => LawfulDevice.history d =
        (LawfulDevice.history t.device).map (⟨kind, bytes, false⟩ :: ·)) :
    WP (call action) t (fun _ => Metered s 0) (fun _ => Metered s 0) := by
  rw [wp_call_iff]
  refine haction.mono (fun _ d hd => ?_) fun _ d hd => ?_
  · exact h.event hd (fun _ => hkind.2.2) (by simp [Event.moved, hkind]) (by simp [Event.moved, hkind])
  · exact h.event hd (by simp) (by simp [Event.moved]) (by simp [Event.moved])

theorem read (h : Metered s 0 t) (offset length : Nat) :
    WP (Session.read offset length) t (fun _ => Metered s 0) (fun _ => Metered s 0) := by
  rw [Session.read, WP.bind_iff, wp_call_iff]
  refine (LawfulDevice.wp_read t.device offset length).mono (fun _ d hd => ?_) fun _ d hd => ?_
  · exact h.event hd.2.1 (by simp) rfl rfl
  · exact h.event hd.2.1 (by simp) rfl rfl

theorem write (h : Metered s 0 t) (offset : Nat) (data : ByteArray) :
    WP (Session.write offset data) t (fun _ => Metered s 0) (fun _ => Metered s 0) := by
  obtain ⟨issued, h, -⟩ := h
  exact h.write offset data

variable {owed : Nat}

/-- An append adds to what is owed. If it fails, all of that is abandoned. -/
theorem append (h : Metered s owed t) (data : ByteArray) :
    WP (call (Device.append data)) t (fun _ => Metered s (owed + data.size))
      (fun _ => Metered s 0) := by
  obtain ⟨issued, h, hpending⟩ := h
  rw [wp_call_iff]
  refine (LawfulDevice.wp_append t.device data).mono (fun _ d hd => ?_) fun _ d hd => ?_
  · have hcount : t.counters.bytesWritten + (owed + data.size) + 0 =
        t.counters.bytesWritten + owed + 0 + data.size := by omega
    exact ⟨_, h.event hd.2.2 rfl hcount, congrArg (· + data.size) hpending⟩
  · exact ⟨_, h.event hd.2.1 rfl (congrArg (t.counters.bytesWritten + 0 + ·) hpending), rfl⟩

theorem appendZeros (h : Metered s owed t) (length : Nat) :
    WP (Chain.appendZeros length) t (fun _ => Metered s (owed + length)) (fun _ => Metered s 0) := by
  induction length using Nat.strongRecOn generalizing owed t with
  | ind length ih =>
    rw [Chain.appendZeros]
    split
    · rename_i hzero
      subst hzero
      exact h
    · have : 0 < Chain.zeroChunk := by decide
      refine WP.bind_iff.mpr (WP.map_iff.mpr ((h.append _).mono (fun _ t' h => ?_) fun _ _ h => h))
      refine (ih (length - min length Chain.zeroChunk) (by omega) h).mono (fun _ t'' h => ?_)
        fun _ _ h => h
      rw [size_zeros] at h
      have hlength : owed + min length Chain.zeroChunk + (length - min length Chain.zeroChunk) =
          owed + length := by omega
      exact hlength ▸ h

/-- An extension is counted in full if all of its block was appended, and otherwise not at all. -/
theorem extend (h : Metered s 0 t) {a : ArrayLayout} {block offset : Nat}
    (hoffset : a.linkOffset? block = some offset) :
    WP (Chain.extend a block) t (fun _ => Metered s 0) (fun _ => Metered s 0) := by
  unfold Chain.extend
  refine WP.bind_iff.mpr ((h.append _).mono (fun next t₁ h => ?_) fun _ _ h => h)
  refine WP.bind_iff.mpr ((h.appendZeros _).mono (fun _ t₂ h => ?_) fun _ _ h => h)
  have howed : 0 + (zeros (min a.size Chain.zeroChunk)).size + (a.size - min a.size Chain.zeroChunk) =
      a.size := by
    rw [size_zeros]
    omega
  -- From here on nothing is owed, though the block stays pending until its link is written.
  obtain ⟨issued, h, -⟩ := howed ▸ h
  refine WP.bind_iff.mpr (h.count.mono (fun _ t₃ h => ?_) fun _ _ => False.elim)
  rw [hoffset, orAbort_some_bind]
  refine WP.bind_iff.mpr ((h.write offset _).mono (fun _ t₄ h => ?_) fun _ _ h => h)
  obtain ⟨issued, h, hpending⟩ := h
  exact ⟨issued, ⟨h.history_eq, h.bytesRead_eq, h.bytesWritten_eq⟩, hpending⟩

end Metered

/-! ## Relations that are kept -/

/-- What is metered since `s` stays so. -/
def StaysMetered (s t t' : Session δ) : Prop := Metered s 0 t → Metered s 0 t'

instance metered_updateStable (s : Session δ) : UpdateStable (StaysMetered s) where
  refl _ h := h
  trans h h' hs := h' (h hs)
  read t offset length h := (h.read offset length).endState
  size t h := (h.idle (by decide) ((LawfulDevice.wp_size t.device).mono (fun _ _ hd => hd.2.2)
    fun _ _ hd => hd.2.1)).endState
  write t offset data h := (h.write offset data).endState
  sync t h := (h.idle (by decide) ((LawfulDevice.wp_sync t.device).mono (fun _ _ hd => hd.2)
    fun _ _ hd => hd.2.1)).endState

instance metered_growStable (s : Session δ) : GrowStable (StaysMetered s) where
  followOrExtend t rootSize a block h := by
    refine WP.endState ?_
    cases hoffset : a.linkOffset? block with
    | none =>
      -- there is no link to follow, so the device is not asked for anything
      rw [Chain.followOrExtend, Chain.follow, Chain.readLink, hoffset]
      exact h
    | some offset =>
      have hfollow : Metered s 0 (endState (Chain.follow rootSize a block) t) :=
        Keeps.holds (R := StaysMetered s) (m := Chain.follow rootSize a block) t h
      unfold Chain.followOrExtend
      refine WP.bind_iff.mpr ((WP.of_endState hfollow).mono (fun found t' h => ?_) fun _ _ h => h)
      cases found with
      | none => exact h.extend hoffset
      | some next => exact h

end Session

end RecordFile
