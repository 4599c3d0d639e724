import RecordFile.Proofs.File.Places
import RecordFile.Proofs.Walk.Chunks
import RecordFile.Proofs.Walk.Keeps

/-!
# Following and appending links

What `Chain.follow` and `Chain.extend` do at a block that lies in the file, whatever the file holds:
following a link finds the next block (`File.next?`) or halts because the link must not be followed,
and extending a chain appends zeros and then sets the link. Either may also halt because the device
failed a call; an extension that halts has appended some zeros and set no link.
-/

namespace RecordFile

open Session

/-- It halts with an error and does not break off. -/
def Halt.IsError (e : Halt) : Prop := ∃ cause, e = .error cause

/-- The file is to blame. -/
def Halt.IsCorruption (e : Halt) : Prop := ∃ cause, e = .error (.corrupted cause)

theorem Halt.IsCorruption.isError {e : Halt} (h : e.IsCorruption) : e.IsError :=
  let ⟨_, h⟩ := h
  ⟨_, h⟩

/-- How a walk halts at the link of the block at `block`, which must not be followed. -/
def File.badLink (f : File) (a : ArrayLayout) (block : Nat) : Halt :=
  .error (.corrupted (.badLink (a.linkOffset block) (f.link a block) a.size f.size))

theorem File.isCorruption_badLink (f : File) (a : ArrayLayout) (block : Nat) :
    (f.badLink a block).IsCorruption := ⟨_, rfl⟩

variable {δ : Type} [Device δ] [LawfulDevice δ]

theorem ofNat_littleEndianValue_of_slice? {f : File} {offset : Nat} {bytes : ByteArray}
    (h : slice? f.bytes offset linkSize = some bytes) :
    (UInt64.ofNat (littleEndianValue bytes)).toNat = f.number offset linkSize := by
  obtain ⟨-, rfl⟩ := slice?_eq_some_iff.mp h
  exact UInt64.toNat_ofNat_of_lt' File.number_lt

namespace Chain

variable {rootSize block : Nat} {a : ArrayLayout} {s : Session δ}

/-- Where the length of the file is a word, so is the offset of a link in it. -/
theorem linkOffset_lt (hfit : s.Fits) (hle : a.linkOffset block + linkSize ≤ s.file.size) :
    a.linkOffset block < wordLimit :=
  Nat.lt_of_le_of_lt (Nat.le_trans (Nat.le_add_right ..) hle) hfit

theorem wp_readLink (hlt : a.linkOffset block < wordLimit)
    (hle : a.linkOffset block + linkSize ≤ s.file.size) :
    WP (readLink a block) s (fun link s' => Same s s' ∧ link.toNat = s.file.link a block)
      fun _ s' => Same s s' ∧ ¬ LawfulDevice.infallible δ := by
  have hoffset : a.linkOffset? block = some (a.linkOffset block) :=
    checkedAdd_eq_some_iff.mpr ⟨rfl, hlt⟩
  rw [readLink, hoffset, WP.bind_iff, WP.orAbort_some, WP.bind_iff]
  refine (wp_read s _ _).mono (fun bytes s' h => ?_) fun _ s' h => ?_
  · exact ⟨h.1, ofNat_littleEndianValue_of_slice? h.2⟩
  · exact ⟨h.1, fun hinf => absurd (h.2 hinf) (Nat.not_lt_of_le hle)⟩

theorem wp_checkLink (link : UInt64) :
    WP (checkLink rootSize a block link) s
      (fun next s' => Same s s' ∧ next.val = link.toNat ∧
        s.file.Leads rootSize a block link.toNat)
      fun e s' => Same s s' ∧ (LawfulDevice.infallible δ →
        ¬ s.file.Leads rootSize a block link.toNat ∧ e = .error (.corrupted
          (.badLink (a.linkOffset block) link.toNat a.size s.file.size))) := by
  rw [checkLink, WP.bind_iff]
  refine (wp_size s).mono (fun size s' h => ?_) fun _ s' h => ?_
  · obtain ⟨hsame, rfl⟩ := h
    split
    · exact ⟨hsame, rfl, ‹_›⟩
    · exact ⟨hsame, fun _ => ⟨‹_›, rfl⟩⟩
  · exact ⟨h.1, fun hinf => absurd hinf h.2⟩

/-- Following the link of a block finds the next one, unless the link may not be followed. -/
theorem wp_follow (hext : a.extent = .chained) (hlt : a.linkOffset block < wordLimit)
    (hle : a.linkOffset block + linkSize ≤ s.file.size) :
    WP (follow rootSize a block) s
      (fun found s' => Same s s' ∧ found.map (·.val) = s.file.next? rootSize a block ∧
        (s.file.link a block = 0 ∨ s.file.Leads rootSize a block (s.file.link a block)))
      fun e s' => Same s s' ∧ (LawfulDevice.infallible δ → s.file.link a block ≠ 0 ∧
        ¬ s.file.Leads rootSize a block (s.file.link a block) ∧ e = s.file.badLink a block) := by
  rw [follow, WP.bind_iff]
  refine (wp_readLink hlt hle).mono (fun link s' h => ?_) fun _ s' h =>
    ⟨h.1, fun hinf => absurd hinf h.2⟩
  obtain ⟨hsame, hlink⟩ := h
  split
  · subst link
    exact ⟨hsame, (File.next?_of_zero hlink.symm).symm, .inl hlink.symm⟩
  · rename_i hne
    rw [WP.bind_iff]
    refine (wp_checkLink link).mono (fun next s'' h => ?_) fun e s'' h => ?_
    · rw [hsame.file_eq, hlink] at h
      exact ⟨hsame.trans h.1, (congrArg some h.2.1).trans
        (File.next?_eq_some_iff.mpr ⟨hext, rfl, h.2.2⟩).symm, .inr h.2.2⟩
    · rw [hsame.file_eq, hlink] at h
      refine ⟨hsame.trans h.1, fun hinf => ⟨fun hzero => hne ?_, h.2 hinf⟩⟩
      exact UInt64.toNat_inj.mp (hlink.trans hzero)

/-- `n` zero bytes have been appended, which are lost with those before them. -/
structure Loses (n : Nat) (s s' : Session δ) : Prop where
  file_eq : s'.file = ⟨s.file.bytes ++ zeros n⟩
  chainExtensions_eq : s'.counters.chainExtensions = s.counters.chainExtensions
  ledger_eq : s'.ledger = s.ledger.map fun k => ⟨0, k.lost + (k.pending + n)⟩
  failed : ¬ LawfulDevice.infallible δ

/-- The ledger after the appends of some chunks and one more call. -/
theorem ledger_of_chunkCalls {s' : Session δ} {length count : Nat} {e : Event}
    (h : LawfulDevice.history s'.device =
      (LawfulDevice.history s.device).map (e :: chunkCalls length count ++ ·)) :
    s'.ledger = s.ledger.map fun k =>
      Ledger.after e ⟨k.pending + min (count * zeroChunk) length, k.lost⟩ := by
  rw [ledger, h, ledger, Option.map_map, Option.map_map]
  refine congrArg (Option.map · _) (funext fun old => ?_)
  show (Ledger.of (chunkCalls length count ++ old)).after e = _
  rw [ledger_chunkCalls]
  rfl

/-- Where an extension breaks off, its chunks are lost. -/
theorem BrokenOff.loses {s' : Session δ} {length count : Nat} {failed : Event}
    (h : BrokenOff length count failed s s') (hfailed : failed.done = false) :
    Loses (min (count * zeroChunk) length) s s' where
  file_eq := h.file_eq
  chainExtensions_eq := h.chainExtensions_eq
  ledger_eq := by
    rw [ledger_of_chunkCalls h.history_eq]
    simp only [Ledger.after, hfailed, Bool.false_eq_true, if_false]
  failed := h.fallible

/-- Extending a chain appends a block of zeros and sets the link. -/
theorem wp_extend (hsize : 0 < a.size) (hlt : a.linkOffset block < wordLimit)
    (hle : a.linkOffset block + linkSize ≤ s.file.size) :
    WP (extend a block) s
      (fun next s' => next = s.file.size ∧
        s'.file = ⟨overwrite (s.file.bytes ++ zeros a.size) (a.linkOffset block)
          (littleEndian linkSize s.file.size)⟩ ∧
        s'.counters.chainExtensions = s.counters.chainExtensions + 1 ∧
        s'.ledger = s.ledger.map (fun k => ⟨0, k.lost⟩))
      fun _ s' => ∃ n, Loses n s s' := by
  refine (wp_extend_chunks hsize hlt hle).mono (fun next s' h => ?_) fun _ s' h => ?_
  · obtain ⟨rfl, hfile, hcount, hhist⟩ := h
    exact ⟨rfl, hfile, hcount, ledger_of_chunkCalls hhist⟩
  · rcases h with ⟨k, -, h⟩ | h
    · exact ⟨_, h.loses rfl⟩
    · exact ⟨_, h.loses rfl⟩

omit [LawfulDevice δ] in
/-- A walk past a block breaks off where the offset of the link is past the words. -/
theorem followOrExtend_of_le (h : wordLimit ≤ a.linkOffset block) :
    followOrExtend rootSize a block s = .error .abort s := by
  have hnone : a.linkOffset? block = none :=
    ((checkedAdd_cases block a.slotsSize).resolve_left fun hsome =>
      absurd (checkedAdd_eq_some_iff.mp hsome).2 (Nat.not_lt_of_le h)).1
  rw [followOrExtend, follow, readLink, hnone]
  rfl

/-! ## Elements of fixed arrays -/

omit [LawfulDevice δ] in
theorem locate_of_le {growth : Growth} {start index : Nat}
    (h : a.extent = .fixed ∧ a.capacity ≤ index) :
    locate (δ := δ) rootSize growth a start index = fail (.indexOutOfRange index a.capacity) := by
  rw [locate, h.1]
  exact if_pos h.2

omit [LawfulDevice δ] in
theorem locate_of_fixed {growth : Growth} {start index : Nat} (own : a.WellFormed)
    (hext : a.extent = .fixed) (hindex : index < a.capacity) (hlt : start + a.size < wordLimit) :
    locate (δ := δ) rootSize growth a start index = pure (start + index * a.element.size) := by
  rw [locate, hext]
  simp only [if_neg (Nat.not_le_of_lt hindex), a.slotOffset?_eq own hindex hlt]
  rfl

end Chain

end RecordFile
