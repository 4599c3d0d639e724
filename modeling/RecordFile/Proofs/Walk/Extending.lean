import RecordFile.Proofs.Device.Flaky
import RecordFile.Proofs.Layout.Catalog
import RecordFile.Proofs.Walk.Links

/-!
# Extensions on devices that fail

An extension appends a block in chunks and then writes the link, and any of these calls may fail
(`Chain.extend_exact`). If none does, the file is longer by the block, and the link leads to it. If an
append fails, the file is longer by the chunks before it; if the write fails, by the whole block. What
the file held before is then as it was, so the chain still ends where it ended.
-/

namespace RecordFile

open Session

variable {δ : Type} [Device δ] [LawfulDevice δ] {rootSize : Nat} {s t : Session δ}

namespace Chain

variable {a : ArrayLayout} {block length count : Nat} {failed : Event}

/-- Where an extension breaks off, the bytes that were there stay. -/
theorem BrokenOff.byte?_eq (h : BrokenOff length count failed s t) {x : Nat}
    (hx : x < s.file.size) : t.file.byte? x = s.file.byte? x := by
  rw [h.file_eq]
  exact File.byte?_append_of_lt hx

/-- Where an extension breaks off, the links that were there stay. -/
theorem BrokenOff.link_eq (h : BrokenOff length count failed s t)
    (hle : a.linkOffset block + linkSize ≤ s.file.size) :
    t.file.link a block = s.file.link a block :=
  File.number_congr fun _ _ hlt => h.byte?_eq (Nat.lt_of_lt_of_le hlt hle)

/-- A link to where the file ended is accepted once a block has been appended there. -/
theorem wp_checkLink_appended {next : Nat} (hlt : next < wordLimit) (hblock : block < next)
    (hroot : rootSize ≤ next) (hsize : next + a.size ≤ s.file.size)
    (hinf : LawfulDevice.infallible δ) {E : Halt → Session δ → Prop} :
    WP (checkLink rootSize a block (.ofNat next)) s (fun found _ => found.val = next) E := by
  have hlink : (UInt64.ofNat next).toNat = next := UInt64.toNat_ofNat_of_lt' hlt
  refine (wp_checkLink (UInt64.ofNat next)).mono (fun found t h => ?_) fun e t h => ?_
  · rw [h.2.1, hlink]
  · rw [hlink] at h
    exact absurd ⟨hblock, hroot, hsize⟩ (h.2 hinf).1

/-- An extension of the chain behind a block. If no call fails, the old file has the new link in place
of the old one, followed by a block of zeros, which was appended chunk by chunk, and the link is
accepted. If the append of a chunk fails, the chunks before it are there, and if the write of the link
fails, all of them are; every old byte, the link and the count of extensions are as they were. -/
theorem extend_exact (own : a.WellFormed) (hext : a.extent = .chained) (hfit : s.Fits)
    (hroot : rootSize ≤ s.file.size) (hle : block + a.size ≤ s.file.size) :
    WP (extend a block) s
      (fun next t => next = s.file.size ∧
        t.file = ⟨overwrite s.file.bytes (a.linkOffset block)
          (littleEndian linkSize s.file.size) ++ zeros a.size⟩ ∧
        LawfulDevice.history t.device = (LawfulDevice.history s.device).map
          (⟨.write, linkSize, true⟩ :: chunkCalls a.size (a.size ⌈/⌉ zeroChunk) ++ ·) ∧
        (chunkCalls a.size (a.size ⌈/⌉ zeroChunk)).length = a.size ⌈/⌉ zeroChunk ∧
        (∀ e ∈ chunkCalls a.size (a.size ⌈/⌉ zeroChunk),
          e.call = .append ∧ e.done = true ∧ e.bytes ≤ zeroChunk) ∧
        t.counters.chainExtensions = s.counters.chainExtensions + 1 ∧
        WP (checkLink rootSize a block (.ofNat next)) (⟨t.file, {}⟩ : Session File)
          (fun found _ => found.val = next) fun _ _ => False)
      fun _ t =>
        ((∃ k < a.size ⌈/⌉ zeroChunk,
            t.file = ⟨s.file.bytes ++ zeros (min (k * zeroChunk) a.size)⟩ ∧
            LawfulDevice.history t.device = (LawfulDevice.history s.device).map
              (chunkCall a.size k false :: chunkCalls a.size k ++ ·)) ∨
          t.file = ⟨s.file.bytes ++ zeros a.size⟩ ∧
            LawfulDevice.history t.device = (LawfulDevice.history s.device).map
              (⟨.write, linkSize, false⟩ :: chunkCalls a.size (a.size ⌈/⌉ zeroChunk) ++ ·)) ∧
          (∀ x < s.file.size, t.file.byte? x = s.file.byte? x) ∧
          t.file.link a block = s.file.link a block ∧
          t.counters.chainExtensions = s.counters.chainExtensions := by
  have hlink := a.linkOffset_le own hext hle
  have hpos := own.size_pos hext
  refine (wp_extend_chunks hpos (linkOffset_lt hfit hlink) hlink).mono (fun next t h => ?_)
    fun _ t h => ?_
  · obtain ⟨rfl, hfile, hcount, hhist⟩ := h
    have hin : a.linkOffset block + (littleEndian linkSize s.file.size).size ≤ s.file.size := by
      rwa [size_littleEndian]
    rw [File.overwrite_of_append hin] at hfile
    have hsize : t.file.size = s.file.size + a.size := by
      rw [hfile, File.size_append (f := ⟨_⟩), size_zeros]
      exact congrArg (· + a.size) (size_overwrite hin)
    have hlinked : s.file.size + a.size ≤ (file (δ := File) ⟨t.file, {}⟩).size :=
      Nat.le_of_eq hsize.symm
    exact ⟨rfl, hfile, hhist, length_chunkCalls .., fun e => of_mem_chunkCalls, hcount,
      wp_checkLink_appended hfit (by omega) hroot hlinked trivial⟩
  · obtain ⟨k, hk, h⟩ | h := h
    · exact ⟨.inl ⟨k, hk, h.file_eq, h.history_eq⟩, fun x => h.byte?_eq, h.link_eq hlink,
        h.chainExtensions_eq⟩
    · have hfile := h.file_eq
      rw [min_chunks_self] at hfile
      exact ⟨.inr ⟨hfile, h.history_eq⟩, fun x => h.byte?_eq, h.link_eq hlink,
        h.chainExtensions_eq⟩

/-- A byte and an empty block, on a device that fails the second call. The block is appended, but the
link is not written. -/
theorem extend_exact_bytePairs :
    let s : Session FlakyFile :=
      ⟨⟨.zeroed 11, fun n => if n = 1 then some (.error (.device "full")) else none, []⟩, {}⟩
    ∃ e t, extend .bytePairs 1 s = .error e t ∧
      t.file = ⟨zeros 11 ++ zeros 10⟩ ∧ t.file.link .bytePairs 1 = s.file.link .bytePairs 1 := by
  intro s
  have own : ArrayLayout.bytePairs.WellFormed := ⟨rfl, fun _ => by decide⟩
  have hextend := @extend_exact FlakyFile _ _ 11 s .bytePairs 1 own rfl (by decide +kernel)
    (by decide +kernel) (by decide +kernel)
  have hfail : WP (extend .bytePairs 1) s (fun _ _ => False) fun _ t =>
      t.device.history = [⟨.write, 8, false⟩, ⟨.append, 10, true⟩] := by decide +kernel
  cases hrun : extend .bytePairs 1 s with
  | ok next t => exact (hfail.ok hrun).elim
  | error e t =>
    have hcalls := hfail.error hrun
    obtain ⟨⟨k, -, -, hhist⟩ | ⟨hfile, -⟩, -, hlink, -⟩ := hextend.error hrun
    · cases hcalls.symm.trans (Option.some.inj hhist)
    · exact ⟨e, t, rfl, hfile, hlink⟩

end Chain

end RecordFile
