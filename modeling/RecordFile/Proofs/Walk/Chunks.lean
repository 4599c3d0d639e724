import RecordFile.Proofs.Device.Session
import RecordFile.Proofs.File.Bytes

/-!
# Zeros, chunk by chunk

An extension appends its block in chunks of at most `Chain.zeroChunk` bytes, and then writes the link.
`Chain.chunkCalls length count` are the calls that append the first `count` chunks of `length` zero
bytes; `length ⌈/⌉ zeroChunk` chunks are all of them.

Each of the calls may fail. `Chain.Chunked` says what has happened when the first chunks are in the
file, and `Chain.BrokenOff` when the call after them has failed: the file is longer by these chunks and
otherwise as it was. One chunk more is `Chain.Chunked.append`; from there the loop gets to the last
chunk or breaks off at one of them (`Chain.Chunked.wp_appendZeros`), and an extension gets to its link
or breaks off (`Chain.wp_extend_chunks`).
-/

namespace RecordFile

open Session

namespace Chain

/-! ## The calls -/

/-- The append of the chunk behind the first `count` ones of `length` zero bytes. -/
def chunkCall (length count : Nat) (done : Bool) : Event :=
  ⟨.append, min (length - count * zeroChunk) zeroChunk, done⟩

/-- The appends of the first `count` chunks of `length` zero bytes, the latest one first. -/
def chunkCalls (length : Nat) : (count : Nat) → List Event
  | 0 => []
  | count + 1 => chunkCall length count true :: chunkCalls length count

@[simp] theorem length_chunkCalls (length count : Nat) :
    (chunkCalls length count).length = count := by
  induction count with
  | zero => rfl
  | succ count ih => rw [chunkCalls, List.length_cons, ih]

/-- A chunk is appended in one call, of at most `zeroChunk` bytes. -/
theorem of_mem_chunkCalls {length count : Nat} {e : Event} (he : e ∈ chunkCalls length count) :
    e.call = .append ∧ e.done = true ∧ e.bytes ≤ zeroChunk := by
  induction count with
  | zero => cases he
  | succ count ih =>
    rcases List.mem_cons.mp he with rfl | he
    · exact ⟨rfl, rfl, Nat.min_le_right ..⟩
    · exact ih he

example : chunkCalls 65545 2 = [⟨.append, 9, true⟩, ⟨.append, 65536, true⟩] := by decide

/-- The bytes of the chunks are pending. -/
theorem ledger_chunkCalls (length count : Nat) (old : List Event) :
    Ledger.of (chunkCalls length count ++ old) =
      ⟨(Ledger.of old).pending + min (count * zeroChunk) length, (Ledger.of old).lost⟩ := by
  induction count with
  | zero => simp [chunkCalls]
  | succ count ih =>
    show (Ledger.of (chunkCalls length count ++ old)).after (chunkCall length count true) = _
    rw [ih, Nat.add_mul, Nat.one_mul]
    simp only [Ledger.after, chunkCall, if_true, Ledger.mk.injEq, and_true]
    omega

/-- There are more chunks as long as bytes are missing. -/
theorem lt_ceilDiv_zeroChunk {length count : Nat} :
    count < length ⌈/⌉ zeroChunk ↔ count * zeroChunk < length := by
  have hpos : 0 < zeroChunk := by decide
  rw [← Nat.not_le, ceilDiv_le_iff_le_mul hpos, Nat.not_le, Nat.mul_comm]

/-- All the chunks are all the bytes. -/
theorem min_chunks_self (length : Nat) : min (length ⌈/⌉ zeroChunk * zeroChunk) length = length :=
  Nat.min_eq_right (Nat.le_of_not_lt fun h => Nat.lt_irrefl _ (lt_ceilDiv_zeroChunk.mpr h))

/-! ## The file -/

section

variable {δ : Type} [Device δ] [LawfulDevice δ] {s t : Session δ} {length count : Nat}

/-- The first `count` chunks of `length` zero bytes have been appended. -/
structure Chunked (length count : Nat) (s t : Session δ) : Prop where
  file_eq : t.file = ⟨s.file.bytes ++ zeros (min (count * zeroChunk) length)⟩
  chainExtensions_eq : t.counters.chainExtensions = s.counters.chainExtensions
  history_eq : LawfulDevice.history t.device =
    (LawfulDevice.history s.device).map (chunkCalls length count ++ ·)

/-- The first `count` chunks of `length` zero bytes have been appended, and the next call failed. -/
structure BrokenOff (length count : Nat) (failed : Event) (s t : Session δ) : Prop where
  file_eq : t.file = ⟨s.file.bytes ++ zeros (min (count * zeroChunk) length)⟩
  chainExtensions_eq : t.counters.chainExtensions = s.counters.chainExtensions
  history_eq : LawfulDevice.history t.device =
    (LawfulDevice.history s.device).map (failed :: chunkCalls length count ++ ·)
  fallible : ¬ LawfulDevice.infallible δ

theorem Chunked.zero (length : Nat) (s : Session δ) : Chunked length 0 s s where
  file_eq := by
    rw [Nat.zero_mul, Nat.zero_min]
    show s.file = ⟨s.file.bytes ++ ByteArray.empty⟩
    rw [ByteArray.append_empty]
  chainExtensions_eq := rfl
  history_eq := Option.map_id'.symm

namespace Chunked

/-- The call after the chunks fails. -/
theorem brokenOff (h : Chunked length count s t) {d : δ} {c : Counters} {failed : Event}
    (hfile : LawfulDevice.file d = t.file)
    (hcount : c.chainExtensions = t.counters.chainExtensions)
    (hhist : LawfulDevice.history d = (LawfulDevice.history t.device).map (failed :: ·))
    (hinf : ¬ LawfulDevice.infallible δ) : BrokenOff length count failed s ⟨d, c⟩ where
  file_eq := hfile.trans h.file_eq
  chainExtensions_eq := hcount.trans h.chainExtensions_eq
  history_eq := by
    rw [hhist, h.history_eq, Option.map_map]
    rfl
  fallible := hinf

/-- The next chunk is appended, or the append fails. -/
theorem append (h : Chunked length count s t) :
    WP (call (Device.append (zeros (min (length - count * zeroChunk) zeroChunk)))) t
      (fun offset t' => offset = t.file.size ∧ Chunked length (count + 1) s t')
      fun _ => BrokenOff length count (chunkCall length count false) s := by
  rw [wp_call_iff]
  refine (LawfulDevice.wp_append t.device _).mono (fun offset d hd => ?_) fun _ d hd => ?_
  · obtain ⟨hoffset, hfile, hhist⟩ := hd
    rw [size_zeros] at hhist
    have hsum : min (count * zeroChunk) length + min (length - count * zeroChunk) zeroChunk =
        min ((count + 1) * zeroChunk) length := by
      rw [Nat.add_mul, Nat.one_mul]
      omega
    refine ⟨hoffset, hfile.trans ?_, h.chainExtensions_eq, ?_⟩
    · show File.mk (t.file.bytes ++ _) = _
      rw [h.file_eq, ByteArray.append_assoc, File.zeros_append_zeros, hsum]
    · rw [hhist, h.history_eq, Option.map_map]
      rfl
  · obtain ⟨hfile, hhist, hinf⟩ := hd
    rw [size_zeros] at hhist
    exact h.brokenOff hfile rfl hhist hinf

/-- The chunks that are missing are appended one by one, until an append fails. -/
theorem wp_appendZeros (h : Chunked length count s t) (hcount : count ≤ length ⌈/⌉ zeroChunk)
    {left : Nat} (hleft : left = length - count * zeroChunk) :
    WP (appendZeros left) t (fun _ => Chunked length (length ⌈/⌉ zeroChunk) s)
      fun _ t' => ∃ k < length ⌈/⌉ zeroChunk,
        BrokenOff length k (chunkCall length k false) s t' := by
  induction left using Nat.strongRecOn generalizing count t with
  | ind left ih =>
    subst hleft
    rw [appendZeros]
    split
    · have hall : count = length ⌈/⌉ zeroChunk :=
        Nat.le_antisymm hcount (Nat.le_of_not_lt fun hlt => by
          have := lt_ceilDiv_zeroChunk.mp hlt
          omega)
      exact hall ▸ h
    · have hlt : count < length ⌈/⌉ zeroChunk := lt_ceilDiv_zeroChunk.mpr (by omega)
      have hpos : 0 < zeroChunk := by decide
      rw [WP.bind_iff]
      refine WP.map_iff.mpr (h.append.mono (fun offset t₁ h₁ => ?_) fun _ _ h₁ => ⟨count, hlt, h₁⟩)
      exact ih _ (by omega) h₁.2 hlt (by rw [Nat.add_mul, Nat.one_mul]; omega)

end Chunked

/-- Extending a chain appends the chunks of a block of zeros and then writes the link. -/
theorem wp_extend_chunks {a : ArrayLayout} {block : Nat} (hsize : 0 < a.size)
    (hlt : a.linkOffset block < wordLimit) (hle : a.linkOffset block + linkSize ≤ s.file.size) :
    WP (extend a block) s
      (fun next t => next = s.file.size ∧
        t.file = ⟨overwrite (s.file.bytes ++ zeros a.size) (a.linkOffset block)
          (littleEndian linkSize s.file.size)⟩ ∧
        t.counters.chainExtensions = s.counters.chainExtensions + 1 ∧
        LawfulDevice.history t.device = (LawfulDevice.history s.device).map
          (⟨.write, linkSize, true⟩ :: chunkCalls a.size (a.size ⌈/⌉ zeroChunk) ++ ·))
      fun _ t =>
        (∃ k < a.size ⌈/⌉ zeroChunk, BrokenOff a.size k (chunkCall a.size k false) s t) ∨
          BrokenOff a.size (a.size ⌈/⌉ zeroChunk) ⟨.write, linkSize, false⟩ s t := by
  have hfirst : 0 < a.size ⌈/⌉ zeroChunk := lt_ceilDiv_zeroChunk.mpr (by omega)
  have hoffset : a.linkOffset? block = some (a.linkOffset block) :=
    checkedAdd_eq_some_iff.mpr ⟨rfl, hlt⟩
  have happend := (Chunked.zero a.size s).append
  rw [Nat.zero_mul, Nat.sub_zero] at happend
  rw [extend, WP.bind_iff]
  refine happend.mono (fun next s₁ h₁ => ?_) fun _ s₁ h₁ => .inl ⟨0, hfirst, h₁⟩
  obtain ⟨rfl, h₁⟩ := h₁
  rw [WP.bind_iff]
  refine (h₁.wp_appendZeros hfirst (by omega)).mono (fun _ s₂ h₂ => ?_) fun _ s₂ h₂ => .inl h₂
  rw [hoffset, WP.bind_iff, wp_count_iff, WP.bind_iff, WP.orAbort_some, WP.bind_iff, write,
    WP.bind_iff, wp_call_iff]
  have hfile₂ := h₂.file_eq
  rw [min_chunks_self] at hfile₂
  refine (LawfulDevice.wp_write s₂.device _ _).mono (fun _ d hd => ?_) fun _ d hd => .inr ?_
  · obtain ⟨hfile, hhist, -⟩ := hd
    refine ⟨rfl, hfile.trans ?_, congrArg (· + 1) h₂.chainExtensions_eq, hhist.trans ?_⟩
    · show File.mk (overwrite s₂.file.bytes _ _) = _
      rw [hfile₂]
    · rw [size_littleEndian, h₂.history_eq, Option.map_map]
      rfl
  · obtain ⟨hfile, hhist, hinf⟩ := hd
    rw [size_littleEndian] at hhist hinf
    refine h₂.brokenOff hfile rfl hhist fun h => absurd (hinf h) (Nat.not_lt_of_le ?_)
    show _ ≤ s₂.file.size
    rw [hfile₂, File.size_append]
    omega

end

end Chain

end RecordFile
