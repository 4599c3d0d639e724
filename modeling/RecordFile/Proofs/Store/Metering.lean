import RecordFile.Proofs.Store.Reached
import RecordFile.Proofs.Walk.Metering

/-!
# What the counters count

The counters of a store tell what the calls have moved that it made on its device since it was
created or opened (`Store.counters_of_operated`), wherever calls have failed: the bytes that were
read, and the bytes that were written or appended except for those of a block whose later chunks could
not be appended. These are in the file and are never counted.
-/

namespace RecordFile

open Session

namespace Store

variable {δ : Type} [Device δ]

/-- Requests and calls of `Store.init` lead from the first store to the second, each of which may have
failed. There are no audits among them, whose reads are not counted. -/
inductive Operated : Store δ → Store δ → Prop
  | refl (s : Store δ) : Operated s s
  | request {s s' : Store δ} (h : Operated s s') (r : Request) (hr : r ≠ .audit) :
    Operated s (r.after s')
  | init {s s' : Store δ} (h : Operated s s') : Operated s (endState Store.init s')

/-- A store that has just been created or opened. -/
inductive New (schema : Schema) : Store δ → Prop
  | create {device : δ} {s : Store δ} (h : Store.create schema device = .ok s) : New schema s
  | openOn {device : δ} {s : Store δ} (h : Store.openOn schema device = .ok s) : New schema s

variable {schema : Schema} {s s' : Store δ}

theorem New.counters_eq (h : New schema s) : s.session.counters = {} := by
  cases h with
  | @create device _ h =>
    unfold Store.create at h
    split at h
    · obtain rfl := Except.ok.inj h
      rfl
    · cases h
  | @openOn device _ h =>
    unfold Store.openOn at h
    split at h
    · split at h
      · cases h
      · obtain rfl := Except.ok.inj h
        rfl
    · cases h

variable [LawfulDevice δ]

/-- The answer of `Store.stats` holds the counters. -/
theorem counters_of_stats {answer : Stats} (h : stats s = .ok answer s') :
    answer.counters = s.session.counters := by
  have hstats : WP stats s (fun answer _ => answer.counters = s.session.counters) fun _ _ => True := by
    rw [stats, wp_onSession_iff]
    refine WP.bind_iff.mpr (WP.bind_iff.mpr ?_)
    exact (wp_size s.session).mono (fun _ _ _ => rfl) fun _ _ _ => trivial
  exact hstats.ok h

theorem Operated.metered (h : Operated s s') : Metered s.session 0 s'.session := by
  induction h with
  | refl => exact .refl _
  | @request s₁ _ r hr ih => exact r.keeps (R := StaysMetered s.session) s₁ hr ih
  | @init s₁ _ ih =>
    rw [Store.init, endState_onSession]
    have hreset := LawfulDevice.wp_reset s₁.session.device s₁.schema.size
    exact (ih.idle (by decide) (hreset.mono (fun _ _ hd => hd.2) fun _ _ hd => hd.2.1)).endState

/-- Since a store was created or opened, it made the calls `issued`, some of which may have failed.
Its counters tell how many bytes were read and how many were written or appended, without those of
blocks of which a later append failed; if no append failed, there are none of these. -/
theorem counters_of_operated {old : List Event} (hnew : New schema s)
    (hold : LawfulDevice.history s.session.device = some old) (h : Operated s s') :
    ∃ issued, LawfulDevice.history s'.session.device = some (issued ++ old) ∧
      s'.session.counters.bytesRead = moved .read issued ∧
      s'.session.counters.bytesWritten + abandoned issued =
        moved .write issued + moved .append issued ∧
      ((∀ e ∈ issued, e.call = .append → e.done = true) →
        s'.session.counters.bytesWritten = moved .write issued + moved .append issued) ∧
      ∀ answer t, stats s' = .ok answer t → answer.counters = s'.session.counters := by
  obtain ⟨issued, hmetered, -⟩ := h.metered
  have hread := hmetered.bytesRead_eq
  have hwritten := hmetered.bytesWritten_eq
  rw [hnew.counters_eq] at hread hwritten
  refine ⟨issued, ?_, by simpa using hread, by simpa using hwritten, fun hdone => ?_,
    fun answer t => counters_of_stats⟩
  · rw [hmetered.history_eq, hold]
    rfl
  · rw [abandoned_of_done hdone] at hwritten
    simpa using hwritten

theorem counters_of_operated_log : ∃ issued,
    flakyLogWritten.session.device.history = issued ++ [⟨.reset, 11, true⟩] ∧
    flakyLogWritten.session.counters.bytesRead = moved .read issued ∧
    flakyLogWritten.session.counters.bytesWritten + abandoned issued =
      moved .write issued + moved .append issued ∧
    flakyLogWritten.session.counters = ⟨1, 16, 29⟩ := by
  have hnew : New .log flakyLog := @New.create _ _ _
    ⟨.empty, fun n => if n = 3 then some (.error (.device "full")) else none, []⟩ _ rfl
  have hrun : Operated flakyLog flakyLogWritten :=
    ((Operated.refl _).request (.set (.path ⟨[1, 3]⟩) (.uint 7)) nofun).request _ nofun
  obtain ⟨issued, hhist, hread, hwritten, -⟩ := counters_of_operated hnew rfl hrun
  exact ⟨issued, Option.some.inj hhist, hread, hwritten, by decide +kernel⟩

end Store

/-! ## Abandoned blocks

On a device that refuses the second append of an extension, the first chunk of the block is in the file
and is not counted. -/

namespace Chain

variable {a : ArrayLayout} {d : FlakyFile} {c : Counters} {e : Halt}

theorem appendZeros_refused {length : Nat} (hlength : length ≠ 0)
    (hrefused : d.refusal d.history.length = some e) :
    appendZeros length ⟨d, c⟩ = .error e ⟨⟨d.file, d.refusal,
      ⟨.append, min length zeroChunk, false⟩ :: d.history⟩, c⟩ := by
  rw [appendZeros, dif_neg hlength]
  have happend := FlakyFile.append_of_some (c := c) (zeros (min length zeroChunk)) hrefused
  rw [size_zeros] at happend
  exact bind_error (discard_error happend)

theorem extend_refused (block : Nat) (hsize : zeroChunk < a.size)
    (hfirst : d.refusal d.history.length = none)
    (hsecond : d.refusal (d.history.length + 1) = some e) :
    extend a block ⟨d, c⟩ = .error e ⟨⟨⟨d.file.bytes ++ zeros zeroChunk⟩, d.refusal,
      ⟨.append, min (a.size - zeroChunk) zeroChunk, false⟩ :: ⟨.append, zeroChunk, true⟩ ::
        d.history⟩, c⟩ := by
  have hhead : min a.size zeroChunk = zeroChunk := by omega
  have hrest : a.size - zeroChunk ≠ 0 := by omega
  have happend := FlakyFile.append_of_none (c := c) (zeros zeroChunk) hfirst
  rw [size_zeros] at happend
  have hstop := appendZeros_refused (d := ⟨⟨d.file.bytes ++ zeros zeroChunk⟩, d.refusal,
    ⟨.append, zeroChunk, true⟩ :: d.history⟩) (c := c) hrest hsecond
  rw [extend, hhead]
  exact (bind_ok happend).trans (bind_error hstop)

/-- Going on past the last block of a chain, whose blocks are longer than a chunk, when the device
accepts the first chunk of the new block and refuses the second. -/
theorem followOrExtend_refused (rootSize : Nat) {block offset : Nat}
    (hoffset : a.linkOffset? block = some offset) (hblank : d.file.Blank offset linkSize)
    (hsize : zeroChunk < a.size) (hread : d.refusal d.history.length = none)
    (hfirst : d.refusal (d.history.length + 1) = none)
    (hsecond : d.refusal (d.history.length + 2) = some e) :
    followOrExtend rootSize a block ⟨d, c⟩ = .error e ⟨⟨⟨d.file.bytes ++ zeros zeroChunk⟩, d.refusal,
      ⟨.append, min (a.size - zeroChunk) zeroChunk, false⟩ :: ⟨.append, zeroChunk, true⟩ ::
        ⟨.read, linkSize, true⟩ :: d.history⟩, { c with bytesRead := c.bytesRead + linkSize }⟩ := by
  have hslice : slice? d.file.bytes offset linkSize = some (zeros linkSize) :=
    slice?_eq_some_iff.mpr ⟨hblank.le_size (by decide), hblank.extract_eq⟩
  have hfollow : follow rootSize a block ⟨d, c⟩ = .ok none ⟨⟨d.file, d.refusal,
      ⟨.read, linkSize, true⟩ :: d.history⟩, { c with bytesRead := c.bytesRead + linkSize }⟩ := by
    rw [follow, readLink, hoffset, orAbort_some_bind, bind_assoc]
    refine (bind_ok (FlakyFile.read_of_slice? hread hslice)).trans ?_
    rw [pure_bind, File.littleEndianValue_zeros]
    rfl
  have hextend := extend_refused (d := ⟨d.file, d.refusal, ⟨.read, linkSize, true⟩ :: d.history⟩)
    (c := { c with bytesRead := c.bytesRead + linkSize }) block hsize hfirst hsecond
  rw [followOrExtend]
  exact (bind_ok hfollow).trans hextend

end Chain

/-- A chained array of bytes, with blocks that are longer than a chunk. -/
def ArrayLayout.wideBytes : ArrayLayout := ⟨.scalar .uint8, 65537, .chained, 65545, by decide⟩

/-- A byte and a chained array of bytes in long blocks. -/
def RecordLayout.wideLog : RecordLayout :=
  ⟨"Log", [⟨"count", .scalar .uint8, 0⟩, ⟨"items", .array .wideBytes, 1⟩], 65546, true⟩

/-- A schema with `RecordLayout.wideLog` as the root. -/
def Schema.wideLog : Schema :=
  ⟨.wideLog, ((Catalog.new {}).insert "Log" (.record .wideLog)).types.toList, {}⟩

theorem Schema.wideLog_compiled : Schema.wideLog.Compiled := by
  refine @compiled_of_resolve "uint8[~65537]" (.array .wideBytes) _ ?_ rfl (by decide)
  have hconfig : (Catalog.new {}).config.defaultBlockCapacity = 128 := rfl
  have hread : TypeExpression.read? 128 "uint8[~65537]" =
      some ⟨"uint8", [⟨65537, .chained⟩]⟩ := by decide +kernel
  simp only [Catalog.resolve, hconfig, hread, Catalog.lookup_uint8]
  rfl

theorem tracePath_wideLog (index : UInt64) :
    tracePath (δ := FlakyFile) .wideLog .allowed ⟨[1, index]⟩ =
      Chain.locate 65546 .allowed .wideBytes 1 index.toNat >>= fun offset => pure offset := rfl

namespace Store

/-- A new store of `Schema.wideLog` on a device that fails the fourth call. -/
def wideLog : Store FlakyFile :=
  ⟨.wideLog, ⟨⟨.zeroed 65546, fun n => if n = 3 then some (.error (.device "full")) else none,
    [⟨.reset, 65546, true⟩]⟩, {}⟩⟩

/-- The store with one chunk behind the root record, of a block that was not appended in full. -/
def wideLogAbandoned : Store FlakyFile :=
  ⟨.wideLog, ⟨⟨⟨zeros 65546 ++ zeros Chain.zeroChunk⟩, wideLog.session.device.refusal,
    [⟨.append, 9, false⟩, ⟨.append, 65536, true⟩, ⟨.read, 8, true⟩, ⟨.reset, 65546, true⟩]⟩,
      ⟨0, 8, 0⟩⟩⟩

theorem set_wideLog : set (.path ⟨[1, 65537]⟩) (.uint 7) wideLog =
    .error (.error (.device "full")) wideLogAbandoned := by
  have hplan : wideLog.schema.plan (.path ⟨[1, 65537]⟩) (.uint 7) =
      .ok (⟨[1, 65537]⟩, .scalar .uint8, .run ⟨#[7]⟩) := rfl
  have hblank : wideLog.session.device.file.Blank 65538 linkSize :=
    (File.blank_zeroed 65546).sub (by decide) (by decide)
  have hextend : Chain.followOrExtend 65546 .wideBytes 1 wideLog.session =
      .error (.error (.device "full")) wideLogAbandoned.session := by
    have hrest : min (ArrayLayout.wideBytes.size - Chain.zeroChunk) Chain.zeroChunk = 9 := by decide
    have hoffset : ArrayLayout.wideBytes.linkOffset? 1 = some 65538 := rfl
    have h := Chain.followOrExtend_refused (c := {}) 65546 hoffset hblank (by decide) rfl rfl rfl
    rwa [hrest] at h
  have hlocate : Chain.locate 65546 .allowed .wideBytes 1 65537 wideLog.session =
      .error (.error (.device "full")) wideLogAbandoned.session := by
    have hchained : Chain.locate (δ := FlakyFile) 65546 .allowed .wideBytes 1 65537 =
      Chain.locateFrom 65546 .allowed .wideBytes 65537 1 65537 65537 := rfl
    have hle : ArrayLayout.wideBytes.capacity ≤ 65537 := Nat.le_refl _
    rw [hchained, Chain.locateFrom, dif_pos hle, Chain.next]
    exact bind_error (bind_error hextend)
  have hwrite : writeAt .wideLog ⟨[1, 65537]⟩ (.scalar .uint8) (.run ⟨#[7]⟩) wideLog.session =
      .error (.error (.device "full")) wideLogAbandoned.session := by
    rw [writeAt, tracePath_wideLog]
    exact bind_error (bind_error hlocate)
  rw [set_eq, hplan]
  exact onSession_error hwrite

/-- The counter of written bytes is not exact when an extension breaks off between two chunks. -/
theorem bytesWritten_ne_moved : ¬ ∀ (schema : Schema) (s s' : Store FlakyFile) (issued : List Event),
    schema.Compiled → New schema s → Operated s s' →
      s'.session.device.history = issued ++ s.session.device.history →
      s'.session.counters.bytesWritten = moved .write issued + moved .append issued := by
  intro hexact
  have hnew : New .wideLog wideLog := @New.create _ _ _
    ⟨.empty, fun n => if n = 3 then some (.error (.device "full")) else none, []⟩ _ rfl
  have hrun : Operated wideLog wideLogAbandoned := by
    have h := (Operated.refl wideLog).request (.set (.path ⟨[1, 65537]⟩) (.uint 7)) nofun
    rwa [Request.after, endState, set_wideLog] at h
  have h := hexact _ _ _ [⟨.append, 9, false⟩, ⟨.append, 65536, true⟩, ⟨.read, 8, true⟩]
    Schema.wideLog_compiled hnew hrun rfl
  exact absurd h (by decide)

end Store

end RecordFile
