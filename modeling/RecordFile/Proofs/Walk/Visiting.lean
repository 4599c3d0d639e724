import RecordFile.Proofs.File.Visits
import RecordFile.Proofs.Walk.Decoding

/-!
# Walks through any file

Nothing is known here of what the file holds, and not even that it is as long as the root record. Every
walk that only reads still comes to an end, with a result or an error, and what it has read by then is
what a walk through the part may visit (`Layout.Visits`): this holds of decoding (`visiting_decode`), of
tracing without growth (`visiting_traceFrom`) and of auditing (`Audit.visiting_visit`).

`Visiting R s m Q E` says so of a walk `m` and of the offsets at which it reads, which are in `Q`
together with the result, or in `E` where the walk fails.
-/

namespace RecordFile

open Session

/-- A trail to which a call that is refused adds nothing. -/
class FullTrail {δ : Type} [Device δ] [LawfulDevice δ] (R : List Nat → Session δ → Session δ → Prop) :
    Prop extends Trail R where
  read_refused (s : Session δ) (offset length : Nat) :
    WP (Session.read offset length) s (fun _ _ => True) fun _ s' => R [] s s'
  size_refused (s : Session δ) : WP Session.size s (fun _ _ => True) fun _ s' => R [] s s'

/-- The device answers every read, be it with an error. -/
def Device.AnswersReads (δ : Type) [Device δ] : Prop :=
  ∀ (d : δ) (offset length : Nat),
    WP (Device.read offset length) d (fun _ _ => True) fun e _ => e.IsError

section

variable {δ : Type} [Device δ] [LawfulDevice δ]

instance : FullTrail (δ := δ) fun _ => Same where
  read_refused s offset length :=
    (wp_read s offset length).mono (fun _ _ _ => trivial) fun _ _ h => h.1
  size_refused s := (wp_size s).mono (fun _ _ _ => trivial) fun _ _ h => h.1

/-- Walks that only read leave a trail, whichever way they end. -/
theorem FullTrail.readStable {R : List Nat → Session δ → Session δ → Prop} [FullTrail R] :
    ReadStable fun s s' => ∃ log, R log s s' where
  refl s := ⟨[], Trail.nil s⟩
  trans := fun ⟨_, h⟩ ⟨_, h'⟩ => ⟨_, Trail.append h h'⟩
  read s offset length := by
    have htrail := (Trail.read (R := R) s offset length).and
      (FullTrail.read_refused (R := R) s offset length)
    have hend : WP (Session.read offset length) s (fun _ s' => ∃ log, R log s s')
        fun _ s' => ∃ log, R log s s' := htrail.mono (fun _ _ h => ⟨_, h.1⟩) fun _ _ h => ⟨_, h.2⟩
    exact hend.endState
  size s := by
    have htrail := (Trail.size (R := R) s).and (FullTrail.size_refused (R := R) s)
    have hend : WP Session.size s (fun _ s' => ∃ log, R log s s') fun _ s' => ∃ log, R log s s' :=
      htrail.mono (fun _ _ h => ⟨_, h.1⟩) fun _ _ h => ⟨_, h.2⟩
    exact hend.endState

/-- The device fails only calls that are out of bounds, and does not break off in them; offsets up to
`limit` are words, and the file does not reach further. -/
structure Session.Steady (s : Session δ) (limit : Nat) : Prop where
  infallible : LawfulDevice.infallible δ
  answers : Device.AnswersReads δ
  size_le : s.file.size ≤ limit
  limit_lt : limit < wordLimit

/-- What was counted so far does not matter. -/
theorem Session.Steady.recount {s : Session δ} {limit : Nat} (h : s.Steady limit)
    (counters : Counters) : Session.Steady ⟨s.device, counters⟩ limit :=
  ⟨h.infallible, h.answers, h.size_le, h.limit_lt⟩

/-- `m` only reads, and gives a result or fails with an error: the offsets at which it reads are in `Q`
together with the result, or in `E`. -/
def Visiting {α : Type} (R : List Nat → Session δ → Session δ → Prop) (s : Session δ)
    (m : Action (Session δ) α) (Q : α → List Nat → Prop) (E : List Nat → Prop) : Prop :=
  ∀ s₁, Same s s₁ → WP m s₁ (fun a s' => ∃ log, R log s₁ s' ∧ Q a log)
    fun e s' => e.IsError ∧ ∃ log, R log s₁ s' ∧ E log

namespace Visiting

variable {α β : Type} {R : List Nat → Session δ → Session δ → Prop} {s : Session δ} {limit : Nat}
  {Q Q' : α → List Nat → Prop} {E E' : List Nat → Prop}

theorem mono {m : Action (Session δ) α} (h : Visiting R s m Q E) (hQ : ∀ a log, Q a log → Q' a log)
    (hE : ∀ log, E log → E' log) : Visiting R s m Q' E' := fun s₁ hs₁ =>
  (h s₁ hs₁).mono (fun a _ h => h.imp fun log h => ⟨h.1, hQ a log h.2⟩)
    fun _ _ h => ⟨h.1, h.2.imp fun log h => ⟨h.1, hE log h.2⟩⟩

variable [FullTrail R]

theorem pure {a : α} (h : Q a []) : Visiting R s (pure a) Q E := fun s₁ _ => ⟨[], Trail.nil s₁, h⟩

theorem fail {e : Error} (h : E []) : Visiting R s (RecordFile.fail e : Action (Session δ) α) Q E :=
  fun s₁ _ => ⟨⟨e, rfl⟩, [], Trail.nil s₁, h⟩

theorem bind {m : Action (Session δ) β} {f : β → Action (Session δ) α} {P : β → List Nat → Prop}
    (h : Visiting R s m P E)
    (hf : ∀ b log, P b log →
      Visiting R s (f b) (fun a more => Q a (log ++ more)) fun more => E (log ++ more)) :
    Visiting R s (m >>= f) Q E := by
  intro s₁ hs₁
  rw [WP.bind_iff]
  refine (h s₁ hs₁).mono (fun b s₂ h => ?_) fun _ _ h => h
  obtain ⟨log, hlog, hb⟩ := h
  refine (hf b log hb s₂ (hs₁.trans (Trail.same hlog))).mono (fun a s' h => ?_) fun e s' h => ?_
  · obtain ⟨more, hmore, ha⟩ := h
    exact ⟨_, Trail.append hlog hmore, ha⟩
  · obtain ⟨he, more, hmore, ha⟩ := h
    exact ⟨he, _, Trail.append hlog hmore, ha⟩

/-- The result is only put into another form. -/
theorem bind_pure {m : Action (Session δ) β} {f : β → α}
    (h : Visiting R s m (fun b => Q (f b)) E) :
    Visiting R s (m >>= fun b => Pure.pure (f b)) Q E :=
  h.bind fun b log hb => .pure (by rwa [List.append_nil])

/-- A walk that reads on behind one offset. -/
theorem read (hs : s.Steady limit) (offset length : Nat) :
    Visiting R s (Session.read offset length)
      (fun bytes log => log = [offset] ∧ bytes.size = length) (· = []) := by
  intro s₁ _
  have hanswers : WP (Session.read offset length) s₁ (fun _ _ => True) fun e _ => e.IsError := by
    rw [Session.read, WP.bind_iff, wp_call_iff]
    exact (hs.answers s₁.device offset length).mono (fun _ _ _ => trivial) fun _ _ h => h
  have hbytes := (wp_read s₁ offset length).and hanswers
  have htrail := (Trail.read (R := R) s₁ offset length).and
    (FullTrail.read_refused (R := R) s₁ offset length)
  refine (hbytes.and htrail).mono (fun bytes s' h => ?_) fun e s' h => ?_
  · exact ⟨_, h.2.1, rfl, size_of_slice? h.1.1.2⟩
  · exact ⟨h.1.2, _, h.2.2, rfl⟩

theorem size (hs : s.Steady limit) :
    Visiting R s Session.size (fun n log => log = [] ∧ n = s.file.size) E := by
  intro s₁ hs₁
  refine ((wp_size s₁).and (Trail.size (R := R) s₁)).mono (fun n s' h => ?_) fun _ s' h => ?_
  · exact ⟨_, h.2, rfl, h.1.2.trans (congrArg File.size hs₁.file_eq)⟩
  · exact absurd hs.infallible h.1.2

omit [FullTrail R] in
/-- A walk whose error is taken as a result. -/
theorem attempt {m : Action (Session δ) α} {P : List Nat → Prop} (h : Visiting R s m Q P) :
    Visiting R s (Audit.attempt m) (fun result log => match result with
      | .ok a => Q a log
      | .error _ => P log) E := by
  intro s₁ hs₁
  have hm := h s₁ hs₁
  unfold WP Audit.attempt at *
  cases hrun : m s₁ with
  | ok a s' =>
    rw [hrun] at hm
    exact hm
  | error e s' =>
    rw [hrun] at hm
    obtain ⟨⟨cause, rfl⟩, hlog⟩ := hm
    exact hlog

end Visiting

/-! ## Links -/

/-- Below the limit, links lie at offsets that are words. -/
theorem Session.Steady.linkOffset?_eq {s : Session δ} {limit block : Nat} {a : ArrayLayout}
    (hs : s.Steady limit) (own : a.WellFormed) (hext : a.extent = .chained)
    (hle : block + a.size ≤ limit) : a.linkOffset? block = some (a.linkOffset block) := by
  have hin := a.linkOffset_le own hext hle
  have hlimit := hs.limit_lt
  exact checkedAdd_eq_some_iff.mpr ⟨rfl, by unfold ArrayLayout.linkOffset at *; omega⟩

namespace Chain

variable {R : List Nat → Session δ → Session δ → Prop} [FullTrail R] {s : Session δ}
  {limit rootSize block : Nat} {a : ArrayLayout}

/-- A link is followed only to where a block of the chain may be. -/
theorem visiting_checkLink (hs : s.Steady limit) (link : UInt64) :
    Visiting R s (checkLink rootSize a block link)
      (fun next log => log = [] ∧ rootSize ≤ next.val ∧ next.val + a.size ≤ s.file.size) (· = []) := by
  rw [checkLink]
  refine .bind (.size hs) fun n log h => ?_
  obtain ⟨rfl, rfl⟩ := h
  split
  · rename_i hleads
    exact .pure ⟨rfl, hleads.2⟩
  · exact .fail rfl

/-- Following a link reads the link, and nothing else. -/
theorem visiting_follow (hs : s.Steady limit) (own : a.WellFormed) (hext : a.extent = .chained)
    (hle : block + a.size ≤ limit) :
    Visiting R s (follow rootSize a block)
      (fun found log => log = [a.linkOffset block] ∧ ∀ next, found = some next →
        rootSize ≤ next.val ∧ next.val + a.size ≤ s.file.size)
      fun log => log = [] ∨ log = [a.linkOffset block] := by
  rw [follow, readLink, hs.linkOffset?_eq own hext hle]
  simp only [orAbort_some_bind, bind_assoc, pure_bind]
  refine .bind ((Visiting.read hs _ _).mono (fun _ _ h => h) fun _ h => .inl h) fun bytes log h => ?_
  obtain ⟨rfl, -⟩ := h
  split
  · exact .pure ⟨rfl, nofun⟩
  · refine .bind ((visiting_checkLink hs _).mono (fun _ _ h => h) fun log h => ?_) fun next log h => ?_
    · exact .inr (by rw [h, List.append_nil])
    · obtain ⟨rfl, hinside⟩ := h
      refine .pure ⟨rfl, fun found hfound => ?_⟩
      obtain rfl := Option.some.inj hfound
      exact hinside

end Chain

/-! ## Decoding -/

section

variable {R : List Nat → Session δ → Session δ → Prop} [FullTrail R] {s : Session δ}
  {limit rootSize : Nat}

theorem exists_slice?_of_le {bytes : ByteArray} {start length : Nat} (h : start + length ≤ bytes.size) :
    ∃ part, slice? bytes start length = some part :=
  exists_slice? ⟨bytes⟩ start length h

/-- What decoding a place reads, and that it does not break off. -/
def Layout.DecodeVisits (R : List Nat → Session δ → Session δ → Prop) (rootSize limit : Nat)
    (s : Session δ) (l : Layout) : Prop :=
  ∀ (base : Nat) (bytes : ByteArray), bytes.size = l.size → base + l.size ≤ limit →
    Visiting R s (decode rootSize l base bytes) (fun _ => l.Visits rootSize s.file.size base)
      (l.Visits rootSize s.file.size base)

/-- Slots are decoded one after the other. -/
theorem visiting_readSlots {a : ArrayLayout} (hs : s.Steady limit) (own : a.WellFormed)
    {item : Nat → ByteArray → Action (Session δ) Value}
    (hitem : ∀ offset slot, slot.size = a.element.size → offset + a.element.size ≤ limit →
      Visiting R s (item offset slot) (fun _ => a.element.Visits rootSize s.file.size offset)
        (a.element.Visits rootSize s.file.size offset))
    {block : Nat} {bytes : ByteArray} (hsize : bytes.size = a.size) (hle : block + a.size ≤ limit)
    {left index : Nat} (hcount : index + left = a.capacity) (items : Array Value) :
    Visiting R s (readSlots a item block bytes left index items)
      (fun _ => RowVisits rootSize s.file.size ((a.places block).drop index))
      (RowVisits rootSize s.file.size ((a.places block).drop index)) := by
  induction left generalizing index items with
  | zero =>
    rw [readSlots]
    exact .pure (.stop _)
  | succ left ih =>
    have hindex : index < a.capacity := by omega
    have hin : index * a.element.size + a.element.size ≤ a.size :=
      (a.slot_le hindex).trans own.slotsSize_le
    obtain ⟨slot, hslot⟩ := exists_slice?_of_le (hin.trans_eq hsize.symm)
    rw [readSlots, hslot, a.slotOffset?_eq own hindex (hle.trans_lt hs.limit_lt), orAbort_some_bind,
      orAbort_some_bind, a.drop_places hindex]
    refine .bind ((hitem _ slot (size_of_slice? hslot) (by omega)).mono (fun _ _ h => h) fun log h =>
      .of_mem List.mem_cons_self h) fun v log hlog => ?_
    exact (ih (by omega) _).mono (fun _ _ h => .cons hlog h) fun _ h => .cons hlog h

/-- Blocks are decoded one after the other, each where a link leads to. -/
theorem visiting_readBlocks {a : ArrayLayout} (hs : s.Steady limit) (own : a.WellFormed)
    {item : Nat → ByteArray → Action (Session δ) Value}
    (hitem : ∀ offset slot, slot.size = a.element.size → offset + a.element.size ≤ limit →
      Visiting R s (item offset slot) (fun _ => a.element.Visits rootSize s.file.size offset)
        (a.element.Visits rootSize s.file.size offset))
    {block : Nat} {bytes : ByteArray} (hsize : bytes.size = a.size) (hle : block + a.size ≤ limit)
    (items : Array Value) (entered : Bool) :
    Visiting R s (readBlocks rootSize a item block bytes items)
      (fun _ log => (Layout.array a).Visits rootSize s.file.size block
        ((if entered then [block] else []) ++ log))
      fun log => (Layout.array a).Visits rootSize s.file.size block
        ((if entered then [block] else []) ++ log) := by
  -- Links lead on towards the end of the words.
  induction h : wordLimit - block using Nat.strongRecOn generalizing block bytes items entered with
  | ind n ih =>
    subst h
    have hblock {slots : List Nat} (hrow : RowVisits rootSize s.file.size (a.places block) slots) :
        (Layout.array a).Visits rootSize s.file.size block
          ((if entered then [block] else []) ++ slots) := by
      have := Layout.Visits.block ⟨block, entered, slots, false⟩ hrow
      rwa [BlockVisit.log_of_not_left] at this
    have hslots := visiting_readSlots (R := R) hs own hitem hsize hle
      (Nat.zero_add _) items
    rw [List.drop_zero] at hslots
    rw [readBlocks]
    refine .bind (hslots.mono (fun _ _ h => h) fun _ => hblock) fun items' slots hrow => ?_
    cases hext : a.extent with
    | fixed => exact .pure (by rw [List.append_nil]; exact hblock hrow)
    | chained =>
      have hlink := own.size_of_chained hext
      obtain ⟨part, hpart⟩ := exists_slice?_of_le (hlink.symm.trans hsize.symm).le
      simp only [hpart, orAbort_some_bind]
      split
      · exact .pure (by rw [List.append_nil]; exact hblock hrow)
      refine .bind ((Chain.visiting_checkLink hs _).mono (fun _ _ h => h) fun log h => ?_)
        fun next log h => ?_
      · rw [h, List.append_nil]
        exact hblock hrow
      obtain ⟨next, hnext⟩ := next
      obtain ⟨rfl, hroot, hin⟩ := h
      refine .bind ((Visiting.read hs next a.size).mono (fun _ _ h => h) fun log h => ?_)
        fun bytes' log h => ?_
      · rw [h, List.append_nil, List.append_nil]
        exact hblock hrow
      obtain ⟨rfl, hsize'⟩ := h
      have hchain {log : List Nat}
          (h : (Layout.array a).Visits rootSize s.file.size next ([next] ++ log)) :
          (Layout.array a).Visits rootSize s.file.size block
            ((if entered then [block] else []) ++ (slots ++ ([] ++ ([next] ++ log)))) := by
        have := Layout.Visits.cons_block ⟨block, entered, slots, false⟩ hrow hext hnext.1 hroot hin h
        rwa [BlockVisit.log_of_not_left, List.append_assoc] at this
      have hrest := ih (wordLimit - next) (by omega) hsize' (hin.trans hs.size_le) items' true rfl
      exact hrest.mono (fun _ _ => hchain) fun _ => hchain

theorem visiting_decodeFields {fields : List FieldLayout} {base : Nat} {bytes : ByteArray}
    (hs : s.Steady limit) (hle : ∀ f ∈ fields, f.offset + f.layout.size ≤ bytes.size)
    (hbase : base + bytes.size ≤ limit)
    (hdecodes : ∀ f ∈ fields, f.layout.DecodeVisits R rootSize limit s) :
    Visiting R s (decodeFields rootSize fields base bytes)
      (fun _ => RowVisits rootSize s.file.size (fields.map fun f => (f.layout, base + f.offset)))
      (RowVisits rootSize s.file.size (fields.map fun f => (f.layout, base + f.offset))) := by
  induction fields with
  | nil =>
    rw [decodeFields]
    exact .pure (.stop _)
  | cons field rest ih =>
    obtain ⟨name, layout, offset⟩ := field
    obtain ⟨hle₁, hle⟩ := List.forall_mem_cons.mp hle
    obtain ⟨hdecode, hdecodes⟩ := List.forall_mem_cons.mp hdecodes
    replace hle₁ : offset + layout.size ≤ bytes.size := hle₁
    have hlimit := hs.limit_lt
    obtain ⟨slice, hslice⟩ := exists_slice?_of_le hle₁
    rw [decodeFields, hslice,
      checkedAdd_eq_some_iff.mpr ⟨rfl, (by omega : base + offset < wordLimit)⟩, orAbort_some_bind,
      orAbort_some_bind, List.map_cons]
    have hfield := hdecode (base + offset) slice (size_of_slice? hslice) (by
      show base + offset + layout.size ≤ limit
      omega)
    refine .bind (hfield.mono (fun _ _ h => h) fun log h => .of_mem List.mem_cons_self h)
      fun v log hlog => .bind_pure ?_
    exact (ih hle hdecodes).mono (fun _ _ h => .cons hlog h) fun _ h => .cons hlog h

/-- Decoding visits the place and what its links lead to. -/
theorem visiting_decode {l : Layout} (hs : s.Steady limit) (hw : l.WellFormed) :
    l.DecodeVisits R rootSize limit s := by
  induction hw with
  | scalar kind =>
    intro base bytes hsize _
    rw [decode, Scalar.decode_of_size hsize]
    exact .pure (.stop _ base)
  | @record r own _ ih =>
    intro base bytes hsize hle
    replace hsize : bytes.size = r.size := hsize
    have hfields := visiting_decodeFields (R := R) hs
      (fun f hf => (own.packed.le_of_mem hf).2.trans_eq hsize.symm) (by rw [hsize]; exact hle) ih
    have hrecord {log : List Nat} : RowVisits rootSize s.file.size (r.places base) log →
        (Layout.record r).Visits rootSize s.file.size base log := .record
    obtain ⟨name, fields, size, hasChain⟩ := r
    rw [decode]
    exact .bind_pure (hfields.mono (fun _ _ => hrecord) fun _ => hrecord)
  | @array a own _ ih =>
    intro base bytes hsize hle
    have hblocks := visiting_readBlocks (R := R) hs own (fun offset slot => ih offset slot) hsize hle
      #[] false
    obtain ⟨element, capacity, extent, size, capacity_pos⟩ := a
    rw [decode]
    exact .bind_pure hblocks

end

/-! ## Tracing -/

section

variable {R : List Nat → Session δ → Session δ → Prop} [FullTrail R] {s : Session δ}
  {limit rootSize : Nat}

namespace Chain

variable {a : ArrayLayout} {block : Nat}

/-- Looking for an element visits the blocks up to the one that holds it; what is visited behind its
slot is still open. -/
theorem visiting_locateFrom (hs : s.Steady limit) (own : a.WellFormed) (hext : a.extent = .chained)
    (hle : block + a.size ≤ limit) (index remaining allocated : Nat) :
    Visiting R s (locateFrom rootSize .forbidden a index block remaining allocated)
      (fun offset log => offset + a.element.size ≤ limit ∧
        ∀ more, a.element.Visits rootSize s.file.size offset more →
          (Layout.array a).Visits rootSize s.file.size block (log ++ more))
      ((Layout.array a).Visits rootSize s.file.size block) := by
  induction remaining using Nat.strongRecOn generalizing block allocated with
  | ind remaining ih =>
    have hpos := a.capacity_pos
    have hpassed : (Layout.array a).Visits rootSize s.file.size block [a.linkOffset block] :=
      Layout.Visits.block ⟨block, false, [], true⟩ (.stop _)
    rw [locateFrom]
    split
    · rename_i hcap
      simp only [next, bind_assoc, pure_bind]
      refine .bind ((visiting_follow hs own hext hle).mono (fun _ _ h => h) fun log h => ?_)
        fun found log h => ?_
      · rcases h with rfl | rfl
        · exact .stop _ block
        · exact hpassed
      obtain ⟨rfl, hfound⟩ := h
      rcases found with _ | next
      · exact .fail (by rwa [List.append_nil])
      · obtain ⟨hroot, hin⟩ := hfound next rfl
        have hchain {log : List Nat} (h : (Layout.array a).Visits rootSize s.file.size next.val log) :
            (Layout.array a).Visits rootSize s.file.size block ([a.linkOffset block] ++ log) :=
          Layout.Visits.cons_block ⟨block, false, [], true⟩ (.stop _) hext next.property.1 hroot hin h
        refine (ih (remaining - a.capacity) (by omega) (hin.trans hs.size_le) _).mono
          (fun offset log h => ⟨h.1, fun more hmore => ?_⟩) fun log h => hchain h
        rw [List.append_assoc]
        exact hchain (h.2 more hmore)
    · rename_i hcap
      have hlt := Nat.lt_of_not_le hcap
      have hslot := a.slot_le hlt
      have hsize := own.slotsSize_le
      rw [a.slotOffset?_eq own hlt (hle.trans_lt hs.limit_lt)]
      exact .pure ⟨by omega, fun _ => .of_slot hlt⟩

theorem visiting_locate (hs : s.Steady limit) (own : a.WellFormed) (hle : block + a.size ≤ limit)
    (index : Nat) :
    Visiting R s (locate rootSize .forbidden a block index)
      (fun offset log => offset + a.element.size ≤ limit ∧
        ∀ more, a.element.Visits rootSize s.file.size offset more →
          (Layout.array a).Visits rootSize s.file.size block (log ++ more))
      ((Layout.array a).Visits rootSize s.file.size block) := by
  cases hext : a.extent with
  | chained =>
    rw [locate, hext]
    exact visiting_locateFrom hs own hext hle index index a.capacity
  | fixed =>
    rcases Nat.lt_or_ge index a.capacity with hlt | hcap
    · have hslot := a.slot_le hlt
      have hsize := own.slotsSize_le
      rw [locate_of_fixed own hext hlt (hle.trans_lt hs.limit_lt)]
      exact .pure ⟨by omega, fun _ => .of_slot hlt⟩
    · rw [locate_of_le ⟨hext, hcap⟩]
      exact .fail (.stop _ block)

end Chain

/-- Following a path visits the part that it starts from, and leads to a place below the limit. -/
theorem visiting_traceFrom {l : Layout} (hs : s.Steady limit) (hw : l.WellFormed) {path : Path}
    {position base : Nat} {steps : List UInt64} (hle : base + l.size ≤ limit) :
    Visiting R s (traceFrom rootSize .forbidden path position l base steps)
      (fun offset log => l.Visits rootSize s.file.size base log ∧
        ∀ l', l.descend path position steps = .ok l' → offset + l'.size ≤ limit)
      (l.Visits rootSize s.file.size base) := by
  induction steps generalizing l position base with
  | nil =>
    rw [traceFrom]
    refine .pure ⟨.stop l base, fun l' hl' => ?_⟩
    obtain rfl := Except.ok.inj hl'
    exact hle
  | cons step rest ih =>
    cases hw with
    | scalar kind =>
      rw [traceFrom]
      exact .fail (.stop _ base)
    | @record r own fields =>
      rw [traceFrom]
      cases hfield : r.fields[step.toNat]? with
      | none => exact .fail (.stop _ base)
      | some f =>
        have hmem := List.mem_of_getElem? hfield
        have hin := (own.packed.le_of_mem hmem).2
        have hlimit := hs.limit_lt
        replace hle : base + r.size ≤ limit := hle
        rw [Layout.descend_record_of_some hfield]
        simp only [checkedAdd_eq_some_iff.mpr ⟨rfl, (by omega : base + f.offset < wordLimit)⟩,
          orAbort_some_bind]
        exact (ih (fields f hmem) (by omega)).mono (fun _ _ h => ⟨.of_field hmem h.1, h.2⟩)
          fun _ h => .of_field hmem h
    | @array a own element =>
      rw [traceFrom]
      refine .bind (Chain.visiting_locate hs own hle step.toNat) fun offset log h => ?_
      obtain ⟨hoffset, hlog⟩ := h
      refine (ih element hoffset).mono (fun _ more h => ⟨hlog more h.1, fun l' hl' => h.2 l' ?_⟩)
        fun more h => hlog more h
      obtain ⟨below, hchild, hbelow⟩ := Layout.descend_cons.mp hl'
      obtain ⟨-, rfl⟩ := Layout.child_array_eq_ok_iff.mp hchild
      exact hbelow

end

end

end RecordFile
