import RecordFile.Proofs.File.Separation
import RecordFile.Proofs.File.Spans
import RecordFile.Proofs.Store.Permanence

/-!
# No two parts share a byte

In a store that calls lead to, whichever of them the device has failed, parts that tracing finds have no
byte in common unless one is inside the other, the links of blocks have none with scalars, and none with
each other (`Store.disjoint_of_reached`).

The cells of such a store are sound, so they are apart. The bytes of a part are covered by its cells, and
a scalar and a link are cells themselves.
-/

namespace RecordFile

open Session

/-! ## Cells that are apart -/

/-- The bytes of a cell that is a link. -/
def Cell.linkSpan? : Cell → Option Span
  | scalar _ _ => none
  | link a block _ => some ⟨a.linkOffset block, linkSize⟩

/-- The bytes of the links among the cells, link by link. -/
def linkSpans (cells : List Cell) : List Span := cells.filterMap Cell.linkSpan?

section

variable {rootSize : Nat} {f : File} {cells : List Cell}

theorem Cell.mem_linkSpan? {c : Cell} {b : Span} (h : c.linkSpan? = some b) {x : Nat} :
    x ∈ b.bytes ↔ c.Covers x := by
  cases c with
  | scalar kind offset => cases h
  | link a block next =>
    obtain rfl := Option.some.inj h
    exact Span.mem_bytes

/-- Links that are apart have no byte in common. -/
theorem exclusive_linkSpans (h : cells.Pairwise Cell.Apart) : Exclusive (linkSpans cells) :=
  List.pairwise_filterMap.mpr (h.imp fun hapart _ hb _ hb' => Finset.disjoint_left.mpr fun x hx hx' =>
    hapart.1 x ((Cell.mem_linkSpan? hb).mp hx) ((Cell.mem_linkSpan? hb').mp hx'))

/-- The link cells have no byte in common with a scalar that they are apart from. -/
theorem Sound.disjoint_linkSpan (hs : Sound rootSize f cells) {kind : Scalar} {offset : Nat}
    (hmem : .scalar kind offset ∈ cells) {b : Span} (hb : b ∈ linkSpans cells) :
    Disjoint b.bytes (Span.bytes ⟨offset, kind.width⟩) := by
  obtain ⟨c, hc, hspan⟩ := List.mem_filterMap.mp hb
  have hne : c ≠ .scalar kind offset := fun h => by
    rw [h] at hspan
    cases hspan
  have : Std.Symm Cell.Apart := ⟨fun _ _ => Cell.Apart.symm⟩
  have hapart := hs.apart.forall hc hmem hne
  exact Finset.disjoint_left.mpr fun x hx hx' =>
    hapart.1 x ((Cell.mem_linkSpan? hspan).mp hx) (Span.mem_bytes.mp hx')

/-- Places whose cells are apart have no byte in common. -/
theorem Layout.disjoint_of_apart {l l' : Layout} (hw : l.WellFormed) (hw' : l'.WellFormed)
    {offset offset' : Nat}
    (h : ∀ c ∈ l.cells rootSize f offset, ∀ c' ∈ l'.cells rootSize f offset', c.Apart c') :
    Disjoint (Span.bytes ⟨offset, l.size⟩) (Span.bytes ⟨offset', l'.size⟩) :=
  Finset.disjoint_left.mpr fun x hx hx' => by
    obtain ⟨hle, hlt⟩ := Span.mem_bytes.mp hx
    obtain ⟨hle', hlt'⟩ := Span.mem_bytes.mp hx'
    obtain ⟨c, hc, hcovers⟩ := exists_covers hw hle hlt
    obtain ⟨c', hc', hcovers'⟩ := exists_covers hw' hle' hlt'
    exact (h c hc c' hc').1 x hcovers hcovers'

end

namespace Store

variable {δ : Type} [Device δ] [LawfulDevice δ] {schema : Schema} {mark : Nat} {s : Store δ}

/-- Tracing an address of the path gives the offset of a part of that type. -/
def Traced (s : Store δ) (path : Path) (l : Layout) (offset : Nat) : Prop :=
  ∃ address s', s.schema.path address = .ok path ∧ s.schema.resolve path = .ok l ∧
    trace .forbidden address s = .ok offset s'

theorem Traced.placeAt_eq (hs : InOrder mark s) (hfit : s.session.Fits) {path : Path} {l : Layout}
    {offset : Nat} (h : s.Traced path l offset) :
    s.schema.rootLayout.placeAt s.schema.size s.session.file 0 path.steps = some (l, offset) := by
  obtain ⟨address, s', hpath, hlayout, htrace⟩ := h
  obtain ⟨path', l', hpath', hplace⟩ := placeAt_of_trace hs hfit htrace
  obtain rfl := Except.ok.inj (hpath.symm.trans hpath')
  obtain rfl := Except.ok.inj (hlayout.symm.trans (Schema.resolve_of_placeAt hplace))
  exact hplace

/-- Whatever calls have been made and failed: parts that tracing finds have no byte in common, unless
the path of one goes on from the path of the other; the links of the blocks that the root reaches have
no byte in common with a scalar that tracing finds; and no two of these links have one. -/
theorem disjoint_of_reached (hschema : schema.Compiled) (h : Reached schema mark s)
    (hfit : s.session.Fits) :
    (∀ path path' l l' offset offset', s.Traced path l offset → s.Traced path' l' offset' →
      Diverge path.steps path'.steps →
        Disjoint (Span.bytes ⟨offset, l.size⟩) (Span.bytes ⟨offset', l'.size⟩)) ∧
    (∀ path kind offset, s.Traced path (.scalar kind) offset →
      ∀ b ∈ linkSpans (schema.part.cells s.session.file),
        Disjoint b.bytes (Span.bytes ⟨offset, kind.width⟩)) ∧
    Exclusive (linkSpans (schema.part.cells s.session.file)) := by
  have hs := h.inOrder hschema hfit
  have hroot : 0 + schema.rootLayout.size ≤ s.session.file.size := by
    rw [← h.schema_eq]
    exact (Nat.le_of_eq (Nat.zero_add _)).trans hs.sound.root_le
  obtain rfl := h.schema_eq
  refine ⟨fun path path' l l' offset offset' hp hq hdiverge => ?_, fun path kind offset hp b hb => ?_,
    exclusive_linkSpans hs.sound.apart⟩
  · have hplace := hp.placeAt_eq hs hfit
    have hplace' := hq.placeAt_eq hs hfit
    have hw := (Layout.placeAt_le hs.wellFormed hroot hplace).1
    have hw' := (Layout.placeAt_le hs.wellFormed hroot hplace').1
    exact Layout.disjoint_of_apart hw hw'
      (Layout.apart_of_placeAt hs.sound hplace hplace' hdiverge)
  · have hplace := hp.placeAt_eq hs hfit
    have hmem := Layout.cells_of_placeAt hplace (.scalar kind offset) (List.mem_singleton_self _)
    exact hs.sound.disjoint_linkSpan hmem hb

theorem disjoint_of_reached_log :
    flakyLogWritten.Traced ⟨[0]⟩ (.scalar .uint8) 0 ∧
    flakyLogWritten.Traced ⟨[1, 3]⟩ (.scalar .uint8) 22 ∧
    Disjoint (Span.bytes ⟨0, 1⟩) (Span.bytes ⟨22, 1⟩) ∧
    linkSpans (Schema.log.part.cells flakyLogWritten.session.file) = [⟨3, 8⟩, ⟨23, 8⟩] ∧
    Disjoint (Span.bytes ⟨23, 8⟩) (Span.bytes ⟨22, 1⟩) ∧ Exclusive [⟨3, 8⟩, ⟨23, 8⟩] := by
  have htrace : WP (trace .forbidden (.path ⟨[0]⟩)) flakyLogWritten
      (fun offset _ => offset = 0) (fun _ _ => False) := by decide +kernel
  have htrace' : WP (trace .forbidden (.path ⟨[1, 3]⟩)) flakyLogWritten
      (fun offset _ => offset = 22) (fun _ _ => False) := by decide +kernel
  obtain ⟨_, s₁, hok, rfl⟩ := htrace.exists_ok fun _ _ _ h => h
  obtain ⟨_, s₂, hok', rfl⟩ := htrace'.exists_ok fun _ _ _ h => h
  have hschema : flakyLogWritten.schema = .log := reached_flakyLogWritten.schema_eq
  have hcount : flakyLogWritten.Traced ⟨[0]⟩ (.scalar .uint8) 0 :=
    ⟨.path ⟨[0]⟩, s₁, hschema ▸ rfl, hschema ▸ rfl, hok⟩
  have hitem : flakyLogWritten.Traced ⟨[1, 3]⟩ (.scalar .uint8) 22 :=
    ⟨.path ⟨[1, 3]⟩, s₂, hschema ▸ rfl, hschema ▸ rfl, hok'⟩
  have hlinks : linkSpans (Schema.log.part.cells flakyLogWritten.session.file) =
      [⟨3, 8⟩, ⟨23, 8⟩] := by decide +kernel
  obtain ⟨hparts, hscalars, hexclusive⟩ :=
    disjoint_of_reached Schema.log_compiled reached_flakyLogWritten (by decide +kernel)
  rw [hlinks] at hexclusive
  exact ⟨hcount, hitem, hparts _ _ _ _ _ _ hcount hitem (by decide), hlinks,
    hscalars _ _ _ hitem _ (by rw [hlinks]; decide), hexclusive⟩

end Store

end RecordFile
