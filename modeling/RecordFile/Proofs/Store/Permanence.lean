import RecordFile.Proofs.Store.Reached

/-!
# What stays as calls go on

As long as no `Store.init` succeeds, links that have been set stay, the file does not shrink, and
what a path leads to stays where it is, whichever calls of the device fail on the way
(`Store.later_keeps`).

Tracing finds in a store that is in order just what `Layout.placeAt` says (`Store.placeAt_of_trace`,
`Store.trace_of_placeAt`), and a place stays as links do (`LinksKept.placeAt_eq`).
-/

namespace RecordFile

open Session

namespace Store

variable {δ : Type} [Device δ] [LawfulDevice δ] {schema : Schema} {mark : Nat} {s s' : Store δ}
  {address : Address} {offset : Nat}

/-- Where tracing succeeds, the path leads to the offset that it gives. -/
theorem placeAt_of_trace (hs : InOrder mark s) (hfit : s.session.Fits)
    (h : trace .forbidden address s = .ok offset s') :
    ∃ path layout, s.schema.path address = .ok path ∧
      s.schema.rootLayout.placeAt s.schema.size s.session.file 0 path.steps =
        some (layout, offset) := by
  have htrace : WP (trace .forbidden address) s
      (fun offset _ => ∃ path layout, s.schema.path address = .ok path ∧
        s.schema.rootLayout.placeAt s.schema.size s.session.file 0 path.steps =
          some (layout, offset))
      fun _ _ => True := by
    rw [trace, wp_onSession_iff]
    cases s.schema.path address with
    | error e => trivial
    | ok path =>
      rw [ofExcept_ok_bind]
      exact (reads_tracePath hs.wellFormed hfit hs.sound.root_le path s.session (.refl _)).mono
        (fun _ _ h => ⟨path, h.2.choose, rfl, h.2.choose_spec⟩) fun _ _ _ => trivial
  exact htrace.ok h

/-- Where the path leads somewhere, tracing gives the offset, on a device that does not fail. -/
theorem trace_of_placeAt (hs : InOrder mark s) (hinf : LawfulDevice.infallible δ)
    (hfit : s.session.Fits) {path : Path} {layout : Layout}
    (hpath : s.schema.path address = .ok path)
    (hplace : s.schema.rootLayout.placeAt s.schema.size s.session.file 0 path.steps =
      some (layout, offset)) :
    ∃ s', trace .forbidden address s = .ok offset s' := by
  have htrace : WP (trace .forbidden address) s (fun offset' _ => offset' = offset)
      fun _ _ => False := by
    rw [trace, wp_onSession_iff, hpath, ofExcept_ok_bind]
    refine (reads_tracePath hs.wellFormed hfit hs.sound.root_le path s.session (.refl _)).mono
      (fun _ _ h => ?_) fun _ _ h => ?_
    · obtain ⟨-, layout', hplace'⟩ := h
      exact (Prod.mk.inj (Option.some.inj (hplace'.symm.trans hplace))).2
    · rcases h.2 hinf with hdamaged | ⟨hnone, -⟩
      · exact hs.sound.not_damaged hdamaged
      · rw [hplace] at hnone
        cases hnone
  obtain ⟨_, s', hok, rfl⟩ := htrace.exists_ok fun _ _ _ h => h
  exact ⟨s', hok⟩

/-- As long as no `Store.init` succeeds, links of reachable blocks that are not zero stay, the file
does not shrink, and what has been traced once is at the same offset for good: tracing on the later
file gives it, and tracing on the later device gives it or fails. -/
theorem later_keeps (hschema : schema.Compiled) (h : Reached schema mark s) (hl : Later s s')
    (hfit : s'.session.Fits) :
    (∀ a block next, .link a block next ∈ schema.part.cells s.session.file → next ≠ 0 →
      .link a block next ∈ schema.part.cells s'.session.file ∧
        s'.session.file.link a block = next) ∧
    s.session.file.size ≤ s'.session.file.size ∧
    ∀ address offset s₁, trace .forbidden address s = .ok offset s₁ →
      (∃ s₂, trace .forbidden address s'.onFile = .ok offset s₂) ∧
        ∀ offset' s₂, trace .forbidden address s' = .ok offset' s₂ → offset' = offset := by
  have hs := h.inOrder hschema (hl.fits hfit)
  have hs' := hl.inOrder hs hfit
  have hp := (hl.progress hs hfit).evolves
  obtain rfl := h.schema_eq
  refine ⟨fun a block next hmem hne => ?_, hp.size_le, fun address offset s₁ htrace => ?_⟩
  · obtain ⟨next', hmem', hnext⟩ := hp.kept _ hmem
    obtain rfl := hnext hne
    exact ⟨hmem', hp.linksKept.link_eq a block _ hmem hne⟩
  · obtain ⟨path, layout, hpath, hplace⟩ := placeAt_of_trace hs (hl.fits hfit) htrace
    have hplace' := hp.linksKept.placeAt_eq hplace
    have hsame := hl.schema_eq
    rw [← hsame] at hpath hplace'
    refine ⟨?_, fun offset' s₂ htrace' => ?_⟩
    · exact trace_of_placeAt hs'.onFile trivial hfit hpath hplace'
    · obtain ⟨path', layout', hpath', hfound⟩ := placeAt_of_trace hs' hfit htrace'
      obtain rfl := Except.ok.inj (hpath'.symm.trans hpath)
      exact (Prod.mk.inj (Option.some.inj (hfound.symm.trans hplace'))).2

/-- Another element is written, behind blocks that are not there yet. -/
def flakyLogLater : Store FlakyFile :=
  (Request.set (.path ⟨[1, 9]⟩) (.uint 5)).after flakyLogWritten

theorem later_keeps_log : flakyLogLater.session.file.link .bytePairs 1 = 21 ∧
    ∃ s, trace .forbidden (.path ⟨[1, 3]⟩) flakyLogLater.onFile = .ok 22 s := by
  obtain ⟨hlinks, -, htraces⟩ := later_keeps Schema.log_compiled reached_flakyLogWritten
    ((Later.refl _).request (.set (.path ⟨[1, 9]⟩) (.uint 5))) (by decide +kernel)
  have hlink : flakyLogWritten.session.file.link .bytePairs 1 = 21 := by decide +kernel
  have hmem : Cell.link .bytePairs 1 21 ∈ Schema.log.part.cells flakyLogWritten.session.file := by
    have hchild : (Layout.array .bytePairs, 1) ∈ Schema.log.rootLayout.children Schema.log.size
        flakyLogWritten.session.file 0 := List.mem_cons_of_mem _ (List.mem_singleton_self _)
    exact hlink ▸ Layout.cells_of_mem_children hchild _ (ArrayLayout.link_mem rfl)
  have htrace : WP (trace .forbidden (.path ⟨[1, 3]⟩)) flakyLogWritten
      (fun offset _ => offset = 22) (fun _ _ => False) := by decide +kernel
  obtain ⟨_, s₁, hok, rfl⟩ := htrace.exists_ok fun _ _ _ h => h
  exact ⟨(hlinks _ _ _ hmem (by decide)).2, (htraces _ _ _ hok).1⟩

end Store

end RecordFile
