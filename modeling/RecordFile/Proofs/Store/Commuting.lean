import RecordFile.Proofs.Commuting
import RecordFile.Proofs.Store.Mirrors
import RecordFile.Proofs.Store.Refinement

/-!
# Writes in any order

On a device that does not fail, planned writes to parts of which none is inside another may be made in
any order: they succeed, the root has the same value afterwards, and there are as many blocks and as
many bytes in the file (`Store.perform_perm`), though the blocks may lie elsewhere.

Made one after the other, planned writes update the value of the root one after the other
(`Store.perform_sets`), and updates at such places commute. The value tells which blocks there are.
-/

namespace RecordFile

open Session

/-- What a write does to the value of the root. -/
def Schema.change (schema : Schema) (w : Address × Value) : List UInt64 × (Value → Value) :=
  match schema.plan w.1 w.2 with
  | .ok (path, layout, _) => (path.steps, layout.overlay w.2)
  | .error _ => ([], id)

/-- The requests that make the writes. -/
def sets (writes : List (Address × Value)) : List Request := writes.map fun w => .set w.1 w.2

namespace Store

variable {δ : Type} [Device δ] [LawfulDevice δ] {schema : Schema} {mark : Nat} {s : Store δ}
  {writes writes' : List (Address × Value)}

/-- Planned writes succeed one after the other, and each updates the value of the root. -/
theorem perform_sets (hs : InOrder mark s) (hinf : LawfulDevice.infallible δ)
    (hplanned : ∀ w ∈ writes, ∃ plan, s.schema.plan w.1 w.2 = .ok plan)
    (hfit : (endState (perform (sets writes)) s).session.Fits) :
    ∃ t, perform (sets writes) s = .ok () t ∧ s.schema.part.value t.session.file =
      (writes.map s.schema.change).foldl (fun v c => s.schema.rootLayout.update c.2 c.1 v)
        (s.schema.part.value s.session.file) := by
  induction writes generalizing s with
  | nil => exact ⟨s, rfl, rfl⟩
  | cons w rest ih =>
    obtain ⟨⟨⟨path, layout, image⟩, hplan⟩, hrest⟩ := List.forall_mem_cons.mp hplanned
    have hcons : perform (δ := δ) (sets (w :: rest)) =
        set w.1 w.2 >>= fun _ => perform (sets rest) := rfl
    have hfit₁ : (endState (set w.1 w.2) s).session.Fits := by
      rw [hcons] at hfit
      rcases endState_bind (s := s) (set w.1 w.2) fun _ => perform (δ := δ) (sets rest) with
        hend | ⟨_, hend⟩
      · rwa [hend] at hfit
      · rw [hend] at hfit
        exact ((Later.refl _).perform (sets rest)).fits hfit
    obtain ⟨s₁, hset, hschema, hvalue⟩ := wp_set hs hinf hplan hfit₁
    have hend : endState (set w.1 w.2) s = s₁ := endState_ok hset
    have hs₁ : InOrder mark s₁ :=
      hend ▸ ((Later.refl s).request (.set w.1 w.2)).inOrder hs hfit₁
    have hdone : perform (sets (w :: rest)) s = perform (sets rest) s₁ := perform_cons hset
    rw [endState, hdone] at hfit
    rw [← hschema] at hrest
    obtain ⟨t, hok, htree⟩ := ih hs₁ hrest hfit
    refine ⟨t, hdone.trans hok, ?_⟩
    rw [hschema, hvalue] at htree
    rw [htree, List.map_cons, List.foldl_cons, Schema.change, hplan]

/-- What is the same after stores that came from one of them, if the values of their roots are. -/
theorem same_growth {s t t' : Store δ} (hs : InOrder mark s) (hinf : LawfulDevice.infallible δ)
    (hl : Later s t) (hl' : Later s t') (hfit : t.session.Fits) (hfit' : t'.session.Fits)
    (hvalue : s.schema.part.value t.session.file = s.schema.part.value t'.session.file) :
    t'.session.counters.chainExtensions = t.session.counters.chainExtensions ∧
      t'.session.file.size = t.session.file.size := by
  have ht := hl.inOrder hs hfit
  have ht' := hl'.inOrder hs hfit'
  have hgrowth := (hl.progress hs hfit).growth hinf
  have hgrowth' := (hl'.progress hs hfit').growth hinf
  have hblocks := ht.accounts.blocks_eq
  have hblocks' := ht'.accounts.blocks_eq
  have hfits := ht.sound.fits
  have hfits' := ht'.sound.fits
  rw [hl.schema_eq] at hblocks hfits
  rw [hl'.schema_eq] at hblocks' hfits'
  have hsizes := hs.wellFormed.regular 0 0 hfits hfits' hvalue
  have hcount := hsizes.length_eq
  have hbytes := hsizes.sum_eq
  rw [length_linkedSizes, length_linkedSizes] at hcount
  rw [sum_linkedSizes, sum_linkedSizes] at hbytes
  change linkedBlocks (s.schema.part.cells t.session.file) =
    linkedBlocks (s.schema.part.cells t'.session.file) at hcount
  change linkedBytes (s.schema.part.cells t.session.file) =
    linkedBytes (s.schema.part.cells t'.session.file) at hbytes
  exact ⟨by omega, by omega⟩

/-- On a device that does not fail, planned writes to parts of which none is inside another may be made
in any order: they all succeed, and give the same root, the same count of extensions and a file of the
same size. -/
theorem perform_perm (hschema : schema.Compiled) (h : Reached schema mark s)
    (hinf : LawfulDevice.infallible δ) (hperm : writes.Perm writes')
    (hplanned : ∀ w ∈ writes, ∃ plan, schema.plan w.1 w.2 = .ok plan)
    (hdiverge : writes.Pairwise fun w w' => ∀ path path', schema.path w.1 = .ok path →
      schema.path w'.1 = .ok path' → Diverge path.steps path'.steps)
    (hfit : (endState (perform (sets writes)) s).session.Fits)
    (hfit' : (endState (perform (sets writes')) s).session.Fits) :
    ∃ t t' root u u', perform (sets writes) s = .ok () t ∧ perform (sets writes') s = .ok () t' ∧
      get (.dotted "") t = .ok root u ∧ get (.dotted "") t' = .ok root u' ∧
      t'.session.counters.chainExtensions = t.session.counters.chainExtensions ∧
      t'.session.file.size = t.session.file.size := by
  have hl : Later s (endState (perform (sets writes)) s) := (Later.refl s).perform _
  have hl' : Later s (endState (perform (sets writes')) s) := (Later.refl s).perform _
  have hs := h.inOrder hschema (hl.fits hfit)
  obtain rfl := h.schema_eq
  have hplanned' : ∀ w ∈ writes', ∃ plan, s.schema.plan w.1 w.2 = .ok plan :=
    fun w hw => hplanned w (hperm.mem_iff.mpr hw)
  obtain ⟨t, hok, htree⟩ := perform_sets hs hinf hplanned hfit
  obtain ⟨t', hok', htree'⟩ := perform_sets hs hinf hplanned' hfit'
  rw [endState_ok hok] at hl hfit
  rw [endState_ok hok'] at hl' hfit'
  have happart : (writes.map s.schema.change).Pairwise fun c c' => Diverge c.1 c'.1 := by
    refine List.pairwise_map.mpr (hdiverge.imp_of_mem fun {w w'} hw hw' hpaths => ?_)
    obtain ⟨⟨path, layout, image⟩, hplan⟩ := hplanned w hw
    obtain ⟨⟨path', layout', image'⟩, hplan'⟩ := hplanned w' hw'
    rw [Schema.change, Schema.change, hplan, hplan']
    exact hpaths path path' (Schema.plan_eq_ok hplan).1 (Schema.plan_eq_ok hplan').1
  have hvalue : s.schema.part.value t.session.file = s.schema.part.value t'.session.file := by
    rw [htree, htree']
    exact Layout.foldl_update_perm (hperm.map _) happart _
  obtain ⟨u, hget, -⟩ := get_root (hl.inOrder hs hfit) hinf hfit
  obtain ⟨u', hget', -⟩ := get_root (hl'.inOrder hs hfit') hinf hfit'
  rw [hl.schema_eq] at hget
  rw [hl'.schema_eq, ← hvalue] at hget'
  exact ⟨t, t', _, u, u', hok, hok', hget, hget', same_growth hs hinf hl hl' hfit hfit' hvalue⟩

theorem perform_perm_log : ∃ t t' root u u',
    perform [.set (.path ⟨[1, 3]⟩) (.uint 7), .set (.path ⟨[1, 5]⟩) (.uint 6)] emptyLog = .ok () t ∧
    perform [.set (.path ⟨[1, 5]⟩) (.uint 6), .set (.path ⟨[1, 3]⟩) (.uint 7)] emptyLog = .ok () t' ∧
    get (.dotted "") t = .ok root u ∧ get (.dotted "") t' = .ok root u' ∧
    t'.session.counters.chainExtensions = t.session.counters.chainExtensions ∧
    t'.session.file.size = t.session.file.size := by
  have hplanned : ∀ w ∈ [(Address.path ⟨[1, 3]⟩, Value.uint 7), (.path ⟨[1, 5]⟩, .uint 6)],
      ∃ plan, Schema.log.plan w.1 w.2 = .ok plan := by
    simp only [List.forall_mem_cons]
    exact ⟨⟨_, rfl⟩, ⟨_, rfl⟩, nofun⟩
  have hdiverge : [(Address.path ⟨[1, 3]⟩, Value.uint 7), (.path ⟨[1, 5]⟩, .uint 6)].Pairwise
      fun w w' => ∀ path path', Schema.log.path w.1 = .ok path → Schema.log.path w'.1 = .ok path' →
        Diverge path.steps path'.steps := by
    refine List.pairwise_pair.mpr fun path path' hpath hpath' => ?_
    obtain rfl : ⟨[1, 3]⟩ = path := Except.ok.inj hpath
    obtain rfl : ⟨[1, 5]⟩ = path' := Except.ok.inj hpath'
    decide
  exact perform_perm Schema.log_compiled reached_emptyLog trivial (.swap _ _ _) hplanned hdiverge
    (by decide +kernel) (by decide +kernel)

end Store

end RecordFile
