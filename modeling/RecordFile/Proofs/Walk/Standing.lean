import RecordFile.Proofs.File.Chains
import RecordFile.Proofs.File.Extensions
import RecordFile.Proofs.Walk.Growth

/-!
# Walks along what is there

On a device that does not fail, a walk only reads as long as it finds what it is looking for, even if it
may make chains longer. So a walk along a path gets past the steps that lead to a place, and goes on from
there (`wp_traceFrom_append`); along a chain it gets to any of its blocks and goes on from there
(`Chain.wp_locateFrom_skip`).

Going on past a block is told to the byte: it finds the next one (`Chain.wp_followOrExtend_of_some`) or
makes the file longer by it (`Chain.wp_followOrExtend_of_none`, `File.grown`). So it does the same to
files that are alike (`Chain.wp_followOrExtend_alike`).
-/

namespace RecordFile

open Session

variable {δ : Type} [Device δ] [LawfulDevice δ] {rootSize : Nat} {s : Session δ}

/-- The files are the same, and so are the counts of extensions. -/
structure Session.Alike (s t : Session δ) : Prop where
  file_eq : t.file = s.file
  chainExtensions_eq : t.counters.chainExtensions = s.counters.chainExtensions

namespace Session.Alike

variable {t u : Session δ}

theorem trans (h : Alike s t) (h' : Alike t u) : Alike s u :=
  ⟨h'.file_eq.trans h.file_eq, h'.chainExtensions_eq.trans h.chainExtensions_eq⟩

theorem symm (h : Alike s t) : Alike t s := ⟨h.file_eq.symm, h.chainExtensions_eq.symm⟩

theorem fits (h : Alike s t) (hfit : s.Fits) : t.Fits := by
  unfold Fits
  rwa [h.file_eq]

end Session.Alike

theorem Session.Same.alike {s' : Session δ} (h : Same s s') : Alike s s' :=
  ⟨h.file_eq, h.chainExtensions_eq⟩

/-- The elements from a block of a sound array on are a hole in it. -/
theorem ArrayLayout.hole_chain {f : File} {a : ArrayLayout} {start block j : Nat}
    (hw : a.element.WellFormed)
    (hs : Sound rootSize f ((a.part rootSize start).cells f))
    (hblock : (f.chain rootSize a start)[j]? = some block) :
    ∃ ctx fill, (a.part rootSize start).Hole (a.part rootSize block) f ctx fill := by
  induction j generalizing start with
  | zero =>
    obtain rfl := Option.some.inj (File.getElem?_chain_zero.symm.trans hblock)
    exact ⟨[], id, fun g _ _ => ⟨.refl _, rfl⟩⟩
  | succ j ih =>
    cases hnext : f.next? rootSize a start with
    | none =>
      rw [File.chain_of_none hnext] at hblock
      cases hblock
    | some next =>
      rw [File.chain_of_some hnext] at hblock
      have hole := hole_next hw hs hnext
      obtain ⟨ctx, fill, hole'⟩ := ih (hole.sound hs) hblock
      exact ⟨_, _, hole.trans hole'⟩

namespace Chain

variable {a : ArrayLayout} {block start : Nat} {Q : Nat → Session δ → Prop}
  {E : Halt → Session δ → Prop}

/-- A link that may be followed is followed. -/
theorem wp_followOrExtend_of_some {next : Nat} (hinf : LawfulDevice.infallible δ)
    (own : a.WellFormed) (hfit : s.Fits) (hle : block + a.size ≤ s.file.size)
    (hnext : s.file.next? rootSize a block = some next) :
    WP (followOrExtend rootSize a block) s (fun found s' => Same s s' ∧ found = next) E := by
  obtain ⟨hext, hlink, hleads⟩ := File.next?_eq_some_iff.mp hnext
  have hin := a.linkOffset_le own hext hle
  rw [followOrExtend, WP.bind_iff]
  refine (wp_follow hext (linkOffset_lt hfit hin) hin).mono (fun found s' h => ?_)
    fun e s' h => ?_
  · obtain ⟨hsame, hfound, -⟩ := h
    rw [hnext] at hfound
    obtain ⟨found, rfl, rfl⟩ := Option.map_eq_some_iff.mp hfound
    exact ⟨hsame, rfl⟩
  · obtain ⟨-, hnot, -⟩ := h.2 hinf
    exact absurd (hlink ▸ hleads) hnot

/-- Where the link is zero, the file grows by a block. -/
theorem wp_followOrExtend_of_zero (hinf : LawfulDevice.infallible δ) (own : a.WellFormed)
    (hext : a.extent = .chained) (hlt : a.linkOffset block < wordLimit)
    (hle : a.linkOffset block + linkSize ≤ s.file.size) (hzero : s.file.link a block = 0) :
    WP (followOrExtend rootSize a block) s
      (fun next s' => next = s.file.size ∧ s'.file = s.file.grown a block ∧
        s'.counters.chainExtensions = s.counters.chainExtensions + 1) E := by
  rw [followOrExtend, WP.bind_iff]
  refine (wp_follow hext hlt hle).mono (fun found s₁ h => ?_) fun e s₁ h => ?_
  · obtain ⟨hsame, hfound, -⟩ := h
    rw [File.next?_of_zero hzero] at hfound
    obtain rfl := Option.map_eq_none_iff.mp hfound
    have hsame' := hsame.file_eq
    refine (wp_extend (own.size_pos hext) hlt (hsame' ▸ hle)).mono (fun next s' h => ?_)
      fun e s' h => ?_
    · rw [hsame', hsame.chainExtensions_eq] at h
      exact ⟨h.1, h.2.1, h.2.2.1⟩
    · obtain ⟨n, hn⟩ := h
      exact absurd hinf hn.failed
  · exact absurd hzero (h.2 hinf).1

/-- Where there is no next block, the file grows by one. -/
theorem wp_followOrExtend_of_none (hinf : LawfulDevice.infallible δ) (own : a.WellFormed)
    (hext : a.extent = .chained) (hfit : s.Fits)
    (hs : Sound rootSize s.file ((a.part rootSize block).cells s.file))
    (hle : block + a.size ≤ s.file.size) (hnext : s.file.next? rootSize a block = none) :
    WP (followOrExtend rootSize a block) s
      (fun next s' => next = s.file.size ∧ s'.file = s.file.grown a block ∧
        s'.counters.chainExtensions = s.counters.chainExtensions + 1) E := by
  have hlink := a.linkOffset_le own hext hle
  exact wp_followOrExtend_of_zero hinf own hext (linkOffset_lt hfit hlink) hlink
    ((hs.fits _ (ArrayLayout.link_mem hext)).link_eq_zero hext hnext)

/-- In sessions that are alike, going on past a block does the same. -/
theorem wp_followOrExtend_alike {t : Session δ} {E' : Halt → Session δ → Prop}
    (hinf : LawfulDevice.infallible δ) (own : a.WellFormed) (hext : a.extent = .chained)
    (hfit : s.Fits) (hs : Sound rootSize s.file ((a.part rootSize block).cells s.file))
    (hle : block + a.size ≤ s.file.size) (halike : Alike s t) :
    WP (followOrExtend rootSize a block) s (fun next s' => WP (followOrExtend rootSize a block) t
      (fun next' t' => next' = next ∧ Alike s' t') E') E := by
  have hfile := halike.file_eq
  have hfit' := halike.fits hfit
  cases hnext : s.file.next? rootSize a block with
  | some next =>
    refine (wp_followOrExtend_of_some hinf own hfit hle hnext).mono (fun found s' h => ?_)
      fun _ _ h => h
    obtain ⟨hsame, rfl⟩ := h
    rw [← hfile] at hnext hle
    refine (wp_followOrExtend_of_some hinf own hfit' hle hnext).mono (fun found' t' h' => ?_)
      fun _ _ h => h
    exact ⟨h'.2, hsame.alike.symm.trans (halike.trans h'.1.alike)⟩
  | none =>
    refine (wp_followOrExtend_of_none hinf own hext hfit hs hle hnext).mono (fun found s' h => ?_)
      fun _ _ h => h
    obtain ⟨rfl, hgrown, hcount⟩ := h
    rw [← hfile] at hnext hle hs hgrown
    refine (wp_followOrExtend_of_none hinf own hext hfit' hs hle hnext).mono
      (fun found' t' h' => ?_) fun _ _ h => h
    obtain ⟨rfl, hgrown', hcount'⟩ := h'
    exact ⟨by rw [hfile], hgrown'.trans hgrown.symm, by rw [hcount', hcount, halike.chainExtensions_eq]⟩

/-- Whether or not the chain may grow, the next block is found if it is there. -/
theorem wp_next_of_some {growth : Growth} {next : Nat} (hinf : LawfulDevice.infallible δ)
    (own : a.WellFormed) (hfit : s.Fits) (hle : block + a.size ≤ s.file.size)
    (hnext : s.file.next? rootSize a block = some next) {E : Halt → Session δ → Prop} :
    WP (Chain.next rootSize growth a block) s (fun found s' => Same s s' ∧ found = some next) E := by
  obtain ⟨hext, hlink, hleads⟩ := File.next?_eq_some_iff.mp hnext
  cases growth with
  | forbidden =>
    rw [Chain.next, WP.bind_iff]
    have hin := a.linkOffset_le own hext hle
    refine (wp_follow hext (linkOffset_lt hfit hin) hin).mono (fun found s' h => ?_)
      fun e s' h => ?_
    · exact ⟨h.1, h.2.1.trans hnext⟩
    · exact absurd (hlink ▸ hleads) (h.2 hinf).2.1
  | allowed =>
    rw [Chain.next, WP.bind_iff]
    exact (wp_followOrExtend_of_some hinf own hfit hle hnext).mono
      (fun found s' h => ⟨h.1, congrArg some h.2⟩) fun _ _ h => h

/-- A walk along a chain gets to each of its blocks. -/
theorem wp_locateFrom_skip {growth : Growth} (hinf : LawfulDevice.infallible δ) (own : a.WellFormed)
    {index remaining j allocated : Nat} (hfit : s.Fits) (hle : start + a.size ≤ s.file.size)
    (hblock : (s.file.chain rootSize a start)[j]? = some block)
    (h : ∀ s₁ allocated, Same s s₁ →
      WP (locateFrom rootSize growth a index block remaining allocated) s₁ Q E) :
    WP (locateFrom rootSize growth a index start (j * a.capacity + remaining) allocated) s Q E := by
  induction j generalizing s start allocated with
  | zero =>
    obtain rfl := Option.some.inj (File.getElem?_chain_zero.symm.trans hblock)
    rw [Nat.zero_mul, Nat.zero_add]
    exact h s allocated (.refl s)
  | succ j ih =>
    cases hnext : s.file.next? rootSize a start with
    | none =>
      rw [File.chain_of_none hnext] at hblock
      cases hblock
    | some next =>
      rw [File.chain_of_some hnext] at hblock
      have hcount : (j + 1) * a.capacity + remaining = j * a.capacity + remaining + a.capacity := by
        rw [Nat.add_mul, Nat.one_mul]
        omega
      rw [locateFrom, dif_pos (by omega), WP.bind_iff]
      refine (wp_next_of_some hinf own hfit hle hnext).mono (fun found s₁ h₁ => ?_) fun _ _ h => h
      obtain ⟨hsame, rfl⟩ := h₁
      have hleads := (File.next?_eq_some_iff.mp hnext).2.2
      rw [← hsame.file_eq] at hblock hleads
      show WP (locateFrom rootSize growth a index _ (_ - a.capacity) _) s₁ Q E
      rw [hcount, Nat.add_sub_cancel]
      exact ih (hsame.alike.fits hfit) hleads.2.2 hblock fun s₂ allocated h₂ =>
        h s₂ allocated (hsame.trans h₂)

/-- An element that is there is found. -/
theorem wp_locate_of_child {growth : Growth} (hinf : LawfulDevice.infallible δ) (own : a.WellFormed)
    (hfit : s.Fits) (hle : start + a.size ≤ s.file.size) {i : Nat} {p : Layout × Nat}
    (hchild : ((Layout.array a).children rootSize s.file start)[i]? = some p)
    (h : ∀ s₁, Same s s₁ → Q p.2 s₁) : WP (locate rootSize growth a start i) s Q E := by
  obtain ⟨block, hblock, rfl⟩ := Layout.children_array_eq_some hchild
  have hslot := Nat.mod_lt i a.capacity_pos
  have hlt := ArrayLayout.block_le hle block (List.mem_of_getElem? hblock)
  cases hext : a.extent with
  | fixed =>
    rw [File.chain_of_none (File.next?_of_fixed hext)] at hblock
    have hdiv : i / a.capacity = 0 := by
      have := (List.getElem?_eq_some_iff.mp hblock).1
      exact Nat.lt_one_iff.mp (List.length_singleton ▸ this)
    rw [hdiv] at hblock
    obtain rfl := Option.some.inj hblock
    have hi : i < a.capacity := (Nat.div_eq_zero_iff_lt a.capacity_pos).mp hdiv
    rw [locate_of_fixed own hext hi (Nat.lt_of_le_of_lt hle hfit)]
    rw [Nat.mod_eq_of_lt hi] at h
    exact h s (.refl s)
  | chained =>
    rw [locate, hext]
    show WP (locateFrom rootSize growth a i start i a.capacity) s Q E
    have hsplit : i / a.capacity * a.capacity + i % a.capacity = i := by
      rw [Nat.mul_comm]
      exact Nat.div_add_mod i a.capacity
    rw [← congrArg (locateFrom rootSize growth a i start · a.capacity) hsplit]
    refine wp_locateFrom_skip hinf own hfit hle hblock fun s₁ allocated hsame => ?_
    rw [locateFrom, dif_neg (Nat.not_le_of_lt hslot),
      a.slotOffset?_eq own hslot (Nat.lt_of_le_of_lt hlt hfit)]
    exact h s₁ hsame

/-- The element behind a block is looked for behind it. -/
theorem wp_locate_behind (hinf : LawfulDevice.infallible δ) (own : a.WellFormed)
    (hext : a.extent = .chained) (hfit : s.Fits) (hle : start + a.size ≤ s.file.size) {j : Nat}
    (hblock : (s.file.chain rootSize a start)[j]? = some block)
    (h : ∀ s₁, Same s s₁ → WP (followOrExtend rootSize a block) s₁
      (fun next s' => next + a.size < wordLimit ∧ Q next s') E) :
    WP (locate rootSize .allowed a start ((j + 1) * a.capacity)) s Q E := by
  rw [locate, hext]
  show WP (locateFrom rootSize .allowed a ((j + 1) * a.capacity) start ((j + 1) * a.capacity)
    a.capacity) s Q E
  have hsplit : j * a.capacity + a.capacity = (j + 1) * a.capacity := by
    rw [Nat.add_mul, Nat.one_mul]
  rw [← congrArg (locateFrom rootSize .allowed a ((j + 1) * a.capacity) start · a.capacity) hsplit]
  refine wp_locateFrom_skip hinf own hfit hle hblock fun s₁ allocated hsame => ?_
  rw [locateFrom, dif_pos (Nat.le_refl _), WP.bind_iff, Chain.next, WP.bind_iff]
  refine (h s₁ hsame).mono (fun next s' hnext => ?_) fun _ _ h => h
  show WP (locateFrom rootSize .allowed a _ next (a.capacity - a.capacity) _) s' Q E
  rw [Nat.sub_self, locateFrom, dif_neg (Nat.not_le_of_lt a.capacity_pos),
    a.slotOffset?_eq own a.capacity_pos hnext.1, Nat.zero_mul]
  exact hnext.2

end Chain

/-- A walk along a path gets to a place and goes on from there. -/
theorem wp_traceFrom_append {growth : Growth} (hinf : LawfulDevice.infallible δ) {path : Path}
    {position : Nat} {l : Layout} {offset : Nat} {steps rest : List UInt64} {p : Layout × Nat}
    {Q : Nat → Session δ → Prop} {E : Halt → Session δ → Prop} (hw : l.WellFormed) (hfit : s.Fits)
    (hle : offset + l.size ≤ s.file.size)
    (hplace : l.placeAt rootSize s.file offset steps = some p)
    (h : ∀ s₁, Same s s₁ → WP (traceFrom rootSize growth path (position + steps.length) p.1 p.2 rest)
      s₁ Q E) : WP (traceFrom rootSize growth path position l offset (steps ++ rest)) s Q E := by
  induction steps generalizing s position l offset with
  | nil =>
    obtain rfl := Option.some.inj hplace
    exact h s (.refl s)
  | cons step steps ih =>
    obtain ⟨child, hchild, hplace⟩ := Layout.placeAt_cons_eq_some.mp hplace
    have hmem := List.mem_of_getElem? hchild
    have hwf := Layout.children_wellFormed hw child hmem
    have hin := Layout.children_le hw hle child hmem
    have hbelow : ∀ s₁, Same s s₁ → WP (traceFrom rootSize growth path (position + 1) child.1
        child.2 (steps ++ rest)) s₁ Q E := fun s₁ hsame => by
      rw [← hsame.file_eq] at hplace hin
      refine ih hwf (hsame.alike.fits hfit) hin hplace fun s₂ h₂ => ?_
      have := h s₂ (hsame.trans h₂)
      rwa [List.length_cons, Nat.add_comm steps.length, ← Nat.add_assoc] at this
    rw [List.cons_append]
    cases l with
    | scalar kind => cases hchild
    | record r =>
      simp only [Layout.children, RecordLayout.places, List.getElem?_map,
        Option.map_eq_some_iff] at hchild
      obtain ⟨field, hfield, rfl⟩ := hchild
      have hlt := Nat.lt_of_le_of_lt hle hfit
      simp only [traceFrom, hfield,
        hw.of_record.fieldOffset_eq hlt (List.mem_of_getElem? hfield), orAbort_some_bind]
      exact hbelow s (.refl s)
    | array a =>
      have hlayout := Layout.layout_of_mem_children hmem
      rw [traceFrom, WP.bind_iff]
      exact Chain.wp_locate_of_child hinf hw.of_array.1 hfit hle hchild
        fun s₁ hsame => hlayout ▸ hbelow s₁ hsame

end RecordFile
