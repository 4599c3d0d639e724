import RecordFile.Proofs.Walk.Standing

/-!
# Walks over blank places

From a place where all bytes are zero, a walk that may make chains longer finds no link to follow:
every block that it needs is appended, and no link can be broken. What it appends is told to the
block (`Chain.wp_locateFrom_unlinked`, `wp_traceFrom_blank`), and the only way to halt is to break
off once the file is longer than offsets can tell.
-/

namespace RecordFile

open Session

variable {δ : Type} [Device δ] [LawfulDevice δ] {rootSize : Nat} {s : Session δ}

/-- The file has grown by some extensions, which are counted, and of the bytes that it had, none has
changed outside of a range. -/
structure Session.Extended (es : List Extension) (start length : Nat) (s s' : Session δ) :
    Prop where
  file : s.file.Extends es s'.file
  chainExtensions_eq : s'.counters.chainExtensions = s.counters.chainExtensions + es.length
  linked : s'.Fits → Extension.Linked s'.file s.file.size es
  frame : ∀ x < s.file.size, ¬ (start ≤ x ∧ x < start + length) → s'.file.byte? x = s.file.byte? x

namespace Session.Extended

variable {s' s'' : Session δ} {es es' : List Extension} {start start' length length' : Nat}

theorem refl (s : Session δ) (start length : Nat) : Extended [] start length s s :=
  ⟨.refl _, rfl, fun _ => trivial, fun _ _ _ => rfl⟩

theorem fits (h : Extended es start length s s') (hfit : s'.Fits) : s.Fits := by
  have := h.file.size_eq
  unfold Fits at *
  omega

theorem of_alike {t : Session δ} (halike : Alike s t) (h : Extended es start length t s') :
    Extended es start length s s' := by
  obtain ⟨hfile, hcount⟩ := halike
  exact ⟨hfile ▸ h.file, hcount ▸ h.chainExtensions_eq, hfile ▸ h.linked, hfile ▸ h.frame⟩

/-- Nothing changes outside of a wider range. -/
theorem widen (h : Extended es start length s s')
    (hrange : start' ≤ start ∧ start + length ≤ start' + length') :
    Extended es start' length' s s' where
  file := h.file
  chainExtensions_eq := h.chainExtensions_eq
  linked := h.linked
  frame x hx hout := h.frame x hx (by omega)

/-- Extensions that set no link of those before. -/
theorem trans (h : Extended es start length s s') (h' : Extended es' start' length' s' s'')
    (hlinks : ∀ e ∈ es, ∀ x, e.Covers x → ¬ (start' ≤ x ∧ x < start' + length'))
    (hrange : start ≤ start' ∧ start' + length' ≤ start + length ∨ s.file.size ≤ start') :
    Extended (es ++ es') start length s s'' where
  file := h.file.trans h'.file
  chainExtensions_eq := by
    rw [h'.chainExtensions_eq, h.chainExtensions_eq, List.length_append, Nat.add_assoc]
  linked hfit := by
    refine .append ((h.linked (h'.fits hfit)).congr fun e he x hx => ?_) ?_
    · exact h'.frame x (h.file.lt_size he hx) (hlinks e he x hx)
    · rw [← h.file.size_eq]
      exact h'.linked hfit
  frame x hx hout := by
    have hsize := h.file.size_eq
    exact (h'.frame x (by omega) (by omega)).trans (h.frame x hx hout)

/-- One block more. -/
theorem of_grown {a : ArrayLayout} {block : Nat} (hle : a.linkOffset block + linkSize ≤ s.file.size)
    (hzero : s.file.link a block = 0) (hfile : s'.file = s.file.grown a block)
    (hcount : s'.counters.chainExtensions = s.counters.chainExtensions + 1) :
    Extended [⟨a, block⟩] (a.linkOffset block) linkSize s s' where
  file := .step hle hzero (hfile ▸ .refl _)
  chainExtensions_eq := hcount
  linked hfit := by
    have hsize := File.size_grown hle
    rw [← hfile] at hsize
    refine ⟨?_, trivial⟩
    rw [hfile]
    exact File.link_grown hle (by unfold Fits at hfit; omega)
  frame x hx hout := by
    rw [hfile]
    exact File.byte?_grown_of_lt hle hx hout

end Session.Extended

/-- The run breaks off, as the file has become longer than offsets can tell, by no more than some
extensions. -/
structure Session.Overflows (es : List Extension) (s : Session δ) (e : Halt) (s' : Session δ) :
    Prop where
  eq_abort : e = .abort
  not_fits : ¬ s'.Fits
  size_le : s'.file.size ≤ s.file.size + Extension.bytes es

namespace Session.Overflows

variable {s' s'' : Session δ} {es es' : List Extension} {e : Halt}

theorem of_alike {t : Session δ} (halike : Alike s t) (h : Overflows es t e s') :
    Overflows es s e s' :=
  ⟨h.eq_abort, h.not_fits, halike.file_eq ▸ h.size_le⟩

theorem append (h : Overflows es s e s') (es' : List Extension) : Overflows (es ++ es') s e s' :=
  ⟨h.eq_abort, h.not_fits, by
    have := h.size_le
    rw [Extension.bytes_append]
    omega⟩

theorem after {start length : Nat} (h : Extended es start length s s')
    (h' : Overflows es' s' e s'') : Overflows (es ++ es') s e s'' :=
  ⟨h'.eq_abort, h'.not_fits, by
    have := h'.size_le
    rw [h.file.size_eq] at this
    rw [Extension.bytes_append]
    omega⟩

end Session.Overflows

/-- An array has been made longer by `count` blocks behind the one at `block`, and the element in
the slot `slot` of its last block is at `offset` and blank. -/
structure Session.Reserved (a : ArrayLayout) (block count slot start length : Nat) (s : Session δ)
    (offset : Nat) (s' : Session δ) : Prop where
  extended : Extended (a.extensions block s.file.size count) start length s s'
  offset_eq : offset = a.lastBlock block s.file.size count + slot * a.element.size
  inside : offset + a.element.size ≤ s'.file.size
  /-- The links that have been set lie before the element. -/
  behind : ∀ e ∈ a.extensions block s.file.size count, ∀ x, e.Covers x → x < offset
  blank : s'.file.Blank offset a.element.size

namespace Session.Reserved

variable {s' s'' : Session δ} {a : ArrayLayout}
  {block count slot start start' length length' offset : Nat}

theorem of_alike {t : Session δ} (halike : Alike s t)
    (h : Reserved a block count slot start length t offset s') :
    Reserved a block count slot start length s offset s' := by
  obtain ⟨hextended, hoffset, hinside, hbehind, hblank⟩ := h
  rw [halike.file_eq] at hextended hoffset hbehind
  exact ⟨hextended.of_alike halike, hoffset, hinside, hbehind, hblank⟩

theorem widen (h : Reserved a block count slot start length s offset s')
    (hrange : start' ≤ start ∧ start + length ≤ start' + length') :
    Reserved a block count slot start' length' s offset s' :=
  ⟨h.extended.widen hrange, h.offset_eq, h.inside, h.behind, h.blank⟩

theorem size_eq (h : Reserved a block count slot start length s offset s') :
    s'.file.size = s.file.size + count * a.size := by
  rw [h.extended.file.size_eq, ArrayLayout.bytes_extensions]

/-- The extensions that make room for what some steps lead to below the element. -/
theorem extensions_eq (h : Reserved a block count slot start length s offset s')
    (below : List UInt64) : a.extensions block s.file.size count ++
        a.element.extensions (a.lastBlock block s.file.size count + slot * a.element.size)
          (s.file.size + count * a.size) below =
      a.extensions block s.file.size count ++
        a.element.extensions offset s'.file.size below := by
  rw [h.offset_eq, h.size_eq]

/-- Below the element, the file grows on. -/
theorem trans {es : List Extension} (h : Reserved a block count slot start length s offset s')
    (h' : Extended es offset a.element.size s' s'')
    (hrange : start ≤ offset ∧ offset + a.element.size ≤ start + length ∨ s.file.size ≤ offset) :
    Extended (a.extensions block s.file.size count ++ es) start length s s'' :=
  h.extended.trans h' (fun e he x hx hin => Nat.not_lt_of_le hin.1 (h.behind e he x hx)) hrange

/-- One block is appended, and behind it `count` blocks more. -/
theorem succ {t : Session δ} (hlink : a.linkOffset block + linkSize ≤ s.file.size)
    (hfirst : Extended [⟨a, block⟩] (a.linkOffset block) linkSize s t)
    (h : Reserved a s.file.size count slot (a.linkOffset s.file.size) linkSize t offset s') :
    Reserved a block (count + 1) slot (a.linkOffset block) linkSize s offset s' := by
  obtain ⟨hrest, hoffset, hinside, hbehind, hblank⟩ := h
  have hsize : t.file.size = s.file.size + a.size := hfirst.file.size_eq
  rw [hsize] at hrest hoffset hbehind
  -- The link of the block lies before the new block and all that follow it.
  have hbefore : ∀ x, Extension.Covers ⟨a, block⟩ x → x < s.file.size := fun x hx =>
    Nat.lt_of_lt_of_le hx.2 hlink
  have hstart : s.file.size ≤ a.linkOffset s.file.size := Nat.le_add_right ..
  refine ⟨hfirst.trans hrest ?_ (.inr hstart), hoffset, hinside, ?_, hblank⟩
  · intro e he x hx hin
    obtain rfl := List.mem_singleton.mp he
    exact absurd (hbefore x hx) (by omega)
  · refine List.forall_mem_cons.mpr ⟨fun x hx => ?_, hbehind⟩
    have hlast := a.lastBlock_cases s.file.size (s.file.size + a.size) count
    have := hbefore x hx
    omega

end Session.Reserved

namespace Chain

variable {a : ArrayLayout} {block : Nat}

/-- The offset of a slot of a block, the element in which is blank. -/
theorem wp_slotOffset_blank (own : a.WellFormed) {slot : Nat} (hlt : slot < a.capacity)
    (hblank : s.file.Blank block a.size) (hle : block + a.size ≤ s.file.size)
    (start length : Nat) :
    WP (orAbort (a.slotOffset? block slot)) s (Reserved a block 0 slot start length s)
      (Overflows [] s) := by
  have hslots := own.slotsSize_le
  have hslot := a.slot_le hlt
  rcases a.slotOffset?_cases hlt block with hsome | ⟨hnone, hlimit⟩
  · rw [hsome]
    refine ⟨.refl s _ _, rfl, by omega, fun _ he => absurd he List.not_mem_nil, ?_⟩
    exact hblank.sub (Nat.le_add_right ..) (by omega)
  · rw [hnone]
    exact ⟨rfl, not_fits (by omega) hlimit, Nat.le_add_right ..⟩

/-- Where the link of a block is zero, a walk along the chain appends all blocks behind it. The
element that it gets to is blank, unless it is one of a block that is not. -/
theorem wp_locateFrom_unlinked (hinf : LawfulDevice.infallible δ) (own : a.WellFormed)
    (hext : a.extent = .chained) (hle : block + a.size ≤ s.file.size)
    (hzero : s.file.link a block = 0) (index : Nat) {remaining : Nat}
    (hblank : a.capacity ≤ remaining ∨ s.file.Blank block a.size) (allocated : Nat) :
    WP (locateFrom rootSize .allowed a index block remaining allocated) s
      (Reserved a block (remaining / a.capacity) (remaining % a.capacity) (a.linkOffset block)
        linkSize s)
      (Overflows (a.extensions block s.file.size (remaining / a.capacity)) s) := by
  induction remaining using Nat.strongRecOn generalizing s block allocated with
  | ind remaining ih =>
    have hpos := a.capacity_pos
    have hlink := a.linkOffset_le own hext hle
    have hslots := own.size_of_chained hext
    rw [locateFrom]
    split
    · rename_i hcap
      have hcount : remaining / a.capacity = (remaining - a.capacity) / a.capacity + 1 :=
        Nat.div_eq_sub_div hpos hcap
      rw [hcount, Nat.mod_eq_sub_mod hcap, WP.bind_iff, Chain.next, WP.bind_iff]
      rcases Nat.lt_or_ge (a.linkOffset block) wordLimit with hlt | hlimit
      swap
      · unfold WP
        rw [followOrExtend_of_le hlimit]
        exact ⟨rfl, not_fits (Nat.le_trans (Nat.le_add_right ..) hlink) hlimit, Nat.le_add_right ..⟩
      refine (wp_followOrExtend_of_zero hinf own hext hlt hlink hzero).mono (fun next s₁ h => ?_)
        fun _ _ h => h
      obtain ⟨rfl, hgrown, hextensions⟩ := h
      have hfirst := Extended.of_grown hlink hzero hgrown hextensions
      have hsize := File.size_grown hlink
      have hblank₁ := File.blank_grown hlink
      rw [← hgrown] at hsize hblank₁
      have hzero₁ : s₁.file.link a s.file.size = 0 :=
        (hblank₁.sub (Nat.le_add_right ..) (by omega)).number_eq
      refine (ih (remaining - a.capacity) (by omega) (Nat.le_of_eq hsize.symm) hzero₁ (.inr hblank₁)
        _).mono (fun offset s' h => h.succ hlink hfirst) fun e s' h => ?_
      rw [hsize] at h
      exact h.after hfirst
    · rename_i hcap
      have hlt := Nat.lt_of_not_le hcap
      rw [Nat.div_eq_of_lt hlt, Nat.mod_eq_of_lt hlt]
      exact wp_slotOffset_blank own hlt (hblank.resolve_left hcap) hle _ _

/-- An element of an array that starts with a blank block, at an index that the array accepts. -/
theorem wp_locate_blank (hinf : LawfulDevice.infallible δ) (own : a.WellFormed)
    (hblank : s.file.Blank block a.size) (hle : block + a.size ≤ s.file.size) {index : Nat}
    (hindex : ¬ (a.extent = .fixed ∧ a.capacity ≤ index)) :
    WP (locate rootSize .allowed a block index) s
      (Reserved a block (a.blocksBefore index) (a.slot index) block a.size s)
      (Overflows (a.extensions block s.file.size (a.blocksBefore index)) s) := by
  cases hext : a.extent with
  | fixed =>
    have hlt : index < a.capacity := Nat.lt_of_not_le fun h => hindex ⟨hext, h⟩
    simp only [locate, ArrayLayout.blocksBefore, ArrayLayout.slot, hext,
      if_neg (Nat.not_le_of_lt hlt)]
    exact wp_slotOffset_blank own hlt hblank hle _ _
  | chained =>
    have hsize := own.size_of_chained hext
    have hzero : s.file.link a block = 0 :=
      (hblank.sub (Nat.le_add_right ..) (by omega)).number_eq
    simp only [locate, ArrayLayout.blocksBefore, ArrayLayout.slot, hext]
    refine (wp_locateFrom_unlinked hinf own hext hle hzero index (.inr hblank) a.capacity).mono
      (fun offset s' h => h.widen ?_) fun _ _ h => h
    unfold ArrayLayout.linkOffset
    omega

end Chain

/-- A walk from a blank place appends all blocks on its way. -/
theorem wp_traceFrom_blank (hinf : LawfulDevice.infallible δ) {path : Path} {position offset : Nat}
    {l l' : Layout} {steps : List UInt64} (hw : l.WellFormed)
    (hdescend : l.descend path position steps = .ok l') (hblank : s.file.Blank offset l.size)
    (hle : offset + l.size ≤ s.file.size) :
    WP (traceFrom rootSize .allowed path position l offset steps) s
      (fun offset' s' =>
        Extended (l.extensions offset s.file.size steps) offset l.size s s' ∧
        offset' + l'.size ≤ s'.file.size)
      (Overflows (l.extensions offset s.file.size steps) s) := by
  induction steps generalizing s position offset l with
  | nil =>
    obtain rfl := Except.ok.inj hdescend
    rw [traceFrom]
    exact ⟨.refl s _ _, hle⟩
  | cons step rest ih =>
    obtain ⟨below, hchild, hdescend⟩ := Layout.descend_cons.mp hdescend
    have hbelow := hw.of_child hchild
    cases l with
    | scalar kind => exact absurd hchild Layout.child_scalar
    | record r =>
      obtain ⟨f, hf, rfl⟩ := Layout.child_record_eq_ok_iff.mp hchild
      have hpacked := (hw.of_record.packed.le_of_mem (List.mem_of_getElem? hf)).2
      have hsize : (Layout.record r).size = r.size := rfl
      simp only [traceFrom, Layout.extensions, hf]
      rcases checkedAdd_cases offset f.offset with hsome | ⟨hnone, hlimit⟩
      · rw [hsome, orAbort_some_bind]
        refine (ih hbelow hdescend (hblank.sub (Nat.le_add_right ..) (by omega)) (by omega)).mono
          (fun offset' s' h => ⟨h.1.widen (by omega), h.2⟩) fun _ _ h => h
      · rw [hnone]
        exact ⟨rfl, not_fits (by omega) hlimit, Nat.le_add_right ..⟩
    | array a =>
      have own := hw.of_array.1
      obtain ⟨hindex, rfl⟩ := Layout.child_array_eq_ok_iff.mp hchild
      rw [traceFrom, Layout.extensions, WP.bind_iff]
      refine (Chain.wp_locate_blank hinf own hblank hle hindex).mono (fun start s₁ h => ?_)
        fun _ _ h => h.append _
      rw [h.extensions_eq rest]
      refine (ih hbelow hdescend h.blank h.inside).mono
        (fun offset' s' h' => ⟨h.trans h'.1 ?_, h'.2⟩) fun _ _ h' => h'.after h.extended
      have hslot := a.slot_le (ArrayLayout.slot_lt hindex)
      have hslots := own.slotsSize_le
      have hwhole : (Layout.array a).size = a.size := rfl
      have hlast := a.lastBlock_cases offset s.file.size (a.blocksBefore step.toNat)
      have hstart := h.offset_eq
      omega

end RecordFile
