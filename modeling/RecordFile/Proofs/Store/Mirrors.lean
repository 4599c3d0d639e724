import RecordFile.Proofs.Store.Reached
import RecordFile.Proofs.Walk.Merging

/-!
# Doing what requests do

`Mirrors schema m s requests` says that `m`, started in `s`, leaves the file and the count of
extensions as the requests do, made one after the other. Actions and lists of requests are put
together side by side (`Mirrors.bind`); a trace of a place that is there adds nothing
(`Mirrors.trace`), a scalar is written by a request as it is by itself (`Mirrors.set`), and going on
past the last block that has been reached is what a trace of the first element behind it comes to
(`Mirrors.followOrExtend`).
-/

namespace RecordFile

open Session

variable {δ : Type} [Device δ]

/-- Makes a request, of which only the effect matters. -/
def Request.run : Request → Action (Store δ) Unit
  | set address v => Store.set address v
  | trace growth address => discard (Store.trace growth address)
  | get address => discard (Store.get address)
  | audit => discard Store.audit
  | size => discard Store.size
  | stats => discard Store.stats
  | sync => Store.sync

/-- Makes requests one after the other. -/
def perform : List Request → Action (Store δ) Unit
  | [] => pure ()
  | r :: rest => do
    r.run
    perform rest

theorem perform_append (requests requests' : List Request) :
    perform (δ := δ) (requests ++ requests') =
      perform requests >>= fun _ => perform requests' := by
  induction requests with
  | nil => rfl
  | cons r rest ih => simp only [List.cons_append, perform, ih, bind_assoc]

/-- The requests after one that has been made. -/
theorem perform_cons {r : Request} {rest : List Request} {s s' : Store δ}
    (h : r.run s = .ok () s') : perform (r :: rest) s = perform rest s' := bind_ok h

theorem Request.endState_run (r : Request) (s : Store δ) : endState r.run s = r.after s := by
  cases r with
  | set address v => rfl
  | sync => rfl
  | _ => exact endState_discard _ s

/-- Requests made one after the other lead to a later store, wherever they break off. -/
theorem Store.Later.perform {s s' : Store δ} (h : Later s s') (requests : List Request) :
    Later s (endState (RecordFile.perform requests) s') := by
  induction requests generalizing s' with
  | nil => exact h
  | cons r rest ih =>
    have hr : Later s (endState r.run s') := r.endState_run s' ▸ h.request r
    have hperform := endState_bind (s := s') r.run fun _ => RecordFile.perform (δ := δ) rest
    rcases hperform with hend | ⟨_, hend⟩
    · exact hend ▸ hr
    · exact hend ▸ ih hr

variable [LawfulDevice δ]

/-! ## Places below the root -/

/-- On a file that is in order, the steps lead from the root record to a place. -/
structure Located (schema : Schema) (s : Session δ) (steps : List UInt64) (l : Layout)
    (offset : Nat) : Prop where
  rootWellFormed : schema.rootLayout.WellFormed
  rootSound : Sound schema.size s.file (schema.part.cells s.file)
  placeAt_eq : schema.rootLayout.placeAt schema.size s.file 0 steps = some (l, offset)

theorem Layout.placeAt_append {rootSize : Nat} {f : File} {l : Layout} {offset : Nat}
    {steps rest : List UInt64} {p : Layout × Nat}
    (h : l.placeAt rootSize f offset steps = some p) :
    l.placeAt rootSize f offset (steps ++ rest) = p.1.placeAt rootSize f p.2 rest := by
  induction steps generalizing l offset with
  | nil =>
    obtain rfl := Option.some.inj h
    rfl
  | cons step steps ih =>
    obtain ⟨child, hchild, h⟩ := placeAt_cons_eq_some.mp h
    rw [List.cons_append, placeAt, hchild]
    exact ih h

namespace Located

variable {schema : Schema} {s t : Session δ} {steps : List UInt64} {l : Layout} {offset : Nat}

theorem evolves (h : Located schema s steps l offset)
    (he : Evolves schema.size schema.part s.file t.file) : Located schema t steps l offset :=
  ⟨h.rootWellFormed, he.sound, he.linksKept.placeAt_eq h.placeAt_eq⟩

theorem alike (h : Located schema s steps l offset) (halike : Alike s t) :
    Located schema t steps l offset :=
  h.evolves (by rw [halike.file_eq]; exact .refl h.rootSound)

theorem le (h : Located schema s steps l offset) :
    l.WellFormed ∧ offset + l.size ≤ s.file.size :=
  Layout.placeAt_le h.rootWellFormed (Nat.le_of_eq (Nat.zero_add _) |>.trans h.rootSound.root_le)
    h.placeAt_eq

theorem hole (h : Located schema s steps l offset) :
    ∃ ctx fill, schema.part.Hole (l.part schema.size offset) s.file ctx fill := by
  obtain ⟨ctx, fill, hole, -⟩ := Layout.placeAt_hole h.rootWellFormed h.rootSound h.placeAt_eq
  exact ⟨ctx, fill, hole⟩

theorem sound (h : Located schema s steps l offset) :
    Sound schema.size s.file (l.cells schema.size s.file offset) := by
  obtain ⟨_, _, hole⟩ := h.hole
  exact hole.sound h.rootSound

theorem child (h : Located schema s steps l offset) {i : Nat} {p : Layout × Nat}
    (hlt : i < wordLimit) (hchild : (l.children schema.size s.file offset)[i]? = some p) :
    Located schema s (steps ++ [.ofNat i]) p.1 p.2 := by
  have hi : (UInt64.ofNat i).toNat = i := UInt64.toNat_ofNat_of_lt hlt
  refine ⟨h.rootWellFormed, h.rootSound, ?_⟩
  rw [Layout.placeAt_append h.placeAt_eq, Layout.placeAt, hi, hchild]
  rfl

/-- The blocks of an array stay where they are. -/
theorem getElem?_chain {a : ArrayLayout} (h : Located schema s steps (.array a) offset)
    (he : Evolves schema.size schema.part s.file t.file) {j block : Nat}
    (hblock : (s.file.chain schema.size a offset)[j]? = some block) :
    (t.file.chain schema.size a offset)[j]? = some block := by
  obtain ⟨_, _, hole⟩ := h.hole
  have hlinks : LinksKept s.file t.file (a.links schema.size s.file offset) :=
    he.linksKept.mono fun c hc => hole.perm.mem_iff.mpr (List.mem_append_right _
      ((Layout.cells_array_perm a offset).mem_iff.mpr (List.mem_append_right _ hc)))
  obtain ⟨more, hmore⟩ := hlinks.chain_prefix
  rw [← hmore, List.getElem?_append_left (List.getElem?_eq_some_iff.mp hblock).1]
  exact hblock

/-- A walk to a place that is there changes nothing. -/
theorem wp_tracePath (h : Located schema s steps l offset) (hinf : LawfulDevice.infallible δ)
    (hfit : s.Fits) : WP (tracePath schema .allowed ⟨steps⟩) s
      (fun found s' => Same s s' ∧ found = offset) fun _ _ => False := by
  rw [tracePath, ← List.append_nil (Path.steps _)]
  refine wp_traceFrom_append hinf h.rootWellFormed hfit
    (Nat.le_of_eq (Nat.zero_add _) |>.trans h.rootSound.root_le) h.placeAt_eq fun s₁ hsame => ?_
  exact ⟨hsame, rfl⟩

theorem resolve_eq (h : Located schema s steps l offset) : schema.resolve ⟨steps⟩ = .ok l :=
  Layout.descend_of_placeAt h.placeAt_eq

theorem path_eq (h : Located schema s steps l offset) :
    schema.path (.path ⟨steps⟩) = .ok ⟨steps⟩ := by
  simp [Schema.path, h.resolve_eq, bind, Except.bind]

theorem plan_eq (h : Located schema s steps l offset) {v : Value} {image : Image}
    (himage : l.image v = .ok image) :
    schema.plan (.path ⟨steps⟩) v = .ok (⟨steps⟩, l, image) :=
  Schema.plan_of_image h.path_eq h.resolve_eq himage

/-- A write to a place that is there does to the file what writing the image does. -/
theorem wp_writeAt (h : Located schema s steps l offset) (hinf : LawfulDevice.infallible δ)
    (hfit : s.Fits) {image : Image} {Q : Session δ → Prop}
    (hQ : ∀ t u, Alike t u → Q t → Q u)
    (hwrite : ∀ t, Alike s t → WP (writeImage schema.size l offset image) t (fun _ => Q)
      fun _ _ => False) :
    WP (writeAt schema ⟨steps⟩ l image) s (fun _ => Q) fun _ _ => False := by
  rw [writeAt, WP.bind_iff]
  refine (h.wp_tracePath hinf hfit).mono (fun _ t₁ h₁ => ?_) fun _ _ h => h
  obtain ⟨hsame, rfl⟩ := h₁
  rw [WP.bind_iff]
  refine (hwrite t₁ hsame.alike).mono (fun _ t₂ hq => ?_) fun _ _ h => h
  split
  · exact (wp_sync t₂).mono (fun _ t₃ hsync => hQ t₂ t₃ hsync.alike hq) fun _ _ hsync => hsync.2 hinf
  · exact hq

end Located

/-! ## Mirroring -/

omit [LawfulDevice δ] in
/-- A request to trace a path that fits the schema is the trace. -/
theorem wp_run_trace {schema : Schema} {t : Session δ} {growth : Growth} {path : Path}
    {Q : Unit → Store δ → Prop} {E : Halt → Store δ → Prop}
    (hpath : schema.path (.path path) = .ok path) :
    WP ((Request.trace growth (.path path)).run) ⟨schema, t⟩ Q E ↔
      WP (tracePath schema growth path) t (fun _ t' => Q () ⟨schema, t'⟩)
        fun e t' => E e ⟨schema, t'⟩ := by
  show WP ((fun _ => ()) <$> Store.trace growth (.path path)) _ _ _ ↔ _
  rw [WP.map_iff, Store.trace, Store.wp_onSession_iff, hpath]
  rfl

/-- `m`, started in `s`, does what the requests do: both succeed, and leave what is alike. -/
def Mirrors (schema : Schema) (m : Action (Session δ) Unit) (s : Session δ)
    (requests : List Request) : Prop :=
  ∀ t, Alike s t → Ends m s
    (fun _ s' => Evolves schema.size schema.part s.file s'.file ∧
      ∃ t', perform requests ⟨schema, t⟩ = .ok () ⟨schema, t'⟩ ∧ Alike s' t')
    fun _ _ => False

namespace Mirrors

variable {schema : Schema} {m n : Action (Session δ) Unit} {s : Session δ}
  {requests requests' : List Request} {steps : List UInt64} {l : Layout} {offset : Nat}

theorem nil (hs : Sound schema.size s.file (schema.part.cells s.file)) :
    Mirrors schema (pure ()) s [] :=
  fun t halike => Ends.pure ⟨.refl hs, t, rfl, halike⟩

/-- Only starts with a file whose length is a word matter. -/
theorem of_fits [Keeps SizeLe m] (h : s.Fits → Mirrors schema m s requests) :
    Mirrors schema m s requests :=
  fun t halike => Ends.of_fits fun hfit => h hfit t halike

/-- Only what is left behind matters. -/
theorem congr (h : Mirrors schema m s requests) (hmn : EndsAs m n s) :
    Mirrors schema n s requests := fun t halike =>
  hmn.wp (h t halike) fun s₁ s₂ hend h hfit => by
    obtain ⟨hevolves, t', hdone, halike'⟩ := h (hend.symm.fits hfit)
    exact ⟨hend.file_eq ▸ hevolves, t', hdone, hend.symm.trans halike'⟩

theorem bind [Keeps SizeLe n] (h : Mirrors schema m s requests)
    (hn : ∀ s', Evolves schema.size schema.part s.file s'.file → Mirrors schema n s' requests') :
    Mirrors schema (m >>= fun _ => n) s (requests ++ requests') := by
  intro t halike
  refine Ends.bind (h t halike) fun _ s' hfit h => ?_
  obtain ⟨hevolves, t', hdone, halike'⟩ := h
  refine (hn s' hevolves t' halike').mono (fun _ s'' _ h => ?_) fun _ _ _ h => h
  obtain ⟨hevolves', t'', hdone', halike''⟩ := h
  refine ⟨hevolves.trans hevolves', t'', ?_, halike''⟩
  rw [perform_append]
  exact (bind_ok hdone).trans hdone'

/-- A request that is made first. -/
theorem cons {r : Request} (h : Mirrors schema m s requests)
    (hr : ∀ t, Alike s t → WP (r.run) ⟨schema, t⟩
      (fun _ t₁ => t₁.schema = schema ∧ Alike t t₁.session) fun _ _ => False) :
    Mirrors schema m s (r :: requests) := by
  intro t halike
  obtain ⟨⟨⟩, ⟨_, t₁⟩, hrun, rfl, halike₁⟩ := (hr t halike).exists_ok fun _ _ _ h => h
  refine (h t₁ (halike.trans halike₁)).mono (fun _ s' _ h => ?_) fun _ _ _ h => h
  obtain ⟨hevolves, t', hdone, halike'⟩ := h
  exact ⟨hevolves, t', (perform_cons hrun).trans hdone, halike'⟩

/-- A trace of a place that is there adds nothing. -/
theorem trace (h : Mirrors schema m s requests) (hat : Located schema s steps l offset)
    (hinf : LawfulDevice.infallible δ) (hfit : s.Fits) :
    Mirrors schema m s (.trace .allowed (.path ⟨steps⟩) :: requests) := by
  refine h.cons fun t halike => (wp_run_trace hat.path_eq).mpr ?_
  exact ((hat.alike halike).wp_tracePath hinf (halike.fits hfit)).mono
    (fun _ _ h => ⟨rfl, h.1.alike⟩) fun _ _ h => h

/-- A scalar is written by itself as by a request. -/
theorem set {kind : Scalar} {v : Value} {bytes : ByteArray}
    (hat : Located schema s steps (.scalar kind) offset) (hinf : LawfulDevice.infallible δ)
    (hfit : s.Fits) (hbytes : kind.encode v = .ok bytes) :
    Mirrors schema (Session.write offset bytes) s [.set (.path ⟨steps⟩) v] := by
  have himage : (Layout.scalar kind).image v = .ok (.run bytes) := by
    rw [Layout.image, hbytes]
    rfl
  have hle : offset + bytes.size ≤ s.file.size := by
    rw [Scalar.size_of_encode hbytes]
    exact hat.le.2
  have hwrite (t : Session δ) (halike : Alike s t) : WP (Session.write offset bytes) t
      (fun _ t' => t'.file = s.file.overwritten offset bytes ∧
        t'.counters.chainExtensions = s.counters.chainExtensions) fun _ _ => False := by
    have hfile := halike.file_eq
    refine (wp_write t offset bytes).mono (fun _ t' h => ?_) fun _ t' h => ?_
    · exact ⟨h.1.trans (by rw [hfile]; rfl), h.2.1.trans halike.chainExtensions_eq⟩
    · exact Nat.not_lt_of_le (hfile ▸ hle) (h.2.2.2 hinf)
  intro t halike
  have hdoes := does_writePlace (E := fun _ => False) hat.rootWellFormed hat.rootSound
    hat.placeAt_eq himage
  rw [writeImage] at hdoes
  have hset : WP (Store.set (.path ⟨steps⟩) v) ⟨schema, t⟩ (fun _ t' => t'.schema = schema ∧
      t'.session.file = s.file.overwritten offset bytes ∧
      t'.session.counters.chainExtensions = s.counters.chainExtensions) fun _ _ => False := by
    rw [WP, Store.set_eq, hat.plan_eq himage]
    have hdone : WP (writeAt schema ⟨steps⟩ (.scalar kind) (.run bytes)) t
        (fun _ t' => t'.file = s.file.overwritten offset bytes ∧
          t'.counters.chainExtensions = s.counters.chainExtensions) fun _ _ => False := by
      refine (hat.alike halike).wp_writeAt hinf (halike.fits hfit) (fun _ _ h hq => ?_)
        fun t₁ halike₁ => ?_
      · exact ⟨h.file_eq.trans hq.1, h.chainExtensions_eq.trans hq.2⟩
      · rw [writeImage]
        exact hwrite t₁ (halike.trans halike₁)
    exact Store.wp_onSession_iff.mpr (hdone.mono (fun _ _ h => ⟨rfl, h⟩) fun _ _ h => h)
  obtain ⟨⟨⟩, ⟨_, t'⟩, hdone, rfl, hfile, hcount⟩ := hset.exists_ok fun _ _ _ h => h
  refine (Ends.and hdoes (Ends.of_wp (hwrite s ⟨rfl, rfl⟩))).mono (fun _ s' _ h => ?_)
    fun _ _ _ h => h.2
  obtain ⟨⟨hwork, -⟩, hfile', hcount'⟩ := h
  exact ⟨hwork.evolves, t', perform_cons hdone, hfile.trans hfile'.symm, hcount.trans hcount'.symm⟩

/-- Going on past a block of a chain is what a trace of the first element behind it comes to. -/
theorem followOrExtend {a : ArrayLayout} {start j block : Nat} {f : Nat → Action (Session δ) Unit}
    [∀ next, Keeps SizeLe (f next)] (hat : Located schema s steps (.array a) start)
    (hext : a.extent = .chained) (hinf : LawfulDevice.infallible δ)
    (hblock : (s.file.chain schema.size a start)[j]? = some block)
    (hlt : (j + 1) * a.capacity < wordLimit)
    (hf : ∀ next s', Evolves schema.size schema.part s.file s'.file →
      (s'.file.chain schema.size a start)[j + 1]? = some next → Mirrors schema (f next) s' requests) :
    Mirrors schema (Chain.followOrExtend schema.size a block >>= f) s
      (.trace .allowed (.path ⟨steps ++ [.ofNat ((j + 1) * a.capacity)]⟩) :: requests) := by
  refine of_fits fun hfit t halike => ?_
  obtain ⟨own, helement⟩ := hat.le.1.of_array
  have hle := hat.le.2
  have hleBlock := ArrayLayout.block_le hle block (List.mem_of_getElem? hblock)
  obtain ⟨_, _, holeRoot⟩ := hat.hole
  obtain ⟨_, _, holeBlock⟩ := ArrayLayout.hole_chain helement hat.sound hblock
  have hole := (holeRoot.trans (a.hole start)).trans holeBlock
  have hs := hole.sound hat.rootSound
  have hsame {t : Session δ} (halike : Alike s t) : WP (Chain.followOrExtend schema.size a block) s
      (fun next s' => WP (Chain.followOrExtend schema.size a block) t
        (fun next' t' => next' = next ∧ Alike s' t') fun _ _ => False) fun _ _ => False :=
    Chain.wp_followOrExtend_alike hinf own hext hfit hs hleBlock halike
  obtain ⟨next, s', hgo, -⟩ := (hsame ⟨rfl, rfl⟩).exists_ok fun _ _ _ h => h
  have hdoes := Does.hole (D := .keeping fun _ => ()) (E := fun _ => False) hole hat.rootSound
    (fun _ _ => rfl) fun hs =>
    Chain.does_followOrExtend (D := .keeping fun _ => ()) own helement hext hs hleBlock hfit
      (fun _ _ _ _ => rfl) (Nat.lt_succ_self _)
  show WP _ s _ _
  rw [WP.bind_iff, WP, hgo]
  refine Ends.of_fits fun hfit' => ?_
  obtain ⟨hwork, -, -, hnext, -⟩ := WP.ok hdoes hgo hfit'
  have hnext' := File.getElem?_chain_succ (hat.getElem?_chain hwork.evolves hblock) hnext
  have hplace : Located schema s' _ a.element (next + 0 * a.element.size) :=
    (hat.evolves hwork.evolves).child hlt (Layout.children_of_chain hnext' a.capacity_pos)
  have hbound : next + a.size < wordLimit :=
    Nat.lt_of_le_of_lt (File.next?_eq_some_iff.mp hnext).2.2.2.2 hfit'
  have htrace : WP (Request.trace .allowed (.path ⟨steps ++ [.ofNat ((j + 1) * a.capacity)]⟩)).run
      ⟨schema, t⟩ (fun _ t₁ => t₁.schema = schema ∧ Alike s' t₁.session) fun _ _ => False := by
    rw [wp_run_trace hplace.path_eq, tracePath]
    have hat := hat.alike halike
    have hroot := Nat.le_of_eq (Nat.zero_add _) |>.trans hat.rootSound.root_le
    refine wp_traceFrom_append hinf hat.rootWellFormed (halike.fits hfit) hroot hat.placeAt_eq
      fun t₁ h₁ => ?_
    have halike₁ := halike.trans h₁.alike
    have hindex : (UInt64.ofNat ((j + 1) * a.capacity)).toNat = (j + 1) * a.capacity :=
      UInt64.toNat_ofNat_of_lt hlt
    rw [traceFrom, WP.bind_iff, hindex]
    rw [← halike₁.file_eq] at hblock hle
    refine Chain.wp_locate_behind hinf own hext (halike₁.fits hfit) hle hblock fun t₂ h₂ => ?_
    refine (WP.ok (hsame (halike₁.trans h₂.alike)) hgo).mono (fun found t₃ h => ?_) fun _ _ h => h
    obtain ⟨rfl, halike₃⟩ := h
    exact ⟨hbound, rfl, halike₃⟩
  obtain ⟨⟨⟩, ⟨_, t₁⟩, hrun, rfl, halike₁⟩ := htrace.exists_ok fun _ _ _ h => h
  refine (hf next s' hwork.evolves hnext' t₁ halike₁).mono (fun _ s'' _ h => ?_) fun _ _ _ h => h
  obtain ⟨hevolves, t', hdone, halike'⟩ := h
  exact ⟨hwork.evolves.trans hevolves, t', (perform_cons hrun).trans hdone, halike'⟩

end Mirrors

end RecordFile
