import RecordFile.Proofs.Store.Mirrors
import RecordFile.Proofs.Store.Selection
import RecordFile.Proofs.Walk.WritingBack

/-!
# Writing back what was read

On a device that does not fail, writing back what was read succeeds and changes nothing
(`Store.set_get`). A scalar of a file that calls have made is one that was encoded, so it comes out as
it was when it is decoded and encoded again, unless it is a narrow NaN (`Cell.Encoded.exact`).
-/

namespace RecordFile

open Session

/-- The scalar in the cell is a narrow NaN. -/
def Cell.isNaN (f : File) : Cell → Bool
  | scalar .float32 offset => (⟨.ofNat (f.number offset Scalar.float32.width)⟩ : Binary32).isNaN
  | _ => false

theorem Cell.Encoded.exact {f : File} {c : Cell} (h : c.Encoded f) (hnan : c.isNaN f = false) :
    c.Exact f := by
  cases c with
  | scalar kind offset =>
    have hholds : kind.Holds (f.number offset kind.width) := h
    refine Scalar.encode_ofDigits hholds.lt hholds.eq_of_boolean fun hkind => ?_
    subst hkind
    exact hnan
  | link a block next => trivial

namespace Store

variable {δ : Type} [Device δ]

/-- An address that can be read stands for a path. -/
theorem path_of_get {s s₁ : Store δ} {p : Address} {v : Value} (hget : get p s = .ok v s₁) :
    ∃ path, s.schema.path p = .ok path := by
  cases hpath : s.schema.path p with
  | ok path => exact ⟨path, rfl⟩
  | error e =>
    have herror : WP (get p) s (fun _ _ => False) fun _ _ => True := by
      rw [get, wp_onSession_iff, hpath]
      trivial
    exact (herror.ok hget).elim

variable [LawfulDevice δ] {schema : Schema} {mark : Nat} {s s₁ : Store δ}

/-- Whatever calls have been made: on a device that does not fail, and if no scalar in the file is a
narrow NaN, what was read can be written back. That appends nothing and leaves every byte of the file
as it was. -/
theorem set_get (hschema : schema.Compiled) (h : Reached schema mark s)
    (hinf : LawfulDevice.infallible δ) (hfit : s.session.Fits)
    (hnan : ∀ c ∈ schema.part.cells s.session.file, c.isNaN s.session.file = false)
    {p : Address} {v : Value} (hget : get p s = .ok v s₁) :
    ∃ s', set p v s₁ = .ok () s' ∧ s'.session.file = s.session.file ∧
      s'.session.counters.chainExtensions = s.session.counters.chainExtensions := by
  have hs := h.inOrder hschema hfit
  have hencoded := h.encoded hschema hfit
  obtain rfl := h.schema_eq
  obtain ⟨path, hpath⟩ := path_of_get hget
  obtain ⟨⟨l, offset⟩, hplace, rfl, -⟩ :=
    placeAt_of_get hs.wellFormed hs.sound.root_le hfit hpath hget
  have hat : Located s.schema s.session path.steps l offset := ⟨hs.wellFormed, hs.sound, hplace⟩
  have hexact : ∀ c ∈ l.cells s.schema.size s.session.file offset, c.Exact s.session.file :=
    fun c hc =>
      have hmem := Layout.cells_of_placeAt hplace c hc
      (hencoded c hmem).exact (hnan c hmem)
  obtain ⟨image, himage, hwrite⟩ := hat.le.1.writesBack hinf hfit offset hat.le.2 hexact
  have hplan := Schema.plan_of_image hpath (Schema.resolve_of_placeAt hplace) himage
  -- Reading has left the file as it was, so the place is still there to be written to.
  have hend : endState (get p) s = s₁ := endState_ok hget
  have hsame : Same s.session s₁.session := hend ▸ same_get p s
  have halike := hsame.alike
  have hschema₁ : s₁.schema = s.schema := hend ▸ (Request.get p).schema_eq s
  have hset : WP (set p (l.value s.schema.size s.session.file offset)) s₁
      (fun _ s' => Alike s.session s'.session) fun _ _ => False := by
    rw [WP, set_eq, hschema₁, hplan]
    refine wp_onSession_iff.mpr ?_
    rw [hschema₁]
    refine (hat.alike halike).wp_writeAt hinf (halike.fits hfit) (fun _ _ h hq => hq.trans h)
      fun t halike' => ?_
    have hback := halike.trans halike'
    exact (hwrite t hback.file_eq).mono (fun _ _ h => hback.trans h) fun _ _ h => h
  obtain ⟨⟨⟩, s', hdone, halike'⟩ := hset.exists_ok fun _ _ _ h => h
  exact ⟨s', hdone, halike'.file_eq, halike'.chainExtensions_eq⟩

/-- A log with two more blocks, the last of which holds a number. -/
def longLog : Store File := (Request.set (.path ⟨[1, 5]⟩) (.uint 7)).after emptyLog

theorem set_get_longLog : ∃ v s₁ s', get (.dotted "items") longLog = .ok v s₁ ∧
    v.overrun? [6] = some (6, 6) ∧ set (.dotted "items") v s₁ = .ok () s' ∧
    s'.session.file = longLog.session.file ∧
    s'.session.counters.chainExtensions = longLog.session.counters.chainExtensions := by
  have hread : WP (get (.dotted "items")) longLog (fun v _ => v.overrun? [6] = some (6, 6))
      fun _ _ => False := by
    decide +kernel
  obtain ⟨v, s₁, hok, hlength⟩ := hread.exists_ok fun _ _ _ h => h
  have hreached : Reached .log 0 longLog := reached_emptyLog.request _
  obtain ⟨s', hset⟩ := set_get Schema.log_compiled hreached trivial (by decide +kernel)
    (by decide +kernel) hok
  exact ⟨v, s₁, s', hok, hlength, hset⟩

end Store

end RecordFile
