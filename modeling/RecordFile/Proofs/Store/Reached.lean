import RecordFile.Proofs.Device.Flaky
import RecordFile.Proofs.Layout.Catalog
import RecordFile.Proofs.Store.Request

/-!
# The stores that calls lead to

`Store.Later s s'` says that calls on the store `s` lead to `s'`, with no successful `Store.init`
among them, and `Store.Reached schema mark s` that `s` is what calls have made of a store created
with `schema`; `mark` is how many blocks had been appended when its file was last made anew.

Such a store is in order (`Reached.inOrder`), wherever the device has failed calls: the cells of its
file are sound, every block that was appended and counted since then is linked, and the bytes of the
file are those of the root record, of the linked blocks and of the blocks that extensions lost. Later
stores have evolved from it (`Later.progress`).

This is said of stores whose file has a length that is a word. As no request makes a file shorter, it
then had such a length ever since it was made anew.
-/

namespace RecordFile

open Session

namespace Store

variable {δ : Type} [Device δ]

/-- Requests and failed calls of `Store.init` lead from the first store to the second. -/
inductive Later : Store δ → Store δ → Prop
  | refl (s : Store δ) : Later s s
  | request {s s' : Store δ} (h : Later s s') (r : Request) : Later s (r.after s')
  | init_failed {s s' s'' : Store δ} {e : Halt} (h : Later s s') (hi : init s' = .error e s'') :
    Later s s''

/-- The stores that calls on created stores lead to. The file was last made anew when `mark` blocks
had been appended. -/
inductive Reached (schema : Schema) : (mark : Nat) → Store δ → Prop
  | create {device : δ} {s s' : Store δ} (h : Store.create schema device = .ok s)
    (hl : Later s s') : Reached schema s.session.counters.chainExtensions s'
  | init {mark : Nat} {s s' s'' : Store δ} (h : Reached schema mark s) (hi : init s = .ok () s')
    (hl : Later s' s'') : Reached schema s'.session.counters.chainExtensions s''

/-- A request on a reached store. -/
theorem Reached.request {schema : Schema} {mark : Nat} {s : Store δ} (h : Reached schema mark s)
    (r : Request) : Reached schema mark (r.after s) := by
  cases h with
  | create h hl => exact .create h (hl.request r)
  | init h hi hl => exact .init h hi (hl.request r)

variable [LawfulDevice δ]

/-- The file is in order, `mark` blocks had been appended when it was made anew, and all its bytes
are accounted for. -/
structure InOrder (mark : Nat) (s : Store δ) : Prop where
  wellFormed : s.schema.rootLayout.WellFormed
  sound : Sound s.schema.size s.session.file (s.schema.part.cells s.session.file)
  accounts : Accounts s.session (s.schema.part.cells s.session.file) mark s.schema.size

/-- The store on its file alone, where no call fails. -/
def onFile (s : Store δ) : Store File := ⟨s.schema, ⟨s.session.file, s.session.counters⟩⟩

theorem InOrder.onFile {mark : Nat} {s : Store δ} (hs : InOrder mark s) : InOrder mark s.onFile :=
  ⟨hs.wellFormed, hs.sound, hs.accounts.blocks_eq, nofun⟩

/-! ## Files made anew -/

/-- The cells of a new file are blank. -/
theorem fresh_zeroed {schema : Schema} (hw : schema.rootLayout.WellFormed) :
    Fresh schema.size (.zeroed schema.size) 0 (0 + schema.size)
      (schema.part.cells (.zeroed schema.size)) :=
  (hw.fresh schema.size (File.blank_zeroed schema.size)
    (Nat.le_of_eq ((Nat.zero_add _).trans (File.size_zeroed schema.size).symm))).1

/-- A file of zeros, of which nothing is lost, is in order. -/
theorem inOrder_zeroed {s : Store δ} (hw : s.schema.rootLayout.WellFormed)
    (hfile : s.session.file = .zeroed s.schema.size)
    (hledger : ∀ k, s.session.ledger = some k → k = {}) :
    InOrder s.session.counters.chainExtensions s := by
  have hunlinked : ∀ c ∈ s.schema.part.cells s.session.file, c.target = 0 := by
    rw [hfile]
    exact (fresh_zeroed hw).unlinked
  refine ⟨hw, ?_, ?_, fun k hk => ?_⟩
  · rw [hfile]
    exact hw.sound_zeroed
  · rw [linkedBlocks_of_unlinked hunlinked]
    rfl
  · obtain rfl := hledger k hk
    rw [linkedBytes_of_unlinked hunlinked, hfile, File.size_zeroed]
    exact ⟨rfl, rfl⟩

/-- The session of a device that has been reset. -/
theorem ledger_of_reset {d d' : δ} {n : Nat} {c : Counters}
    (h : LawfulDevice.history d' = (LawfulDevice.history d).map (⟨.reset, n, true⟩ :: ·)) :
    ∀ k, ledger ⟨d', c⟩ = some k → k = {} := by
  intro k hk
  rw [ledger_of_history (s := ⟨d, c⟩) h] at hk
  obtain ⟨k', -, rfl⟩ := Option.map_eq_some_iff.mp hk
  rfl

/-- `Store.init` makes the file anew or leaves it as it is. -/
theorem wp_init (s : Store δ) : WP init s
    (fun _ s' => s'.schema = s.schema ∧ s'.session.file = .zeroed s.schema.size ∧
      ∀ k, s'.session.ledger = some k → k = {})
    fun _ s' => s'.schema = s.schema ∧ Same s.session s'.session := by
  rw [init, wp_onSession_iff, wp_call_iff]
  refine (LawfulDevice.wp_reset s.session.device s.schema.size).mono (fun _ d h => ?_) fun _ d h => ?_
  · exact ⟨rfl, h.1, ledger_of_reset h.2⟩
  · exact ⟨rfl, same_of_history h.1 rfl h.2.1 fun _ => Ledger.after_of_failed rfl⟩

/-- A created store has a file of zeros. -/
theorem create_eq_ok {schema : Schema} {device : δ} {s : Store δ}
    (h : Store.create schema device = .ok s) :
    s.schema = schema ∧ s.session.file = .zeroed schema.size ∧
      ∀ k, s.session.ledger = some k → k = {} := by
  have hreset := LawfulDevice.wp_reset device schema.size
  unfold WP at hreset
  unfold create at h
  cases hd : Device.reset schema.size device with
  | error e d => simp [hd] at h
  | ok _ d =>
    simp only [hd, Except.ok.injEq] at h hreset
    subst h
    exact ⟨rfl, hreset.1, ledger_of_reset hreset.2⟩

/-! ## Runs -/

section

variable {schema : Schema} {mark : Nat} {s s' : Store δ}

theorem Later.schema_eq (h : Later s s') : s'.schema = s.schema := by
  induction h with
  | refl => rfl
  | request _ r ih => exact (r.schema_eq _).trans ih
  | init_failed _ hi ih => exact ((wp_init _).error hi).1.trans ih

theorem Later.sizeLe (h : Later s s') : SizeLe s.session s'.session := by
  induction h with
  | refl => exact Nat.le_refl _
  | request _ r ih => exact Nat.le_trans ih (r.sizeLe _)
  | init_failed _ hi ih => exact Nat.le_trans ih ((wp_init _).error hi).2.sizeLe

theorem Later.fits (h : Later s s') (hfit : s'.session.Fits) : s.session.Fits :=
  Nat.lt_of_le_of_lt h.sizeLe hfit

/-- From a store that is in order on, everything is work on the root record and the blocks behind
it. -/
theorem Later.progress (h : Later s s') (hs : InOrder mark s) (hfit : s'.session.Fits) :
    Progress s.schema.size s.schema.part s.session s'.session := by
  induction h with
  | refl => exact .of_same hs.sound (.refl _)
  | @request s₁ hl r ih =>
    have hp := ih (Nat.lt_of_le_of_lt (r.sizeLe s₁) hfit)
    have hr := r.progress (s := s₁) (hl.schema_eq ▸ hs.wellFormed) (hl.schema_eq ▸ hp.sound) hfit
    rw [hl.schema_eq] at hr
    exact hp.trans hr
  | @init_failed s₁ s₂ e hl hi ih =>
    have hsame := ((wp_init s₁).error hi).2
    have hp := ih (Nat.lt_of_le_of_lt hsame.sizeLe hfit)
    exact hp.trans (.of_same hp.sound hsame)

theorem Later.inOrder (h : Later s s') (hs : InOrder mark s) (hfit : s'.session.Fits) :
    InOrder mark s' := by
  have hp := h.progress hs hfit
  refine ⟨?_, ?_, ?_⟩ <;> rw [h.schema_eq]
  · exact hs.wellFormed
  · exact hp.sound
  · exact hp.accounts _ _ hs.accounts

theorem Reached.schema_eq (h : Reached schema mark s) : s.schema = schema := by
  induction h with
  | create h hl => exact hl.schema_eq.trans (create_eq_ok h).1
  | init _ hi hl ih => exact hl.schema_eq.trans (((wp_init _).ok hi).1.trans ih)

/-- Such a store comes, by calls other than a successful `Store.init`, from one with a file of
zeros. -/
theorem Reached.exists_zeroed (h : Reached schema mark s) :
    ∃ s₀, Later s₀ s ∧ s₀.schema = schema ∧ s₀.session.counters.chainExtensions = mark ∧
      s₀.session.file = .zeroed schema.size ∧ ∀ k, s₀.session.ledger = some k → k = {} := by
  cases h with
  | create h hl =>
    obtain ⟨hschema, hfile, hledger⟩ := create_eq_ok h
    exact ⟨_, hl, hschema, rfl, hfile, hledger⟩
  | @init _ s₀ s₁ _ h hi hl =>
    obtain ⟨hsame, hfile, hledger⟩ := (wp_init s₀).ok hi
    rw [h.schema_eq] at hsame hfile
    exact ⟨s₁, hl, hsame, rfl, hfile, hledger⟩

/-- Whatever calls have been made and failed, a store is in order. -/
theorem Reached.inOrder (hschema : schema.Compiled) (h : Reached schema mark s)
    (hfit : s.session.Fits) : InOrder mark s := by
  obtain ⟨s₀, hl, rfl, rfl, hfile, hledger⟩ := h.exists_zeroed
  exact hl.inOrder (inOrder_zeroed hschema.wellFormed hfile hledger) hfit

/-- Whatever calls have been made and failed, all scalars in the file have been encoded. -/
theorem Reached.encoded (hschema : schema.Compiled) (h : Reached schema mark s)
    (hfit : s.session.Fits) : ∀ c ∈ schema.part.cells s.session.file, c.Encoded s.session.file := by
  obtain ⟨s₀, hl, rfl, rfl, hfile, hledger⟩ := h.exists_zeroed
  have hs := inOrder_zeroed hschema.wellFormed hfile hledger
  refine (hl.progress hs hfit).evolves.encoded ?_
  rw [hfile]
  exact (fresh_zeroed hschema.wellFormed).encoded

end

/-- A new store of `Schema.log`. -/
def emptyLog : Store File := ⟨.log, ⟨.zeroed 11, {}⟩⟩

theorem reached_emptyLog : Reached .log 0 emptyLog := by
  have hcreate : Store.create .log File.empty = .ok emptyLog := rfl
  exact .create hcreate (.refl _)

/-- A new store of `Schema.log` on a device that fails the fourth call. -/
def flakyLog : Store FlakyFile :=
  ⟨.log, ⟨⟨.zeroed 11, fun n => if n = 3 then some (.error (.device "full")) else none,
    [⟨.reset, 11, true⟩]⟩, {}⟩⟩

/-- The store after two writes, the first of which fails when it writes a link. -/
def flakyLogWritten : Store FlakyFile :=
  (Request.set (.path ⟨[1, 3]⟩) (.uint 7)).after
    ((Request.set (.path ⟨[1, 3]⟩) (.uint 7)).after flakyLog)

theorem reached_flakyLog : Reached .log 0 flakyLog := by
  have hcreate : Store.create .log (⟨.empty, fun n => if n = 3 then some (.error (.device "full"))
    else none, []⟩ : FlakyFile) = .ok flakyLog := rfl
  exact .create hcreate (.refl _)

theorem reached_flakyLogWritten : Reached .log 0 flakyLogWritten :=
  (reached_flakyLog.request _).request _

end Store

end RecordFile
