import RecordFile.Proofs.File.Blank
import RecordFile.Proofs.File.Linked
import RecordFile.Proofs.Walk.Keeps

/-!
# Progress on a part

`Does P D E m s Q` is the specification of an operation `m` that works on the part `P` of the file:
it ends in `Q` or halts in `E`, or because the device failed a call, and whichever way it ends, the
part has evolved, its accounts are still right, and its value is one that the `Drift` allows.

The accounts of a part (`Accounts`) say that the count of extensions is the number of blocks that
its cells link, and that the size of the file is made up of these blocks and of what was lost, both
up to what lies outside of the part. So they can be moved between a part and a smaller part inside
it, and `Does.hole` lifts the specification of an operation along a hole.
-/

namespace RecordFile

open Session

variable {α β γ δ : Type} [Device δ] [LawfulDevice δ] {rootSize : Nat} {P : Part α} {M : Part β}
  {s s' s'' : Session δ}

/-- The cells link all blocks but `blocks` of them, and they and what was lost account for all bytes
of the file but `bytes`. -/
structure Accounts (s : Session δ) (cells : List Cell) (blocks bytes : Nat) : Prop where
  blocks_eq : s.counters.chainExtensions = blocks + linkedBlocks cells
  size_eq : ∀ k, s.ledger = some k →
    k.pending = 0 ∧ s.file.size = bytes + k.lost + linkedBytes cells

theorem Accounts.of_same {cells : List Cell} {blocks bytes : Nat} (h : Accounts s cells blocks bytes)
    (hs : Same s s') : Accounts s' cells blocks bytes where
  blocks_eq := hs.chainExtensions_eq.trans h.blocks_eq
  size_eq k hk := by
    rw [hs.ledger_eq fun k hk => (h.size_eq k hk).1] at hk
    rw [hs.file_eq]
    exact h.size_eq k hk

/-- The accounts stay right where the file grows by the blocks that are linked and by what is lost. -/
theorem Accounts.after {cells cells' : List Cell} {blocks bytes : Nat} {f : Ledger → Ledger}
    (h : Accounts s cells blocks bytes) (lost : Nat)
    (hcount : s'.counters.chainExtensions + linkedBlocks cells =
      s.counters.chainExtensions + linkedBlocks cells')
    (hledger : s'.ledger = s.ledger.map f) (hlost : ∀ k, k.pending = 0 → f k = ⟨0, k.lost + lost⟩)
    (hsize : s'.file.size + linkedBytes cells = s.file.size + lost + linkedBytes cells') :
    Accounts s' cells' blocks bytes where
  blocks_eq := by
    have := h.blocks_eq
    omega
  size_eq k' hk' := by
    rw [hledger] at hk'
    obtain ⟨k, hk, rfl⟩ := Option.map_eq_some_iff.mp hk'
    obtain ⟨hpending, hbytes⟩ := h.size_eq k hk
    rw [hlost k hpending]
    exact ⟨rfl, by simp only; omega⟩

/-- The part has evolved, and its accounts are still right. -/
structure Progress (rootSize : Nat) (P : Part α) (s s' : Session δ) : Prop where
  evolves : Evolves rootSize P s.file s'.file
  accounts : ∀ blocks bytes, Accounts s (P.cells s.file) blocks bytes →
    Accounts s' (P.cells s'.file) blocks bytes
  /-- Where no call fails, the file grows by the blocks that are linked. -/
  growth : LawfulDevice.infallible δ →
    s'.file.size + linkedBytes (P.cells s.file) = s.file.size + linkedBytes (P.cells s'.file)

namespace Progress

theorem of_same (hs : Sound rootSize s.file (P.cells s.file)) (h : Same s s') :
    Progress rootSize P s s' where
  evolves := by
    rw [h.file_eq]
    exact .refl hs
  accounts blocks bytes ha := by
    rw [h.file_eq]
    exact ha.of_same h
  growth _ := by rw [h.file_eq]

theorem trans (h : Progress rootSize P s s') (h' : Progress rootSize P s' s'') :
    Progress rootSize P s s'' where
  evolves := h.evolves.trans h'.evolves
  accounts blocks bytes ha := h'.accounts blocks bytes (h.accounts blocks bytes ha)
  growth hinf := by
    have := h.growth hinf
    have := h'.growth hinf
    omega

theorem sound (h : Progress rootSize P s s') : Sound rootSize s'.file (P.cells s'.file) :=
  h.evolves.sound

theorem hole {ctx : List Cell} {fill : β → α} (h : Progress rootSize M s s')
    (hole : P.Hole M s.file ctx fill) (hs : Sound rootSize s.file (P.cells s.file)) :
    Progress rootSize P s s' where
  evolves := h.evolves.hole hole hs
  accounts blocks bytes ha := by
    have hu := h.evolves.untouched (hs.perm hole.perm)
    have hperm := (hole s'.file h.evolves.size_le hu).1
    obtain ⟨hblocks, hbytes⟩ := ha
    rw [linkedBlocks_perm hole.perm, linkedBlocks_append, ← Nat.add_assoc] at hblocks
    have hinner := h.accounts (blocks + linkedBlocks ctx) (bytes + linkedBytes ctx)
      ⟨hblocks, fun k hk => by
        have := hbytes k hk
        rw [linkedBytes_perm hole.perm, linkedBytes_append] at this
        omega⟩
    refine ⟨?_, fun k hk => ?_⟩
    · rw [linkedBlocks_perm hperm, linkedBlocks_append, ← Nat.add_assoc]
      exact hinner.blocks_eq
    · rw [linkedBytes_perm hperm, linkedBytes_append]
      have := hinner.size_eq k hk
      omega
  growth hinf := by
    have hu := h.evolves.untouched (hs.perm hole.perm)
    have hperm := (hole s'.file h.evolves.size_le hu).1
    have := h.growth hinf
    rw [linkedBytes_perm hole.perm, linkedBytes_perm hperm, linkedBytes_append, linkedBytes_append]
    omega

end Progress

/-- The part has evolved, its accounts are still right, and its value has drifted. -/
structure Work (rootSize : Nat) (P : Part α) (D : Drift α) (s s' : Session δ) : Prop
    extends Progress rootSize P s s' where
  drift : D.rel (P.value s.file) (P.value s'.file)

namespace Work

variable {D : Drift α}

theorem of_same (hs : Sound rootSize s.file (P.cells s.file)) (h : Same s s') :
    Work rootSize P D s s' :=
  ⟨.of_same hs h, by rw [h.file_eq]; exact D.refl _⟩

theorem trans (h : Work rootSize P D s s') (h' : Work rootSize P D s' s'') :
    Work rootSize P D s s'' :=
  ⟨h.toProgress.trans h'.toProgress, D.trans h.drift h'.drift⟩

end Work

/-- `m`, started in `s`, works on the part `P`: it ends in `Q`, or it halts in `E` or because the
device failed. Whichever way it ends, the value of the part has drifted as `D` lets it. -/
def Does (rootSize : Nat) (P : Part α) (D : Drift α) (E : Halt → Prop) (m : Action (Session δ) γ)
    (s : Session δ) (Q : γ → Session δ → Prop) : Prop :=
  Ends m s (fun a s' => Work rootSize P D s s' ∧ Q a s')
    fun e s' => Work rootSize P D s s' ∧ (LawfulDevice.infallible δ → E e)

namespace Does

variable {ε : Type} {D D' : Drift α} {E E' : Halt → Prop} {Q Q' : γ → Session δ → Prop}

theorem mono {m : Action (Session δ) γ} (h : Does rootSize P D E m s Q)
    (hQ : ∀ a s', s'.Fits → Work rootSize P D s s' → Q a s' → Q' a s') :
    Does rootSize P D E m s Q' :=
  Ends.mono h (fun a s' hfit h => ⟨h.1, hQ a s' hfit h.1 h.2⟩) fun _ _ _ h => h

theorem weaken {m : Action (Session δ) γ} (h : Does rootSize P D E m s Q)
    (hD : ∀ old now, D.rel old now → D'.rel old now) (hE : ∀ e, E e → E' e) :
    Does rootSize P D' E' m s Q :=
  Ends.mono h (fun _ _ _ h => ⟨⟨h.1.toProgress, hD _ _ h.1.drift⟩, h.2⟩)
    fun e _ _ h => ⟨⟨h.1.toProgress, hD _ _ h.1.drift⟩, fun hinf => hE e (h.2 hinf)⟩

theorem pure {a : γ} (hs : Sound rootSize s.file (P.cells s.file)) (h : Q a s) :
    Does rootSize P D E (pure a) s Q :=
  Ends.pure ⟨.of_same hs (.refl s), h⟩

theorem fail {e : Error} (hs : Sound rootSize s.file (P.cells s.file)) (h : E (.error e)) :
    Does rootSize P D E (fail e : Action (Session δ) γ) s Q :=
  Ends.fail ⟨.of_same hs (.refl s), fun _ => h⟩

theorem bind {m : Action (Session δ) ε} {f : ε → Action (Session δ) γ} {S : ε → Session δ → Prop}
    [∀ b, Keeps SizeLe (f b)] (h : Does rootSize P D E m s S)
    (hf : ∀ b s', s'.Fits → Work rootSize P D s s' → S b s' → Does rootSize P D E (f b) s' Q) :
    Does rootSize P D E (m >>= f) s Q := by
  refine Ends.bind h fun b s' hfit hb => ?_
  exact Ends.mono (hf b s' hfit hb.1 hb.2) (fun _ _ _ h => ⟨hb.1.trans h.1, h.2⟩)
    fun _ _ _ h => ⟨hb.1.trans h.1, h.2⟩

/-- Only starts with a file whose length is a word matter. -/
theorem of_fits {m : Action (Session δ) γ} [Keeps SizeLe m]
    (h : s.Fits → Does rootSize P D E m s Q) : Does rootSize P D E m s Q :=
  Ends.of_fits h

/-- Reading is work on any part. -/
theorem of_same {m : Action (Session δ) γ} (hs : Sound rootSize s.file (P.cells s.file))
    (h : WP m s (fun a s' => Same s s' ∧ Q a s')
      fun e s' => Same s s' ∧ (LawfulDevice.infallible δ → E e)) : Does rootSize P D E m s Q :=
  (Ends.of_wp h).mono (fun _ _ _ h => ⟨.of_same hs h.1, h.2⟩) fun _ _ _ h => ⟨.of_same hs h.1, h.2⟩

/-- Work on a part is work on what surrounds it, of which nothing else changes. -/
theorem hole {m : Action (Session δ) γ} {ctx : List Cell} {fill : β → α} {DM : Drift β}
    (hole : P.Hole M s.file ctx fill) (hs : Sound rootSize s.file (P.cells s.file))
    (hD : ∀ g, DM.rel (M.value s.file) (M.value g) → D.rel (fill (M.value s.file)) (fill (M.value g)))
    (h : Sound rootSize s.file (M.cells s.file) → Does rootSize M DM E m s Q) :
    Does rootSize P D E m s fun a s' =>
      Work rootSize M DM s s' ∧ P.value s'.file = fill (M.value s'.file) ∧ Q a s' := by
  have hold := (hole s.file (Nat.le_refl _) .refl).2
  have hwork (s' : Session δ) (h : Work rootSize M DM s s') :
      Work rootSize P D s s' ∧ P.value s'.file = fill (M.value s'.file) := by
    have hnew := h.evolves.value_eq hole hs
    exact ⟨⟨h.toProgress.hole hole hs, by rw [hold, hnew]; exact hD _ h.drift⟩, hnew⟩
  exact Ends.mono (h (hole.sound hs))
    (fun _ s' _ h => ⟨(hwork s' h.1).1, h.1, (hwork s' h.1).2, h.2⟩)
    fun _ s' _ h => ⟨(hwork s' h.1).1, h.2⟩

/-- Whichever way it ends, there is work done. -/
theorem work {m : Action (Session δ) γ} (h : Does rootSize P D E m s Q)
    (hfit : (endState m s).Fits) : Work rootSize P D s (endState m s) :=
  ((Ends.wp h hfit).mono (fun _ _ h => h.1) fun _ _ h => h.1).endState

end Does

end RecordFile
