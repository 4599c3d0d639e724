import RecordFile.Proofs.Walk.Keeps

/-!
# Audits that break off

An audit adds up the bytes of the blocks that it visits, and a program may be built so that it breaks
off when the sum is no word. Up to then it does, call by call, what a program does that lets sums wrap
around: either both end alike, or the first one breaks off on the way to where the other one ends
(`Audit.truncates_run`). This holds on every device, whatever it holds and whichever calls fail.
-/

namespace RecordFile

open Session

section

variable {δ α β : Type}

/-- The first action ends just as the second one does, or it breaks off, and `R` leads from there to
where the second one ends. -/
def Truncates (R : Session δ → Session δ → Prop) (m m' : Action (Session δ) α) : Prop :=
  ∀ s, m s = m' s ∨ ∃ s₁, m s = .error .abort s₁ ∧ R s₁ (endState m' s)

namespace Truncates

theorem refl {R : Session δ → Session δ → Prop} (m : Action (Session δ) α) : Truncates R m m :=
  fun _ => .inl rfl

/-- The first action breaks off at once. -/
theorem abort {R : Session δ → Session δ → Prop} {m : Action (Session δ) α} (h : Keeps R m)
    (f : β → Action (Session δ) α) : Truncates R (orAbort none >>= f) m :=
  fun s => .inr ⟨s, rfl, h.holds s⟩

theorem bind [Device δ] {R : Session δ → Session δ → Prop} [ReadStable R]
    {m m' : Action (Session δ) β} {f f' : β → Action (Session δ) α} (h : Truncates R m m')
    (hf : ∀ b, Truncates R (f b) (f' b)) (hkeeps : ∀ b, Keeps R (f' b)) :
    Truncates R (m >>= f) (m' >>= f') := by
  intro s
  rcases h s with heq | ⟨s₁, habort, hR⟩
  · cases hrun : m' s with
    | error e s₁ => exact .inl ((bind_error (heq.trans hrun)).trans (bind_error hrun).symm)
    | ok b s₁ =>
      have hok : (m >>= f) s = f b s₁ := bind_ok (heq.trans hrun)
      have hok' : (m' >>= f') s = f' b s₁ := bind_ok hrun
      rw [endState, hok, hok']
      exact hf b s₁
  · refine .inr ⟨s₁, bind_error habort, ?_⟩
    rcases endState_bind (s := s) m' f' with hend | ⟨b, hend⟩
    · rwa [hend]
    · rw [hend]
      exact ReadStable.trans hR ((hkeeps b).holds _)

end Truncates

end

namespace Audit

variable {δ : Type} [Device δ] {R : Session δ → Session δ → Prop} [ReadStable R] {rootSize : Nat}

theorem truncates_visitSlots {a : ArrayLayout} {item item' : Nat → Tally → Action (Session δ) Tally}
    (h : ∀ offset t, Truncates R (item offset t) (item' offset t))
    (hkeeps : ∀ offset t, Keeps R (item' offset t)) (block left index : Nat) (t : Tally) :
    Truncates R (visitSlots a item block left index t) (visitSlots a item' block left index t) := by
  induction left generalizing index t with
  | zero =>
    rw [visitSlots, visitSlots]
    exact .refl _
  | succ left ih =>
    have := fun index t => keeps_visitSlots (a := a) hkeeps block left index t
    rw [visitSlots, visitSlots]
    exact .bind (.refl _)
      (fun offset => .bind (h offset t) (fun t => ih (index + 1) t) fun _ => inferInstance)
      fun _ => inferInstance

/-- The one place where a sum may break the program off is where a block is counted. -/
theorem truncates_visitChain {a : ArrayLayout} {slots slots' : Nat → Tally → Action (Session δ) Tally}
    (h : ∀ block t, Truncates R (slots block t) (slots' block t))
    (hkeeps : ∀ block t, Keeps R (slots' block t)) (block : Nat) (t : Tally) :
    Truncates R (visitChain .breaksOff rootSize a slots block t)
      (visitChain .wraps rootSize a slots' block t) := by
  induction hmeasure : wordLimit - block using Nat.strongRecOn generalizing block t with
  | ind n ih =>
    subst hmeasure
    have hnext : ∀ (n : Onward block) (t : Tally),
        Keeps R (visitChain .wraps rootSize a slots' n.val t) :=
      fun n t => keeps_visitChain .wraps rootSize hkeeps n.val t
    have := fun linkOffset t found => keeps_visitNext .wraps (a := a) hnext linkOffset t found
    rw [visitChain, visitChain]
    refine .bind (h block t) (fun t => .bind (.refl _) (fun linkOffset => .bind (.refl _)
      (fun found => ?_) inferInstance) inferInstance) inferInstance
    obtain e | (_ | ⟨next, hlt⟩) := found
    · exact .refl _
    · exact .refl _
    · dsimp only
      split
      · exact .refl _
      · have hrest := fun t => ih _ (by omega) next t rfl
        have hkeeps := fun t => hnext ⟨next, hlt⟩ t
        rcases Overflow.breaksOff.add_cases t.reachable a.size with hsum | ⟨-, hnone, -⟩
        · rw [hsum]
          exact .bind (.refl _) (fun reachable => hrest _) fun _ => inferInstance
        · rw [hnone]
          exact .abort inferInstance _

mutual

/-- The two programs differ in no more than what happens to a sum. -/
theorem truncates_visit (rootSize : Nat) : ∀ (l : Layout) (base : Nat) (t : Tally),
    Truncates R (visit (δ := δ) .breaksOff rootSize l base t) (visit .wraps rootSize l base t)
  | .scalar kind, base, t => by
    unfold visit
    exact .refl _
  | .record ⟨_, fields, _, hasChain⟩, base, t => by
    unfold visit
    split
    · exact truncates_visitFields rootSize fields base t
    · exact .refl _
  | .array ⟨element, capacity, extent, size, capacity_pos⟩, base, t => by
    have hkeeps := fun o t => keeps_visit (R := R) (δ := δ) .wraps rootSize element o t
    have hslots : ∀ (block : Nat) (t : Tally), Truncates R
        (if element.hasChain then visitSlots ⟨element, capacity, extent, size, capacity_pos⟩
          (visit (δ := δ) .breaksOff rootSize element) block capacity 0 t else pure t)
        (if element.hasChain then visitSlots ⟨element, capacity, extent, size, capacity_pos⟩
          (visit .wraps rootSize element) block capacity 0 t else pure t) := fun block t => by
      split
      · exact truncates_visitSlots (fun o t => truncates_visit rootSize element o t) hkeeps block
          capacity 0 t
      · exact .refl _
    have hkeeps' := fun block t => keeps_visitSlots
      (a := ⟨element, capacity, extent, size, capacity_pos⟩) hkeeps block capacity 0 t
    unfold visit
    dsimp only
    cases extent with
    | fixed => exact hslots base t
    | chained => exact truncates_visitChain hslots (fun block t => inferInstance) base t

theorem truncates_visitFields (rootSize : Nat) :
    ∀ (fields : List FieldLayout) (base : Nat) (t : Tally), Truncates R
      (visitFields (δ := δ) .breaksOff rootSize fields base t)
      (visitFields .wraps rootSize fields base t)
  | [], base, t => by
    unfold visitFields
    exact .refl _
  | ⟨name, layout, offset⟩ :: rest, base, t => by
    have := fun t => keeps_visitFields (R := R) (δ := δ) .wraps rootSize rest base t
    have := fun start => keeps_visit (R := R) (δ := δ) .wraps rootSize layout start t
    unfold visitFields
    exact .bind (.refl _) (fun start => .bind (truncates_visit rootSize layout start t)
      (fun t => truncates_visitFields rootSize rest base t) inferInstance) inferInstance

end

/-- An audit that breaks off where sums are not words does, up to then, what one does that lets them
wrap around. -/
theorem truncates_run (schema : Schema) :
    Truncates R (run (δ := δ) .breaksOff schema) (run .wraps schema) := by
  rw [run, run]
  refine .bind (truncates_visit schema.size schema.rootLayout 0 _) (fun t => .refl _) fun t => ?_
  refine @Keeps.bind _ _ _ _ _ _ _ _ inferInstance fun found => ?_
  split <;> infer_instance

end Audit

end RecordFile
