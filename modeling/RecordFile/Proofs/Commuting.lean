import RecordFile.Proofs.Layout.WellFormed
import RecordFile.Proofs.Tree

/-!
# Updates at different places

Updates at the ends of two paths commute if neither path goes on from the other
(`Layout.update_comm`), though each of them may make arrays longer on its way. The arrays that both
pass through become as long as the farther step asks for, whichever update is first.

So updates that are pairwise at such places may be made in any order (`Layout.foldl_update_perm`).
-/

namespace RecordFile

/-! ## Items of arrays that are made longer -/

namespace ArrayLayout

variable {a : ArrayLayout}

/-- An array that is made longer twice is as long as the more of both asks for. -/
theorem lengthen_comm (m n : Nat) (items : List Value) :
    a.lengthen m (a.lengthen n items) = a.lengthen n (a.lengthen m items) := by
  cases hext : a.extent with
  | fixed => simp only [lengthen_of_fixed hext]
  | chained =>
    simp only [lengthen, hext, List.append_assoc, List.length_append, List.length_replicate,
      List.replicate_append_replicate]
    congr 2
    omega

theorem lengthen_lengthen (n : Nat) (items : List Value) :
    a.lengthen n (a.lengthen n items) = a.lengthen n items := by
  cases hext : a.extent with
  | fixed => simp only [lengthen_of_fixed hext]
  | chained =>
    simp only [lengthen, hext, List.append_assoc, List.length_append, List.length_replicate,
      List.replicate_append_replicate]
    congr 2
    omega

/-- What stands behind an array does not matter for an item that is there. -/
theorem lengthen_modify {n i : Nat} {items : List Value} (change : Value → Value)
    (hi : a.extent = .chained → i < items.length) :
    a.lengthen n (items.modify i change) = (a.lengthen n items).modify i change := by
  cases hext : a.extent with
  | fixed => simp only [lengthen_of_fixed hext]
  | chained =>
    simp only [lengthen, hext, List.length_modify]
    generalize List.replicate _ a.element.zero = zeros
    have hlt := hi hext
    have hlt' : i < (items ++ zeros).length := by
      rw [List.length_append]
      omega
    rw [List.modify_eq_take_cons_drop hlt, List.modify_eq_take_cons_drop hlt',
      List.take_append_of_le_length (Nat.le_of_lt hlt), List.drop_append_of_le_length hlt,
      List.getElem_append_left hlt, List.append_assoc, List.cons_append]

/-- The item that a chain has been made long enough for is there. -/
theorem lt_length_lengthen (i : Nat) (items : List Value) (hext : a.extent = .chained) :
    i < (a.lengthen (i + 1) items).length := by
  have := a.le_blocksFor_mul (i + 1)
  simp only [lengthen, hext, List.length_append, List.length_replicate]
  omega

/-- Changing an item twice. -/
theorem modify_lengthen_self (change change' : Value → Value) (i : Nat) (items : List Value) :
    (a.lengthen (i + 1) ((a.lengthen (i + 1) items).modify i change')).modify i change =
      (a.lengthen (i + 1) items).modify i (change ∘ change') := by
  rw [lengthen_modify change' (lt_length_lengthen i items), lengthen_lengthen,
    List.modify_modify_eq]

/-- Changing two items, the first of which is that at `j`. -/
theorem modify_lengthen_comm {i j : Nat} (hne : i ≠ j) (change change' : Value → Value)
    (items : List Value) :
    (a.lengthen (i + 1) ((a.lengthen (j + 1) items).modify j change')).modify i change =
      (a.lengthen (j + 1) ((a.lengthen (i + 1) items).modify i change)).modify j change' := by
  calc
    _ = ((a.lengthen (i + 1) (a.lengthen (j + 1) items)).modify j change').modify i change := by
      rw [lengthen_modify change' (lt_length_lengthen j items)]
    _ = ((a.lengthen (j + 1) (a.lengthen (i + 1) items)).modify i change).modify j change' := by
      rw [lengthen_comm, List.modify_modify_ne _ _ _ hne.symm]
    _ = _ := by rw [lengthen_modify change (lt_length_lengthen i items)]

end ArrayLayout

/-! ## Updates -/

namespace Layout

/-- Updates at the ends of two paths commute, unless one path goes on from the other. -/
theorem update_comm {l : Layout} {steps steps' : List UInt64} (h : Diverge steps steps')
    (change change' : Value → Value) (v : Value) :
    l.update change steps (l.update change' steps' v) =
      l.update change' steps' (l.update change steps v) := by
  induction steps generalizing l steps' v with
  | nil => exact absurd h Diverge.not_nil_left
  | cons step rest ih =>
    cases steps' with
    | nil => exact absurd h Diverge.not_nil_right
    | cons step' rest' =>
      have hbelow (l : Layout) (hsame : step = step') (v : Value) :
          l.update change rest (l.update change' rest' v) =
            l.update change' rest' (l.update change rest v) := by
        subst hsame
        exact ih h.tail v
      have hne (hstep : step ≠ step') : step.toNat ≠ step'.toNat :=
        fun h => hstep (UInt64.toNat_inj.mp h)
      cases l with
      | scalar kind => rfl
      | record r =>
        cases v with
        | record fields =>
          by_cases hstep : step = step'
          · subst hstep
            cases hf : r.fields[step.toNat]? with
            | none => simp only [update, hf]
            | some f =>
              simp only [update, hf, List.modify_modify_eq]
              refine congrArg (fun g => Value.record (fields.modify step.toNat g)) (funext fun w => ?_)
              exact congrArg (Prod.mk w.1) (hbelow f.layout rfl w.2)
          · cases hf : r.fields[step.toNat]? with
            | none => cases hf' : r.fields[step'.toNat]? <;> simp only [update, hf, hf']
            | some f =>
              cases hf' : r.fields[step'.toNat]? with
              | none => simp only [update, hf, hf']
              | some f' =>
                simp only [update, hf, hf']
                rw [List.modify_modify_ne _ _ _ (hne hstep).symm]
        | _ => rfl
      | array a =>
        cases v with
        | array items =>
          simp only [update]
          by_cases hstep : step = step'
          · subst hstep
            rw [ArrayLayout.modify_lengthen_self, ArrayLayout.modify_lengthen_self]
            exact congrArg (fun g => Value.array (List.modify _ step.toNat g))
              (funext (hbelow a.element rfl))
          · rw [ArrayLayout.modify_lengthen_comm (hne hstep)]
        | _ => rfl

/-- Updates that are pairwise at different places may be made in any order. -/
theorem foldl_update_perm {l : Layout} {changes changes' : List (List UInt64 × (Value → Value))}
    (h : changes.Perm changes')
    (hdiverge : changes.Pairwise fun c c' => Diverge c.1 c'.1) (v : Value) :
    changes.foldl (fun v c => l.update c.2 c.1 v) v =
      changes'.foldl (fun v c => l.update c.2 c.1 v) v := by
  refine h.foldl_eq' (fun c hc c' hc' v => ?_) v
  by_cases heq : c = c'
  · rw [heq]
  · have : Std.Symm fun c c' : List UInt64 × (Value → Value) => Diverge c.1 c'.1 :=
      ⟨fun _ _ => Diverge.symm⟩
    exact update_comm (hdiverge.forall hc hc' heq).symm c'.2 c.2 v

end Layout

end RecordFile
