import RecordFile.Proofs.File.Places

/-!
# The blocks of a chain, one by one

`File.chain` lists the blocks of a chained array. They are counted here: which of them is the first and
which comes behind another one (`File.getElem?_chain_zero`, `File.getElem?_chain_succ`), and where the
chain ends (`File.next?_getLast`).

The element `i` of the array is in the block `i / capacity` of its chain, in the slot `i % capacity`
(`Layout.children_of_chain`, `Layout.children_array_eq_some`); so the array has as many elements as its
blocks have slots (`ArrayLayout.length_children`).
-/

namespace RecordFile

variable {rootSize : Nat} {f : File} {a : ArrayLayout} {block next start last j : Nat}

/-! ## Blocks -/

namespace File

theorem getElem?_chain_zero : (f.chain rootSize a start)[0]? = some start := by
  rw [chain]
  split <;> rfl

/-- The block behind a block of a chain is the next one of the chain. -/
theorem getElem?_chain_succ (hblock : (f.chain rootSize a start)[j]? = some block)
    (hnext : f.next? rootSize a block = some next) :
    (f.chain rootSize a start)[j + 1]? = some next := by
  induction j generalizing start with
  | zero =>
    obtain rfl := Option.some.inj (getElem?_chain_zero.symm.trans hblock)
    rw [chain_of_some hnext]
    exact getElem?_chain_zero
  | succ j ih =>
    cases hsecond : f.next? rootSize a start with
    | none =>
      rw [chain_of_none hsecond] at hblock
      cases hblock
    | some second =>
      rw [chain_of_some hsecond] at hblock ⊢
      exact ih hblock

/-- A chain ends where it ends behind its first block. -/
theorem getLast?_chain_of_some (h : f.next? rootSize a start = some next) :
    (f.chain rootSize a start).getLast? = (f.chain rootSize a next).getLast? := by
  have hne : f.chain rootSize a next ≠ [] := List.ne_nil_of_mem (mem_chain_self f rootSize a next)
  rw [chain_of_some h, List.getLast?_cons, List.getLast?_eq_some_getLast hne]
  rfl

/-- The last block of a chain links no other one. -/
theorem next?_getLast (h : (f.chain rootSize a start).getLast? = some last) :
    f.next? rootSize a last = none := by
  induction start using chain_induct f rootSize a with
  | stop start hnext =>
    rw [chain_of_none hnext] at h
    obtain rfl := Option.some.inj h
    exact hnext
  | step start next hnext ih => exact ih ((getLast?_chain_of_some hnext).symm.trans h)

end File

/-! ## Elements -/

/-- The place of an element is a slot of the block that it falls into. -/
theorem Layout.children_array_eq_some {i : Nat} {p : Layout × Nat}
    (h : ((Layout.array a).children rootSize f start)[i]? = some p) :
    ∃ block, (f.chain rootSize a start)[i / a.capacity]? = some block ∧
      p = (a.element, block + i % a.capacity * a.element.size) := by
  have hpos := a.capacity_pos
  induction start using File.chain_induct f rootSize a generalizing i with
  | stop start hnext =>
    have hlt := (List.getElem?_eq_some_iff.mp h).1
    rw [children_array_of_none hnext, ArrayLayout.length_places] at hlt
    rw [children_array_of_lt hlt] at h
    refine ⟨start, ?_, ?_⟩
    · rw [File.chain_of_none hnext, Nat.div_eq_of_lt hlt]
      rfl
    · rw [Nat.mod_eq_of_lt hlt]
      exact (Option.some.inj h).symm
  | step start next hnext ih =>
    rcases Nat.lt_or_ge i a.capacity with hlt | hge
    · rw [children_array_of_lt hlt] at h
      refine ⟨start, ?_, ?_⟩
      · rw [File.chain_of_some hnext, Nat.div_eq_of_lt hlt]
        rfl
      · rw [Nat.mod_eq_of_lt hlt]
        exact (Option.some.inj h).symm
    · rw [children_array_of_le hnext hge] at h
      obtain ⟨block, hblock, hp⟩ := ih h
      refine ⟨block, ?_, ?_⟩
      · rw [File.chain_of_some hnext, Nat.div_eq_sub_div hpos hge]
        exact hblock
      · rw [Nat.mod_eq_sub_mod hge]
        exact hp

/-- The slots of a block are the places of the elements that fall into it. -/
theorem Layout.children_of_chain (hblock : (f.chain rootSize a start)[j]? = some block) {k : Nat}
    (hk : k < a.capacity) : ((Layout.array a).children rootSize f start)[j * a.capacity + k]? =
      some (a.element, block + k * a.element.size) := by
  induction j generalizing start with
  | zero =>
    obtain rfl := Option.some.inj (File.getElem?_chain_zero.symm.trans hblock)
    rw [Nat.zero_mul, Nat.zero_add]
    exact children_array_of_lt hk
  | succ j ih =>
    cases hnext : f.next? rootSize a start with
    | none =>
      rw [File.chain_of_none hnext] at hblock
      cases hblock
    | some next =>
      rw [File.chain_of_some hnext] at hblock
      have hindex : (j + 1) * a.capacity + k = j * a.capacity + k + a.capacity := by
        rw [Nat.add_mul, Nat.one_mul, Nat.add_right_comm]
      rw [hindex, children_array_of_le hnext (Nat.le_add_left ..), Nat.add_sub_cancel]
      exact ih hblock

theorem ArrayLayout.length_children (start : Nat) :
    ((Layout.array a).children rootSize f start).length =
      (f.chain rootSize a start).length * a.capacity := by
  simp [Layout.children, List.length_flatMap]

end RecordFile
