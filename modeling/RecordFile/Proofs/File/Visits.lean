import RecordFile.Proofs.File.Places

/-!
# What a walk visits

`Layout.Visits` says that a walk through a part, of which nothing is known but its type and where it
lies, has read at the offsets in `log` and nowhere else. A walk goes down into the type, never up: from a
record to its fields and from a block to its slots. Only along a chain does it go sideways, and there
each block lies behind the one before and inside the file (`ArrayLayout.Along`). It may pass over
anything and stop anywhere.

So there is a bound on what such a walk reads, which depends on the type and the length of the file
only (`Layout.Visits.length_le`).
-/

namespace RecordFile

/-- Distinct numbers from `low` up to `high` are not more than there are. -/
theorem length_le_of_nodup {low high : Nat} {numbers : List Nat} (hnodup : numbers.Nodup)
    (hmem : ∀ x ∈ numbers, low ≤ x ∧ x < high) : numbers.length ≤ high - low :=
  calc numbers.length
    _ = numbers.toFinset.card := (List.toFinset_card_of_nodup hnodup).symm
    _ ≤ (Finset.Ico low high).card := Finset.card_le_card fun x hx =>
      Finset.mem_Ico.mpr (hmem x (List.mem_toFinset.mp hx))
    _ = high - low := Nat.card_Ico low high

/-! ## Blocks along a chain -/

/-- The blocks that a walk through an array visits from the one at `start` on: there are more than that
only along a chain, where each lies behind the one before, past the root record and inside the file. -/
structure ArrayLayout.Along (rootSize fileSize : Nat) (a : ArrayLayout) (start : Nat)
    (blocks : List Nat) : Prop where
  head : blocks.head? = some start
  increasing : blocks.Pairwise (· < ·)
  chained : blocks.tail ≠ [] → a.extent = .chained
  inside : ∀ b ∈ blocks.tail, rootSize ≤ b ∧ b + a.size ≤ fileSize

namespace ArrayLayout.Along

variable {rootSize fileSize start next : Nat} {a : ArrayLayout} {blocks : List Nat}

theorem single (rootSize fileSize : Nat) (a : ArrayLayout) (start : Nat) :
    a.Along rootSize fileSize start [start] :=
  ⟨rfl, List.pairwise_singleton .., nofun, nofun⟩

/-- A block in front of those that its link leads to. -/
theorem cons (h : a.Along rootSize fileSize next blocks) (hext : a.extent = .chained)
    (hlt : start < next) (hroot : rootSize ≤ next) (hle : next + a.size ≤ fileSize) :
    a.Along rootSize fileSize start (start :: blocks) := by
  obtain ⟨hhead, hincreasing, -, hinside⟩ := h
  obtain ⟨rest, rfl⟩ := List.head?_eq_some_iff.mp hhead
  refine ⟨rfl, List.pairwise_cons.mpr ⟨fun b hb => ?_, hincreasing⟩, fun _ => hext,
    List.forall_mem_cons.mpr ⟨⟨hroot, hle⟩, hinside⟩⟩
  rcases List.mem_cons.mp hb with rfl | hb
  · exact hlt
  · exact hlt.trans ((List.pairwise_cons.mp hincreasing).1 b hb)

/-- There is no room in a file for more blocks than it has bytes. -/
theorem length_le (h : a.Along rootSize fileSize start blocks) : blocks.length ≤ fileSize + 1 := by
  obtain ⟨hhead, hincreasing, -, hinside⟩ := h
  obtain ⟨rest, rfl⟩ := List.head?_eq_some_iff.mp hhead
  obtain ⟨hlt, hincreasing⟩ := List.pairwise_cons.mp hincreasing
  refine Nat.succ_le_succ ?_
  calc rest.length
    _ ≤ fileSize + 1 - 1 := length_le_of_nodup (hincreasing.imp Nat.ne_of_lt) fun b hb => by
      have := hlt b hb
      have := (hinside b hb).2
      omega
    _ = fileSize := Nat.add_sub_cancel ..

end ArrayLayout.Along

/-! ## Visits -/

/-- A block that a walk along a chain has visited. -/
structure BlockVisit where
  offset : Nat
  /-- Whether the block was read when the walk came to it. -/
  entered : Bool
  /-- Where the walks read that started at its slots. -/
  slots : List Nat
  /-- Whether its link was read when the walk was done with it. -/
  left : Bool

/-- Where was read while a block was visited. -/
def BlockVisit.log (a : ArrayLayout) (v : BlockVisit) : List Nat :=
  (if v.entered then [v.offset] else []) ++ v.slots ++ if v.left then [a.linkOffset v.offset] else []

theorem BlockVisit.log_of_not_left (a : ArrayLayout) (offset : Nat) (entered : Bool) (slots : List Nat) :
    log a ⟨offset, entered, slots, false⟩ = (if entered then [offset] else []) ++ slots := by
  rw [log, if_neg Bool.false_ne_true, List.append_nil]

mutual

/-- A walk through the part at `base` may have read at the offsets in `log`, in this order. -/
inductive Layout.Visits (rootSize fileSize : Nat) : Layout → (base : Nat) → (log : List Nat) → Prop
  | stop (l : Layout) (base : Nat) : Layout.Visits rootSize fileSize l base []
  | record {r : RecordLayout} {base : Nat} {log : List Nat}
    (fields : RowVisits rootSize fileSize (r.places base) log) :
    Layout.Visits rootSize fileSize (.record r) base log
  | array {a : ArrayLayout} {base : Nat} (blocks : List BlockVisit)
    (along : a.Along rootSize fileSize base (blocks.map (·.offset)))
    (slots : ∀ v ∈ blocks, RowVisits rootSize fileSize (a.places v.offset) v.slots) :
    Layout.Visits rootSize fileSize (.array a) base (blocks.flatMap (·.log a))

/-- Walks through some parts, one after the other, may have read at the offsets in `log`. -/
inductive RowVisits (rootSize fileSize : Nat) : List (Layout × Nat) → (log : List Nat) → Prop
  | stop (row : List (Layout × Nat)) : RowVisits rootSize fileSize row []
  | cons {p : Layout × Nat} {row : List (Layout × Nat)} {log more : List Nat}
    (part : Layout.Visits rootSize fileSize p.1 p.2 log)
    (rest : RowVisits rootSize fileSize row more) :
    RowVisits rootSize fileSize (p :: row) (log ++ more)

end

namespace RowVisits

variable {rootSize fileSize : Nat} {p : Layout × Nat} {row : List (Layout × Nat)} {log : List Nat}

/-- One part only is visited. -/
theorem of_mem (hp : p ∈ row) (h : p.1.Visits rootSize fileSize p.2 log) :
    RowVisits rootSize fileSize row log := by
  induction row with
  | nil => cases hp
  | cons q row ih =>
    rcases List.mem_cons.mp hp with rfl | hp
    · rw [← List.append_nil log]
      exact .cons h (.stop row)
    · exact .cons (.stop q.1 q.2) (ih hp)

end RowVisits

namespace Layout.Visits

variable {rootSize fileSize base next : Nat} {a : ArrayLayout} {log : List Nat}

/-- The blocks that were visited of an array. -/
theorem exists_blocks (h : (Layout.array a).Visits rootSize fileSize base log) :
    ∃ blocks : List BlockVisit, a.Along rootSize fileSize base (blocks.map (·.offset)) ∧
      (∀ v ∈ blocks, RowVisits rootSize fileSize (a.places v.offset) v.slots) ∧
        blocks.flatMap (·.log a) = log := by
  cases h with
  | stop => exact ⟨[⟨base, false, [], false⟩], .single .., by simpa using .stop _, rfl⟩
  | array blocks along slots => exact ⟨blocks, along, slots, rfl⟩

/-- One block only is visited. -/
theorem block (v : BlockVisit) (h : RowVisits rootSize fileSize (a.places v.offset) v.slots) :
    (Layout.array a).Visits rootSize fileSize v.offset (v.log a) := by
  have hvisits : (Layout.array a).Visits rootSize fileSize v.offset ([v].flatMap (·.log a)) :=
    .array [v] (.single ..) (by simpa using h)
  simpa using hvisits

/-- The first block only is visited. -/
theorem of_row (h : RowVisits rootSize fileSize (a.places base) log) :
    (Layout.array a).Visits rootSize fileSize base log := by
  have := block ⟨base, false, log, false⟩ h
  rwa [BlockVisit.log_of_not_left, if_neg Bool.false_ne_true, List.nil_append] at this

/-- One slot only is visited. -/
theorem of_slot {i : Nat} (hi : i < a.capacity)
    (h : a.element.Visits rootSize fileSize (base + i * a.element.size) log) :
    (Layout.array a).Visits rootSize fileSize base log := by
  have hmem : (a.element, base + i * a.element.size) ∈ a.places base :=
    List.mem_map_of_mem (List.mem_range.mpr hi)
  exact of_row (.of_mem hmem h)

/-- One field only is visited. -/
theorem of_field {r : RecordLayout} {f : FieldLayout} (hf : f ∈ r.fields)
    (h : f.layout.Visits rootSize fileSize (base + f.offset) log) :
    (Layout.record r).Visits rootSize fileSize base log := by
  have hmem : (f.layout, base + f.offset) ∈ r.places base :=
    List.mem_map_of_mem (f := fun f : FieldLayout => (f.layout, base + f.offset)) hf
  exact .record (.of_mem hmem h)

/-- A block is visited in front of those that its link leads to. -/
theorem cons_block (v : BlockVisit) (h : RowVisits rootSize fileSize (a.places v.offset) v.slots)
    (hext : a.extent = .chained) (hlt : v.offset < next) (hroot : rootSize ≤ next) (hle : next + a.size ≤ fileSize)
    (hnext : (Layout.array a).Visits rootSize fileSize next log) :
    (Layout.array a).Visits rootSize fileSize v.offset (v.log a ++ log) := by
  obtain ⟨blocks, along, slots, rfl⟩ := hnext.exists_blocks
  exact .array (v :: blocks) (along.cons hext hlt hroot hle) (List.forall_mem_cons.mpr ⟨h, slots⟩)

end Layout.Visits

/-! ## How much is read at most -/

mutual

/-- The most offsets at which a walk through the type reads in a file of that length. -/
def Layout.readBound (fileSize : Nat) : Layout → Nat
  | .scalar _ => 0
  | .record ⟨_, fields, _, _⟩ => FieldLayout.readBounds fileSize fields
  | .array ⟨element, capacity, _, _, _⟩ => (fileSize + 1) * (capacity * element.readBound fileSize + 2)

def FieldLayout.readBounds (fileSize : Nat) : List FieldLayout → Nat
  | [] => 0
  | ⟨_, layout, _⟩ :: rest => layout.readBound fileSize + FieldLayout.readBounds fileSize rest

end

section

variable {rootSize fileSize : Nat}

theorem FieldLayout.readBounds_eq (fields : List FieldLayout) :
    readBounds fileSize fields = (fields.map (·.layout.readBound fileSize)).sum := by
  induction fields with
  | nil => rw [readBounds, List.map_nil, List.sum_nil]
  | cons f rest ih =>
    obtain ⟨name, layout, offset⟩ := f
    rw [readBounds, ih, List.map_cons, List.sum_cons]

theorem Layout.readBound_record (r : RecordLayout) (base : Nat) :
    (record r).readBound fileSize = ((r.places base).map (·.1.readBound fileSize)).sum := by
  rw [r.map_places base (·.readBound fileSize)]
  obtain ⟨name, fields, size, hasChain⟩ := r
  rw [readBound, FieldLayout.readBounds_eq]

theorem Layout.readBound_array (a : ArrayLayout) (block : Nat) :
    (array a).readBound fileSize =
      (fileSize + 1) * (((a.places block).map (·.1.readBound fileSize)).sum + 2) := by
  rw [a.map_places block (·.readBound fileSize), List.sum_replicate, smul_eq_mul]
  obtain ⟨element, capacity, extent, size, hpos⟩ := a
  rw [readBound]

theorem BlockVisit.length_log_le (a : ArrayLayout) (v : BlockVisit) :
    (v.log a).length ≤ v.slots.length + 2 := by
  obtain ⟨offset, entered, slots, left⟩ := v
  cases entered <;> cases left <;> simp [log]

mutual

/-- A walk through a part reads no more often than the type and the length of the file allow. -/
theorem Layout.Visits.length_le {l : Layout} {base : Nat} {log : List Nat} :
    l.Visits rootSize fileSize base log → log.length ≤ l.readBound fileSize
  | .stop l base => Nat.zero_le _
  | .record (r := r) fields => by
    rw [Layout.readBound_record r base]
    exact fields.length_le
  | .array (a := a) blocks along slots => by
    have hblock : ∀ v ∈ blocks, (v.log a).length ≤
        ((a.places base).map (·.1.readBound fileSize)).sum + 2 := fun v hv => by
      have hslots := (slots v hv).length_le
      rw [a.map_places v.offset (·.readBound fileSize)] at hslots
      rw [a.map_places base (·.readBound fileSize)]
      exact (v.length_log_le a).trans (Nat.add_le_add_right hslots 2)
    rw [Layout.readBound_array a base, List.length_flatMap]
    calc (blocks.map fun v => (v.log a).length).sum
      _ ≤ (blocks.map fun v => (v.log a).length).length * _ := by
        refine (List.sum_le_card_nsmul _ _ fun n hn => ?_).trans_eq (smul_eq_mul ..)
        obtain ⟨v, hv, rfl⟩ := List.mem_map.mp hn
        exact hblock v hv
      _ ≤ _ := Nat.mul_le_mul_right _ (by simpa using along.length_le)

theorem RowVisits.length_le {row : List (Layout × Nat)} {log : List Nat} :
    RowVisits rootSize fileSize row log → log.length ≤ (row.map (·.1.readBound fileSize)).sum
  | .stop row => Nat.zero_le _
  | .cons part rest => by
    rw [List.length_append, List.map_cons, List.sum_cons]
    exact Nat.add_le_add part.length_le rest.length_le

end

end

end RecordFile
