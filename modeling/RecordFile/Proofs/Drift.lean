import RecordFile.Proofs.Leaves

/-!
# What a part may become while an operation is under way

A `Drift` is a preorder on the values of a part. An operation that may break off anywhere leaves the
part with a value that it has drifted to.

- `Layout.writing l v`: a value that is being overlaid with `v`. Overlaying it gives what it would
  have given at first, and its scalars do as `Scalar.Drifts` says.
- `Layout.tracing l steps`: arrays on the way along `steps` become longer.
- `Layout.writingAt l steps target v`: both, where `v` is written at the end of the steps.

Arrays drift as their items do: items may be written one by one (`Drift.Admits`), and blocks of
zeros may be put behind them as long as there is something left to hold (`ArrayLayout.Grows`).
-/

namespace RecordFile

/-- What a value may become. -/
structure Drift (α : Type) where
  rel : α → α → Prop
  refl : ∀ a, rel a a
  trans : ∀ {a b c}, rel a b → rel b c → rel a c

namespace Drift

variable {α β : Type}

/-- What is computed from the value stays. -/
def keeping (f : α → β) : Drift α where
  rel a b := f b = f a
  refl _ := rfl
  trans h h' := h'.trans h

def both (D D' : Drift α) : Drift α where
  rel a b := D.rel a b ∧ D'.rel a b
  refl a := ⟨D.refl a, D'.refl a⟩
  trans h h' := ⟨D.trans h.1 h'.1, D'.trans h.2 h'.2⟩

/-- What a part may become inside of a value. -/
def comap (D : Drift β) (fill : α → β) : Drift α where
  rel a b := D.rel (fill a) (fill b)
  refl a := D.refl (fill a)
  trans := D.trans

/-- The scalars, which have their kind at the end of some steps, do as `Scalar.Drifts` says. -/
def leaves (kind? : List Nat → Option Scalar) (supplied? : List Nat → Option Value) :
    Drift Value where
  rel old now := ∀ steps kind, kind? steps = some kind →
    kind.Drifts (supplied? steps) (old.at? steps) (now.at? steps)
  refl _ _ _ _ := .refl
  trans h h' steps kind hkind := (h steps kind hkind).trans (h' steps kind hkind)

variable {kind? : List Nat → Option Scalar} {supplied? : List Nat → Option Value}

/-- The scalars of an array do as those of an item, if only that changes. -/
theorem leaves_set {items : List Value} {i : Nat} {w w' : Value} (hnil : kind? [] = none)
    (hi : items[i]? = some w)
    (h : (leaves (fun steps => kind? (i :: steps)) fun steps => supplied? (i :: steps)).rel w w') :
    (leaves kind? supplied?).rel (.array items) (.array (items.set i w')) := by
  intro steps kind hkind
  obtain _ | ⟨j, rest⟩ := steps
  · rw [hnil] at hkind
    cases hkind
  have hlt := (List.getElem?_eq_some_iff.mp hi).1
  rw [Value.at?, Value.at?, List.getElem?_set]
  split
  · subst j
    rw [hi]
    simpa [hlt] using h rest kind hkind
  · exact .refl

/-- An item between others. -/
theorem leaves_append_singleton {pre post : List Value} {w w' : Value} (hnil : kind? [] = none)
    (h : (leaves (fun steps => kind? (pre.length :: steps))
      fun steps => supplied? (pre.length :: steps)).rel w w') :
    (leaves kind? supplied?).rel (.array (pre ++ [w] ++ post)) (.array (pre ++ [w'] ++ post)) := by
  have hi : (pre ++ [w] ++ post)[pre.length]? = some w := by simp
  have := leaves_set hnil hi h
  simpa using this

/-- The scalars of a record do as those of an array of its fields. -/
theorem leaves_record {names : List String} {old now : List Value} (hnil : kind? [] = none)
    (h : (leaves kind? supplied?).rel (.array old) (.array now)) :
    (leaves kind? supplied?).rel (.record (names.zip old)) (.record (names.zip now)) := by
  intro steps kind hkind
  obtain _ | ⟨i, rest⟩ := steps
  · rw [hnil] at hkind
    cases hkind
  have hat (items : List Value) : (Value.record (names.zip items)).at? (i :: rest) =
      names[i]?.bind fun _ => (Value.array items).at? (i :: rest) := by
    rw [Value.at?, Value.at?, List.zip_eq_zipWith, List.getElem?_zipWith]
    cases names[i]? <;> cases items[i]? <;> rfl
  rw [hat, hat]
  cases names[i]? with
  | none => exact .refl
  | some n => exact h (i :: rest) kind hkind

end Drift

open Drift

namespace Layout

/-- What a value may become while another one is being written over it. -/
def writing (l : Layout) (v : Value) : Drift Value :=
  both (keeping (l.overlay v)) (leaves l.kind? (l.supplied? v))

/-- What a value may become while a walk along some steps makes its arrays longer. -/
def tracing (l : Layout) (steps : List UInt64) : Drift Value :=
  both (keeping fun w change => l.update change steps w) (leaves l.kind? fun _ => none)

/-- What a value that is written at the end of some steps supplies at the end of others. -/
def suppliedAt? (target : Layout) (steps : List Nat) (v : Value) (at? : List Nat) : Option Value :=
  if steps <+: at? then target.supplied? v (at?.drop steps.length) else none

/-- What a value may become while another one is being written at the end of some steps. -/
def writingAt (l : Layout) (steps : List UInt64) (target : Layout) (v : Value) : Drift Value :=
  both (keeping (l.update (target.overlay v) steps))
    (leaves l.kind? (target.suppliedAt? (steps.map UInt64.toNat) v))

/-- A value may be written all at once. -/
theorem writing_overlay {l : Layout} (hw : l.WellFormed) (v old : Value) :
    (l.writing v).rel old (l.overlay v old) :=
  ⟨overlay_overlay hw v old, fun _ _ => drifts_overlay v old⟩

/-- On the way to where it is written, a value may become what walking there makes of it. -/
theorem writingAt_of_tracing {l target : Layout} {steps : List UInt64} {v old now : Value}
    (h : (l.tracing steps).rel old now) : (l.writingAt steps target v).rel old now :=
  ⟨congrFun h.1 _, fun steps kind hkind => (h.2 steps kind hkind).of_none⟩

end Layout

/-! ## Steps -/

/-- With a value of type `target` in it at the end of some steps, `fill` gives a value of type `l`:
it is updated as that value is, and its scalars do as those of that value. -/
structure Layout.Surrounds (l : Layout) (steps : List UInt64) (target : Layout)
    (fill : Value → Value) : Prop where
  update : ∀ change rest w,
    l.update change (steps ++ rest) (fill w) = fill (target.update change rest w)
  leaves : ∀ supplied? w w',
    (leaves target.kind? fun below => supplied? (steps.map UInt64.toNat ++ below)).rel w w' →
      (leaves l.kind? supplied?).rel (fill w) (fill w')

namespace Layout.Surrounds

variable {l m n : Layout} {steps steps' : List UInt64} {fill fill' : Value → Value}

theorem refl (l : Layout) : l.Surrounds [] l id := ⟨fun _ _ _ => rfl, fun _ _ _ h => h⟩

theorem trans (h : l.Surrounds steps m fill) (h' : m.Surrounds steps' n fill') :
    l.Surrounds (steps ++ steps') n (fill ∘ fill') where
  update change rest w := by
    rw [List.append_assoc, Function.comp_apply, h.update, h'.update, Function.comp_apply]
  leaves supplied? w w' hw := by
    refine h.leaves supplied? _ _ (h'.leaves _ w w' fun below kind hkind => ?_)
    simpa using hw below kind hkind

/-- What is at the end of the steps is updated. -/
theorem update_self (h : l.Surrounds steps m fill) (change : Value → Value) (w : Value) :
    l.update change steps (fill w) = fill (change w) := by
  have := h.update change [] w
  rwa [List.append_nil, Layout.update] at this

/-- A walk goes on below. -/
theorem tracing (h : l.Surrounds steps m fill) {rest : List UInt64} {w w' : Value}
    (hw : (m.tracing rest).rel w w') : (l.tracing (steps ++ rest)).rel (fill w) (fill w') := by
  refine ⟨funext fun change => ?_, h.leaves _ w w' hw.2⟩
  show l.update _ _ _ = l.update _ _ _
  rw [h.update, h.update]
  exact congrArg fill (congrFun hw.1 change)

/-- A value is written at the end of the steps. -/
theorem writingAt (h : l.Surrounds steps m fill) {v w w' : Value} (hw : (m.writing v).rel w w') :
    (l.writingAt steps m v).rel (fill w) (fill w') := by
  refine ⟨?_, h.leaves _ w w' fun below kind hkind => ?_⟩
  · show l.update _ _ _ = l.update _ _ _
    rw [h.update_self, h.update_self]
    exact congrArg fill hw.1
  · simpa [suppliedAt?] using hw.2 below kind hkind

end Layout.Surrounds

/-! ## Items -/

/-- Each of the first items may become what it may while a value of its type is written over it. -/
def Drift.Admits (D : Drift (List Value)) (parts : List (Layout × Value)) : Prop :=
  ∀ i l v, parts[i]? = some (l, v) → ∀ items w w', items[i]? = some w → (l.writing v).rel w w' →
    D.rel items (items.set i w')

namespace Drift.Admits

variable {D : Drift (List Value)} {p : Layout × Value} {parts : List (Layout × Value)}

theorem head (h : D.Admits (p :: parts)) {w w' : Value} {rest : List Value}
    (hw : (p.1.writing p.2).rel w w') : D.rel (w :: rest) (w' :: rest) :=
  h 0 p.1 p.2 rfl (w :: rest) w w' rfl hw

theorem tail (h : D.Admits (p :: parts)) (w : Value) : (D.comap (w :: ·)).Admits parts :=
  fun i l v hp items _ w' hi hw => h (i + 1) l v hp (w :: items) _ w' hi hw

/-- The first items may be written all at once. -/
theorem overlayRow {row : List Layout} (hw : ∀ l ∈ row, l.WellFormed) {vs : List Value}
    (h : D.Admits (row.zip vs)) (old : List Value) :
    D.rel old (Layout.overlayRow row vs old) := by
  induction row generalizing D vs old with
  | nil => exact D.refl old
  | cons l row ih =>
    obtain ⟨hl, hw⟩ := List.forall_mem_cons.mp hw
    obtain _ | ⟨v, vs⟩ := vs
    · exact D.refl old
    obtain _ | ⟨w, old⟩ := old
    · exact D.refl []
    rw [List.zip_cons_cons] at h
    exact D.trans (h.head (Layout.writing_overlay hl v w)) (ih hw (h.tail (l.overlay v w)) old)

theorem take (h : D.Admits parts) (n : Nat) : D.Admits (parts.take n) := by
  intro i l v hp
  rw [List.getElem?_take] at hp
  split at hp
  · exact h i l v hp
  · cases hp

/-- The items behind some others. -/
theorem behind (h : D.Admits parts) (first : List Value) :
    (D.comap (first ++ ·)).Admits (parts.drop first.length) := by
  intro i l v hp items w w' hi hw
  rw [List.getElem?_drop] at hp
  have hat : (first ++ items)[first.length + i]? = some w := by
    rwa [List.getElem?_append_right (Nat.le_add_right ..), Nat.add_sub_cancel_left]
  have := h (first.length + i) l v hp (first ++ items) w w' hat hw
  rwa [List.set_append_right _ _ (Nat.le_add_right ..), Nat.add_sub_cancel_left] at this

/-- The items before some others. -/
theorem before (h : D.Admits parts) (rest : List Value) : (D.comap (· ++ rest)).Admits parts := by
  intro i l v hp items w w' hi hw
  have hlt := (List.getElem?_eq_some_iff.mp hi).1
  have := h i l v hp (items ++ rest) w w' (by rwa [List.getElem?_append_left hlt]) hw
  rwa [List.set_append_left _ _ hlt] at this

end Drift.Admits

namespace ArrayLayout

variable {a : ArrayLayout} {D : Drift (List Value)} {n : Nat}

/-- Whole blocks of items may grow by a block of zeros while they are less than `n`. -/
def Grows (a : ArrayLayout) (n : Nat) (D : Drift (List Value)) : Prop :=
  ∀ items blocks, items.length = blocks * a.capacity → items.length < n →
    D.rel items (items ++ List.replicate a.capacity a.element.zero)

/-- The items behind a block. -/
theorem Grows.behind (h : a.Grows n D) {first : List Value} (hfirst : first.length = a.capacity) :
    a.Grows (n - a.capacity) (D.comap (first ++ ·)) := by
  intro items blocks hlen hlt
  have := h (first ++ items) (blocks + 1)
    (by rw [List.length_append, hfirst, hlen, Nat.add_mul, Nat.one_mul, Nat.add_comm])
    (by rw [List.length_append]; omega)
  rwa [List.append_assoc] at this

/-- Blocks of zeros that are there already need not be added. -/
theorem lengthen_append_zeros (hext : a.extent = .chained) {items : List Value} {blocks : Nat}
    (hlen : items.length = blocks * a.capacity) (hlt : items.length < n) :
    a.lengthen n (items ++ List.replicate a.capacity a.element.zero) = a.lengthen n items := by
  have hle := a.le_blocksFor_mul n
  have hblocks : blocks + 1 ≤ a.blocksFor n :=
    Nat.lt_of_mul_lt_mul_right (a := a.capacity) (by omega)
  have hmul := Nat.mul_le_mul_right a.capacity hblocks
  rw [Nat.add_mul, Nat.one_mul] at hmul
  have hcount : a.capacity + (a.blocksFor n * a.capacity - (items.length + a.capacity)) =
      a.blocksFor n * a.capacity - items.length := by omega
  simp only [lengthen, hext, List.append_assoc, List.length_append, List.length_replicate,
    List.replicate_append_replicate, hcount]

theorem grows_tracing (hext : a.extent = .chained) (step : UInt64) (rest : List UInt64) :
    a.Grows (step.toNat + 1) (((Layout.array a).tracing (step :: rest)).comap .array) := by
  intro items blocks hlen hlt
  refine ⟨funext fun change => ?_, fun _ _ => Layout.drifts_append_zeros items a.capacity⟩
  simp only [Layout.update, lengthen_append_zeros hext hlen hlt]

theorem grows_writing (hext : a.extent = .chained) (supplied : List Value) :
    a.Grows supplied.length (((Layout.array a).writing (.array supplied)).comap .array) := by
  intro items blocks hlen hlt
  refine ⟨?_, fun _ _ => Layout.drifts_append_zeros items a.capacity⟩
  show (Layout.array a).overlay _ _ = (Layout.array a).overlay _ _
  rw [Layout.overlay_array, Layout.overlay_array, lengthen_append_zeros hext hlen hlt]

/-- An array may be written item by item. -/
theorem admits_writing (a : ArrayLayout) (supplied : List Value) :
    (((Layout.array a).writing (.array supplied)).comap .array).Admits
      (supplied.map (a.element, ·)) := by
  intro i l v hp items w w' hi hw
  rw [List.getElem?_map] at hp
  obtain ⟨v', hv, heq⟩ := Option.map_eq_some_iff.mp hp
  obtain ⟨rfl, rfl⟩ := Prod.mk.inj heq
  obtain ⟨hsame, hleaves⟩ := hw
  refine ⟨?_, leaves_set rfl hi fun steps kind hkind => ?_⟩
  · have hlt := (List.getElem?_eq_some_iff.mp hi).1
    have hset : a.lengthen supplied.length (items.set i w') =
        (a.lengthen supplied.length items).set i w' := by
      cases hext : a.extent with
      | fixed => simp only [lengthen_of_fixed hext]
      | chained => simp only [lengthen, hext, List.length_set, List.set_append_left _ _ hlt]
    have hold : (a.lengthen supplied.length items)[i]? = some w := by
      cases hext : a.extent with
      | fixed => rwa [lengthen_of_fixed hext]
      | chained => simpa only [lengthen, hext, List.getElem?_append_left hlt] using hi
    show (Layout.array a).overlay _ _ = (Layout.array a).overlay _ _
    rw [Layout.overlay_array, Layout.overlay_array, hset]
    exact congrArg Value.array (Layout.overlayItems_set hv hold hsame)
  · simpa [Layout.supplied?, hv] using hleaves steps kind hkind

end ArrayLayout

/-- A record may be written field by field. -/
theorem RecordLayout.admits_writing (r : RecordLayout) {supplied : List (String × Value)}
    {vs : List Value} (hvs : r.fields.map (fun f => supplied.lookup f.name) = vs.map some) :
    (((Layout.record r).writing (.record supplied)).comap fun items =>
      .record ((r.fields.map (·.name)).zip items)).Admits ((r.fields.map (·.layout)).zip vs) := by
  intro i l v hp items w w' hi hw
  obtain ⟨hl, hv⟩ := List.getElem?_zip_eq_some.mp hp
  rw [List.getElem?_map] at hl
  obtain ⟨f, hf, rfl⟩ := Option.map_eq_some_iff.mp hl
  have hlookup : supplied.lookup f.name = some v := by
    have := congrArg (·[i]?) hvs
    simpa [hf, hv] using this
  obtain ⟨hsame, hleaves⟩ := hw
  refine ⟨?_, leaves_record rfl (leaves_set rfl hi fun steps kind hkind => ?_)⟩
  · show (Layout.record r).overlay _ _ = (Layout.record r).overlay _ _
    rw [Layout.record_overlay, Layout.record_overlay,
      Layout.overlayFields_set hf hlookup hi hsame]
  · simp only [Layout.kind?, hf, Option.bind_some] at hkind
    simpa [Layout.supplied?, hf, hlookup] using hleaves steps kind hkind

end RecordFile
