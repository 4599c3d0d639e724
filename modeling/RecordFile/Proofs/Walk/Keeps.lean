import RecordFile.Proofs.Device.Session

/-!
# What walks keep

Every operation below `Store` keeps every relation that the calls it makes keep: `ReadStable` ones
if it only reads (following links, tracing without growth, decoding, auditing) and `WriteStable`
ones in any case. So an operation that only reads leaves everything as it is, and no operation
shrinks the file, for as many calls as it makes and wherever one of them fails.

Chains are extended in one place only, so it is enough that a relation is kept by an extension as a
whole and not by each append of it: such relations are `GrowStable`.
-/

namespace RecordFile

open Session

variable {δ : Type} [Device δ] {R : Session δ → Session δ → Prop}

namespace Chain

instance [ReadStable R] (a : ArrayLayout) (block : Nat) : Keeps R (readLink a block) := by
  unfold readLink
  infer_instance

instance [ReadStable R] (rootSize : Nat) (a : ArrayLayout) (block : Nat) (link : UInt64) :
    Keeps R (checkLink rootSize a block link) := by
  unfold checkLink
  infer_instance

instance [ReadStable R] (rootSize : Nat) (a : ArrayLayout) (block : Nat) :
    Keeps R (follow rootSize a block) := by
  unfold follow
  infer_instance

theorem keeps_appendZeros [WriteStable R] (length : Nat) :
    Keeps R (appendZeros length : Action (Session δ) Unit) := by
  induction length using Nat.strongRecOn with
  | ind length ih =>
    rw [appendZeros]
    split
    · infer_instance
    · have : Keeps R (appendZeros (length - min length zeroChunk) : Action (Session δ) Unit) :=
        ih _ (by have : 0 < zeroChunk := by decide
                 omega)
      infer_instance

instance [WriteStable R] (length : Nat) :
    Keeps R (appendZeros length : Action (Session δ) Unit) := keeps_appendZeros length

set_option synthInstance.maxSize 512 in
instance [WriteStable R] (a : ArrayLayout) (block : Nat) : Keeps R (extend a block) := by
  unfold extend
  dsimp only
  infer_instance

/-- What `followOrExtend` does when it knows whether there is a next block. -/
theorem keeps_orExtend [WriteStable R] (a : ArrayLayout) (block : Nat)
    (found : Option (Onward block)) :
    Keeps R (match found with
      | some next => (pure next.val : Action (Session δ) Nat)
      | none => extend a block) := by
  cases found <;> infer_instance

end Chain

/-- A preorder on sessions that reading, writing and extending chains keep. -/
class GrowStable (R : Session δ → Session δ → Prop) : Prop extends UpdateStable R where
  followOrExtend (s : Session δ) (rootSize : Nat) (a : ArrayLayout) (block : Nat) :
    R s (endState (Chain.followOrExtend rootSize a block) s)

instance [WriteStable R] : GrowStable R where
  followOrExtend s rootSize a block := by
    have : Keeps R (Chain.followOrExtend rootSize a block) := by
      unfold Chain.followOrExtend
      have := fun found => Chain.keeps_orExtend (R := R) a block found
      infer_instance
    exact this.holds s

namespace Chain

instance [GrowStable R] (rootSize : Nat) (a : ArrayLayout) (block : Nat) :
    Keeps R (followOrExtend rootSize a block) :=
  ⟨fun s => GrowStable.followOrExtend s rootSize a block⟩

instance [GrowStable R] (rootSize : Nat) (growth : Growth) (a : ArrayLayout) (block : Nat) :
    Keeps R (next rootSize growth a block) := by
  cases growth <;> (unfold next; infer_instance)

theorem keeps_locateFrom {growth : Growth} {a : ArrayLayout} [ReadStable R] {rootSize : Nat}
    (hnext : ∀ block, Keeps R (next rootSize growth a block))
    (index block remaining allocated : Nat) :
    Keeps R (locateFrom rootSize growth a index block remaining allocated) := by
  induction remaining using Nat.strongRecOn generalizing block allocated with
  | ind remaining ih =>
    rw [locateFrom]
    split
    · have hpos := a.capacity_pos
      refine @Keeps.bind _ _ _ _ _ _ _ _ (hnext block) fun found => ?_
      cases found with
      | none => infer_instance
      | some next => exact ih _ (by omega) next _
    · infer_instance

instance [ReadStable R] (rootSize : Nat) (a : ArrayLayout) (block : Nat) :
    Keeps R (next rootSize .forbidden a block) := by
  unfold next
  infer_instance

theorem keeps_locate {growth : Growth} {a : ArrayLayout} [ReadStable R] {rootSize : Nat}
    (hnext : ∀ block, Keeps R (next rootSize growth a block)) (start index : Nat) :
    Keeps R (locate rootSize growth a start index) := by
  unfold locate
  split
  · infer_instance
  · exact keeps_locateFrom hnext ..

instance [ReadStable R] (rootSize : Nat) (a : ArrayLayout) (start index : Nat) :
    Keeps R (locate rootSize .forbidden a start index) := keeps_locate (fun _ => inferInstance) ..

instance [GrowStable R] (rootSize : Nat) (growth : Growth) (a : ArrayLayout) (start index : Nat) :
    Keeps R (locate rootSize growth a start index) := keeps_locate (fun _ => inferInstance) ..

instance [GrowStable R] (rootSize : Nat) (growth : Growth) (a : ArrayLayout)
    (index block remaining allocated : Nat) :
    Keeps R (locateFrom rootSize growth a index block remaining allocated) :=
  keeps_locateFrom (fun _ => inferInstance) ..

/-- What `locateFrom` does when it knows whether there is a next block. -/
theorem keeps_locateNext [GrowStable R] {a : ArrayLayout} (rootSize : Nat) (growth : Growth)
    (index remaining allocated : Nat) (found : Option Nat) :
    Keeps R (match found with
      | none => (fail (.indexOutOfRange index allocated) : Action (Session δ) Nat)
      | some block => locateFrom rootSize growth a index block (remaining - a.capacity)
          (saturatingAdd allocated a.capacity)) := by
  cases found <;> infer_instance

end Chain

/-! ## Paths -/

theorem keeps_traceFrom {growth : Growth} [ReadStable R] {rootSize : Nat}
    (hlocate : ∀ a start index, Keeps R (Chain.locate rootSize growth a start index)) (path : Path)
    (position : Nat) (l : Layout) (offset : Nat) (steps : List UInt64) :
    Keeps R (traceFrom rootSize growth path position l offset steps) := by
  induction steps generalizing position l offset with
  | nil =>
    unfold traceFrom
    infer_instance
  | cons step rest ih =>
    cases l with
    | scalar kind =>
      unfold traceFrom
      infer_instance
    | record r =>
      unfold traceFrom
      dsimp only
      split
      · infer_instance
      · have := ih (position + 1)
        infer_instance
    | array a =>
      unfold traceFrom
      have := ih (position + 1)
      infer_instance

instance [ReadStable R] (schema : Schema) (path : Path) :
    Keeps R (tracePath schema .forbidden path) := keeps_traceFrom (fun _ _ _ => inferInstance) ..

instance [GrowStable R] (schema : Schema) (growth : Growth) (path : Path) :
    Keeps R (tracePath schema growth path) := keeps_traceFrom (fun _ _ _ => inferInstance) ..

instance [GrowStable R] (rootSize : Nat) (growth : Growth) (path : Path) (position : Nat)
    (l : Layout) (offset : Nat) (steps : List UInt64) :
    Keeps R (traceFrom rootSize growth path position l offset steps) :=
  keeps_traceFrom (fun _ _ _ => inferInstance) ..

/-! ## Reading -/

theorem keeps_readSlots [ReadStable R] {a : ArrayLayout}
    {item : Nat → ByteArray → Action (Session δ) Value} (hitem : ∀ o b, Keeps R (item o b))
    (block : Nat) (bytes : ByteArray) (left index : Nat) (items : Array Value) :
    Keeps R (readSlots a item block bytes left index items) := by
  induction left generalizing index items with
  | zero =>
    unfold readSlots
    infer_instance
  | succ left ih =>
    unfold readSlots
    infer_instance

theorem keeps_readBlocks [ReadStable R] (rootSize : Nat) {a : ArrayLayout}
    {item : Nat → ByteArray → Action (Session δ) Value} (hitem : ∀ o b, Keeps R (item o b))
    (block : Nat) (bytes : ByteArray) (items : Array Value) :
    Keeps R (readBlocks rootSize a item block bytes items) := by
  induction h : wordLimit - block using Nat.strongRecOn generalizing block bytes items with
  | ind n ih =>
    subst h
    have hslots := fun items => keeps_readSlots (a := a) hitem block bytes a.capacity 0 items
    rw [readBlocks]
    refine @Keeps.bind _ _ _ _ _ _ _ _ (hslots items) fun items => ?_
    split
    · infer_instance
    · have hnext : ∀ (n : Onward block) (bytes : ByteArray) (items : Array Value),
          Keeps R (readBlocks rootSize a item n.val bytes items) :=
        fun n bytes items => ih _ (by have := n.property; omega) n.val bytes items rfl
      infer_instance

mutual

theorem keeps_decode [ReadStable R] (rootSize : Nat) :
    ∀ (l : Layout) (base : Nat) (bytes : ByteArray), Keeps R (decode (δ := δ) rootSize l base bytes)
  | .scalar kind, base, bytes => by
    unfold decode
    infer_instance
  | .record ⟨_, fields, _, _⟩, base, bytes => by
    unfold decode
    have := keeps_decodeFields rootSize fields base bytes
    infer_instance
  | .array ⟨element, capacity, extent, size, capacity_pos⟩, base, bytes => by
    unfold decode
    have := keeps_readBlocks rootSize (a := ⟨element, capacity, extent, size, capacity_pos⟩)
      (fun o b => keeps_decode rootSize element o b) base bytes #[]
    dsimp only
    infer_instance

theorem keeps_decodeFields [ReadStable R] (rootSize : Nat) :
    ∀ (fields : List FieldLayout) (base : Nat) (bytes : ByteArray),
      Keeps R (decodeFields (δ := δ) rootSize fields base bytes)
  | [], base, bytes => by
    unfold decodeFields
    infer_instance
  | ⟨name, layout, offset⟩ :: rest, base, bytes => by
    unfold decodeFields
    have := fun start slice => keeps_decode rootSize layout start slice
    have := keeps_decodeFields rootSize rest base bytes
    infer_instance

end

instance [ReadStable R] (rootSize : Nat) (l : Layout) (offset : Nat) :
    Keeps R (readValue rootSize l offset) := by
  unfold readValue
  have := fun bytes => keeps_decode (R := R) rootSize l offset bytes
  infer_instance

/-! ## Writing -/

mutual

theorem keeps_writeImage [GrowStable R] (rootSize : Nat) : ∀ (img : Image) (l : Layout)
    (offset : Nat), Keeps R (writeImage (δ := δ) rootSize l offset img)
  | .run bytes, l, offset => by
    unfold writeImage
    infer_instance
  | .fields parts, l, offset => by
    unfold writeImage
    have := fun fields => keeps_writeFields rootSize parts offset fields
    cases l <;> infer_instance
  | .slots parts, l, offset => by
    unfold writeImage
    have := fun a => keeps_writeSlots rootSize parts a offset 0
    cases l <;> infer_instance
  | .blocks parts, l, offset => by
    unfold writeImage
    have := fun a => keeps_writeBlocks rootSize parts a offset true
    cases l <;> infer_instance

theorem keeps_writeFields [GrowStable R] (rootSize : Nat) : ∀ (parts : List Image) (offset : Nat)
    (fields : List FieldLayout), Keeps R (writeFields (δ := δ) rootSize offset fields parts)
  | [], offset, fields => by
    cases fields <;> (unfold writeFields; infer_instance)
  | part :: parts, offset, [] => by
    unfold writeFields
    infer_instance
  | part :: parts, offset, f :: fields => by
    unfold writeFields
    have := keeps_writeImage rootSize part f.layout
    have := keeps_writeFields rootSize parts offset fields
    infer_instance

theorem keeps_writeSlots [GrowStable R] (rootSize : Nat) : ∀ (parts : List Image)
    (a : ArrayLayout) (block index : Nat), Keeps R (writeSlots (δ := δ) rootSize a block index parts)
  | [], a, block, index => by
    unfold writeSlots
    infer_instance
  | part :: parts, a, block, index => by
    unfold writeSlots
    have := keeps_writeImage rootSize part a.element
    have := keeps_writeSlots rootSize parts a block (index + 1)
    infer_instance

theorem keeps_writeBlocks [GrowStable R] (rootSize : Nat) : ∀ (parts : List Image)
    (a : ArrayLayout) (block : Nat) (here : Bool),
    Keeps R (writeBlocks (δ := δ) rootSize a block here parts)
  | [], a, block, here => by
    unfold writeBlocks
    infer_instance
  | part :: parts, a, block, here => by
    unfold writeBlocks
    have := keeps_writeImage rootSize part (.array a)
    have := fun block => keeps_writeBlocks rootSize parts a block false
    infer_instance

end

instance [GrowStable R] (rootSize : Nat) (l : Layout) (offset : Nat) (img : Image) :
    Keeps R (writeImage rootSize l offset img) := keeps_writeImage ..

instance [GrowStable R] (rootSize : Nat) (a : ArrayLayout) (block : Nat) (here : Bool)
    (parts : List Image) : Keeps R (writeBlocks rootSize a block here parts) :=
  keeps_writeBlocks ..

/-! ## Auditing -/

namespace Audit

instance {α : Type} (m : Action (Session δ) α) [Keeps R m] : Keeps R (attempt m) where
  holds s := by
    have h : R s (endState m s) := Keeps.holds s
    unfold attempt endState at *
    cases hm : m s with
    | ok a s' => simpa [hm] using h
    | error e s' => cases e <;> simpa [hm] using h

theorem keeps_visitSlots [ReadStable R] {a : ArrayLayout}
    {item : Nat → Tally → Action (Session δ) Tally} (hitem : ∀ o t, Keeps R (item o t))
    (block left index : Nat) (t : Tally) : Keeps R (visitSlots a item block left index t) := by
  induction left generalizing index t with
  | zero =>
    unfold visitSlots
    infer_instance
  | succ left ih =>
    unfold visitSlots
    infer_instance

/-- What `visitChain` does when it knows where the link leads. -/
theorem keeps_visitNext [ReadStable R] (overflow : Overflow) {a : ArrayLayout} {block : Nat}
    {next : Nat → Tally → Action (Session δ) Tally}
    (hnext : ∀ (n : Onward block) (t : Tally), Keeps R (next n.val t)) (linkOffset : Nat) (t : Tally)
    (found : Except Error (Option (Onward block))) :
    Keeps R (match found with
      | .error e => (pure (note a linkOffset (.badLink e) t) : Action (Session δ) Tally)
      | .ok none => pure t
      | .ok (some ⟨n, _h⟩) =>
        if t.visited.contains n then pure (note a linkOffset (.sharedBlock n) t)
        else do
          let reachable ← orAbort (overflow.add t.reachable a.size)
          let t := { t with
            visited := t.visited.insert n
            blocks := t.blocks + 1
            reachable }
          next n t) := by
  split
  · infer_instance
  · infer_instance
  · rename_i n hn
    have := fun t => hnext ⟨n, hn⟩ t
    infer_instance

theorem keeps_visitChain [ReadStable R] (overflow : Overflow) (rootSize : Nat) {a : ArrayLayout}
    {slots : Nat → Tally → Action (Session δ) Tally} (hslots : ∀ o t, Keeps R (slots o t))
    (block : Nat) (t : Tally) : Keeps R (visitChain overflow rootSize a slots block t) := by
  induction h : wordLimit - block using Nat.strongRecOn generalizing block t with
  | ind n ih =>
    subst h
    have hnext : ∀ (n : Onward block) (t : Tally),
        Keeps R (visitChain overflow rootSize a slots n.val t) :=
      fun n t => ih _ (by have := n.property; omega) n.val t rfl
    have := fun linkOffset t found => keeps_visitNext overflow (a := a) hnext linkOffset t found
    rw [visitChain]
    infer_instance

mutual

theorem keeps_visit [ReadStable R] (overflow : Overflow) (rootSize : Nat) :
    ∀ (l : Layout) (base : Nat) (t : Tally), Keeps R (visit (δ := δ) overflow rootSize l base t)
  | .scalar kind, base, t => by
    unfold visit
    infer_instance
  | .record ⟨_, fields, _, hasChain⟩, base, t => by
    unfold visit
    have := keeps_visitFields overflow rootSize fields base t
    infer_instance
  | .array ⟨element, capacity, extent, size, capacity_pos⟩, base, t => by
    unfold visit
    have hslots : ∀ (block : Nat) (t : Tally), Keeps R (if element.hasChain then
        visitSlots (δ := δ) ⟨element, capacity, extent, size, capacity_pos⟩
          (visit overflow rootSize element) block capacity 0 t else pure t) := fun block t => by
      have := keeps_visitSlots (a := ⟨element, capacity, extent, size, capacity_pos⟩)
        (fun o t => keeps_visit overflow rootSize element o t) block capacity 0 t
      infer_instance
    dsimp only
    cases extent with
    | fixed => exact hslots base t
    | chained => exact keeps_visitChain overflow rootSize hslots base t

theorem keeps_visitFields [ReadStable R] (overflow : Overflow) (rootSize : Nat) :
    ∀ (fields : List FieldLayout) (base : Nat) (t : Tally),
      Keeps R (visitFields (δ := δ) overflow rootSize fields base t)
  | [], base, t => by
    unfold visitFields
    infer_instance
  | ⟨name, layout, offset⟩ :: rest, base, t => by
    unfold visitFields
    have := fun start => keeps_visit overflow rootSize layout start t
    have := fun t => keeps_visitFields overflow rootSize rest base t
    infer_instance

end

instance [ReadStable R] (overflow : Overflow) (schema : Schema) :
    Keeps R (run (δ := δ) overflow schema) := by
  unfold run
  have := fun t => keeps_visit (R := R) (δ := δ) overflow schema.size schema.rootLayout 0 t
  refine @Keeps.bind _ _ _ _ _ _ _ _ inferInstance fun t => ?_
  refine @Keeps.bind _ _ _ _ _ _ _ _ inferInstance fun size => ?_
  split <;> infer_instance

end Audit

end RecordFile
