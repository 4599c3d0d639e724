/-!
# Segments

`Segments.split` cuts a text at every occurrence of a separator and `Segments.join` puts the
separator between the pieces again: the pieces never hold the separator, and there is always at
least one of them.

- `join_split`: joining the pieces of a text gives the text.
- `split_join`: splitting a join of pieces without separators gives the pieces.
-/

namespace RecordFile.Segments

/-- The pieces of `text` between the occurrences of `separator`. -/
def split (separator : Char) : List Char → List (List Char)
  | [] => [[]]
  | c :: rest =>
    if c = separator then [] :: split separator rest
    else match split separator rest with
      | [] => [[c]]
      | piece :: pieces => (c :: piece) :: pieces

/-- The pieces with `separator` between them. -/
def join (separator : Char) : List (List Char) → List Char
  | [] => []
  | [piece] => piece
  | piece :: pieces => piece ++ separator :: join separator pieces

theorem split_ne_nil (separator : Char) (text : List Char) : split separator text ≠ [] := by
  cases text with
  | nil => simp [split]
  | cons c rest =>
    unfold split
    split
    · simp
    · split <;> simp

theorem join_split (separator : Char) (text : List Char) :
    join separator (split separator text) = text := by
  induction text with
  | nil => rfl
  | cons c rest ih =>
    unfold split
    split
    case isTrue h =>
      subst h
      cases hs : split c rest with
      | nil => exact absurd hs (split_ne_nil _ _)
      | cons piece pieces => rw [hs] at ih; simp [join, ih]
    case isFalse h =>
      cases hs : split separator rest with
      | nil => exact absurd hs (split_ne_nil _ _)
      | cons piece pieces =>
        rw [hs] at ih
        cases pieces with
        | nil => simp_all [join]
        | cons next more => simp_all [join]

theorem split_append {separator : Char} {piece : List Char} (h : separator ∉ piece)
    (rest : List Char) :
    split separator (piece ++ separator :: rest) = piece :: split separator rest := by
  induction piece with
  | nil => simp [split]
  | cons c piece ih =>
    simp only [List.mem_cons, not_or] at h
    simp [split, Ne.symm h.1, ih h.2]

theorem split_of_not_mem {separator : Char} {piece : List Char} (h : separator ∉ piece) :
    split separator piece = [piece] := by
  induction piece with
  | nil => rfl
  | cons c piece ih =>
    simp only [List.mem_cons, not_or] at h
    simp [split, Ne.symm h.1, ih h.2]

theorem split_join {separator : Char} {pieces : List (List Char)} (hne : pieces ≠ [])
    (h : ∀ piece ∈ pieces, separator ∉ piece) :
    split separator (join separator pieces) = pieces := by
  induction pieces with
  | nil => exact absurd rfl hne
  | cons piece pieces ih =>
    have hp : separator ∉ piece := h piece (List.mem_cons_self)
    cases pieces with
    | nil => simp [join, split_of_not_mem hp]
    | cons next more =>
      rw [join, split_append hp, ih (by simp) fun p hm => h p (List.mem_cons_of_mem _ hm)]
      simp

end RecordFile.Segments
