import Restyle.Proofs.Token.Tiles

/-!
# Slices by byte offsets

A text can be cut at a byte offset only where a character ends.  A slice has two offsets, the first
not behind the second, and both must be such places; any other slice is invalid and has no result.

* `Text.cut?_eq_some_iff`, `Text.slice?_eq_some_iff`: a slice that is valid is what the text holds
  between its offsets.
* `Text.isSome_slice?_iff`: **a slice is valid** just when its offsets are in order and on boundaries
  of characters.
-/

namespace Restyle

namespace Text

/-- The text cut after `n` bytes, unless the place is inside a character or behind the end. -/
def cut? : Nat → Text → Option Cut
  | 0,     text      => some ⟨[], text⟩
  | _ + 1, []        => none
  | n + 1, c :: rest =>
    if c.utf8Size ≤ n + 1 then (cut? (n + 1 - c.utf8Size) rest).map (Cut.grow [c]) else none

/-- The text from byte `n` to byte `m`, unless this is no slice. -/
def slice? (text : Text) (n m : Nat) : Option Text :=
  if n ≤ m then (cut? n text).bind fun front => (cut? (m - n) front.rest).map (·.taken) else none

theorem cut?_size (a b : Text) : cut? a.size (a ++ b) = some ⟨a, b⟩ := by
  induction a with
  | nil => rw [size_nil, cut?, List.nil_append]
  | cons c a ih =>
      have hc := c.utf8Size_pos
      obtain ⟨n, hn⟩ : ∃ n, size (c :: a) = n + 1 := ⟨size (c :: a) - 1, by rw [size_cons]; omega⟩
      rw [size_cons] at hn
      rw [size_cons, hn, List.cons_append, cut?, if_pos (by omega),
        show n + 1 - c.utf8Size = size a by omega, ih]
      rfl

theorem cut?_eq_some_iff {n : Nat} {text : Text} {cut : Cut} :
    cut? n text = some cut ↔ text = cut.whole ∧ cut.taken.size = n := by
  constructor
  · intro h
    fun_induction cut? n text generalizing cut with
    | case1 text => cases h; exact ⟨rfl, rfl⟩
    | case2 => cases h
    | case3 n c rest hc ih =>
        obtain ⟨inner, hi, rfl⟩ := Option.map_eq_some_iff.1 h
        obtain ⟨hw, hs⟩ := ih hi
        refine ⟨by rw [Cut.whole_grow, ← hw]; rfl, ?_⟩
        rw [Cut.grow, List.singleton_append, size_cons, hs]
        omega
    | case4 => cases h
  · rintro ⟨rfl, rfl⟩
    exact cut?_size cut.taken cut.rest

/-- **A valid slice** is what the text holds between its offsets. -/
theorem slice?_eq_some_iff {text part : Text} {n m : Nat} :
    text.slice? n m = some part ↔ text.Slice n m part := by
  rw [slice?]
  constructor
  · intro h
    split at h
    · next hle =>
      obtain ⟨front, hf, h⟩ := Option.bind_eq_some_iff.1 h
      obtain ⟨back, hb, rfl⟩ := Option.map_eq_some_iff.1 h
      obtain ⟨rfl, rfl⟩ := cut?_eq_some_iff.1 hf
      obtain ⟨hw, hs⟩ := cut?_eq_some_iff.1 hb
      refine ⟨front.taken, back.rest, ?_, rfl, by omega⟩
      rw [Cut.whole, hw, Cut.whole, List.append_assoc]
    · cases h
  · rintro ⟨before, after, rfl, rfl, rfl⟩
    rw [if_pos (Nat.le_add_right _ _), List.append_assoc, cut?_size, Option.bind_some,
      Nat.add_sub_cancel_left, cut?_size]
    rfl

/-- Where a text can be cut, the slice from there to its end is valid. -/
theorem slice?_size_of_cut? {text : Text} {n : Nat} {cut : Cut} (h : cut? n text = some cut) :
    text.slice? n text.size = some cut.rest := by
  obtain ⟨rfl, rfl⟩ := cut?_eq_some_iff.1 h
  rw [slice?_eq_some_iff, Cut.whole]
  exact ⟨cut.taken, [], by simp, rfl, by simp⟩

/-- **A slice is valid** just when its offsets are in order and on boundaries of characters. -/
theorem isSome_slice?_iff {text : Text} {n m : Nat} :
    (text.slice? n m).isSome = true ↔ n ≤ m ∧ text.Boundary n ∧ text.Boundary m := by
  rw [Option.isSome_iff_exists]
  constructor
  · rintro ⟨part, h⟩
    have hs := slice?_eq_some_iff.1 h
    obtain ⟨-, -, -, -, he⟩ := id hs
    exact ⟨by omega, hs.boundaries⟩
  · rintro ⟨hle, ⟨before, after, rfl, rfl⟩, front, back, he, rfl⟩
    -- the shorter of the two beginnings is the beginning of the longer one
    rcases List.append_eq_append_iff.1 he with ⟨part, rfl, rfl⟩ | ⟨part, rfl, rfl⟩
    · exact ⟨part, slice?_eq_some_iff.2 ⟨before, back, by simp, rfl, by simp⟩⟩
    · cases part with
      | nil => exact ⟨[], slice?_eq_some_iff.2 ⟨front, after, by simp, by simp, by simp⟩⟩
      | cons c part =>
          have := c.utf8Size_pos
          rw [size_append, size_cons] at hle
          omega

example : Text.slice? "aé".toList 1 3 = some "é".toList ∧ Text.slice? "aé".toList 1 2 = none ∧
    Text.slice? "aé".toList 3 1 = none ∧ Text.slice? "aé".toList 1 4 = none := by decide

/-! ### Words at the ends of a text -/

/-- A letter has as many bytes in lower case. -/
theorem utf8Size_toLower (c : Char) : c.toLower.utf8Size = c.utf8Size := by
  unfold Char.toLower
  split
  · next hc =>
    simp only [UInt32.le_iff_toNat_le, ge_iff_le] at hc
    have hupper : c.utf8Size = 1 := by
      rw [Char.utf8Size_eq_one_iff, UInt32.le_iff_toNat_le]
      exact Nat.le_trans hc.2 (by decide)
    rw [hupper, Char.utf8Size_eq_one_iff, UInt32.le_iff_toNat_le]
    simp at hc ⊢
    omega
  · rfl

theorem size_map_toLower (text : Text) : size (text.map Char.toLower) = text.size := by
  induction text with
  | nil => rfl
  | cons c rest ih => rw [List.map_cons, size_cons, size_cons, utf8Size_toLower, ih]

/-- Texts that are the same up to the case of letters have as many characters and as many bytes. -/
theorem extent_of_sameLetters {a b : Text} (h : sameLetters a b = true) :
    a.length = b.length ∧ a.size = b.size := by
  have he := eq_of_beq h
  constructor
  · simpa using congrArg List.length he
  · rw [← size_map_toLower a, he, size_map_toLower b]

/-- The last letters of a text are its last bytes. -/
theorem cut?_of_sameLetters_drop {text word : Text}
    (h : sameLetters (text.drop (text.length - word.length)) word = true) :
    cut? (text.size - word.size) text =
      some ⟨text.take (text.length - word.length), text.drop (text.length - word.length)⟩ := by
  have hs := congrArg size (List.take_append_drop (text.length - word.length) text)
  rw [size_append, (extent_of_sameLetters h).2] at hs
  rw [cut?_eq_some_iff]
  exact ⟨(List.take_append_drop _ text).symm, Nat.eq_sub_of_add_eq hs⟩

theorem sameLetters_drop_of_cut? {text word : Text} {n : Nat} {cut : Cut}
    (hc : cut? n text = some cut) (h : sameLetters cut.rest word = true) :
    sameLetters (text.drop (text.length - word.length)) word = true := by
  obtain ⟨rfl, -⟩ := cut?_eq_some_iff.1 hc
  rw [Cut.whole, List.length_append, (extent_of_sameLetters h).1, Nat.add_sub_cancel, List.drop_left]
  exact h

/-- The first letters of a text are its first bytes. -/
theorem cut?_of_sameLetters_take {text word : Text}
    (h : sameLetters (text.take word.length) word = true) :
    cut? word.size text = some ⟨text.take word.length, text.drop word.length⟩ := by
  rw [cut?_eq_some_iff]
  exact ⟨(List.take_append_drop _ text).symm, (extent_of_sameLetters h).2⟩

theorem sameLetters_take_of_cut? {text word : Text} {n : Nat} {cut : Cut}
    (hc : cut? n text = some cut) (h : sameLetters cut.taken word = true) :
    sameLetters (text.take word.length) word = true := by
  obtain ⟨rfl, -⟩ := cut?_eq_some_iff.1 hc
  rw [Cut.whole, ← (extent_of_sameLetters h).1, List.take_left]
  exact h

end Text

end Restyle
