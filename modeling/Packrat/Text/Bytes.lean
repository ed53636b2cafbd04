/-!
# Byte offsets into text

Text is a list of characters, but every offset in the library counts bytes of its UTF-8 form, so
that offsets into a file mean the same to every tool. An offset is usable only where a character
begins or the text ends. Cutting text at an offset is therefore partial, and `splitAtByte?` is the
one place that decides where a cut may fall; slices are two cuts.

## Main results

* `splitAtByte?_eq_some_iff`: a cut succeeds exactly at the byte lengths of the initial segments
* `sliceBytes?_eq_some_iff`: a slice succeeds exactly between two such lengths
-/

namespace Packrat.Text

/-- Bytes that the characters take in UTF-8. -/
def byteLength : List Char → Nat
  | [] => 0
  | c :: cs => c.utf8Size + byteLength cs

@[simp] theorem byteLength_nil : byteLength [] = 0 := rfl

@[simp] theorem byteLength_cons (c : Char) (cs : List Char) :
    byteLength (c :: cs) = c.utf8Size + byteLength cs := rfl

@[simp] theorem byteLength_append (a b : List Char) :
    byteLength (a ++ b) = byteLength a + byteLength b := by
  induction a with
  | nil => simp
  | cons c a ih => simp [ih, Nat.add_assoc]

theorem byteLength_eq_zero_iff {cs : List Char} : byteLength cs = 0 ↔ cs = [] := by
  cases cs with
  | nil => simp
  | cons c cs => simpa using fun h => absurd h (Nat.pos_iff_ne_zero.mp c.utf8Size_pos)

/-- Cuts the text after its first `n` bytes; `none` past the end and inside a character. -/
def splitAtByte? : Nat → List Char → Option (List Char × List Char)
  | 0, cs => some ([], cs)
  | _ + 1, [] => none
  | n + 1, c :: cs =>
    if c.utf8Size ≤ n + 1 then
      (splitAtByte? (n + 1 - c.utf8Size) cs).map fun (before, after) => (c :: before, after)
    else none

theorem splitAtByte?_append (a b : List Char) :
    splitAtByte? (byteLength a) (a ++ b) = some (a, b) := by
  induction a with
  | nil => simp [splitAtByte?]
  | cons c a ih =>
    obtain ⟨n, hn⟩ : ∃ n, byteLength (c :: a) = n + 1 :=
      Nat.exists_eq_succ_of_ne_zero (by simp only [ne_eq, byteLength_eq_zero_iff]; simp)
    have hc : n + 1 - c.utf8Size = byteLength a := by
      rw [← hn]; simp
    have hle : c.utf8Size ≤ n + 1 := by rw [← hn]; simp
    rw [hn]
    simp [splitAtByte?, hle, hc, ih]

theorem splitAtByte?_eq_some_iff {n : Nat} {cs a b : List Char} :
    splitAtByte? n cs = some (a, b) ↔ cs = a ++ b ∧ byteLength a = n := by
  constructor
  · intro h
    fun_induction splitAtByte? n cs generalizing a b with
    | case1 cs => simp_all
    | case2 => simp at h
    | case3 n c cs hc ih =>
      simp only [Option.map_eq_some_iff, Prod.exists, Prod.mk.injEq] at h
      obtain ⟨a', b', h', rfl, rfl⟩ := h
      obtain ⟨rfl, hlen⟩ := ih h'
      exact ⟨rfl, by simp; omega⟩
    | case4 => simp at h
  · rintro ⟨rfl, rfl⟩
    exact splitAtByte?_append a b

/-- The text between two byte offsets. -/
def sliceBytes? (text : List Char) (start stop : Nat) : Option (List Char) :=
  if start ≤ stop then do
    let (_, rest) ← splitAtByte? start text
    let (slice, _) ← splitAtByte? (stop - start) rest
    return slice
  else none

theorem sliceBytes?_eq_some_iff {text slice : List Char} {start stop : Nat} :
    sliceBytes? text start stop = some slice ↔
      ∃ before after, text = before ++ slice ++ after ∧ byteLength before = start ∧
        start + byteLength slice = stop := by
  unfold sliceBytes?
  constructor
  · intro h
    split at h
    · next hle =>
      simp only [Option.bind_eq_bind, Option.bind_eq_some_iff, Prod.exists, Option.pure_def,
        Option.some.injEq, splitAtByte?_eq_some_iff] at h
      obtain ⟨before, _, ⟨rfl, hb⟩, s, after, ⟨rfl, hs⟩, rfl⟩ := h
      exact ⟨before, after, by simp, hb, by omega⟩
    · simp at h
  · rintro ⟨before, after, rfl, rfl, rfl⟩
    have h₁ := splitAtByte?_append before (slice ++ after)
    have h₂ := splitAtByte?_append slice after
    simp [h₁, h₂]

/-- A slice of a string. -/
def slice? (text : String) (start stop : Nat) : Option String :=
  (sliceBytes? text.toList start stop).map String.ofList

end Packrat.Text
