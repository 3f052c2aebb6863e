import PairingV2.Lib.Strings

/-!
# Streams

What is inserted into an output stream and the text that is `written`, and reading words from an
input stream with its state bits. `Feeds` says which words a stream has left; a stream that has
failed gives empty words for ever.
-/

namespace PairingV2

/-- An insertion: a string after `std::setw`, which counts for that insertion only (0 without
it), or a manipulator. -/
inductive Out where
  | put (width : ℕ) (s : Str)
  | endl
  | right
  | left
  deriving DecidableEq

/-- The padding of an insertion, after it if the stream adjusts to the left. -/
def pad (left : Bool) (width : ℕ) (s : Str) : Str :=
  let fill := List.replicate (width - s.length) (ch ' ')
  if left then s ++ fill else fill ++ s

/-- The text of a sequence of insertions into a stream that adjusts to the left or not. -/
def written : Bool → List Out → Str
  | _, [] => []
  | left, .put width s :: os => pad left width s ++ written left os
  | left, .endl :: os => ch '\n' :: written left os
  | _, .right :: os => written false os
  | _, .left :: os => written true os

theorem pad_of_le {left : Bool} {width : ℕ} {s : Str} (h : width ≤ s.length) :
    pad left width s = s := by
  unfold pad
  rw [Nat.sub_eq_zero_of_le h]
  cases left <;> simp

theorem length_pad (left : Bool) (width : ℕ) (s : Str) :
    (pad left width s).length = max width s.length := by
  unfold pad
  cases left <;> simp <;> omega

theorem dropWhile_pad {width : ℕ} {s : Str} (hs : s.head? ≠ some (ch ' ')) :
    (pad false width s).dropWhile (· = ch ' ') = s := by
  unfold pad
  rw [if_neg Bool.false_ne_true, List.dropWhile_append_of_pos (by simp)]
  rcases s with _ | ⟨b, s⟩
  · rfl
  · exact List.dropWhile_cons_of_neg (by simpa using hs)

/-- What is padded before it is found again if it does not itself begin with the padding. -/
theorem pad_injOn {width : ℕ} {s t : Str} (hs : s.length ≤ width → s.head? ≠ some (ch ' '))
    (ht : t.length ≤ width → t.head? ≠ some (ch ' ')) (h : pad false width s = pad false width t) :
    s = t := by
  have hlen := congrArg List.length h
  rw [length_pad, length_pad] at hlen
  by_cases hle : s.length ≤ width
  · rw [← dropWhile_pad (hs hle), h, dropWhile_pad (ht (by omega))]
  · rwa [pad_of_le (by omega), pad_of_le (by omega)] at h

/-- `std::isspace` in the C locale: a blank, or a tab to a carriage return. -/
def isSpace (b : Byte) : Bool := b = ch ' ' || (9 ≤ b.val && b.val ≤ 13)

def words (text : Str) : List Str := (text.splitOnP isSpace).filter (· ≠ [])

structure IStream where
  rest : Str
  eofbit : Bool
  failbit : Bool

namespace IStream

def ofText (text : Str) : IStream := ⟨text, false, false⟩

def good (s : IStream) : Bool := !s.eofbit && !s.failbit

/-- `operator>>` into an empty string: leading space is skipped, then everything up to the next
space is taken. -/
def readWord (s : IStream) : Str × IStream :=
  if s.good then
    match s.rest.dropWhile isSpace with
    | [] => ([], ⟨[], true, true⟩)
    | b :: bs =>
      let rest := (b :: bs).dropWhile (!isSpace ·)
      ((b :: bs).takeWhile (!isSpace ·), ⟨rest, rest.isEmpty, false⟩)
  else ([], { s with failbit := true })

/-- The words that the stream has left. -/
def Feeds (s : IStream) (ws : List Str) : Prop :=
  (s.good = true ∧ words s.rest = ws) ∨ (s.good = false ∧ ws = [])

theorem feeds_ofText (text : Str) : (ofText text).Feeds (words text) := .inl ⟨rfl, rfl⟩

end IStream

theorem words_space {b : Byte} (hb : isSpace b = true) (bs : Str) : words (b :: bs) = words bs := by
  simp [words, List.splitOnP_cons_eq_if_modifyHead, hb]

theorem words_dropWhile (bs : Str) : words (bs.dropWhile isSpace) = words bs := by
  induction bs with
  | nil => rfl
  | cons b bs ih =>
    by_cases hb : isSpace b = true
    · rw [List.dropWhile_cons_of_pos hb, ih, words_space hb]
    · rw [List.dropWhile_cons_of_neg hb]

/-- A word ends at the next space or with the text. -/
theorem words_append {w rest : Str} (hw : w ≠ []) (hns : ∀ b ∈ w, isSpace b = false)
    (hrest : ∀ b ∈ rest.head?, isSpace b = true) : words (w ++ rest) = w :: words rest := by
  rcases rest with _ | ⟨b, bs⟩
  · rw [List.append_nil]
    simp [words, List.splitOnP_eq_singleton hns, hw]
  · have hb : isSpace b = true := hrest b rfl
    rw [words_space hb]
    simp [words, List.splitOnP_append_cons_of_forall_mem hns b hb, hw]

theorem not_of_dropWhile {p : Byte → Bool} {text : Str} {b : Byte} {bs : Str}
    (h : text.dropWhile p = b :: bs) : p b = false := by
  have := List.head?_dropWhile_not p text
  rw [h] at this
  exact this

theorem words_cons {b : Byte} (hb : isSpace b = false) (bs : Str) :
    words (b :: bs) = (b :: bs).takeWhile (!isSpace ·) ::
      words ((b :: bs).dropWhile (!isSpace ·)) := by
  have hne : (b :: bs).takeWhile (!isSpace ·) ≠ [] := by simp [hb]
  have hns : ∀ c ∈ (b :: bs).takeWhile (!isSpace ·), isSpace c = false := by
    intro c hc
    simpa using List.mem_takeWhile_imp hc
  have hrest : ∀ c ∈ ((b :: bs).dropWhile (!isSpace ·)).head?, isSpace c = true := by
    intro c hc
    obtain ⟨cs, hcs⟩ := List.head?_eq_some_iff.1 hc
    simpa using not_of_dropWhile hcs
  rw [← words_append hne hns hrest, List.takeWhile_append_dropWhile]

/-- The first word of a text, if it has one. -/
theorem words_cases (text : Str) :
    (text.dropWhile isSpace = [] ∧ words text = []) ∨
      ∃ b bs, text.dropWhile isSpace = b :: bs ∧ isSpace b = false ∧
        words text = (b :: bs).takeWhile (!isSpace ·) ::
          words ((b :: bs).dropWhile (!isSpace ·)) := by
  rcases h : text.dropWhile isSpace with _ | ⟨b, bs⟩
  · exact .inl ⟨rfl, by rw [← words_dropWhile, h]; rfl⟩
  · have hb := not_of_dropWhile h
    exact .inr ⟨b, bs, rfl, hb, by rw [← words_dropWhile, h, words_cons hb]⟩

namespace IStream

variable {s : IStream}

theorem readWord_of_not_good (hg : s.good = false) :
    s.readWord = ([], { s with failbit := true }) := by
  simp only [readWord, hg, Bool.false_eq_true, ↓reduceIte]

theorem readWord_nil (hg : s.good = true) (hd : s.rest.dropWhile isSpace = []) :
    s.readWord = ([], ⟨[], true, true⟩) := by
  simp only [readWord, hg, ↓reduceIte, hd]

theorem readWord_cons (hg : s.good = true) {b : Byte} {bs : Str}
    (hd : s.rest.dropWhile isSpace = b :: bs) :
    s.readWord = ((b :: bs).takeWhile (!isSpace ·), ⟨(b :: bs).dropWhile (!isSpace ·),
      ((b :: bs).dropWhile (!isSpace ·)).isEmpty, false⟩) := by
  simp only [readWord, hg, ↓reduceIte, hd]

/-- No word is left: the string stays empty and the stream has failed. -/
theorem Feeds.nil (h : s.Feeds []) : s.readWord.1 = [] ∧ s.readWord.2.Feeds [] := by
  rcases h with ⟨hg, hw⟩ | ⟨hg, -⟩
  · rcases words_cases s.rest with ⟨hd, -⟩ | ⟨b, bs, -, -, hw'⟩
    · rw [readWord_nil hg hd]
      exact ⟨rfl, .inr ⟨rfl, rfl⟩⟩
    · simp [hw] at hw'
  · rw [readWord_of_not_good hg]
    exact ⟨rfl, .inr ⟨by simp [good], rfl⟩⟩

theorem Feeds.cons {w : Str} {ws : List Str} (h : s.Feeds (w :: ws)) :
    s.readWord.1 = w ∧ w ≠ [] ∧ s.readWord.2.Feeds ws := by
  rcases h with ⟨hg, hw⟩ | ⟨-, hw⟩
  · rcases words_cases s.rest with ⟨-, hw'⟩ | ⟨b, bs, hd, hb, hw'⟩
    · simp [hw'] at hw
    · rw [hw', List.cons.injEq] at hw
      obtain ⟨rfl, rfl⟩ := hw
      rw [readWord_cons hg hd]
      refine ⟨rfl, by simp [hb], ?_⟩
      rcases hrest : (b :: bs).dropWhile (!isSpace ·) with _ | ⟨c, cs⟩
      · exact .inr ⟨rfl, rfl⟩
      · exact .inl ⟨rfl, rfl⟩
  · simp at hw

end IStream

end PairingV2
