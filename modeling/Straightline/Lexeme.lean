import Straightline.Token

/-!
# Lexemes

A source text is cut into pieces by maximal munch: line ends, blanks, punctuation marks, words that
start with a letter, runs of digits, and stray characters that start none of these. Letters and
digits are the ASCII ones. The pieces put together again are the text (`split_text`).
-/
namespace Straightline

inductive Lexeme where
  | newline
  | blank (c : Char)
  | mark (kind : Kind) (c : Char)
  | word (text : String)
  | digits (text : String)
  | stray (c : Char)
  deriving DecidableEq, Repr

namespace Lexeme

def text : Lexeme → String
  | newline => "\n"
  | blank c => String.singleton c
  | mark _ c => String.singleton c
  | word text => text
  | digits text => text
  | stray c => String.singleton c

/-- The first piece of a text that starts with `c`, and what is left of the text. -/
def first (c : Char) (cs : List Char) : Lexeme × List Char :=
  if c = '\n' then (newline, cs)
  else if c = ' ' ∨ c = '\r' ∨ c = '\t' then (blank c, cs)
  else match Kind.mark? c with
    | some kind => (mark kind c, cs)
    | none =>
      if c.isDigit then
        (digits (String.ofList (c :: cs.takeWhile Char.isDigit)), cs.dropWhile Char.isDigit)
      else if c.isAlpha then
        (word (String.ofList (c :: cs.takeWhile Char.isAlphanum)), cs.dropWhile Char.isAlphanum)
      else (stray c, cs)

theorem text_first (c : Char) (cs : List Char) :
    (first c cs).1.text.toList ++ (first c cs).2 = c :: cs := by
  unfold first
  split
  · simp_all [text]
  · split
    · simp [text]
    · split
      · simp [text]
      · split
        · simp [text]
        · split <;> simp [text]

theorem length_first_le (c : Char) (cs : List Char) : (first c cs).2.length ≤ cs.length := by
  have drop (p : Char → Bool) : (cs.dropWhile p).length ≤ cs.length :=
    (List.dropWhile_suffix p).length_le
  unfold first
  split
  · exact Nat.le_refl _
  · split
    · exact Nat.le_refl _
    · split
      · exact Nat.le_refl _
      · split
        · exact drop _
        · split
          · exact drop _
          · exact Nat.le_refl _

/-- The pieces of a text behind those already cut off, which come last one first. -/
def splitOnto (done : List Lexeme) : List Char → List Lexeme
  | [] => done.reverse
  | c :: cs => splitOnto ((first c cs).1 :: done) (first c cs).2
termination_by cs => cs.length
decreasing_by exact Nat.lt_succ_of_le (length_first_le c cs)

def split (source : List Char) : List Lexeme :=
  splitOnto [] source

theorem splitOnto_eq (done : List Lexeme) (source : List Char) :
    splitOnto done source = done.reverse ++ split source := by
  suffices h : ∀ n, ∀ done source, source.length ≤ n →
      splitOnto done source = done.reverse ++ splitOnto [] source from
    h source.length done source (Nat.le_refl _)
  intro n
  induction n with
  | zero =>
    intro done source h
    cases source with
    | nil => simp [splitOnto]
    | cons c cs => simp at h
  | succ n ih =>
    intro done source h
    cases source with
    | nil => simp [splitOnto]
    | cons c cs =>
      have hl := length_first_le c cs
      simp only [List.length_cons] at h
      rw [splitOnto, splitOnto, ih _ _ (by omega), ih [(first c cs).1] _ (by omega)]
      simp

@[simp] theorem split_nil : split [] = [] := by
  simp [split, splitOnto]

theorem split_cons (c : Char) (cs : List Char) :
    split (c :: cs) = (first c cs).1 :: split (first c cs).2 := by
  rw [split, splitOnto, splitOnto_eq]
  simp

theorem split_text (source : List Char) :
    (split source).flatMap (·.text.toList) = source := by
  suffices h : ∀ n, ∀ source : List Char, source.length ≤ n →
      (split source).flatMap (·.text.toList) = source from h source.length source (Nat.le_refl _)
  intro n
  induction n with
  | zero =>
    intro source h
    cases source with
    | nil => simp
    | cons c cs => simp at h
  | succ n ih =>
    intro source h
    cases source with
    | nil => simp
    | cons c cs =>
      have hl := length_first_le c cs
      simp only [List.length_cons] at h
      rw [split_cons, List.flatMap_cons, ih _ (by omega), text_first]

end Lexeme

end Straightline
