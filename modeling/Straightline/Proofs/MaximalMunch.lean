import Mathlib.Data.List.TakeWhile
import Straightline.Scanner

/-!
# Maximal munch

Pieces of a source text by what they may look like, and a text cut into such pieces, none of which
could be longer (`Munches`). There is one way to cut a text like that, and it is the way of
`Lexeme.split` (`munches_iff`).
-/
namespace Straightline

namespace Lexeme

variable {l m : Lexeme} {c : Char} {cs rest source : List Char} {pieces : List Lexeme}

/-- A blank, a mark with its kind, a word that starts with a letter, a run of digits, or a character
that starts none of these. -/
def WellFormed : Lexeme → Prop
  | newline => True
  | blank c => c = ' ' ∨ c = '\r' ∨ c = '\t'
  | mark kind c => Kind.mark? c = some kind
  | word text => ∃ c cs, text.toList = c :: cs ∧ c.isAlpha = true ∧ ∀ d ∈ cs, d.isAlphanum = true
  | digits text => text.toList ≠ [] ∧ ∀ d ∈ text.toList, d.isDigit = true
  | stray c =>
    c ≠ '\n' ∧ ¬ (c = ' ' ∨ c = '\r' ∨ c = '\t') ∧ Kind.mark? c = none ∧ c.isAlphanum = false

def textOf (pieces : List Lexeme) : List Char :=
  pieces.flatMap (·.text.toList)

/-- A text cut into pieces, each as long as any that could start in its place. -/
structure Munches (source : List Char) (pieces : List Lexeme) : Prop where
  whole : textOf pieces = source
  formed : ∀ l ∈ pieces, l.WellFormed
  longest : ∀ front l rest, pieces = front ++ l :: rest → ∀ m : Lexeme, m.WellFormed →
    m.text.toList <+: textOf (l :: rest) → m.text.toList.length ≤ l.text.toList.length

/-- A piece that what follows does not make longer. -/
def EndsBefore (rest : List Char) : Lexeme → Prop
  | word _ => ∀ c ∈ rest.head?, c.isAlphanum = false
  | digits _ => ∀ c ∈ rest.head?, c.isDigit = false
  | _ => True

@[simp] theorem textOf_nil : textOf [] = [] := rfl

@[simp] theorem textOf_cons (l : Lexeme) (pieces : List Lexeme) :
    textOf (l :: pieces) = l.text.toList ++ textOf pieces := rfl

@[simp] theorem textOf_append (front back : List Lexeme) :
    textOf (front ++ back) = textOf front ++ textOf back :=
  List.flatMap_append

/-! ### The first piece -/

theorem plain_of_isAlphanum (h : c.isAlphanum = true) :
    c ≠ '\n' ∧ ¬ (c = ' ' ∨ c = '\r' ∨ c = '\t') ∧ Kind.mark? c = none := by
  refine ⟨?_, ?_, ?_⟩
  · rintro rfl
    cases h
  · rintro (rfl | rfl | rfl) <;> cases h
  · unfold Kind.mark?
    split
    any_goals cases h
    rfl

theorem isDigit_of_isAlpha (h : c.isAlpha = true) : c.isDigit = false := by
  by_contra digit
  have nine : c.val ≤ '9'.val :=
    of_decide_eq_true (Bool.and_eq_true_iff.mp (eq_true_of_ne_false digit)).2
  have letter : 'A'.val ≤ c.val := by
    rcases Bool.or_eq_true_iff.mp h with upper | lower
    · exact (of_decide_eq_true upper).1
    · have least : 'a'.val ≤ c.val :=
        of_decide_eq_true (Bool.and_eq_true_iff.mp lower).1
      exact UInt32.le_trans (by decide) least
  exact absurd (UInt32.le_trans letter nine) (by decide)

theorem first_of_isDigit (h : c.isDigit = true) (cs : List Char) :
    first c cs =
      (digits (String.ofList (c :: cs.takeWhile Char.isDigit)), cs.dropWhile Char.isDigit) := by
  obtain ⟨line, blank, mark⟩ := plain_of_isAlphanum (c := c) (by simp [Char.isAlphanum, h])
  simp [first, line, blank, mark, h]

theorem first_of_isAlpha (h : c.isAlpha = true) (cs : List Char) :
    first c cs =
      (word (String.ofList (c :: cs.takeWhile Char.isAlphanum)), cs.dropWhile Char.isAlphanum) := by
  obtain ⟨line, blank, mark⟩ := plain_of_isAlphanum (c := c) (by simp [Char.isAlphanum, h])
  simp [first, line, blank, mark, isDigit_of_isAlpha h, h]

theorem takeWhile_of_head? {p : Char → Bool} (h : ∀ c ∈ rest.head?, p c = false) :
    rest.takeWhile p = [] ∧ rest.dropWhile p = rest := by
  cases rest with
  | nil => exact ⟨rfl, rfl⟩
  | cons c rest =>
    have stops : p c = false := h c rfl
    simp [stops]

theorem span_append {p : Char → Bool} {run : List Char} (all : ∀ c ∈ run, p c = true)
    (stops : ∀ c ∈ rest.head?, p c = false) :
    (run ++ rest).takeWhile p = run ∧ (run ++ rest).dropWhile p = rest := by
  obtain ⟨nothing, whole⟩ := takeWhile_of_head? stops
  rw [List.takeWhile_append_of_pos all, List.dropWhile_append_of_pos all, nothing, whole]
  exact ⟨List.append_nil run, rfl⟩

/-- Well-formed pieces are cut off again from the front of a text that does not make them longer. -/
theorem exists_first_append (formed : l.WellFormed) (ends : l.EndsBefore rest) :
    ∃ c cs, l.text.toList ++ rest = c :: cs ∧ first c cs = (l, rest) := by
  cases l with
  | newline => exact ⟨'\n', rest, by simp [text], by simp [first]⟩
  | blank c =>
    refine ⟨c, rest, by simp [text], ?_⟩
    rcases formed with rfl | rfl | rfl <;> simp [first]
  | mark kind c =>
    refine ⟨c, rest, by simp [text], ?_⟩
    have line : c ≠ '\n' := by
      rintro rfl
      cases formed
    have blank : ¬ (c = ' ' ∨ c = '\r' ∨ c = '\t') := by
      rintro (rfl | rfl | rfl) <;> cases formed
    have known : Kind.mark? c = some kind := formed
    simp [first, line, blank, known]
  | word text =>
    obtain ⟨c, cs, spelled, letter, all⟩ := formed
    obtain ⟨taken, left⟩ := span_append all ends
    refine ⟨c, cs ++ rest, by simp [Lexeme.text, spelled], ?_⟩
    rw [first_of_isAlpha letter, taken, left, ← spelled, String.ofList_toList]
  | digits text =>
    obtain ⟨nonempty, all⟩ := formed
    obtain ⟨c, cs, spelled⟩ := List.exists_cons_of_ne_nil nonempty
    rw [spelled] at all
    obtain ⟨taken, left⟩ := span_append (fun d hd => all d (List.mem_cons_of_mem c hd)) ends
    refine ⟨c, cs ++ rest, by simp [Lexeme.text, spelled], ?_⟩
    rw [first_of_isDigit (all c List.mem_cons_self), taken, left, ← spelled, String.ofList_toList]
  | stray c =>
    obtain ⟨line, blank, mark, other⟩ := formed
    simp only [Char.isAlphanum, Bool.or_eq_false_iff] at other
    exact ⟨c, rest, by simp [text], by simp [first, line, blank, mark, other]⟩

theorem split_append (formed : l.WellFormed) (ends : l.EndsBefore rest) :
    split (l.text.toList ++ rest) = l :: split rest := by
  obtain ⟨c, cs, same, found⟩ := exists_first_append formed ends
  rw [same, split_cons, found]

theorem wellFormed_first (c : Char) (cs : List Char) : (first c cs).1.WellFormed := by
  unfold first
  split
  · trivial
  · rename_i line
    split
    · rename_i blank
      exact blank
    · rename_i blank
      split
      · rename_i kind known
        exact known
      · rename_i mark
        split
        · rename_i digit
          refine ⟨by simp, ?_⟩
          simpa [digit] using fun d => List.mem_takeWhile_imp
        · rename_i digit
          split
          · rename_i letter
            exact ⟨c, _, String.toList_ofList, letter, fun d => List.mem_takeWhile_imp⟩
          · rename_i letter
            exact ⟨line, blank, mark, by simp_all [Char.isAlphanum]⟩

theorem head?_dropWhile (p : Char → Bool) (cs : List Char) :
    ∀ c ∈ (cs.dropWhile p).head?, p c = false := by
  induction cs with
  | nil => simp
  | cons d cs ih =>
    by_cases goesOn : p d = true
    · simpa [goesOn] using ih
    · simp [goesOn]

theorem endsBefore_first (c : Char) (cs : List Char) :
    (first c cs).1.EndsBefore (first c cs).2 := by
  unfold first
  split
  · trivial
  · split
    · trivial
    · split
      · trivial
      · split
        · exact head?_dropWhile _ _
        · split
          · exact head?_dropWhile _ _
          · trivial

theorem endsBefore_nil (l : Lexeme) : l.EndsBefore [] := by
  cases l <;> simp [EndsBefore]

theorem WellFormed.text_ne_nil (formed : l.WellFormed) : l.text.toList ≠ [] := by
  obtain ⟨c, cs, spelled, -⟩ := exists_first_append formed l.endsBefore_nil
  rw [List.append_nil] at spelled
  simp [spelled]

theorem length_le_takeWhile {p : Char → Bool} {run : List Char} (all : ∀ c ∈ run, p c = true)
    (front : run <+: cs) : run.length ≤ (cs.takeWhile p).length := by
  obtain ⟨rest, rfl⟩ := front
  rw [List.takeWhile_append_of_pos all, List.length_append]
  omega

/-- No well-formed piece in front of a text is longer than the first piece. -/
theorem length_le_first (formed : m.WellFormed) (front : m.text.toList <+: c :: cs) :
    m.text.toList.length ≤ (first c cs).1.text.toList.length := by
  have nonempty := List.length_pos_iff.mpr (wellFormed_first c cs).text_ne_nil
  cases m with
  | word text =>
    obtain ⟨d, ds, spelled, letter, all⟩ := formed
    simp only [Lexeme.text, spelled, List.cons_prefix_cons] at front
    obtain ⟨rfl, front⟩ := front
    have shorter := length_le_takeWhile all front
    rw [first_of_isAlpha letter]
    simpa [Lexeme.text, spelled] using shorter
  | digits text =>
    obtain ⟨some, all⟩ := formed
    obtain ⟨d, ds, spelled⟩ := List.exists_cons_of_ne_nil some
    rw [spelled] at all
    simp only [Lexeme.text, spelled, List.cons_prefix_cons] at front
    obtain ⟨rfl, front⟩ := front
    have shorter := length_le_takeWhile (fun e he => all e (List.mem_cons_of_mem d he)) front
    rw [first_of_isDigit (all d List.mem_cons_self)]
    simpa [Lexeme.text, spelled] using shorter
  | newline => exact nonempty
  | blank d | mark kind d | stray d =>
    have one : (String.singleton d).toList.length = 1 := by simp
    exact one ▸ nonempty

/-! ### All pieces -/

/-- Well-formed pieces, none made longer by those that follow. -/
def Apart : List Lexeme → Prop
  | [] => True
  | l :: rest => l.WellFormed ∧ l.EndsBefore (textOf rest) ∧ Apart rest

theorem apart_split (source : List Char) : Apart (split source) := by
  induction size : source.length using Nat.strongRecOn generalizing source with
  | ind n ih =>
    cases source with
    | nil =>
      rw [split_nil]
      trivial
    | cons c cs =>
      have shorter := length_first_le c cs
      rw [List.length_cons] at size
      rw [split_cons]
      refine ⟨wellFormed_first c cs, ?_, ih _ (by omega) _ rfl⟩
      rw [textOf, split_text]
      exact endsBefore_first c cs

theorem split_of_apart (h : Apart pieces) : split (textOf pieces) = pieces := by
  induction pieces with
  | nil => exact split_nil
  | cons l rest ih =>
    obtain ⟨formed, ends, further⟩ := h
    rw [textOf_cons, split_append formed ends, ih further]

theorem Apart.of_append {front back : List Lexeme} (h : Apart (front ++ back)) : Apart back := by
  induction front with
  | nil => exact h
  | cons l front ih => exact ih h.2.2

theorem Apart.wellFormed (h : Apart pieces) : ∀ l ∈ pieces, l.WellFormed := by
  induction pieces with
  | nil => simp
  | cons l rest ih => simpa [h.1] using ih h.2.2

theorem munches_split (source : List Char) : Munches source (split source) := by
  have apart := apart_split source
  refine ⟨split_text source, apart.wellFormed, ?_⟩
  intro front l rest cut m formed ahead
  rw [cut] at apart
  obtain ⟨here, ends, -⟩ := apart.of_append
  obtain ⟨c, cs, same, found⟩ := exists_first_append here ends
  rw [textOf_cons, same] at ahead
  have longest := length_le_first formed ahead
  rwa [found] at longest

theorem WellFormed.eq_of_text (hl : l.WellFormed) (hm : m.WellFormed)
    (same : l.text.toList = m.text.toList) : l = m := by
  obtain ⟨c, cs, spelled, found⟩ := exists_first_append hl l.endsBefore_nil
  obtain ⟨d, ds, spelled', found'⟩ := exists_first_append hm m.endsBefore_nil
  rw [same, spelled'] at spelled
  obtain ⟨rfl, rfl⟩ := List.cons.inj spelled
  rw [found] at found'
  exact (Prod.mk.inj found').1

theorem Munches.tail {rest : List Lexeme} (h : Munches source (l :: rest)) :
    Munches (textOf rest) rest := by
  refine ⟨rfl, fun m hm => h.formed m (List.mem_cons_of_mem l hm), ?_⟩
  intro front m back cut
  exact h.longest (l :: front) m back (by rw [cut]; rfl)

theorem Munches.unique {other : List Lexeme} (h : Munches source pieces)
    (h' : Munches source other) : pieces = other := by
  have nonempty {l : Lexeme} {rest : List Lexeme} (cut : Munches [] (l :: rest)) : False := by
    have formed := cut.formed l List.mem_cons_self
    exact formed.text_ne_nil (List.append_eq_nil_iff.mp cut.whole).1
  induction pieces generalizing source other with
  | nil =>
    cases other with
    | nil => rfl
    | cons m back =>
      rw [← h.whole] at h'
      exact (nonempty h').elim
  | cons l rest ih =>
    cases other with
    | nil =>
      rw [← h'.whole] at h
      exact (nonempty h).elim
    | cons m back =>
      have hl := h.formed l List.mem_cons_self
      have hm := h'.formed m List.mem_cons_self
      have whole : l.text.toList ++ textOf rest = m.text.toList ++ textOf back :=
        h.whole.trans h'.whole.symm
      -- Each of the two pieces is in front of the whole text, so neither is longer.
      have longer := h.longest [] l rest rfl m hm (by rw [textOf_cons, whole]; simp)
      have shorter := h'.longest [] m back rfl l hl (by rw [textOf_cons, ← whole]; simp)
      obtain ⟨same, further⟩ := List.append_inj whole (by omega)
      obtain rfl := hl.eq_of_text hm same
      rw [ih h.tail (further ▸ h'.tail)]

/-- There is one way to cut a text by maximal munch. -/
theorem munches_iff : Munches source pieces ↔ pieces = split source := by
  constructor
  · intro h
    exact h.unique (munches_split source)
  · rintro rfl
    exact munches_split source

end Lexeme

end Straightline
