import Mathlib.Algebra.Ring.Nat
import Mathlib.Data.List.DropRight
import Straightline.Proofs.Decimals
import Straightline.Proofs.MaximalMunch

/-!
# The tokens of a source text

Scanning a source text against the text cut by maximal munch. It succeeds if no piece is at fault,
and gives a token for each piece that is not blank, at the place that the text before it leads to;
otherwise it stops at the first fault. The symbol table gains the identifiers on the way.
-/
namespace Straightline

namespace Decimal

theorem integer?_of_digits {digits : List Char} (nonempty : digits ≠ [])
    (all : ∀ c ∈ digits, c.isDigit = true) : integer? digits = some (value digits : Int) := by
  have natural : natural? digits = some (value digits) := by
    have digit : digits.all Char.isDigit = true := List.all_eq_true.mpr all
    simp [natural?, nonempty, digit]
  unfold integer?
  split
  · exact absurd (all '-' List.mem_cons_self) (by decide)
  · exact absurd (all '+' List.mem_cons_self) (by decide)
  · rw [natural]
    rfl

/-- A run of digits is read when its value is a word, however many zeros it starts with. -/
theorem isSome_read?_iff {text : String} (nonempty : text.toList ≠ [])
    (all : ∀ c ∈ text.toList, c.isDigit = true) :
    (read? text).isSome = true ↔ value text.toList ≤ 2 ^ 63 - 1 := by
  have least : Int64.minValue.toInt ≤ 0 := by decide
  have greatest : Int64.maxValue.toInt = 2 ^ 63 - 1 := by decide
  rw [read?, integer?_of_digits nonempty all, Option.bind_some, word?]
  split
  · simp
    omega
  · simp
    omega

end Decimal

namespace Symbols

/-- A symbol table that keeps the entries of another one and has an entry without type and value for
each new name among given ones. -/
def Gains (old : Symbols) (names : List String) (new : Symbols) : Prop :=
  ∀ name, new.get? name =
    if old.get? name = none ∧ name ∈ names then some ⟨name, none, none⟩ else old.get? name

theorem gains_addAll (s : Symbols) (names : List String) : s.Gains names (s.addAll names) := by
  unfold Gains addAll
  induction names generalizing s with
  | nil => simp
  | cons name names ih =>
    intro other
    rw [List.foldl_cons, ih (s.add name) other, get?_add]
    by_cases same : name = other
    · subst same
      cases s.get? name <;> simp
    · have : other ≠ name := fun h => same h.symm
      simp [same, this]

theorem addAll_append (s : Symbols) (first second : List String) :
    s.addAll (first ++ second) = (s.addAll first).addAll second :=
  List.foldl_append

end Symbols

namespace Scanner

def lineAfter (before : List Char) : Nat :=
  1 + before.count '\n'

def columnAfter (before : List Char) : Nat :=
  1 + (before.rtakeWhile (· != '\n')).length

theorem lineAfter_append {text : List Char} (h : '\n' ∉ text) (before : List Char) :
    lineAfter (before ++ text) = lineAfter before := by
  rw [lineAfter, List.count_append, List.count_eq_zero.mpr h]
  rfl

theorem columnAfter_append {text : List Char} (h : '\n' ∉ text) (before : List Char) :
    columnAfter (before ++ text) = columnAfter before + text.length := by
  have all : ∀ c ∈ text.reverse, (c != '\n') = true := by
    intro c hc
    have : c ≠ '\n' := by
      rintro rfl
      exact h (List.mem_reverse.mp hc)
    simpa using this
  rw [columnAfter, columnAfter, List.rtakeWhile, List.rtakeWhile, List.reverse_append,
    List.takeWhile_append_of_pos all]
  simp only [List.length_reverse, List.length_append]
  omega

end Scanner

namespace Lexeme

open Scanner

variable {l : Lexeme} {before : List Char} {pieces front rest : List Lexeme}

/-- Digits whose value is no word, and characters that start no token. -/
def Faulty : Lexeme → Prop
  | digits text => 2 ^ 63 - 1 < Decimal.value text.toList
  | stray _ => True
  | _ => False

instance : DecidablePred Faulty
  | digits text => inferInstanceAs (Decidable (2 ^ 63 - 1 < Decimal.value text.toList))
  | stray _ => .isTrue trivial
  | newline | blank _ | mark .. | word _ => .isFalse id

/-- The error that a piece behind a text is reported with. -/
def fault? (before : List Char) (l : Lexeme) : Option Error :=
  match l with
  | digits text => if l.Faulty then some (.invalidInteger text (lineAfter before)) else none
  | stray c => some (.unexpectedCharacter c (lineAfter before) (columnAfter before))
  | _ => none

def spells? : Lexeme → Option Kind
  | mark kind _ => some kind
  | word text =>
    some (if text = "int" then .intWord else if text = "return" then .returnWord else .identifier)
  | digits _ => some .intConst
  | newline | blank _ | stray _ => none

/-- The tokens of pieces behind a text, each at the place that the text before it leads to. -/
def tokensAfter (before : List Char) : List Lexeme → List Token
  | [] => []
  | l :: rest =>
    (l.spells?.map (⟨·, l.text, lineAfter before, columnAfter before⟩)).toList ++
      tokensAfter (before ++ l.text.toList) rest

def identifiers (pieces : List Lexeme) : List String :=
  (pieces.filter (·.spells? = some .identifier)).map text

theorem newline_notMem (formed : l.WellFormed) (other : l ≠ newline) : '\n' ∉ l.text.toList := by
  cases l with
  | newline => exact absurd rfl other
  | blank c => rcases formed with rfl | rfl | rfl <;> decide
  | mark kind c =>
    have known : Kind.mark? c = some kind := formed
    have : '\n' ≠ c := by
      rintro rfl
      cases known
    simpa [text] using this
  | word text =>
    obtain ⟨c, cs, spelled, letter, all⟩ := formed
    intro here
    simp only [Lexeme.text, spelled, List.mem_cons] at here
    rcases here with rfl | here
    · cases letter
    · cases all _ here
  | digits text =>
    intro here
    cases formed.2 _ here
  | stray c =>
    have := formed.1.symm
    simpa [text] using this

theorem after_eq (formed : l.WellFormed) (before : List Char) :
    after l (lineAfter before) (columnAfter before) =
      (lineAfter (before ++ l.text.toList), columnAfter (before ++ l.text.toList)) := by
  by_cases line : l = newline
  · subst line
    have spelled : newline.text.toList = ['\n'] := rfl
    rw [spelled, after]
    simp [lineAfter, columnAfter]
    omega
  · have clear := newline_notMem formed line
    rw [lineAfter_append clear, columnAfter_append clear]
    unfold after
    split
    · exact absurd rfl line
    · rw [String.length_toList]

theorem kind?_of_not_faulty (formed : l.WellFormed) (sound : ¬ l.Faulty) (line column : Nat) :
    l.kind? line column = .ok l.spells? := by
  cases l with
  | newline => rfl
  | blank c => rfl
  | mark kind c => rfl
  | word text =>
    simp only [kind?, spells?, Kind.keyword?]
    split
    · rfl
    · split <;> rfl
  | digits text =>
    have small : Decimal.value text.toList ≤ 2 ^ 63 - 1 := Nat.not_lt.mp sound
    rw [kind?, if_pos ((Decimal.isSome_read?_iff formed.1 formed.2).mpr small)]
    rfl
  | stray c => exact absurd trivial sound

theorem kind?_of_fault? {e : Error} (formed : l.WellFormed) (fault : l.fault? before = some e) :
    l.kind? (lineAfter before) (columnAfter before) = .error e := by
  cases l with
  | newline | blank c | mark kind c | word text => cases fault
  | digits text =>
    simp only [fault?, Option.ite_none_right_eq_some] at fault
    obtain ⟨large, ⟨⟩⟩ := fault
    have refused : ¬ (Decimal.read? text).isSome = true := by
      rw [Decimal.isSome_read?_iff formed.1 formed.2]
      exact Nat.not_le.mpr large
    rw [kind?, if_neg refused]
  | stray c =>
    cases fault
    rfl

theorem exists_fault?_iff (before : List Char) : (∃ e, l.fault? before = some e) ↔ l.Faulty := by
  cases l with
  | newline | blank c | mark kind c | word text => simp [fault?, Faulty]
  | digits text => simp [fault?]
  | stray c => simp [fault?, Faulty]

theorem tokensAfter_cons (before : List Char) (l : Lexeme) (rest : List Lexeme) :
    tokensAfter before (l :: rest) =
      tokensAfter before [l] ++ tokensAfter (before ++ l.text.toList) rest := by
  simp [tokensAfter]

theorem identifiers_cons (l : Lexeme) (rest : List Lexeme) :
    identifiers (l :: rest) = identifiers [l] ++ identifiers rest := by
  unfold identifiers
  rw [← List.map_append, ← List.filter_append, List.singleton_append]

theorem faults_cases (pieces : List Lexeme) :
    (∀ l ∈ pieces, ¬ l.Faulty) ∨
      ∃ front l rest, pieces = front ++ l :: rest ∧ (∀ m ∈ front, ¬ m.Faulty) ∧ l.Faulty := by
  cases found : pieces.find? (·.Faulty) with
  | none =>
    left
    simpa using found
  | some l =>
    right
    obtain ⟨fault, front, rest, cut, sound⟩ := List.find?_eq_some_iff_append.mp found
    exact ⟨front, l, rest, cut, by simpa using sound, by simpa using fault⟩

end Lexeme

namespace Scanner

open Lexeme

variable {front rest : List Lexeme}

/-- Scanning goes on behind a piece that is not at fault, with its token and its name. -/
theorem scanFrom_cons {l : Lexeme} (formed : l.WellFormed) (sound : ¬ l.Faulty)
    (before : List Char) (done : List Token) (symbols : Symbols) (rest : List Lexeme) :
    scanFrom (lineAfter before) (columnAfter before) done symbols (l :: rest) =
      scanFrom (lineAfter (before ++ l.text.toList)) (columnAfter (before ++ l.text.toList))
        ((tokensAfter before [l]).reverse ++ done) (symbols.addAll (identifiers [l])) rest := by
  rw [scanFrom, after_eq formed, kind?_of_not_faulty formed sound]
  cases spelled : l.spells? with
  | none => simp [tokensAfter, identifiers, Symbols.addAll, spelled]
  | some kind =>
    by_cases name : kind = .identifier
    · simp [tokensAfter, identifiers, Symbols.addAll, spelled, name]
    · simp [tokensAfter, identifiers, Symbols.addAll, spelled, name]

theorem scanFrom_append (formed : ∀ l ∈ front, l.WellFormed) (sound : ∀ l ∈ front, ¬ l.Faulty)
    (before : List Char) (done : List Token) (symbols : Symbols) (rest : List Lexeme) :
    scanFrom (lineAfter before) (columnAfter before) done symbols (front ++ rest) =
      scanFrom (lineAfter (before ++ textOf front)) (columnAfter (before ++ textOf front))
        ((tokensAfter before front).reverse ++ done) (symbols.addAll (identifiers front)) rest := by
  induction front generalizing before done symbols with
  | nil =>
    rw [textOf_nil, List.append_nil]
    rfl
  | cons l front ih =>
    have step := scanFrom_cons (formed l List.mem_cons_self) (sound l List.mem_cons_self) before
      done symbols (front ++ rest)
    have further := ih (fun m hm => formed m (List.mem_cons_of_mem l hm))
      (fun m hm => sound m (List.mem_cons_of_mem l hm))
    rw [List.cons_append, step, further, tokensAfter_cons before l front, identifiers_cons l front,
      textOf_cons, List.append_assoc, List.reverse_append, List.append_assoc,
      Symbols.addAll_append]

/-- Scanning stops at a fault and goes on behind it when it is asked again. -/
theorem scanFrom_fault {l : Lexeme} {before : List Char} {e : Error} (formed : l.WellFormed)
    (fault : l.fault? before = some e) (done : List Token) (symbols : Symbols)
    (rest : List Lexeme) :
    scanFrom (lineAfter before) (columnAfter before) done symbols (l :: rest) =
      .error e
        (⟨rest, lineAfter (before ++ l.text.toList), columnAfter (before ++ l.text.toList), done⟩,
          symbols) := by
  rw [scanFrom, after_eq formed, kind?_of_fault? formed fault]

theorem scan_ofSource (source : String) (symbols : Symbols) :
    scan (.ofSource source, symbols) =
      scanFrom (lineAfter []) (columnAfter []) [] symbols (split source.toList) :=
  rfl

theorem scan_of_sound {source : String} (sound : ∀ l ∈ split source.toList, ¬ l.Faulty)
    (symbols : Symbols) :
    ∃ st, scan (.ofSource source, symbols) =
        .ok (tokensAfter [] (split source.toList) ++
          [⟨.endOfInput, "", lineAfter source.toList, columnAfter source.toList⟩]) st ∧
      symbols.Gains (identifiers (split source.toList)) st.2 := by
  have formed := (apart_split source.toList).wellFormed
  have passed := scanFrom_append formed sound [] [] symbols []
  rw [List.append_nil, List.nil_append, textOf, split_text, List.append_nil, ← scan_ofSource,
    scanFrom, List.reverse_cons, List.reverse_reverse] at passed
  exact ⟨_, passed, Symbols.gains_addAll _ _⟩

theorem scan_of_fault {source : String} {l : Lexeme} {e : Error}
    (cut : split source.toList = front ++ l :: rest) (sound : ∀ m ∈ front, ¬ m.Faulty)
    (fault : l.fault? (textOf front) = some e) (symbols : Symbols) :
    ∃ st, scan (.ofSource source, symbols) = .error e st ∧
      symbols.Gains (identifiers front) st.2 := by
  have formed := (apart_split source.toList).wellFormed
  rw [cut] at formed
  have passed := scanFrom_append (fun m hm => formed m (List.mem_append_left _ hm)) sound [] []
    symbols (l :: rest)
  rw [← cut, List.nil_append, ← scan_ofSource, scanFrom_fault (formed l (by simp)) fault] at passed
  exact ⟨_, passed, Symbols.gains_addAll _ _⟩

/-- Scanning a source text, exactly. There is one way to cut the text by maximal munch. Scanning
succeeds if none of the pieces is at fault; then there is a token for each piece that spells one, and
the end of input behind the whole text. Otherwise the first fault is reported. The symbol table gains
the names among the pieces that were passed. -/
theorem scan_exact (source : String) (symbols : Symbols) :
    ∃ pieces, (∀ cut, Munches source.toList cut ↔ cut = pieces) ∧
      ((∃ tokens st, scan (.ofSource source, symbols) = .ok tokens st) ↔
        ∀ l ∈ pieces, ¬ l.Faulty) ∧
      ((∀ l ∈ pieces, ¬ l.Faulty) →
        ∃ st, scan (.ofSource source, symbols) =
            .ok (tokensAfter [] pieces ++
              [⟨.endOfInput, "", lineAfter source.toList, columnAfter source.toList⟩]) st ∧
          symbols.Gains (identifiers pieces) st.2) ∧
      ∀ front l rest, pieces = front ++ l :: rest → (∀ m ∈ front, ¬ m.Faulty) → l.Faulty →
        ∃ e st, l.fault? (textOf front) = some e ∧
          scan (.ofSource source, symbols) = .error e st ∧
          symbols.Gains (identifiers front) st.2 := by
  have fails {front : List Lexeme} {l : Lexeme} {rest : List Lexeme}
      (cut : split source.toList = front ++ l :: rest) (sound : ∀ m ∈ front, ¬ m.Faulty)
      (faulty : l.Faulty) :
      ∃ e st, l.fault? (textOf front) = some e ∧
        scan (.ofSource source, symbols) = .error e st ∧
        symbols.Gains (identifiers front) st.2 := by
    obtain ⟨e, fault⟩ := (exists_fault?_iff (textOf front)).mpr faulty
    obtain ⟨st, failed, gains⟩ := scan_of_fault cut sound fault symbols
    exact ⟨e, st, fault, failed, gains⟩
  refine ⟨split source.toList, fun cut => munches_iff, ⟨?_, ?_⟩, ?_, ?_⟩
  · rintro ⟨tokens, st, ok⟩
    rcases faults_cases (split source.toList) with sound | ⟨front, l, rest, cut, sound, faulty⟩
    · exact sound
    · obtain ⟨e, st', -, failed, -⟩ := fails cut sound faulty
      rw [ok] at failed
      cases failed
  · intro sound
    obtain ⟨st, ok, -⟩ := scan_of_sound sound symbols
    exact ⟨_, st, ok⟩
  · exact fun sound => scan_of_sound sound symbols
  · exact fun front l rest => fails

end Scanner

end Straightline
