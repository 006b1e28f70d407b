import Straightline.Scanner

/-!
# Scanned tokens

The tokens of a source text end with the end of input and have it nowhere else, a literal among them
spells a value, and an identifier is not empty (`scan_cases`) and is in the symbol table
(`contains_of_scan`). The scanner stops at digits that spell no value and at stray characters, and
nowhere else (`scan_error`).
-/
namespace Straightline

theorem Symbols.contains_add (s : Symbols) (name other : String) :
    (s.add name).contains other = (decide (name = other) || s.contains other) := by
  unfold add
  split
  · rename_i there
    by_cases same : name = other
    · subst same
      simp [there]
    · simp [same]
  · simp [contains, Std.TreeMap.contains_insert, Bool.beq_eq_decide_eq]

theorem Kind.category_of_mark? {c : Char} {k : Kind} (h : mark? c = some k) :
    k.category = .punctuation := by
  unfold mark? at h
  split at h
  all_goals cases h
  all_goals rfl

/-- A piece that is punctuation when it is a mark, and not empty when it is a word. -/
def Lexeme.Proper : Lexeme → Prop
  | mark k _ => k.category = .punctuation
  | word text => text ≠ ""
  | _ => True

namespace Lexeme

theorem proper_first (c : Char) (cs : List Char) : (first c cs).1.Proper := by
  unfold first
  split
  · trivial
  · split
    · trivial
    · split
      · exact Kind.category_of_mark? ‹_›
      · split
        · trivial
        · split
          · simp [Proper]
          · trivial

theorem proper_splitOnto {done : List Lexeme} {source : List Char} (h : ∀ l ∈ done, l.Proper) :
    ∀ l ∈ splitOnto done source, l.Proper := by
  fun_induction splitOnto done source with
  | case1 done => simpa using h
  | case2 done c cs ih =>
    refine ih ?_
    intro l hl
    rcases List.mem_cons.mp hl with rfl | hl
    · exact proper_first c cs
    · exact h l hl

theorem proper_split (source : List Char) : ∀ l ∈ split source, l.Proper :=
  proper_splitOnto (by simp)

end Lexeme

/-- A token that is not the end of input, spells a value when it is a literal, and has a name when
it is an identifier. -/
structure Token.Scanned (t : Token) : Prop where
  inner : t.kind ≠ .endOfInput
  reads : t.kind = .intConst → ∃ n, Decimal.read? t.lexeme = some n
  named : t.kind = .identifier → t.lexeme ≠ ""

theorem Lexeme.scanned {l : Lexeme} {line column : Nat} {k : Kind} (proper : l.Proper)
    (h : l.kind? line column = .ok (some k)) : Token.Scanned ⟨k, l.text, line, column⟩ := by
  cases l with
  | newline => cases h
  | blank c => cases h
  | stray c => cases h
  | mark kind c =>
    cases h
    refine ⟨?_, ?_, ?_⟩
    · rintro rfl
      cases proper
    · rintro rfl
      cases proper
    · rintro rfl
      cases proper
  | word text =>
    cases h
    refine ⟨?_, ?_, fun _ => proper⟩
    · unfold Kind.keyword?
      split
      · simp
      · split <;> simp
    · unfold Kind.keyword?
      split
      · simp
      · split <;> simp
  | digits text =>
    simp only [kind?] at h
    split at h
    · cases h
      exact ⟨by simp, fun _ => Option.isSome_iff_exists.mp ‹_›, by simp⟩
    · cases h

namespace Scanner

variable {line column : Nat} {done tokens : List Token} {symbols : Symbols} {st : Scanner × Symbols}

theorem scanFrom_cases {pieces : List Lexeme} (proper : ∀ l ∈ pieces, l.Proper)
    (before : ∀ t ∈ done, t.Scanned)
    (h : scanFrom line column done symbols pieces = .ok tokens st) :
    ∃ front e, tokens = front ++ [e] ∧ e.kind = .endOfInput ∧ ∀ t ∈ front, t.Scanned := by
  induction pieces generalizing line column done symbols with
  | nil =>
    cases h
    exact ⟨done.reverse, ⟨.endOfInput, "", line, column⟩, by simp, rfl, by simpa using before⟩
  | cons l rest ih =>
    have behind : ∀ l ∈ rest, l.Proper := fun l hl => proper l (List.mem_cons_of_mem _ hl)
    unfold scanFrom at h
    dsimp only at h
    split at h
    · cases h
    · exact ih behind before h
    · rename_i k made
      refine ih behind ?_ h
      intro t ht
      rcases List.mem_cons.mp ht with rfl | ht
      · exact Lexeme.scanned (proper l List.mem_cons_self) made
      · exact before t ht

theorem scan_cases {source : String}
    (h : scan (.ofSource source, symbols) = .ok tokens st) :
    ∃ front e, tokens = front ++ [e] ∧ e.kind = .endOfInput ∧ ∀ t ∈ front, t.Scanned := by
  have none : ∀ t ∈ ([] : List Token), t.Scanned := by simp
  exact scanFrom_cases (Lexeme.proper_split _) none h

theorem contains_of_scanFrom {pieces : List Lexeme}
    (before : ∀ t ∈ done, t.kind = .identifier → symbols.contains t.lexeme = true)
    (h : scanFrom line column done symbols pieces = .ok tokens st) :
    ∀ t ∈ tokens, t.kind = .identifier → st.2.contains t.lexeme = true := by
  induction pieces generalizing line column done symbols with
  | nil =>
    cases h
    intro t ht identifier
    rcases List.mem_cons.mp (List.mem_reverse.mp ht) with rfl | ht
    · cases identifier
    · exact before t ht identifier
  | cons l rest ih =>
    unfold scanFrom at h
    dsimp only at h
    split at h
    · cases h
    · exact ih before h
    · rename_i k made
      refine ih ?_ h
      intro t ht identifier
      rcases List.mem_cons.mp ht with rfl | ht
      · have identifier : k = .identifier := identifier
        rw [if_pos identifier, Symbols.contains_add]
        simp
      · have old := before t ht identifier
        split
        · rw [Symbols.contains_add, old, Bool.or_true]
        · exact old

theorem contains_of_scan {source : String}
    (h : scan (.ofSource source, symbols) = .ok tokens st) :
    ∀ t ∈ tokens, t.kind = .identifier → st.2.contains t.lexeme = true :=
  contains_of_scanFrom (by simp [ofSource]) h

theorem scanFrom_error {pieces : List Lexeme} {e : Error}
    (h : scanFrom line column done symbols pieces = .error e st) :
    (∃ c line column, e = .unexpectedCharacter c line column) ∨
      ∃ text line, e = .invalidInteger text line := by
  induction pieces generalizing line column done symbols with
  | nil => cases h
  | cons l rest ih =>
    unfold scanFrom at h
    dsimp only at h
    split at h
    · rename_i e' stopped
      cases h
      cases l with
      | newline => cases stopped
      | blank c => cases stopped
      | mark k c => cases stopped
      | word text => cases stopped
      | digits text =>
        simp only [Lexeme.kind?] at stopped
        split at stopped
        · cases stopped
        · cases stopped
          exact Or.inr ⟨text, line, rfl⟩
      | stray c =>
        cases stopped
        exact Or.inl ⟨c, line, column, rfl⟩
    · exact ih h
    · exact ih h

theorem scan_error {source : String} {e : Error}
    (h : scan (.ofSource source, symbols) = .error e st) :
    (∃ c line column, e = .unexpectedCharacter c line column) ∨
      ∃ text line, e = .invalidInteger text line :=
  scanFrom_error h

end Scanner

end Straightline
