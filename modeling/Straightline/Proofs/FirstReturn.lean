import Straightline.Proofs.NormalAccounts
import Straightline.Proofs.Translation

/-!
# Code up to the first return

Normal code of instructions is that of the instructions up to the first return, and these are the
code of the statements up to the first that returns. Statements behind such a one have no part in
it (`normalAll_codeAll_append`).
-/
namespace Straightline

namespace Instruction

variable {front rest : List Instruction}

theorem upToReturn_append (goesOn : ∀ i ∈ front, i.isReturn = false) :
    upToReturn (front ++ rest) = front ++ upToReturn rest := by
  induction front with
  | nil => rfl
  | cons i front ih =>
    rw [List.cons_append, upToReturn, goesOn i List.mem_cons_self,
      ih fun j hj => goesOn j (List.mem_cons_of_mem i hj)]
    rfl

theorem normalAll_upToReturn (next : Nat) (code : List Instruction) :
    normalAll next (upToReturn code) = normalAll next code := by
  induction code generalizing next with
  | nil => rfl
  | cons i rest ih =>
    rw [upToReturn, normalAll, normalAll]
    split
    · rfl
    · rw [ih]

end Instruction

theorem Expression.isReturn_code {n : NonTerminal} (e : Expression n) (next : Nat) :
    ∀ i ∈ e.code next, i.isReturn = false := by
  induction e generalizing next with
  | arithmetic op lhs sign rhs ihl ihr =>
    intro i hi
    rcases List.mem_append.mp hi with hi | hi
    · rcases List.mem_append.mp hi with hi | hi
      · exact ihl next i hi
      · exact ihr _ i hi
    · rw [List.mem_singleton.mp hi]
      rfl
  | ofTerm inner ih => exact ih next
  | ofFactor inner ih => exact ih next
  | parenthesized left inner right ih => exact ih next
  | name v => simp [code]
  | literal l => simp [code]

namespace Statement

variable {l : List Statement}

def isReturning : Statement → Bool
  | declaration .. | assignment .. => false
  | returning .. => true

def upToReturn : List Statement → List Statement
  | [] => []
  | s :: rest => s :: if s.isReturning then [] else upToReturn rest

theorem upToReturn_append (returns : ∃ s ∈ l, s.isReturning = true) (l' : List Statement) :
    upToReturn (l ++ l') = upToReturn l := by
  induction l with
  | nil => simp at returns
  | cons s rest ih =>
    rw [List.cons_append, upToReturn, upToReturn]
    by_cases here : s.isReturning = true
    · rw [if_pos here, if_pos here]
    · rw [if_neg here, if_neg here, ih]
      simpa [here] using returns

theorem upToReturn_code_append (s : Statement) (next : Nat) (rest : List Instruction) :
    Instruction.upToReturn (s.code next ++ rest) =
      s.code next ++ if s.isReturning then [] else Instruction.upToReturn rest := by
  cases s with
  | declaration type name => rfl
  | assignment name equals value =>
    rw [code, List.append_assoc, Instruction.upToReturn_append (value.isReturn_code next),
      List.append_assoc]
    rfl
  | returning word value =>
    rw [code, List.append_assoc, Instruction.upToReturn_append (value.isReturn_code next),
      List.append_assoc]
    rfl

theorem upToReturn_codeAll (next : Nat) (l : List Statement) :
    Instruction.upToReturn (codeAll next l) = codeAll next (upToReturn l) := by
  induction l generalizing next with
  | nil => rfl
  | cons s rest ih =>
    rw [codeAll, upToReturn, codeAll, upToReturn_code_append]
    split
    · rfl
    · rw [ih]

/-- Statements behind a return leave no trace in normal code but the number it starts from. -/
theorem normalAll_codeAll_append (returns : ∃ s ∈ l, s.isReturning = true) (l' : List Statement)
    (next first : Nat) :
    Instruction.normalAll next (codeAll first (l ++ l')) =
      Instruction.normalAll next (codeAll first l) := by
  rw [← Instruction.normalAll_upToReturn, upToReturn_codeAll, upToReturn_append returns,
    ← upToReturn_codeAll, Instruction.normalAll_upToReturn]

end Statement

/-! ### The word of a return -/

theorem Expression.kind_ne_returnWord {n : NonTerminal} (e : Expression n) :
    ∀ t ∈ e.forest.yield, t.kind ≠ .returnWord := by
  induction e with
  | arithmetic op lhs sign rhs ihl ihr =>
    have other : sign.token.kind ≠ .returnWord := by
      rw [sign.kind]
      cases op <;> decide
    show ∀ t ∈ (lhs.forest.append (.token sign.token sign.kind rhs.forest)).yield ++ [], _
    simp only [Grammar.Forest.yield_append, Grammar.Forest.yield, List.append_nil, List.mem_append,
      List.mem_cons]
    rintro t (left | rfl | right)
    · exact ihl t left
    · exact other
    · exact ihr t right
  | ofTerm inner ih =>
    show ∀ t ∈ inner.forest.yield ++ [], _
    simpa using ih
  | ofFactor inner ih =>
    show ∀ t ∈ inner.forest.yield ++ [], _
    simpa using ih
  | parenthesized left inner right ih =>
    show ∀ t ∈ left.token :: (inner.forest.append (.token right.token right.kind .nil)).yield ++ [],
      _
    simp only [Grammar.Forest.yield_append, Grammar.Forest.yield, List.append_nil, List.mem_cons,
      List.mem_append]
    rintro t (rfl | inside | rfl | ⟨⟨⟩⟩)
    · rw [left.kind]
      decide
    · exact ih t inside
    · rw [right.kind]
      decide
  | name v =>
    show ∀ t ∈ [v.token], _
    simp [v.kind]
  | literal l =>
    show ∀ t ∈ [l.token], _
    simp [l.kind]

theorem Statement.isReturning_of_mem_yield {s : Statement} {t : Token} (member : t ∈ s.forest.yield)
    (word : t.kind = .returnWord) : s.isReturning = true := by
  cases s with
  | returning first value => rfl
  | declaration type name =>
    exfalso
    have leaves : t ∈ [type.token, name.token] := member
    simp only [List.mem_cons, List.not_mem_nil, or_false] at leaves
    rcases leaves with rfl | rfl
    · cases type.kind.symm.trans word
    · cases name.kind.symm.trans word
  | assignment name equals value =>
    exfalso
    have leaves : t ∈ name.token :: equals.token :: value.forest.yield ++ [] := member
    simp only [List.append_nil, List.mem_cons] at leaves
    rcases leaves with rfl | rfl | inside
    · cases name.kind.symm.trans word
    · cases equals.kind.symm.trans word
    · exact value.kind_ne_returnWord t inside word

theorem StatementList.exists_returning (l : StatementList) {t : Token}
    (member : t ∈ l.program.yield) (word : t.kind = .returnWord) :
    ∃ s ∈ l.statements, s.isReturning = true := by
  rw [l.yield_program] at member
  induction l with
  | last s semicolon =>
    have leaves : t ∈ (s.forest.append (.token semicolon.token semicolon.kind .nil)).yield ++ [] :=
      member
    simp only [Grammar.Forest.yield_append, Grammar.Forest.yield, List.append_nil, List.mem_append,
      List.mem_singleton] at leaves
    rcases leaves with inside | rfl
    · exact ⟨s, List.mem_singleton_self s, Statement.isReturning_of_mem_yield inside word⟩
    · cases semicolon.kind.symm.trans word
  | more s semicolon rest ih =>
    have leaves :
        t ∈ (s.forest.append (.token semicolon.token semicolon.kind rest.forest)).yield ++ [] :=
      member
    simp only [Grammar.Forest.yield_append, Grammar.Forest.yield, List.append_nil, List.mem_append,
      List.mem_cons] at leaves
    rcases leaves with inside | rfl | behind
    · exact ⟨s, List.mem_cons_self, Statement.isReturning_of_mem_yield inside word⟩
    · cases semicolon.kind.symm.trans word
    · obtain ⟨s', member', returns⟩ := ih behind
      exact ⟨s', List.mem_cons_of_mem s member', returns⟩

end Straightline
