import Straightline.Proofs.Sequencing
import Straightline.Proofs.SourceTokens

/-!
# Scanning on behind faults

A scanner that failed keeps its tokens and goes on behind the fault when it is called again. Its calls
report the faults of the text one by one. The next call gives the tokens of the whole text with blanks
in the place of what was at fault, and any call after that the end of input alone.
-/
namespace Straightline

namespace Lexeme

open Scanner

variable {l : Lexeme} {rest' : List Char} {pieces : List Lexeme}

/-- The errors of pieces behind a text, one for each piece that is at fault. -/
def faultsAfter (before : List Char) : List Lexeme → List Error
  | [] => []
  | l :: rest => (l.fault? before).toList ++ faultsAfter (before ++ l.text.toList) rest

theorem faultsAfter_of_fault? {before : List Char} {e : Error} (fault : l.fault? before = some e)
    (rest : List Lexeme) :
    faultsAfter before (l :: rest) = e :: faultsAfter (before ++ l.text.toList) rest := by
  rw [faultsAfter, fault]
  rfl

theorem faultsAfter_of_not_faulty (sound : ¬ l.Faulty) (before : List Char) (rest : List Lexeme) :
    faultsAfter before (l :: rest) = faultsAfter (before ++ l.text.toList) rest := by
  have none : l.fault? before = none := by
    rw [Option.eq_none_iff_forall_ne_some]
    intro e fault
    exact sound ((exists_fault?_iff before).mp ⟨e, fault⟩)
  rw [faultsAfter, none]
  rfl

def cleared (l : Lexeme) : List Char :=
  if l.Faulty then l.text.toList.map fun _ => ' ' else l.text.toList

/-- A piece, or as many blanks as it has characters when it is at fault. -/
def blanked (l : Lexeme) : List Lexeme :=
  if l.Faulty then l.text.toList.map fun _ => blank ' ' else [l]

theorem textOf_blanks (cs : List Char) :
    textOf (cs.map fun _ => blank ' ') = cs.map fun _ => ' ' := by
  induction cs with
  | nil => rfl
  | cons c cs ih =>
    rw [List.map_cons, textOf_cons, ih]
    rfl

theorem textOf_blanked (l : Lexeme) : textOf l.blanked = l.cleared := by
  unfold blanked cleared
  split
  · exact textOf_blanks _
  · exact List.append_nil _

theorem textOf_flatMap_blanked (pieces : List Lexeme) :
    textOf (pieces.flatMap blanked) = pieces.flatMap cleared := by
  induction pieces with
  | nil => rfl
  | cons l rest ih => rw [List.flatMap_cons, List.flatMap_cons, textOf_append, textOf_blanked, ih]

theorem EndsBefore.of_head? {rest : List Char} (ends : l.EndsBefore rest)
    (h : ∀ c ∈ rest'.head?, c = ' ' ∨ c ∈ rest.head?) : l.EndsBefore rest' := by
  cases l with
  | newline | blank c | mark kind c | stray c => trivial
  | word text =>
    intro c hc
    rcases h c hc with rfl | hc
    · decide
    · exact ends c hc
  | digits text =>
    intro c hc
    rcases h c hc with rfl | hc
    · decide
    · exact ends c hc

theorem head?_flatMap_cleared (formed : ∀ l ∈ pieces, l.WellFormed) :
    ∀ c ∈ (pieces.flatMap cleared).head?, c = ' ' ∨ c ∈ (textOf pieces).head? := by
  cases pieces with
  | nil => simp
  | cons l rest =>
    have nonempty := (formed l List.mem_cons_self).text_ne_nil
    obtain ⟨c, cs, spelled⟩ := List.exists_cons_of_ne_nil nonempty
    rw [List.flatMap_cons, textOf_cons, spelled, cleared]
    split <;> simp [spelled]

theorem apart_blanks (cs : List Char) (h : Apart pieces) :
    Apart ((cs.map fun _ => blank ' ') ++ pieces) := by
  induction cs with
  | nil => exact h
  | cons c cs ih => exact ⟨Or.inl rfl, trivial, ih⟩

/-- Blanks in the place of faults leave the other pieces as they are cut. -/
theorem Apart.flatMap_blanked (h : Apart pieces) : Apart (pieces.flatMap blanked) := by
  induction pieces with
  | nil => trivial
  | cons l rest ih =>
    obtain ⟨formed, ends, further⟩ := h
    rw [List.flatMap_cons, blanked]
    split
    · exact apart_blanks _ (ih further)
    · rw [List.singleton_append]
      refine ⟨formed, ends.of_head? ?_, ih further⟩
      rw [textOf_flatMap_blanked]
      exact head?_flatMap_cleared further.wellFormed

theorem split_flatMap_cleared (source : List Char) :
    split ((split source).flatMap cleared) = (split source).flatMap blanked := by
  rw [← textOf_flatMap_blanked]
  exact split_of_apart (apart_split source).flatMap_blanked

end Lexeme

namespace Scanner

open Lexeme

variable {start start' : Scanner × Symbols}

/-- The answer to a call, counted from zero, of a scanner that is called again and again. -/
def answer (start : Scanner × Symbols) :
    Nat → EStateM.Result Error (Scanner × Symbols) (List Token)
  | 0 => scan start
  | n + 1 => scan (stateOf (answer start n))

theorem answer_succ (start : Scanner × Symbols) (n : Nat) :
    answer start (n + 1) = answer (stateOf (scan start)) n := by
  induction n with
  | zero => rfl
  | succ n ih => rw [answer, ih, answer]

theorem answer_congr (h : scan start = scan start') (n : Nat) :
    answer start n = answer start' n := by
  cases n with
  | zero => exact h
  | succ n => rw [answer_succ, answer_succ, h]

theorem scanFrom_blanks (cs : List Char) (line column : Nat) (done : List Token)
    (symbols : Symbols) (pieces : List Lexeme) :
    scanFrom line column done symbols ((cs.map fun _ => blank ' ') ++ pieces) =
      scanFrom line (column + cs.length) done symbols pieces := by
  induction cs generalizing column with
  | nil => rfl
  | cons c cs ih =>
    have one : (blank ' ').text.length = 1 := by decide
    have place : after (blank ' ') line column = (line, column + 1) := by simp [after, one]
    rw [List.map_cons, List.cons_append, scanFrom, place, List.length_cons, Nat.add_comm cs.length,
      ← Nat.add_assoc]
    exact ih (column + 1)

theorem scanFrom_blanked {l : Lexeme} (formed : l.WellFormed) (faulty : l.Faulty)
    (before : List Char) (done : List Token) (symbols : Symbols) (pieces : List Lexeme) :
    scanFrom (lineAfter before) (columnAfter before) done symbols (l.blanked ++ pieces) =
      scanFrom (lineAfter (before ++ l.text.toList)) (columnAfter (before ++ l.text.toList)) done
        symbols pieces := by
  have clear : '\n' ∉ l.text.toList := by
    apply newline_notMem formed
    rintro rfl
    exact faulty
  rw [blanked, if_pos faulty, scanFrom_blanks, lineAfter_append clear, columnAfter_append clear]

/-- The calls of a scanner with given pieces ahead: each fault is reported, and the call after the
last one scans what blanks in their places would give. -/
theorem answer_pieces {pieces : List Lexeme} (formed : ∀ l ∈ pieces, l.WellFormed)
    (before : List Char) (done : List Token) (symbols : Symbols) :
    let start : Scanner × Symbols := (⟨pieces, lineAfter before, columnAfter before, done⟩, symbols)
    let final : Scanner :=
      ⟨[], lineAfter (before ++ textOf pieces), columnAfter (before ++ textOf pieces), []⟩
    (∀ n e, (faultsAfter before pieces)[n]? = some e → ∃ st, answer start n = .error e st) ∧
      ∃ tokens symbols',
        answer start (faultsAfter before pieces).length = .ok tokens (final, symbols') ∧
        scanFrom (lineAfter before) (columnAfter before) done symbols (pieces.flatMap blanked) =
          .ok tokens (final, symbols') := by
  induction pieces generalizing before done symbols with
  | nil =>
    rw [textOf_nil, List.append_nil]
    exact ⟨by simp [faultsAfter], _, symbols, rfl, rfl⟩
  | cons l rest ih =>
    intro start final
    have here := formed l List.mem_cons_self
    have behind := ih (fun m hm => formed m (List.mem_cons_of_mem l hm)) (before ++ l.text.toList)
    rw [List.append_assoc] at behind
    by_cases faulty : l.Faulty
    · -- The call fails, and the next one starts behind the fault.
      obtain ⟨e, fault⟩ := (exists_fault?_iff before).mpr faulty
      obtain ⟨reports, tokens, symbols', last, scanned⟩ := behind done symbols
      have failed : scan start = _ := scanFrom_fault here fault done symbols rest
      rw [faultsAfter_of_fault? fault]
      refine ⟨?_, tokens, symbols', ?_, ?_⟩
      · intro n e' reported
        cases n with
        | zero =>
          cases reported
          exact ⟨_, failed⟩
        | succ n =>
          rw [answer_succ, failed]
          exact reports n e' reported
      · rw [List.length_cons, answer_succ, failed]
        exact last
      · rw [List.flatMap_cons, scanFrom_blanked here faulty]
        exact scanned
    · -- The call goes on behind the piece.
      obtain ⟨reports, tokens, symbols', last, scanned⟩ :=
        behind ((tokensAfter before [l]).reverse ++ done) (symbols.addAll (identifiers [l]))
      have passed := scanFrom_cons here faulty before done symbols
      let next : Scanner × Symbols :=
        (⟨rest, lineAfter (before ++ l.text.toList), columnAfter (before ++ l.text.toList),
          (tokensAfter before [l]).reverse ++ done⟩, symbols.addAll (identifiers [l]))
      have same : scan start = scan next := passed rest
      rw [faultsAfter_of_not_faulty faulty, answer_congr same]
      refine ⟨?_, tokens, symbols', last, ?_⟩
      · intro n e reported
        rw [answer_congr same]
        exact reports n e reported
      · rw [List.flatMap_cons, blanked, if_neg faulty, List.singleton_append, passed]
        exact scanned

theorem answer_after {line column n : Nat} {symbols : Symbols} {tokens : List Token}
    (h : answer start n = .ok tokens (⟨[], line, column, []⟩, symbols)) {m : Nat} (later : n < m) :
    answer start m =
      .ok [⟨.endOfInput, "", line, column⟩] (⟨[], line, column, []⟩, symbols) := by
  induction later with
  | refl =>
    rw [answer, h]
    rfl
  | step _ ih =>
    rw [answer, ih]
    rfl

/-- Scanning again and again, exactly. There is one way to cut a text by maximal munch. The first
calls report the faults of the pieces in order. The next one has the tokens, and leaves the symbol
table, of the text with blanks in the place of the faults, and further ones find the end of input
only. -/
theorem answer_exact (source : String) (symbols : Symbols) :
    ∃ pieces, (∀ cut, Munches source.toList cut ↔ cut = pieces) ∧
      (∀ n e, (faultsAfter [] pieces)[n]? = some e →
        ∃ st, answer (.ofSource source, symbols) n = .error e st) ∧
      ∃ tokens st, answer (.ofSource source, symbols) (faultsAfter [] pieces).length =
          .ok tokens st ∧
        (∃ st', scan (.ofSource (String.ofList (pieces.flatMap cleared)), symbols) =
          .ok tokens st' ∧ st'.2 = st.2) ∧
        ∀ n, (faultsAfter [] pieces).length < n →
          ∃ st', answer (.ofSource source, symbols) n =
              .ok [⟨.endOfInput, "", lineAfter source.toList, columnAfter source.toList⟩] st' ∧
            st'.2 = st.2 := by
  refine ⟨split source.toList, fun cut => munches_iff, ?_⟩
  obtain ⟨reports, tokens, symbols', last, scanned⟩ :=
    answer_pieces (apart_split source.toList).wellFormed [] [] symbols
  rw [List.nil_append, textOf, split_text] at last scanned
  refine ⟨reports, tokens, _, last, ⟨_, ?_, rfl⟩, ?_⟩
  · rw [scan_ofSource, String.toList_ofList, split_flatMap_cleared]
    exact scanned
  · intro n later
    exact ⟨_, answer_after last later, rfl⟩

end Scanner

end Straightline
