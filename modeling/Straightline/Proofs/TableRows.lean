import Mathlib.Data.List.Induction
import Std.Data.HashMap
import Straightline.Table

/-!
# Rows of a table

A lookup in a table gives the last pair that a row has for a symbol (`cell?_eq_some_iff`,
`goto?_eq_some_iff`). It is the lookup in a map that the pairs of all rows are inserted into, in
their order, with the number of the row (`getElem?_filled`).
-/
namespace Straightline

section Pairs

variable {κ ε : Type} {k : κ} {e : ε} {pairs : List (κ × ε)}

/-- A pair with no further pair of its key behind it. -/
def LastPair (pairs : List (κ × ε)) (k : κ) (e : ε) : Prop :=
  ∃ front back, pairs = front ++ (k, e) :: back ∧ ∀ a ∈ back, a.1 ≠ k

theorem LastPair.mem (h : LastPair pairs k e) : (k, e) ∈ pairs := by
  obtain ⟨front, back, rfl, -⟩ := h
  simp

variable [DecidableEq κ]

theorem lastOf?_eq_some_iff : lastOf? pairs k = some e ↔ LastPair pairs k e := by
  constructor
  · intro h
    obtain ⟨⟨k', e'⟩, last, rfl⟩ := Option.map_eq_some_iff.mp h
    obtain ⟨before, filtered⟩ := List.getLast?_eq_some_iff.mp last
    obtain ⟨front, rest, rfl, -, filtered⟩ := List.filter_eq_append_iff.mp filtered
    obtain ⟨middle, back, rfl, -, key, none⟩ := List.filter_eq_cons_iff.mp filtered
    cases eq_of_beq key
    refine ⟨front ++ middle, back, by simp, ?_⟩
    simpa using List.filter_eq_nil_iff.mp none
  · rintro ⟨front, back, rfl, none⟩
    have last : back.filter (·.1 == k) = [] := List.filter_eq_nil_iff.mpr (by simpa using none)
    simp [lastOf?, last]

theorem lastOf?_eq_none_iff : lastOf? pairs k = none ↔ ∀ a ∈ pairs, a.1 ≠ k := by
  simp [lastOf?]

theorem lastOf?_concat (a : κ × ε) :
    lastOf? (pairs ++ [a]) k = if a.1 = k then some a.2 else lastOf? pairs k := by
  by_cases key : a.1 = k <;> simp [lastOf?, key]

/-! ### Pairs in a map -/

variable [Hashable κ]

def fill (q : Nat) (pairs : List (κ × ε)) (m : Std.HashMap (Nat × κ) ε) :
    Std.HashMap (Nat × κ) ε :=
  pairs.foldl (fun m a => m.insert (q, a.1) a.2) m

/-- The pairs of all rows inserted in order, each with the number of its row. -/
def filled (rows : List (List (κ × ε))) : Std.HashMap (Nat × κ) ε :=
  rows.zipIdx.foldl (fun m row => fill row.2 row.1 m) ∅

theorem getElem?_fill (m : Std.HashMap (Nat × κ) ε) (q q' : Nat) :
    (fill q pairs m)[(q', k)]? =
      (if q = q' then lastOf? pairs k else none).or m[(q', k)]? := by
  induction pairs using List.reverseRecOn with
  | nil => simp [fill, lastOf?]
  | append_singleton pairs a ih =>
    unfold fill at ih ⊢
    rw [List.foldl_append, List.foldl_cons, List.foldl_nil, Std.HashMap.getElem?_insert, ih,
      lastOf?_concat]
    by_cases here : q = q' <;> by_cases key : a.1 = k <;> simp [here, key]

theorem filled_concat (rows : List (List (κ × ε))) (pairs : List (κ × ε)) :
    filled (rows ++ [pairs]) = fill rows.length pairs (filled rows) := by
  simp [filled, List.zipIdx_append]

/-- Of the pairs that a row has for a key, the map holds the last. -/
theorem getElem?_filled (rows : List (List (κ × ε))) (q : Nat) :
    (filled rows)[(q, k)]? = rows[q]?.bind fun pairs => lastOf? pairs k := by
  induction rows using List.reverseRecOn with
  | nil => simp [filled]
  | append_singleton rows pairs ih =>
    rw [filled_concat, getElem?_fill, ih]
    rcases Nat.lt_trichotomy q rows.length with before | rfl | behind
    · rw [if_neg (Nat.ne_of_gt before), Option.none_or, List.getElem?_append_left before]
    · simp
    · have gone : (rows ++ [pairs])[q]? = none :=
        List.getElem?_eq_none (by simpa using Nat.succ_le_of_lt behind)
      rw [if_neg (Nat.ne_of_lt behind), Option.none_or, gone,
        List.getElem?_eq_none (Nat.le_of_lt behind)]

end Pairs

namespace Table

variable {t : Table} {q : Nat} {k : Kind} {N : NonTerminal}

theorem cell?_eq_some_iff {e : Entry} :
    t.cell? q k = some e ↔ ∃ r, t.rows[q]? = some r ∧ LastPair r.actions k e := by
  simp only [cell?, Option.bind_eq_some_iff, Row.cell?, lastOf?_eq_some_iff]

theorem cell?_eq_none_iff :
    t.cell? q k = none ↔ ∀ r, t.rows[q]? = some r → ∀ a ∈ r.actions, a.1 ≠ k := by
  simp only [cell?, Option.bind_eq_none_iff, Row.cell?, lastOf?_eq_none_iff]

theorem goto?_eq_some_iff {q' : Nat} :
    t.goto? q N = some q' ↔ ∃ r, t.rows[q]? = some r ∧ LastPair r.gotos N q' := by
  simp only [goto?, Option.bind_eq_some_iff, Row.goto?, lastOf?_eq_some_iff]

theorem goto?_eq_none_iff :
    t.goto? q N = none ↔ ∀ r, t.rows[q]? = some r → ∀ a ∈ r.gotos, a.1 ≠ N := by
  simp only [goto?, Option.bind_eq_none_iff, Row.goto?, lastOf?_eq_none_iff]

theorem getElem?_filled_actions (t : Table) (q : Nat) (k : Kind) :
    (filled (t.rows.map (·.actions)))[(q, k)]? = t.cell? q k := by
  rw [getElem?_filled, List.getElem?_map, Option.bind_map]
  rfl

theorem getElem?_filled_gotos (t : Table) (q : Nat) (N : NonTerminal) :
    (filled (t.rows.map (·.gotos)))[(q, N)]? = t.goto? q N := by
  rw [getElem?_filled, List.getElem?_map, Option.bind_map]
  rfl

end Table

end Straightline
