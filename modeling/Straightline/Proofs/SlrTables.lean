import Straightline.Proofs.ItemAutomaton
import Straightline.Proofs.LookaheadSets
import Straightline.Proofs.TableStates

/-!
# The table that is built

The SLR(1) actions of a state for a terminal, said by the automaton of items and by derivations
alone. A table is built exactly when no state has two actions for a terminal, and its cells are then
these actions; otherwise the first state with two of them is reported (`Table.build_exact`).
-/
namespace Straightline

namespace Grammar

variable {g : Grammar} {root : Production} {q q' : Nat} {s : ItemSet} {X : Symbol}
  {γ : List Symbol} {k : Kind} {e : Entry}

/-- The actions of a state: to shift a terminal behind a dot, to reduce by a finished production
on a terminal that may follow its head, and to accept at the end of input when the start rule is
finished. -/
inductive SlrAction (g : Grammar) (q : Nat) : Kind → Entry → Prop where
  | shift {s : ItemSet} {i : Item} {k : Kind} {q' : Nat} (here : g.states[q]? = some s)
    (member : i ∈ s) (next : i.next? = some (.terminal k))
    (moves : g.Transition q (.terminal k) q') : SlrAction g q k (.shift q')
  | reduce {s : ItemSet} {p : Production} {k : Kind} (here : g.states[q]? = some s)
    (finished : ⟨p, p.body.length⟩ ∈ s) (other : p.index ≠ 0) (follows : g.MayFollow p.head k) :
    SlrAction g q k (.reduce p.index)
  | accept {s : ItemSet} {p : Production} (here : g.states[q]? = some s)
    (finished : ⟨p, p.body.length⟩ ∈ s) (first : p.index = 0) :
    SlrAction g q .endOfInput .accept

/-- A state that has no two actions for a terminal. -/
def Decided (g : Grammar) (q : Nat) : Prop :=
  ∀ k e e', g.SlrAction q k e → g.SlrAction q k e' → e = e'

theorem SlrAction.exists_state (h : g.SlrAction q k e) : ∃ s, g.states[q]? = some s := by
  cases h with
  | shift here => exact ⟨_, here⟩
  | reduce here => exact ⟨_, here⟩
  | accept here => exact ⟨_, here⟩

/-! ### Actions are what items ask for -/

theorem stateAfter_iff (first : g.start? = some root) :
    g.StateAfter γ q ↔ g.states[q]? = some (g.after γ) := by
  constructor
  · rintro ⟨s, here, -, items⟩
    obtain ⟨-, δ, rfl⟩ := exists_after_of_mem_states first (List.mem_of_getElem? here)
    rw [here, after_eq_of_mem_iff fun i => (items i).trans mem_after_iff.symm]
  · intro here
    obtain ⟨some, -⟩ := exists_after_of_mem_states first (List.mem_of_getElem? here)
    exact ⟨_, here, some, fun _ => mem_after_iff⟩

theorem target?_iff :
    g.target? g.states s X = some q' ↔ g.states[q']? = some (g.advance s X) := by
  refine ⟨states_of_target?, ?_⟩
  intro here
  obtain ⟨q'', target⟩ := exists_target (List.mem_of_getElem? here)
  have inside := (List.getElem?_eq_some_iff.mp here).1
  have same := here.trans (states_of_target? target).symm
  rw [target, (List.getElem?_inj inside explore_states.1.distinct).mp same]

theorem target?_iff_transition (first : g.start? = some root) (hs : g.states[q]? = some s) :
    g.target? g.states s X = some q' ↔ g.Transition q X q' := by
  rw [target?_iff]
  constructor
  · intro here
    obtain ⟨-, γ, rfl⟩ := exists_after_of_mem_states first (List.mem_of_getElem? hs)
    rw [← after_concat] at here
    exact ⟨γ, (stateAfter_iff first).mpr hs, (stateAfter_iff first).mpr here⟩
  · rintro ⟨γ, before, behind⟩
    rw [stateAfter_iff first] at before behind
    obtain rfl : s = g.after γ := Option.some.inj (hs.symm.trans before)
    rw [behind, after_concat]

theorem slrAction_iff (first : g.start? = some root) (hs : g.states[q]? = some s) :
    g.SlrAction q k e ↔ ∃ i ∈ s, g.Asks g.states g.follow s i k e := by
  constructor
  · intro acts
    cases acts with
    | shift here member next moves =>
      cases hs.symm.trans here
      exact ⟨_, member, .shift next ((target?_iff_transition first hs).mpr moves)⟩
    | @reduce _ p _ here finished other follows =>
      cases hs.symm.trans here
      have done : (⟨p, p.body.length⟩ : Item).next? = none := by simp [Item.next?]
      exact ⟨_, finished, .reduce done other (mem_follow_iff.mpr follows)⟩
    | @accept _ p here finished start =>
      cases hs.symm.trans here
      have done : (⟨p, p.body.length⟩ : Item).next? = none := by simp [Item.next?]
      exact ⟨_, finished, .accept done start⟩
  · rintro ⟨i, member, asks⟩
    cases asks with
    | shift next target =>
      exact .shift hs member next ((target?_iff_transition first hs).mp target)
    | reduce done other follows =>
      exact .reduce hs (Table.finished hs member done ▸ member) other (mem_follow_iff.mp follows)
    | accept done start => exact .accept hs (Table.finished hs member done ▸ member) start

end Grammar

/-! ### Conflicts -/

/-- An error that shows two different entries for a terminal, of those that a state asks for. -/
def Error.IsConflict (asked : Kind → Entry → Prop) (state : Nat) (error : Error) : Prop :=
  ∃ k existing incoming, error = .grammarConflict state k existing.text incoming.text ∧
    existing ≠ incoming ∧ asked k existing ∧ asked k incoming

section Conflicts

variable {state : Nat} {cells : List (Kind × Entry)} {error : Error} {asked : Kind → Entry → Prop}

theorem Row.isConflict_of_enter {cell : Kind × Entry}
    (entered : ∀ k e, cells.lookup k = some e → asked k e) (proposed : asked cell.1 cell.2)
    (h : Row.enter state cells cell = .error error) : error.IsConflict asked state := by
  unfold Row.enter at h
  split at h
  · cases h
  · rename_i existing taken
    split at h
    · cases h
    · rename_i different
      cases h
      exact ⟨cell.1, existing, cell.2, rfl, different, entered _ _ taken, proposed⟩

theorem Row.isConflict_of_foldlM {proposed : List (Kind × Entry)}
    (entered : ∀ k e, cells.lookup k = some e → asked k e)
    (sound : ∀ k e, (k, e) ∈ proposed → asked k e)
    (h : proposed.foldlM (Row.enter state) cells = .error error) :
    error.IsConflict asked state := by
  induction proposed generalizing cells with
  | nil => cases h
  | cons cell proposed ih =>
    rw [List.foldlM_cons] at h
    rcases bind_eq_error.mp h with failed | ⟨next, made, failed⟩
    · exact isConflict_of_enter entered (sound _ _ List.mem_cons_self) failed
    · refine ih ?_ (fun k e here => sound k e (List.mem_cons_of_mem cell here)) failed
      intro k e here
      rcases (lookup_enter made).mp here with old | new
      · exact entered k e old
      · exact sound k e (new ▸ List.mem_cons_self)

variable {g : Grammar} {states : List ItemSet} {follow : List (NonTerminal × Kind)} {s : ItemSet}

theorem Grammar.isConflict_of_foldlM_proposals
    (named : ∀ i ∈ s, ∃ proposed, g.proposals states follow state s i = .ok proposed)
    {items : ItemSet} (sub : ∀ i ∈ items, i ∈ s)
    (entered : ∀ k e, cells.lookup k = some e → ∃ i ∈ s, g.Asks states follow s i k e)
    (h : items.foldlM (fun cells i => do
      (← g.proposals states follow state s i).foldlM (Row.enter state) cells) cells =
        .error error) :
    error.IsConflict (fun k e => ∃ i ∈ s, g.Asks states follow s i k e) state := by
  induction items generalizing cells with
  | nil => cases h
  | cons i items ih =>
    have member := sub i List.mem_cons_self
    obtain ⟨proposed, made⟩ := named i member
    have sound (k : Kind) (e : Entry) (here : (k, e) ∈ proposed) :
        ∃ i ∈ s, g.Asks states follow s i k e := ⟨i, member, (mem_proposals made).mp here⟩
    rw [List.foldlM_cons, made] at h
    rcases bind_eq_error.mp h with failed | ⟨next, filled, failed⟩
    · exact Row.isConflict_of_foldlM entered sound failed
    · refine ih (fun j hj => sub j (List.mem_cons_of_mem i hj)) ?_ failed
      intro k e here
      rcases (Row.lookup_foldlM_enter filled).mp here with old | new
      · exact entered k e old
      · exact sound k e new

theorem Grammar.isConflict_of_cells
    (named : ∀ i ∈ s, ∃ proposed, g.proposals states follow state s i = .ok proposed)
    (h : g.cells states follow state s = .error error) :
    error.IsConflict (fun k e => ∃ i ∈ s, g.Asks states follow s i k e) state :=
  isConflict_of_foldlM_proposals named (fun _ => id) (by simp) h

end Conflicts

/-! ### The table -/

namespace Grammar

variable {g : Grammar} {root : Production} {q : Nat} {s : ItemSet}

theorem exists_proposals (hs : g.states[q]? = some s) {i : Item} (member : i ∈ s)
    (follow : List (NonTerminal × Kind)) :
    ∃ proposed, g.proposals g.states follow q s i = .ok proposed := by
  unfold proposals
  split
  · rename_i k next
    obtain ⟨q', target⟩ :=
      exists_target (advance_mem_states (List.mem_of_getElem? hs) member next)
    exact ⟨_, by rw [target]⟩
  · exact ⟨_, rfl⟩
  · split <;> exact ⟨_, rfl⟩

theorem decided_of_row (first : g.start? = some root) (hs : g.states[q]? = some s) {r : Row}
    (h : g.row g.states g.follow q s = .ok r) : g.Decided q := by
  obtain ⟨cells, made, -⟩ := row_cases h
  intro k e e' acts acts'
  rw [slrAction_iff first hs, ← lookup_cells_iff made] at acts acts'
  exact Option.some.inj (acts.symm.trans acts')

theorem isConflict_of_row (first : g.start? = some root) (hs : g.states[q]? = some s)
    {error : Error} (h : g.row g.states g.follow q s = .error error) :
    error.IsConflict (g.SlrAction q) q := by
  have failed : g.cells g.states g.follow q s = .error error := by
    rcases bind_eq_error.mp h with failed | ⟨cells, -, made⟩
    · exact failed
    · cases made
  obtain ⟨k, existing, incoming, shown, different, asks, asks'⟩ :=
    isConflict_of_cells (fun i member => exists_proposals hs member g.follow) failed
  exact ⟨k, existing, incoming, shown, different, (slrAction_iff first hs).mpr asks,
    (slrAction_iff first hs).mpr asks'⟩

end Grammar

namespace Table

open Grammar

variable {g : Grammar} {root : Production} {t : Table}

theorem build_eq (first : g.start? = some root) (single : root.body.length = 1) :
    build g = do
      let rows ← g.states.zipIdx.mapM fun (s, state) => g.row g.states g.follow state s
      return ⟨g, 0, rows⟩ := by
  simp [build, first, single]

theorem stateCount_eq (h : build g = .ok t) : t.stateCount = g.states.length := by
  obtain ⟨-, -, ⟨root, first, single⟩, -⟩ := build_cases h
  rw [build_eq first single] at h
  obtain ⟨rows, made, h⟩ := bind_eq_ok.mp h
  cases h
  have length := mapM_length made
  rw [List.length_zipIdx] at length
  exact length

theorem decided_of_build (h : build g = .ok t) (q : Nat) : g.Decided q := by
  obtain ⟨-, -, ⟨root, first, -⟩, rows⟩ := build_cases h
  intro k e e' acts acts'
  obtain ⟨s, hs⟩ := acts.exists_state
  obtain ⟨r, -, row⟩ := rows q s hs
  exact decided_of_row first hs row k e e' acts acts'

theorem row_eq_none (h : build g = .ok t) {q : Nat} (outside : ¬ q < g.states.length) :
    t.rows[q]? = none := by
  rw [← stateCount_eq h] at outside
  exact List.getElem?_eq_none (Nat.le_of_not_lt outside)

theorem cell?_iff_slrAction (h : build g = .ok t) {q : Nat} {k : Kind} {e : Entry} :
    t.cell? q k = some e ↔ g.SlrAction q k e := by
  obtain ⟨-, -, ⟨root, first, -⟩, -⟩ := build_cases h
  by_cases inside : q < g.states.length
  · have hs := List.getElem?_eq_getElem inside
    rw [cell?_iff h hs, slrAction_iff first hs]
  · refine iff_of_false (by simp [cell?, row_eq_none h inside]) ?_
    intro acts
    obtain ⟨s, hs⟩ := acts.exists_state
    exact inside (List.getElem?_eq_some_iff.mp hs).1

theorem goto?_iff_transition (h : build g = .ok t) {q q' : Nat} {n : NonTerminal} :
    t.goto? q n = some q' ↔ g.Transition q (.nonTerminal n) q' := by
  obtain ⟨-, -, ⟨root, first, -⟩, -⟩ := build_cases h
  by_cases inside : q < g.states.length
  · have hs := List.getElem?_eq_getElem inside
    rw [goto?_eq h hs, target?_iff_transition first hs]
  · refine iff_of_false (by simp [goto?, row_eq_none h inside]) ?_
    rintro ⟨γ, ⟨s, hs, -⟩, -⟩
    exact inside (List.getElem?_eq_some_iff.mp hs).1

/-- A table that cannot be built has a conflict in the first state that is not decided. -/
theorem isConflict_of_build (first : g.start? = some root) (single : root.body.length = 1)
    {error : Error} (h : build g = .error error) :
    ∃ q, error.IsConflict (g.SlrAction q) q ∧ ∀ q' < q, g.Decided q' := by
  rw [build_eq first single] at h
  rcases bind_eq_error.mp h with failed | ⟨rows, -, made⟩
  · obtain ⟨q, ⟨s, state⟩, here, failed, before⟩ := mapM_eq_error failed
    obtain ⟨hs, rfl⟩ : g.states[q]? = some s ∧ q = state := by
      simpa [List.getElem?_zipIdx] using here
    refine ⟨q, isConflict_of_row first hs failed, ?_⟩
    intro q' earlier k e e' acts acts'
    obtain ⟨s', hs'⟩ := acts.exists_state
    obtain ⟨r, row⟩ := before q' earlier (s', q') (by simp [List.getElem?_zipIdx, hs'])
    exact decided_of_row first hs' row k e e' acts acts'
  · cases made

/-- The table of a grammar whose start rule has one body symbol, whatever its other rules are. Its
states are the sets of items that strings reach, and they are found in the steps that the
exploration is given. There is a table if and only if no state has two actions for a terminal; then
its cells are the actions, and its gotos the transitions over non-terminals. Otherwise a conflict is
reported for the first state that has two actions for a terminal, with such a terminal and two such
actions. -/
theorem build_exact (head : NonTerminal) (X : Symbol)
    (rules : List (NonTerminal × List Symbol)) :
    let g := ofRules ((head, [X]) :: rules)
    g.Enumerates g.states ∧
    (∀ n, Nat.pow 2 g.items.length < n → g.explore n [g.initial] 0 = g.states) ∧
    ((∃ t, build g = .ok t) ↔ ∀ q, g.Decided q) ∧
    (∀ t, build g = .ok t → t.grammar = g ∧ t.initial = 0 ∧ t.stateCount = g.states.length ∧
      (∀ q k e, t.cell? q k = some e ↔ g.SlrAction q k e) ∧
      ∀ q n q', t.goto? q n = some q' ↔ g.Transition q (.nonTerminal n) q') ∧
    ∀ error, build g = .error error → ∃ q k existing incoming,
      error = .grammarConflict q k existing.text incoming.text ∧ existing ≠ incoming ∧
      g.SlrAction q k existing ∧ g.SlrAction q k incoming ∧ ∀ q' < q, g.Decided q' := by
  intro g
  have first : g.start? = some ⟨0, head, [X]⟩ := getElem?_ofRules _ 0
  refine ⟨enumerates_states first, fun n => explore_eq_states, ⟨?_, ?_⟩, ?_, ?_⟩
  · rintro ⟨t, built⟩
    exact decided_of_build built
  · intro decided
    cases built : build g with
    | ok t => exact ⟨t, rfl⟩
    | error error =>
      obtain ⟨q, ⟨k, existing, incoming, -, different, acts, acts'⟩, -⟩ :=
        isConflict_of_build first rfl built
      exact absurd (decided q k existing incoming acts acts') different
  · intro t built
    obtain ⟨grammar, initial, -⟩ := build_cases built
    exact ⟨grammar, initial, stateCount_eq built, fun _ _ _ => cell?_iff_slrAction built,
      fun _ _ _ => goto?_iff_transition built⟩
  · intro error failed
    obtain ⟨q, ⟨k, existing, incoming, shown, different, acts, acts'⟩, before⟩ :=
      isConflict_of_build first rfl failed
    exact ⟨q, k, existing, incoming, shown, different, acts, acts', before⟩

end Table

end Straightline
