import Straightline.Proofs.JsonCodecs
import Straightline.Proofs.SlrTables
import Straightline.Proofs.TableRows
import Straightline.Table.Json

/-!
# Stored tables

A table is stored as a JSON text, and the text of a table that was built or read is read back as
the same table (`read_render`). What is read is exactly what dangles nowhere (`read_eq_ok_iff`), and
no built table dangles (`closed_of_build`). The rows of a built table hold what was entered for each
terminal and non-terminal, so nothing is lost by looking it up in them.
-/
namespace Straightline

/-! ## Parts of a table -/

open Json

theorem Kind.stores : Stores Kind.toJson Kind.ofJson? (fun _ => True) where
  plain k := .str k.label
  reads k _ := by cases k <;> rfl
  fits _ := trivial

theorem NonTerminal.stores : Stores NonTerminal.toJson NonTerminal.ofJson? (fun _ => True) where
  plain n := .str n.label
  reads n _ := by cases n <;> rfl
  fits _ := trivial

theorem Symbol.stores : Stores Symbol.toJson Symbol.ofJson? (fun _ => True) where
  plain X := by
    cases X with
    | terminal k => exact plain_record (by simpa using Kind.stores.plain k)
    | nonTerminal n => exact plain_record (by simpa using NonTerminal.stores.plain n)
  reads X _ := by
    cases X with
    | terminal k => exact congrArg (Option.map terminal) (Kind.stores.reads k trivial)
    | nonTerminal n => exact congrArg (Option.map nonTerminal) (NonTerminal.stores.reads n trivial)
  fits _ := trivial

def Production.Fits (p : Production) : Prop :=
  IsWord p.index

theorem Production.stores : Stores Production.toJson Production.ofJson? Production.Fits where
  plain p := by
    refine plain_record ?_
    simpa using ⟨stores_size.plain p.index, NonTerminal.stores.plain p.head,
      Symbol.stores.list.plain p.body⟩
  reads p fit := by
    -- the number is kept out of view, or it would be compared with the bound by counting
    obtain ⟨number, index, fields⟩ : ∃ number, number.size? = some p.index ∧
        p.toJson.allFields? ["index", "head", "body"] =
          some [number, p.head.toJson, .arr (p.body.map (·.toJson))] :=
      ⟨_, stores_size.reads p.index fit, allFields?_record _ (by simp)⟩
    have body := Symbol.stores.list.reads p.body fun _ _ => trivial
    simp [ofJson?, fields, index, NonTerminal.stores.reads p.head, body]
  fits {v p} h := by
    simp only [ofJson?, Option.bind_eq_bind, Option.bind_eq_some_iff] at h
    obtain ⟨fields, -, h⟩ := h
    split at h
    · simp only [Option.bind_eq_some_iff] at h
      obtain ⟨index, read, head, -, body, -, h⟩ := h
      cases h
      exact stores_size.fits read
    · cases h

def Grammar.Fits (g : Grammar) : Prop :=
  ∀ p ∈ g.productions, p.Fits

theorem Grammar.stores : Stores Grammar.toJson Grammar.ofJson? Grammar.Fits where
  plain g := plain_record (by simpa using Production.stores.list.plain g.productions)
  reads g fit := by
    have fields : g.toJson.allFields? ["productions"] = some _ := allFields?_record _ (by simp)
    simp [ofJson?, fields, Production.stores.list.reads g.productions fit]
  fits {v g} h := by
    simp only [ofJson?, Option.bind_eq_bind, Option.bind_eq_some_iff] at h
    obtain ⟨fields, -, h⟩ := h
    split at h
    · simp only [Option.bind_eq_some_iff] at h
      obtain ⟨productions, read, h⟩ := h
      cases h
      exact Production.stores.list.fits read
    · cases h

def Entry.Fits : Entry → Prop
  | shift state => IsWord state
  | reduce production => IsWord production
  | accept => True

theorem Entry.stores : Stores Entry.toJson Entry.ofJson? Entry.Fits where
  plain e := by
    cases e with
    | shift state => exact plain_record (by simpa using stores_size.plain state)
    | reduce production => exact plain_record (by simpa using stores_size.plain production)
    | accept => exact .str _
  reads e fit := by
    cases e with
    | shift state => simp [ofJson?, toJson, choice?_nat, stores_size.reads state fit]
    | reduce number => simp [ofJson?, toJson, choice?_nat, stores_size.reads number fit]
    | accept => rfl
  fits {v e} h := by
    unfold ofJson? at h
    split at h
    · obtain ⟨state, read, rfl⟩ := Option.map_eq_some_iff.mp h
      exact stores_size.fits read
    · obtain ⟨production, read, rfl⟩ := Option.map_eq_some_iff.mp h
      exact stores_size.fits read
    · cases h
      trivial
    · cases h

def Row.Fits (r : Row) : Prop :=
  (∀ a ∈ r.actions, a.2.Fits) ∧ ∀ a ∈ r.gotos, IsWord a.2

theorem Row.stores : Stores Row.toJson Row.ofJson? Row.Fits where
  plain r := by
    refine plain_record ?_
    simpa using ⟨(Kind.stores.pair Entry.stores).list.plain r.actions,
      (NonTerminal.stores.pair stores_size).list.plain r.gotos⟩
  reads r fit := by
    have fields : r.toJson.allFields? ["actions", "gotos"] = some _ := allFields?_record _ (by simp)
    have actions := (Kind.stores.pair Entry.stores).list.reads r.actions
      fun a ha => ⟨trivial, fit.1 a ha⟩
    have gotos := (NonTerminal.stores.pair stores_size).list.reads r.gotos
      fun a ha => ⟨trivial, fit.2 a ha⟩
    simp [ofJson?, fields, actions, gotos]
  fits {v r} h := by
    simp only [ofJson?, Option.bind_eq_bind, Option.bind_eq_some_iff] at h
    obtain ⟨fields, -, h⟩ := h
    split at h
    · simp only [Option.bind_eq_some_iff] at h
      obtain ⟨actions, read, gotos, read', h⟩ := h
      cases h
      exact ⟨fun a ha => ((Kind.stores.pair Entry.stores).list.fits read a ha).2,
        fun a ha => ((NonTerminal.stores.pair stores_size).list.fits read' a ha).2⟩
    · cases h

/-- Whether the numbers of a table are machine words. -/
def Table.Fits (t : Table) : Prop :=
  t.grammar.Fits ∧ IsWord t.initial ∧ ∀ r ∈ t.rows, r.Fits

theorem Table.stores : Stores Table.toJson Table.ofJson? Table.Fits where
  plain t := by
    refine plain_record ?_
    simpa using ⟨Grammar.stores.plain t.grammar, stores_size.plain t.initial,
      Row.stores.list.plain t.rows⟩
  reads t fit := by
    have fields : t.toJson.allFields? ["grammar", "initial", "rows"] = some _ :=
      allFields?_record _ (by simp)
    simp [ofJson?, fields, Grammar.stores.reads t.grammar fit.1,
      stores_size.reads t.initial fit.2.1, Row.stores.list.reads t.rows fit.2.2]
  fits {v t} h := by
    simp only [ofJson?, Option.bind_eq_bind, Option.bind_eq_some_iff] at h
    obtain ⟨fields, -, h⟩ := h
    split at h
    · simp only [Option.bind_eq_some_iff] at h
      obtain ⟨grammar, read, initial, read', rows, read'', h⟩ := h
      cases h
      exact ⟨Grammar.stores.fits read, stores_size.fits read', Row.stores.list.fits read''⟩
    · cases h

/-! ## Tables that do not dangle -/

section Pairs

variable {κ ε : Type} {k : κ} {e : ε}

theorem of_mem_filterMap_key {keys : List κ} {f : κ → Option ε}
    (h : (k, e) ∈ keys.filterMap fun k => (f k).map (k, ·)) : f k = some e := by
  obtain ⟨k', -, here⟩ := List.mem_filterMap.mp h
  obtain ⟨e', found, same⟩ := Option.map_eq_some_iff.mp here
  cases same
  exact found

end Pairs

namespace Grammar

variable {g : Grammar} {states : List ItemSet} {follow : List (NonTerminal × Kind)} {state : Nat}
  {s : ItemSet} {r : Row}

/-- A row is made with one pair for each symbol, so all its pairs count. -/
theorem lookups_of_row (h : g.row states follow state s = .ok r) :
    (∀ a ∈ r.actions, r.cell? a.1 = some a.2) ∧ ∀ a ∈ r.gotos, r.goto? a.1 = some a.2 := by
  obtain ⟨cells, made, looked, gone⟩ := row_cases h
  obtain ⟨cells', made', h⟩ := bind_eq_ok.mp h
  cases made.symm.trans made'
  cases h
  refine ⟨fun a ha => ?_, fun a ha => ?_⟩
  · rw [looked]
    exact of_mem_filterMap_key (f := fun k => cells.lookup k) ha
  · rw [gone]
    exact of_mem_filterMap_key (f := fun n => g.target? states s (.nonTerminal n)) ha

theorem exists_target_of_ne_zero {root : Production} (first : g.start? = some root) {q : Nat}
    (inside : q < g.states.length) (later : q ≠ 0) :
    ∃ (q' : Nat) (s : ItemSet) (i : Item) (X : Symbol), g.states[q']? = some s ∧ i ∈ s ∧
      i.next? = some X ∧ g.target? g.states s X = some q := by
  have here := List.getElem?_eq_getElem inside
  obtain ⟨⟨i, member⟩, γ, reached⟩ := exists_after_of_mem_states first (List.mem_of_getElem? here)
  rw [reached] at here member
  rcases List.eq_nil_or_concat γ with rfl | ⟨γ, X, rfl⟩
  · have same := here.trans g.states_zero.symm
    exact absurd ((List.getElem?_inj inside explore_states.1.distinct).mp same) later
  · rw [List.concat_eq_append] at here member
    obtain ⟨j, earlier, next⟩ := (mem_after_iff.mp member).exists_next
    obtain ⟨q', before⟩ := List.mem_iff_getElem?.mp (after_mem_states earlier)
    rw [after_concat, ← target?_iff] at here
    exact ⟨q', _, j, X, before, earlier.mem_after, next, here⟩

end Grammar

namespace Table

variable {t : Table}

/-- Tables that do not dangle. Every stored pair is held to it, also one that a later pair for the
same symbol hides. -/
structure Closed (t : Table) : Prop where
  numbered : t.grammar.Numbered
  initial : t.initial < t.stateCount
  entries : ∀ r ∈ t.rows, ∀ a ∈ r.actions, t.names a.2 = true
  gotos : ∀ r ∈ t.rows, ∀ a ∈ r.gotos, a.2 < t.stateCount

theorem misplaced?_eq_none_iff : t.misplaced? = none ↔ t.grammar.Numbered := by
  rw [misplaced?, List.findSome?_eq_none_iff]
  constructor
  · intro h m p here
    simpa using h (p, m) (List.mem_zipIdx_iff_getElem?.mpr here)
  · rintro h ⟨p, m⟩ here
    simpa using h m p (List.mem_zipIdx_iff_getElem?.mp here)

theorem lostInitial?_eq_none_iff : t.lostInitial? = none ↔ t.initial < t.stateCount := by
  simp [lostInitial?]

theorem danglingIn?_eq_none_iff {state : Nat} {r : Row} : t.danglingIn? state r = none ↔
    (∀ a ∈ r.actions, t.names a.2 = true) ∧ ∀ a ∈ r.gotos, a.2 < t.stateCount := by
  simp [danglingIn?]

theorem dangling?_eq_none_iff : t.dangling? = none ↔
    ∀ r ∈ t.rows, (∀ a ∈ r.actions, t.names a.2 = true) ∧ ∀ a ∈ r.gotos, a.2 < t.stateCount := by
  rw [dangling?, List.findSome?_eq_none_iff]
  constructor
  · intro h r hr
    obtain ⟨q, here⟩ := List.mem_iff_getElem?.mp hr
    exact danglingIn?_eq_none_iff.mp (h (r, q) (List.mem_zipIdx_iff_getElem?.mpr here))
  · rintro h ⟨r, q⟩ here
    exact danglingIn?_eq_none_iff.mpr (h r (List.fst_mem_of_mem_zipIdx here))

theorem fault?_eq_none_iff : t.fault? = none ↔ t.Closed := by
  have parts : t.fault? = none ↔
      t.misplaced? = none ∧ t.lostInitial? = none ∧ t.dangling? = none := by
    simp [fault?]
  rw [parts, misplaced?_eq_none_iff, lostInitial?_eq_none_iff, dangling?_eq_none_iff]
  constructor
  · rintro ⟨numbered, initial, rows⟩
    exact ⟨numbered, initial, fun r hr => (rows r hr).1, fun r hr => (rows r hr).2⟩
  · intro closed
    exact ⟨closed.numbered, closed.initial,
      fun r hr => ⟨closed.entries r hr, closed.gotos r hr⟩⟩

/-- What is read is what a text holds, unless it dangles. -/
theorem read_eq_ok_iff {text : String} :
    read text = .ok t ↔ (parse? text).bind ofJson? = some t ∧ t.Closed := by
  unfold read
  split
  · rename_i nothing
    simp [nothing]
  · rename_i u held
    rw [held]
    split
    · rename_i fault found
      refine iff_of_false (by simp) ?_
      rintro ⟨same, closed⟩
      cases same
      cases found.symm.trans (fault?_eq_none_iff.mpr closed)
    · rename_i found
      have closed := fault?_eq_none_iff.mp found
      constructor
      · intro h
        cases h
        exact ⟨rfl, closed⟩
      · rintro ⟨same, -⟩
        cases same
        rfl

theorem fits_of_read {text : String} (h : read text = .ok t) : t.Fits := by
  obtain ⟨v, -, decoded⟩ := Option.bind_eq_some_iff.mp (read_eq_ok_iff.mp h).1
  exact stores.fits decoded

theorem read_of_fits (fits : t.Fits) (closed : t.Closed) : read t.render = .ok t := by
  rw [read_eq_ok_iff, render, parse?_render (stores.plain t), Option.bind_some]
  exact ⟨stores.reads t fits, closed⟩

theorem Closed.fits (closed : t.Closed) (productions : t.grammar.productions.length ≤ 2 ^ 64)
    (states : t.stateCount ≤ 2 ^ 64) : t.Fits := by
  refine ⟨?_, Nat.lt_of_lt_of_le closed.initial states, ?_⟩
  · intro p member
    obtain ⟨m, here⟩ := List.mem_iff_getElem?.mp member
    have number : p.index = m := closed.numbered m p here
    have inside : m < t.grammar.productions.length := (List.getElem?_eq_some_iff.mp here).1
    exact Nat.lt_of_lt_of_le (number ▸ inside) productions
  · intro r hr
    constructor
    · rintro ⟨k, e⟩ ha
      have there := closed.entries r hr (k, e) ha
      cases e with
      | shift target => exact Nat.lt_of_lt_of_le (of_decide_eq_true there) states
      | reduce index => exact Nat.lt_of_lt_of_le (of_decide_eq_true there) productions
      | accept => trivial
    · intro a ha
      exact Nat.lt_of_lt_of_le (closed.gotos r hr a ha) states

section Build

variable {g : Grammar}

theorem exists_state_of_mem_rows (h : build g = .ok t) {r : Row} (hr : r ∈ t.rows) :
    ∃ q s, g.states[q]? = some s ∧ t.rows[q]? = some r ∧ g.row g.states g.follow q s = .ok r := by
  obtain ⟨q, here⟩ := List.mem_iff_getElem?.mp hr
  have inside : q < g.states.length :=
    stateCount_eq h ▸ (List.getElem?_eq_some_iff.mp here).1
  obtain ⟨r', here', row⟩ := (build_cases h).2.2.2 q _ (List.getElem?_eq_getElem inside)
  cases here.symm.trans here'
  exact ⟨q, _, List.getElem?_eq_getElem inside, here, row⟩

theorem lt_stateCount_of_target? (h : build g = .ok t) {s : ItemSet} {X : Symbol} {q : Nat}
    (target : g.target? g.states s X = some q) : q < t.stateCount := by
  rw [stateCount_eq h]
  exact (List.getElem?_eq_some_iff.mp (Grammar.states_of_target? target)).1

theorem closed_of_build (h : build g = .ok t) (numbered : g.Numbered) : t.Closed where
  numbered := (build_cases h).1 ▸ numbered
  initial := by
    rw [stateCount_eq h, (build_cases h).2.1]
    exact (List.getElem?_eq_some_iff.mp g.states_zero).1
  entries r hr a ha := by
    obtain ⟨q, s, hs, here, row⟩ := exists_state_of_mem_rows h hr
    have cell : t.cell? q a.1 = some a.2 := by
      rw [cell?, here, Option.bind_some, (Grammar.lookups_of_row row).1 a ha]
    obtain ⟨i, hi, asks⟩ := (cell?_iff h hs).mp cell
    obtain ⟨k, e⟩ := a
    cases asks with
    | shift next target => exact decide_eq_true (lt_stateCount_of_target? h target)
    | accept done first => rfl
    | reduce done other after =>
      have known := production?_of_mem numbered hs hi
      rw [← (build_cases h).1] at known
      exact decide_eq_true (List.getElem?_eq_some_iff.mp known).1
  gotos r hr a ha := by
    obtain ⟨q, s, hs, here, row⟩ := exists_state_of_mem_rows h hr
    have target : t.goto? q a.1 = some a.2 := by
      rw [goto?, here, Option.bind_some, (Grammar.lookups_of_row row).2 a ha]
    rw [goto?_eq h hs] at target
    exact lt_stateCount_of_target? h target

/-- A built table that is stored without loss has no more productions and states than machine words
count, since the rows name every state but the first. -/
theorem Fits.counts (fits : t.Fits) (h : build g = .ok t) (numbered : g.Numbered) :
    t.grammar.productions.length ≤ 2 ^ 64 ∧ t.stateCount ≤ 2 ^ 64 := by
  obtain ⟨same, -, ⟨root, first, -⟩, rows⟩ := build_cases h
  constructor
  · by_contra many
    have inside : 2 ^ 64 < t.grammar.productions.length := Nat.lt_of_not_le many
    have here := List.getElem?_eq_getElem inside
    have number := (show t.grammar.Numbered from same ▸ numbered) _ _ here
    have word : IsWord _ := fits.1 _ (List.mem_of_getElem? here)
    rw [number] at word
    exact Nat.lt_irrefl _ word
  · by_contra many
    have inside : 2 ^ 64 < g.states.length := stateCount_eq h ▸ Nat.lt_of_not_le many
    obtain ⟨q, s, i, X, hs, hi, next, target⟩ :=
      Grammar.exists_target_of_ne_zero first inside (by simp)
    obtain ⟨r, here, row⟩ := rows q s hs
    have fit : r.Fits := fits.2.2 r (List.mem_of_getElem? here)
    have word : IsWord (2 ^ 64) := by
      cases X with
      | terminal k =>
        have cell := (cell?_iff h hs).mpr ⟨i, hi, .shift next target⟩
        rw [cell?, here, Option.bind_some] at cell
        exact fit.1 _ (lastOf?_eq_some_iff.mp cell).mem
      | nonTerminal n =>
        have goes := (goto?_eq h hs n).trans target
        rw [goto?, here, Option.bind_some] at goes
        exact fit.2 _ (lastOf?_eq_some_iff.mp goes).mem
    exact Nat.lt_irrefl _ word

/-- Tables whose lookups give what is entered for the states of a grammar: the actions that their
items ask for, and the states that moves over non-terminals lead to. -/
def Holds (t : Table) (g : Grammar) : Prop :=
  t.stateCount = g.states.length ∧
    ∀ q s, g.states[q]? = some s → ∃ cells, g.cells g.states g.follow q s = .ok cells ∧
      (∀ k, t.cell? q k = cells.lookup k) ∧
      ∀ n, t.goto? q n = g.target? g.states s (.nonTerminal n)

theorem holds_of_build (h : build g = .ok t) : t.Holds g := by
  refine ⟨stateCount_eq h, ?_⟩
  intro q s hs
  obtain ⟨r, here, row⟩ := (build_cases h).2.2.2 q s hs
  obtain ⟨cells, made, looked, -⟩ := Grammar.row_cases row
  refine ⟨cells, made, ?_, goto?_eq h hs⟩
  intro k
  rw [cell?, here, Option.bind_some, looked]

end Build

/-- The text of a table is read back as the table. Numbers are stored as machine words, so that this
holds of a table that was built exactly when machine words count its productions and states; what is
looked up in it is what the building entered. It holds of every table that was read, whatever order,
spelling or repetition the text had. -/
theorem read_render :
    (∀ (rules : List (NonTerminal × List Symbol)) (t : Table), build (.ofRules rules) = .ok t →
      (read t.render = .ok t ↔ rules.length ≤ 2 ^ 64 ∧ t.stateCount ≤ 2 ^ 64) ∧
        t.Holds (.ofRules rules)) ∧
    ∀ (text : String) (t : Table), read text = .ok t → read t.render = .ok t := by
  constructor
  · intro rules t built
    have numbered := Grammar.numbered_ofRules rules
    have closed := closed_of_build built numbered
    have count : t.grammar.productions.length = rules.length := by
      rw [(build_cases built).1, Grammar.ofRules, List.length_mapIdx]
    refine ⟨⟨fun back => ?_, fun counts => ?_⟩, holds_of_build built⟩
    · exact count ▸ (fits_of_read back).counts built numbered
    · exact read_of_fits (closed.fits (count ▸ counts.1) counts.2) closed
  · intro text t loaded
    exact read_of_fits (fits_of_read loaded) (read_eq_ok_iff.mp loaded).2

/-- A built table, and one that is read from records without names, with a pair that another
hides. -/
theorem read_render_hidden :
    let rules : List (NonTerminal × List Symbol) :=
      [(.start, [.nonTerminal .expr]), (.expr, [.nonTerminal .expr, .terminal .plus]), (.expr, [])]
    let text := "[[[[0,\"Start\",[\x7b\"Terminal\":\"Plus\"\x7d]]]],0," ++
      "[[[[\"Plus\",\x7b\"Shift\":0\x7d],[\"Plus\",\"Accept\"]],[]]]]"
    ∃ t u, build (.ofRules rules) = .ok t ∧ rules.length ≤ 2 ^ 64 ∧ t.stateCount ≤ 2 ^ 64 ∧
      read text = .ok u ∧ u.rows = [⟨[(.plus, .shift 0), (.plus, .accept)], []⟩] ∧
      read t.render = .ok t ∧ read u.render = .ok u := by
  intro rules text
  obtain ⟨t, built⟩ : ∃ t, build (.ofRules rules) = .ok t := exists_of_isOk (by decide +kernel)
  have few : rules.length ≤ 2 ^ 64 := by decide
  have states : t.stateCount ≤ 2 ^ 64 := by
    rw [stateCount_eq built]
    decide +kernel
  obtain ⟨u, loaded⟩ : ∃ u, read text = .ok u := exists_of_isOk (by decide +kernel)
  have rows : (read text).toOption.map (·.rows) =
      some [⟨[(.plus, .shift 0), (.plus, .accept)], []⟩] := by
    decide +kernel
  rw [loaded] at rows
  exact ⟨t, u, built, few, states, loaded, Option.some.inj rows,
    (read_render.1 rules t built).1.mpr ⟨few, states⟩, read_render.2 text u loaded⟩

end Table

end Straightline
