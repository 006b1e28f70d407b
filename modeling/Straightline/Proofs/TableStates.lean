import Straightline.Proofs.ItemSets
import Straightline.Proofs.Sequencing
import Straightline.Table.Slr

/-!
# Tables and their automaton

A control realizes the item-set automaton of a grammar when its states are the automaton's: it
shifts exactly over the terminals behind a dot, reduces exactly by a finished item on a terminal
that may follow its head, and accepts exactly at the end of input with the start rule finished.
The table that is built for a grammar, if one is, realizes its automaton (`realizes_of_build`).
All that is shown of runs over built tables rests on this alone.
-/
namespace Straightline

/-- A control whose states are those of the item-set automaton of a grammar, numbered as
`Grammar.states` lists them. -/
structure Control.Realizes (t : Control) (g : Grammar) : Prop where
  initial : g.states[t.initial]? = some g.initial
  shift {q : Nat} {s : ItemSet} {i : Item} {k : Kind} : g.states[q]? = some s → i ∈ s →
    i.next? = some (.terminal k) →
    ∃ q', t.action q k = .shift q' ∧ g.states[q']? = some (g.advance s (.terminal k))
  goto {q : Nat} {s : ItemSet} {i : Item} {n : NonTerminal} : g.states[q]? = some s → i ∈ s →
    i.next? = some (.nonTerminal n) →
    ∃ q', t.goto q n = some q' ∧ g.states[q']? = some (g.advance s (.nonTerminal n))
  reduce {q : Nat} {s : ItemSet} {i : Item} {k : Kind} : g.states[q]? = some s → i ∈ s →
    i.next? = none → i.production.index ≠ 0 → (i.production.head, k) ∈ g.follow →
    t.action q k = .reduce i.production
  accept {q : Nat} {s : ItemSet} {i : Item} : g.states[q]? = some s → i ∈ s → i.next? = none →
    i.production.index = 0 → t.action q .endOfInput = .accept
  of_shift {q q' : Nat} {s : ItemSet} {k : Kind} : g.states[q]? = some s →
    t.action q k = .shift q' → ∃ i ∈ s, i.next? = some (.terminal k)
  of_reduce {q : Nat} {s : ItemSet} {k : Kind} {p : Production} : g.states[q]? = some s →
    t.action q k = .reduce p → p.index ≠ 0 ∧ ⟨p, p.body.length⟩ ∈ s
  of_accept {q : Nat} {s : ItemSet} {k : Kind} : g.states[q]? = some s →
    t.action q k = .accept →
    k = .endOfInput ∧ ∃ p, p.index = 0 ∧ ⟨p, p.body.length⟩ ∈ s

/-! ### Cells -/

section Cells

variable {state : Nat} {cells cells' : List (Kind × Entry)} {k : Kind} {e : Entry}

theorem Row.lookup_enter {cell : Kind × Entry} (h : Row.enter state cells cell = .ok cells') :
    cells'.lookup k = some e ↔ cells.lookup k = some e ∨ (k, e) = cell := by
  obtain ⟨k', e'⟩ := cell
  unfold Row.enter at h
  split at h
  · rename_i free
    cases h
    rw [List.lookup_append]
    by_cases same : k = k'
    · subst same
      simp [free, eq_comm]
    · have other : (k == k') = false := by simpa using same
      simp [List.lookup_cons, same, other]
  · rename_i existing taken
    split at h
    · rename_i equal
      cases h
      subst equal
      refine ⟨Or.inl, ?_⟩
      rintro (h | h)
      · exact h
      · cases h
        exact taken
    · cases h

theorem Row.lookup_foldlM_enter {proposed : List (Kind × Entry)}
    (h : proposed.foldlM (Row.enter state) cells = .ok cells') :
    cells'.lookup k = some e ↔ cells.lookup k = some e ∨ (k, e) ∈ proposed := by
  induction proposed generalizing cells with
  | nil =>
    cases h
    simp
  | cons cell proposed ih =>
    rw [List.foldlM_cons, bind_eq_ok] at h
    obtain ⟨next, entered, h⟩ := h
    rw [ih h, Row.lookup_enter entered, List.mem_cons, or_assoc]

variable {g : Grammar} {states : List ItemSet} {follow : List (NonTerminal × Kind)} {s : ItemSet}

/-- The actions of a state that an item asks for: a shift over the terminal behind its dot, or, when
it is finished, acceptance or a reduction. -/
inductive Grammar.Asks (g : Grammar) (states : List ItemSet) (follow : List (NonTerminal × Kind))
    (s : ItemSet) (i : Item) : Kind → Entry → Prop where
  | shift {k : Kind} {q : Nat} : i.next? = some (.terminal k) →
    g.target? states s (.terminal k) = some q → Asks g states follow s i k (.shift q)
  | accept : i.next? = none → i.production.index = 0 →
    Asks g states follow s i .endOfInput .accept
  | reduce {k : Kind} : i.next? = none → i.production.index ≠ 0 →
    (i.production.head, k) ∈ follow → Asks g states follow s i k (.reduce i.production.index)

theorem Grammar.mem_proposals {i : Item} {proposed : List (Kind × Entry)}
    (h : g.proposals states follow state s i = .ok proposed) :
    (k, e) ∈ proposed ↔ g.Asks states follow s i k e := by
  unfold proposals at h
  split at h
  · rename_i k' next
    split at h
    · rename_i q target
      cases h
      constructor
      · intro here
        cases List.mem_singleton.mp here
        exact .shift next target
      · rintro (⟨next', target'⟩ | ⟨done⟩ | ⟨done⟩)
        · cases next.symm.trans next'
          simpa using (target.symm.trans target').symm
        · cases next.symm.trans done
        · cases next.symm.trans done
    · cases h
  · rename_i n next
    cases h
    refine ⟨by simp, ?_⟩
    rintro (⟨next'⟩ | ⟨done⟩ | ⟨done⟩)
    · cases next.symm.trans next'
    · cases next.symm.trans done
    · cases next.symm.trans done
  · rename_i done
    split at h
    · rename_i first
      cases h
      constructor
      · intro here
        cases List.mem_singleton.mp here
        exact .accept done first
      · rintro (⟨next⟩ | - | ⟨-, other⟩)
        · cases done.symm.trans next
        · simp
        · exact absurd first other
    · rename_i other
      cases h
      constructor
      · intro here
        obtain ⟨k', hk, same⟩ := List.mem_map.mp here
        cases same
        exact .reduce done other (by simpa [followOf, Kind.mem_all] using hk)
      · rintro (⟨next⟩ | ⟨-, first⟩ | ⟨-, -, after⟩)
        · cases done.symm.trans next
        · exact absurd first other
        · exact List.mem_map.mpr ⟨k, by simpa [followOf, Kind.mem_all] using after, rfl⟩

/-- The cells of a state are what its items ask for, and every item is asked. -/
theorem Grammar.lookup_cells (h : g.cells states follow state s = .ok cells) :
    (∀ i ∈ s, ∃ proposed, g.proposals states follow state s i = .ok proposed) ∧
      ∀ k e, cells.lookup k = some e ↔
        ∃ i ∈ s, ∃ proposed, g.proposals states follow state s i = .ok proposed ∧
          (k, e) ∈ proposed := by
  have folded (items : ItemSet) (start : List (Kind × Entry))
      (h : items.foldlM (fun cells i => do
        (← g.proposals states follow state s i).foldlM (Row.enter state) cells) start =
          .ok cells) :
      (∀ i ∈ items, ∃ proposed, g.proposals states follow state s i = .ok proposed) ∧
        ∀ k e, cells.lookup k = some e ↔ start.lookup k = some e ∨
          ∃ i ∈ items, ∃ proposed, g.proposals states follow state s i = .ok proposed ∧
            (k, e) ∈ proposed := by
    induction items generalizing start with
    | nil =>
      cases h
      simp
    | cons i items ih =>
      rw [List.foldlM_cons, bind_eq_ok] at h
      obtain ⟨next, entered, h⟩ := h
      obtain ⟨proposed, asked, entered⟩ := bind_eq_ok.mp entered
      obtain ⟨all, found⟩ := ih next h
      refine ⟨by simpa using ⟨⟨proposed, asked⟩, all⟩, ?_⟩
      intro k e
      rw [found, Row.lookup_foldlM_enter entered]
      simp [asked, or_assoc]
  simpa using folded s [] h

theorem Grammar.lookup_cells_iff (h : g.cells states follow state s = .ok cells) :
    cells.lookup k = some e ↔ ∃ i ∈ s, g.Asks states follow s i k e := by
  obtain ⟨all, found⟩ := lookup_cells h
  rw [found]
  constructor
  · rintro ⟨i, hi, proposed, asked, here⟩
    exact ⟨i, hi, (mem_proposals asked).mp here⟩
  · rintro ⟨i, hi, asks⟩
    obtain ⟨proposed, asked⟩ := all i hi
    exact ⟨i, hi, proposed, asked, (mem_proposals asked).mpr asks⟩

end Cells

/-! ### Rows -/

theorem filter_filterMap_key {κ ε : Type} [DecidableEq κ] {keys : List κ} (distinct : keys.Nodup)
    (f : κ → Option ε) {k : κ} (hk : k ∈ keys) :
    (keys.filterMap fun k => (f k).map (k, ·)).filter (·.1 == k) =
      ((f k).map (k, ·)).toList := by
  have absent (keys : List κ) (hk : k ∉ keys) :
      (keys.filterMap fun k => (f k).map (k, ·)).filter (·.1 == k) = [] := by
    rw [List.filter_eq_nil_iff]
    intro pair here
    obtain ⟨k', hk', made⟩ := List.mem_filterMap.mp here
    obtain ⟨e, -, rfl⟩ := Option.map_eq_some_iff.mp made
    rintro same
    exact hk (by simpa using beq_iff_eq.mp same ▸ hk')
  induction keys with
  | nil => cases hk
  | cons a keys ih =>
    rw [List.nodup_cons] at distinct
    by_cases same : a = k
    · subst same
      cases value : f a with
      | none => simpa [value] using absent keys distinct.1
      | some e => simpa [value] using absent keys distinct.1
    · have rest := ih distinct.2 ((List.mem_cons.mp hk).resolve_left (Ne.symm same))
      cases value : f a with
      | none => simpa [value] using rest
      | some e => simpa [value, same] using rest

namespace Grammar

variable {g : Grammar} {states : List ItemSet} {follow : List (NonTerminal × Kind)} {state : Nat}
  {s : ItemSet} {r : Row}

theorem row_cases (h : g.row states follow state s = .ok r) :
    ∃ cells, g.cells states follow state s = .ok cells ∧
      (∀ k, r.cell? k = cells.lookup k) ∧
      ∀ n, r.goto? n = g.target? states s (.nonTerminal n) := by
  obtain ⟨cells, made, h⟩ := bind_eq_ok.mp h
  cases h
  refine ⟨cells, made, ?_, ?_⟩
  · intro k
    rw [Row.cell?, lastOf?, filter_filterMap_key (by decide) _ (Kind.mem_all k)]
    cases cells.lookup k <;> rfl
  · intro n
    rw [Row.goto?, lastOf?, filter_filterMap_key (by decide) _ (NonTerminal.mem_all n)]
    cases g.target? states s (.nonTerminal n) <;> rfl

theorem states_of_target? {X : Symbol} {q : Nat} (h : g.target? states s X = some q) :
    states[q]? = some (g.advance s X) := by
  obtain ⟨inside, here, -⟩ := List.findIdx?_eq_some_iff_getElem.mp h
  rw [List.getElem?_eq_getElem inside]
  simpa using here

theorem exists_target {X : Symbol} (h : g.advance s X ∈ states) :
    ∃ q, g.target? states s X = some q := by
  cases found : g.target? states s X with
  | some q => exact ⟨q, rfl⟩
  | none =>
    have := List.findIdx?_eq_none_iff.mp found _ h
    simp at this

end Grammar

/-! ### Tables -/

/-- Productions that carry their position as number. -/
def Grammar.Numbered (g : Grammar) : Prop :=
  ∀ m p, g.production? m = some p → p.index = m

theorem Grammar.numbered_ofRules (rules : List (NonTerminal × List Symbol)) :
    (ofRules rules).Numbered :=
  fun _ _ h => index_of_mem_ofRules h

theorem Grammar.Numbered.production?_index {g : Grammar} (numbered : g.Numbered) {p : Production}
    (member : p ∈ g.productions) : g.production? p.index = some p := by
  obtain ⟨m, here⟩ := List.mem_iff_getElem?.mp member
  rw [numbered m p here]
  exact here

namespace Table

variable {g : Grammar} {t : Table}

theorem build_cases (h : build g = .ok t) :
    t.grammar = g ∧ t.initial = 0 ∧
      (∃ p, g.start? = some p ∧ p.body.length = 1) ∧
      ∀ q s, g.states[q]? = some s →
        ∃ r, t.rows[q]? = some r ∧ g.row g.states g.follow q s = .ok r := by
  unfold build at h
  split at h
  · cases h
  · rename_i p start
    split at h
    · cases h
    · rename_i single
      obtain ⟨rows, made, h⟩ := bind_eq_ok.mp h
      cases h
      refine ⟨rfl, rfl, ⟨p, start, by omega⟩, ?_⟩
      intro q s hs
      obtain ⟨r, row, here⟩ := mapM_eq_ok made (m := q) (a := (s, q)) (by simp [hs])
      exact ⟨r, here, row⟩

variable {q : Nat} {s : ItemSet}

theorem cell?_iff (h : build g = .ok t) (hs : g.states[q]? = some s) {k : Kind} {e : Entry} :
    t.cell? q k = some e ↔ ∃ i ∈ s, g.Asks g.states g.follow s i k e := by
  obtain ⟨r, here, row⟩ := (build_cases h).2.2.2 q s hs
  obtain ⟨cells, made, looked, -⟩ := Grammar.row_cases row
  rw [cell?, here, Option.bind_some, looked, Grammar.lookup_cells_iff made]

theorem goto?_eq (h : build g = .ok t) (hs : g.states[q]? = some s) (n : NonTerminal) :
    t.goto? q n = g.target? g.states s (.nonTerminal n) := by
  obtain ⟨r, here, row⟩ := (build_cases h).2.2.2 q s hs
  obtain ⟨cells, -, -, gone⟩ := Grammar.row_cases row
  rw [goto?, here, Option.bind_some, gone]

theorem production?_of_mem (numbered : g.Numbered) (hs : g.states[q]? = some s) {i : Item}
    (hi : i ∈ s) : g.production? i.production.index = some i.production :=
  numbered.production?_index
    (Grammar.mem_items.mp (Grammar.mem_items_of_mem_states (List.mem_of_getElem? hs) hi)).1

theorem finished (hs : g.states[q]? = some s) {i : Item} (hi : i ∈ s) (done : i.next? = none) :
    i = ⟨i.production, i.production.body.length⟩ := by
  have inside : i.dot ≤ i.production.body.length :=
    (Grammar.mem_items.mp (Grammar.mem_items_of_mem_states (List.mem_of_getElem? hs) hi)).2
  have behind : i.production.body.length ≤ i.dot := List.getElem?_eq_none_iff.mp done
  obtain ⟨p, d⟩ := i
  simp only [Item.mk.injEq, true_and]
  exact Nat.le_antisymm inside behind

theorem action_cases (h : build g = .ok t) (numbered : g.Numbered) (hs : g.states[q]? = some s)
    (k : Kind) :
    t.action q k = .error ∨ ∃ i ∈ s, ∃ e, g.Asks g.states g.follow s i k e ∧
      t.action q k = match e with
        | .shift q' => .shift q'
        | .reduce _ => .reduce i.production
        | .accept => .accept := by
  have same := (build_cases h).1
  unfold action
  cases found : t.cell? q k with
  | none => exact Or.inl rfl
  | some e =>
    obtain ⟨i, hi, asks⟩ := (cell?_iff h hs).mp found
    refine Or.inr ⟨i, hi, e, asks, ?_⟩
    cases asks with
    | shift next target => rfl
    | accept done first => rfl
    | reduce done other after => simp only [same, production?_of_mem numbered hs hi]

/-- The table built for a grammar realizes its automaton. -/
theorem realizes_of_build (h : build g = .ok t) (numbered : g.Numbered) :
    t.control.Realizes g where
  initial := by
    show g.states[t.initial]? = _
    rw [(build_cases h).2.1]
    exact g.states_zero
  shift {q s i k} hs hi next := by
    obtain ⟨q', target⟩ := Grammar.exists_target
      (Grammar.advance_mem_states (List.mem_of_getElem? hs) hi next)
    have cell := (cell?_iff h hs).mpr ⟨i, hi, .shift next target⟩
    exact ⟨q', by simp [control, action, cell], Grammar.states_of_target? target⟩
  goto {q s i n} hs hi next := by
    obtain ⟨q', target⟩ := Grammar.exists_target
      (Grammar.advance_mem_states (List.mem_of_getElem? hs) hi next)
    exact ⟨q', (goto?_eq h hs n).trans target, Grammar.states_of_target? target⟩
  reduce {q s i k} hs hi done other after := by
    have cell := (cell?_iff h hs).mpr ⟨i, hi, .reduce done other after⟩
    simp [control, action, cell, (build_cases h).1, production?_of_mem numbered hs hi]
  accept {q s i} hs hi done first := by
    have cell := (cell?_iff h hs).mpr ⟨i, hi, .accept done first⟩
    simp [control, action, cell]
  of_shift {q q' s k} hs acts := by
    have acts : t.action q k = .shift q' := acts
    obtain failed | ⟨i, hi, e, asks, made⟩ := action_cases h numbered hs k
    · cases acts.symm.trans failed
    · cases asks with
      | shift next target => exact ⟨i, hi, next⟩
      | accept done first => cases acts.symm.trans made
      | reduce done other after => cases acts.symm.trans made
  of_reduce {q s k p} hs acts := by
    have acts : t.action q k = .reduce p := acts
    obtain failed | ⟨i, hi, e, asks, made⟩ := action_cases h numbered hs k
    · cases acts.symm.trans failed
    · cases asks with
      | shift next target => cases acts.symm.trans made
      | accept done first => cases acts.symm.trans made
      | reduce done other after =>
        cases acts.symm.trans made
        exact ⟨other, finished hs hi done ▸ hi⟩
  of_accept {q s k} hs acts := by
    have acts : t.action q k = .accept := acts
    obtain failed | ⟨i, hi, e, asks, made⟩ := action_cases h numbered hs k
    · cases acts.symm.trans failed
    · cases asks with
      | shift next target => cases acts.symm.trans made
      | accept done first => exact ⟨rfl, i.production, first, finished hs hi done ▸ hi⟩
      | reduce done other after => cases acts.symm.trans made

end Table

end Straightline
