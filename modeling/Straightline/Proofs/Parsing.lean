import Straightline.Proofs.Runs
import Straightline.Proofs.TableStates

/-!
# Parsing by an automaton's control

Runs of a control that realizes the automaton of a grammar. Along a run the states on the stack are
those after the symbols below them (`Path`), and the stack stands for parse trees whose leaves are
the tokens shifted and whose moves are those made (`Parsed`). So no reduction fails, acceptance
finds a tree of all that was shifted (`Parsed.accepted`). Conversely the moves of a tree are made on
its leaves (`steps_of_forest`).
-/
namespace Straightline

def Move.erase : Move → Move
  | .shift _ t => .shift 0 t
  | .reduce _ p => .reduce 0 p
  | .accept _ => .accept 0

theorem Observer.tell_erase {σ : Type} {o : Observer σ} (same : ∀ m : Move, o m.erase = o m)
    (ms : List Move) : o.tell (ms.map Move.erase) = o.tell ms := by
  induction ms with
  | nil => rfl
  | cons m ms ih => simp only [List.map_cons, tell, same, ih]

namespace Grammar

variable {g : Grammar}

/-- A grammar whose start rule leads from a head that is in no body to one symbol. -/
structure Rooted (g : Grammar) (root : Production) (X : Symbol) : Prop where
  numbered : g.Numbered
  start : g.start? = some root
  body : root.body = [X]
  fresh : ∀ p ∈ g.productions, .nonTerminal root.head ∉ p.body

/-- A grammar whose start rule leads from a head that has no other part in it to one
non-terminal. -/
structure Augmented (g : Grammar) (root : Production) (n : NonTerminal) : Prop
    extends Rooted g root (.nonTerminal n) where
  single : ∀ p ∈ g.productions, p.head = root.head → p = root

theorem Rooted.index_ne_zero {root p : Production} {X : Symbol} (h : g.Rooted root X)
    (member : p ∈ g.productions) (other : p ≠ root) : p.index ≠ 0 := by
  intro first
  have := h.numbered.production?_index member
  rw [first] at this
  exact other (Option.some.inj (this.symm.trans h.start))

theorem next?_of_drop {p : Production} {d : Nat} {X : Symbol} {β : List Symbol}
    (h : p.body.drop d = X :: β) :
    (⟨p, d⟩ : Item).next? = some X ∧ p.body.drop (d + 1) = β := by
  constructor
  · show p.body[d]? = some X
    rw [← Nat.add_zero d, ← List.getElem?_drop, h, List.getElem?_cons_zero]
  · rw [← List.drop_drop, h, List.drop_succ_cons, List.drop_zero]

theorem mem_body_of_next? {i : Item} {X : Symbol} (next : i.next? = some X) :
    X ∈ i.production.body :=
  List.mem_of_getElem? next

theorem Rooted.eq_of_finished {root p : Production} {X : Symbol} (h : g.Rooted root X)
    {γ : List Symbol} (first : p.index = 0) (finished : ⟨p, p.body.length⟩ ∈ g.after γ) :
    γ = [X] := by
  have start := h.numbered.production?_index (mem_items.mp (mem_items_of_mem_after finished)).1
  rw [first] at start
  obtain rfl : p = root := Option.some.inj (start.symm.trans h.start)
  obtain ⟨δ, rfl, front⟩ := exists_before finished
  rw [List.take_length, h.body]
  obtain ⟨rfl, -⟩ | ⟨i, hi, next⟩ := origin front
  · rfl
  · have owner := (mem_items.mp (mem_items_of_mem_after hi)).1
    exact absurd (mem_body_of_next? next) (h.fresh _ owner)

/-- The moves that build trees, without states: a shift for a leaf, and a reduction behind the
moves of the children. -/
def Forest.moves : {α : List Symbol} → Forest g α → List Move
  | _, nil => []
  | _, token t _ more => .shift 0 t :: more.moves
  | _, node p _ _ children more => children.moves ++ .reduce 0 p :: more.moves

theorem Forest.moves_append {α β : List Symbol} (f : Forest g α) (f' : Forest g β) :
    (f.append f').moves = f.moves ++ f'.moves := by
  induction f with
  | nil => rfl
  | token t kind more ih => simp [append, moves, ih]
  | node p member head children more _ ih => simp [append, moves, ih]

end Grammar

open Grammar

/-! ### Stacks -/

/-- The grammar symbols of a stack, from the bottom. -/
def symbolsOf (stack : List Frame) : List Symbol :=
  (stack.map (·.symbol.symbol)).reverse

@[simp] theorem symbolsOf_nil : symbolsOf [] = [] := rfl

@[simp] theorem symbolsOf_cons (f : Frame) (stack : List Frame) :
    symbolsOf (f :: stack) = symbolsOf stack ++ [f.symbol.symbol] := by
  simp [symbolsOf]

@[simp] theorem symbolsOf_append (frames stack : List Frame) :
    symbolsOf (frames ++ stack) = symbolsOf stack ++ symbolsOf frames := by
  simp [symbolsOf]

theorem length_symbolsOf (stack : List Frame) : (symbolsOf stack).length = stack.length := by
  simp [symbolsOf]

theorem pop?_append {frames : List Frame} {β : List Symbol} (named : symbolsOf frames = β)
    (stack : List Frame) : Control.pop? β.length (frames ++ stack) = some stack := by
  rw [← named, length_symbolsOf]
  clear named
  induction frames with
  | nil => rfl
  | cons f frames ih => exact ih

theorem exists_frames {stack : List Frame} {δ β : List Symbol} (h : symbolsOf stack = δ ++ β) :
    ∃ frames below, stack = frames ++ below ∧ symbolsOf frames = β ∧ symbolsOf below = δ := by
  have reversed : stack.map (·.symbol.symbol) = β.reverse ++ δ.reverse := by
    rw [← List.reverse_append, ← h, symbolsOf, List.reverse_reverse]
  obtain ⟨frames, below, rfl, top, bottom⟩ := List.map_eq_append_iff.mp reversed
  exact ⟨frames, below, rfl, by simp [symbolsOf, top], by simp [symbolsOf, bottom]⟩

variable {g : Grammar} {t : Control} {stack : List Frame}

/-- A stack whose symbols were each expected by an item, and whose states are those of the
automaton after the symbols up to them. -/
inductive Path (g : Grammar) : List Frame → Prop where
  | nil : Path g []
  | push {frame : Frame} {stack : List Frame} {i : Item} (below : Path g stack)
    (member : i ∈ g.after (symbolsOf stack)) (next : i.next? = some frame.symbol.symbol)
    (state : g.states[frame.state]? =
      some (g.advance (g.after (symbolsOf stack)) frame.symbol.symbol)) :
    Path g (frame :: stack)

namespace Path

theorem state (realizes : t.Realizes g) (path : Path g stack) :
    g.states[t.state stack]? = some (g.after (symbolsOf stack)) := by
  cases path with
  | nil => exact realizes.initial
  | push below member next state =>
    rw [symbolsOf_cons, after_concat]
    exact state

theorem of_append {frames : List Frame} (path : Path g (frames ++ stack)) : Path g stack := by
  induction frames with
  | nil => exact path
  | cons f frames ih =>
    cases path with
    | push below => exact ih below

theorem mem_body (path : Path g stack) {X : Symbol} (h : X ∈ symbolsOf stack) :
    ∃ p ∈ g.productions, X ∈ p.body := by
  induction path with
  | nil => cases h
  | @push frame stack i below member next state ih =>
    rw [symbolsOf_cons] at h
    rcases List.mem_append.mp h with h | h
    · exact ih h
    · obtain rfl := List.mem_singleton.mp h
      exact ⟨i.production, (mem_items.mp (mem_items_of_mem_after member)).1, mem_body_of_next? next⟩

theorem exists_mem {root : Production} (hs : g.start? = some root) (path : Path g stack) :
    ∃ i, i ∈ g.after (symbolsOf stack) := by
  cases path with
  | nil => exact ⟨_, start_mem_initial hs⟩
  | @push f stack i below member next =>
    rw [symbolsOf_cons]
    exact ⟨i.advance, advance_mem_after member next⟩

end Path

/-! ### Trees are parsed -/

section Completeness

variable {root : Production} {X : Symbol} (rooted : g.Rooted root X) (realizes : t.Realizes g)
include rooted realizes

/-- What is left of the body of an item is shifted and reduced, up to a token that may follow the
item's head. -/
theorem steps_of_forest {β : List Symbol} (f : Forest g β) {p : Production} {d : Nat}
    (path : Path g stack) (member : ⟨p, d⟩ ∈ g.after (symbolsOf stack)) (left : p.body.drop d = β)
    {a : Token} (after : (p.head, a.kind) ∈ g.follow) (rest : List Token) :
    ∃ ms frames, t.Steps ms ⟨stack, f.yield ++ a :: rest⟩ ⟨frames ++ stack, a :: rest⟩ ∧
      f.moves = ms.map Move.erase ∧ symbolsOf frames = β ∧ Path g (frames ++ stack) ∧
      ⟨p, p.body.length⟩ ∈ g.after (symbolsOf (frames ++ stack)) := by
  induction f generalizing p d stack a rest with
  | nil =>
    refine ⟨[], [], .refl _, rfl, rfl, path, ?_⟩
    have inside : d ≤ p.body.length := (mem_items.mp (mem_items_of_mem_after member)).2
    have behind : p.body.length ≤ d := List.drop_eq_nil_iff.mp left
    rw [Nat.le_antisymm behind inside]
    exact member
  | token b kind more ih =>
    subst kind
    obtain ⟨next, left⟩ := next?_of_drop left
    obtain ⟨q, acts, state⟩ := realizes.shift (path.state realizes) member next
    have pushed : Path g (⟨.token b, q⟩ :: stack) := path.push member next state
    have moved : ⟨p, d + 1⟩ ∈ g.after (symbolsOf (⟨.token b, q⟩ :: stack)) := by
      rw [symbolsOf_cons]
      exact advance_mem_after member next
    obtain ⟨ms, frames, steps, made, named, path, done⟩ := ih pushed moved left after rest
    rw [List.append_cons frames] at steps path done
    refine ⟨_ :: ms, _, .next (Control.step_shift acts) steps, ?_, ?_, path, done⟩
    · simp [Forest.moves, Move.erase, made]
    · simp [named, ParseSymbol.symbol]
  | node p' inGrammar head children more ihc ih =>
    subst head
    have body := (p.body.take_append_drop d).symm
    rw [left] at body
    obtain ⟨next, left⟩ := next?_of_drop left
    have owner : p ∈ g.productions := (mem_items.mp (mem_items_of_mem_after member)).1
    -- the children end at a token that may follow their head
    obtain ⟨b, w, ahead⟩ : ∃ b w, more.yield ++ a :: rest = b :: w :=
      List.exists_cons_of_ne_nil (by simp)
    have follows : (p'.head, b.kind) ∈ g.follow := follow_of_forest owner body more after ahead
    have front : ⟨p', 0⟩ ∈ g.after (symbolsOf stack) := mem_after_of_next member next inGrammar
    obtain ⟨ms, frames, steps, made, named, built, done⟩ := ihc path front rfl follows w
    have other : p' ≠ root := by
      rintro rfl
      exact rooted.fresh p owner (mem_body_of_next? next)
    have acts := realizes.reduce (built.state realizes) done (by simp [Item.next?])
      (rooted.index_ne_zero inGrammar other) follows
    have popped := pop?_append named stack
    obtain ⟨q, goes, state⟩ := realizes.goto (path.state realizes) member next
    have pushed : Path g (⟨.nonTerminal p'.head, q⟩ :: stack) := path.push member next state
    have moved : ⟨p, d + 1⟩ ∈ g.after (symbolsOf (⟨.nonTerminal p'.head, q⟩ :: stack)) := by
      rw [symbolsOf_cons]
      exact advance_mem_after member next
    obtain ⟨ms', frames', steps', made', named', path', done'⟩ := ih pushed moved left after rest
    rw [List.append_cons frames'] at steps' path' done'
    rw [ahead] at steps'
    refine ⟨ms ++ .reduce q p' :: ms', _, ?_, ?_, ?_, path', done'⟩
    · rw [Forest.yield, List.append_assoc, ahead]
      exact steps.trans (.next (Control.step_reduce acts popped goes) steps')
    · simp [Forest.moves, Move.erase, made, made']
    · simp [named', ParseSymbol.symbol]

/-- A tree of the start rule's symbol is parsed by its own moves, and accepted at the end of
input. -/
theorem accepted_of_forest (f : Forest g [X]) {e : Token} (ends : e.kind = .endOfInput)
    (rest : List Token) :
    ∃ ms c q, t.Steps ms ⟨[], f.yield ++ e :: rest⟩ c ∧ t.step c = .accepted q ∧
      f.moves = ms.map Move.erase := by
  have after : (root.head, e.kind) ∈ g.follow := ends ▸ start_mem_follow rooted.start
  obtain ⟨ms, frames, steps, made, -, path, done⟩ := steps_of_forest rooted realizes f .nil
    (start_mem_initial rooted.start) (by rw [List.drop_zero, rooted.body]) after rest
  have acts := realizes.accept (path.state realizes) done (by simp [Item.next?])
    (rooted.numbered 0 root rooted.start)
  rw [← ends] at acts
  exact ⟨ms, _, _, steps, Control.step_accept acts, made⟩

end Completeness

/-! ### What is parsed is a tree -/

/-- All that a step can be from a stack that is a path: it shifts an expected token, reduces a body
on top of the stack, accepts when the start rule is finished, or finds a token without an action or
no token at all. -/
inductive Effect (t : Control) (g : Grammar) : Configuration → Step → Prop where
  | shift {stack : List Frame} {a : Token} {rest : List Token} {q : Nat}
    (path : Path g (⟨.token a, q⟩ :: stack)) :
    Effect t g ⟨stack, a :: rest⟩
      (.next (.shift (t.state stack) a) ⟨⟨.token a, q⟩ :: stack, rest⟩)
  | reduce {frames below : List Frame} {input : List Token} {q : Nat} {p : Production}
    (member : p ∈ g.productions) (other : p.index ≠ 0) (body : symbolsOf frames = p.body)
    (path : Path g (⟨.nonTerminal p.head, q⟩ :: below)) :
    Effect t g ⟨frames ++ below, input⟩
      (.next (.reduce q p) ⟨⟨.nonTerminal p.head, q⟩ :: below, input⟩)
  | accept {stack : List Frame} {e : Token} {rest : List Token} {p : Production}
    (ends : e.kind = .endOfInput) (first : p.index = 0)
    (finished : ⟨p, p.body.length⟩ ∈ g.after (symbolsOf stack)) :
    Effect t g ⟨stack, e :: rest⟩ (.accepted (t.state stack))
  | reject {stack : List Frame} {a : Token} {rest : List Token}
    (acts : t.action (t.state stack) a.kind = .error) :
    Effect t g ⟨stack, a :: rest⟩ (.failed (Control.unexpected (t.state stack) a))
  | starve {stack : List Frame} : Effect t g ⟨stack, []⟩ (.failed .unexpectedEnd)

theorem Effect.path {c c' : Configuration} {m : Move}
    (effect : Effect t g c (.next m c')) : Path g c'.stack := by
  cases effect with
  | shift path => exact path
  | reduce member other body path => exact path

section Soundness

variable (numbered : g.Numbered) (realizes : t.Realizes g)
include numbered realizes

theorem Path.exists_reduction (path : Path g stack) {k : Kind} {p : Production}
    (acts : t.action (t.state stack) k = .reduce p) :
    p ∈ g.productions ∧ p.index ≠ 0 ∧ ∃ frames below q, stack = frames ++ below ∧
      symbolsOf frames = p.body ∧ t.goto (t.state below) p.head = some q ∧
      Path g (⟨.nonTerminal p.head, q⟩ :: below) := by
  obtain ⟨other, finished⟩ := realizes.of_reduce (path.state realizes) acts
  have inGrammar := (mem_items.mp (mem_items_of_mem_after finished)).1
  obtain ⟨δ, named, front⟩ := exists_before finished
  rw [List.take_length] at named
  obtain ⟨frames, below, rfl, top, rfl⟩ := exists_frames named
  obtain ⟨-, start⟩ | ⟨i, hi, next⟩ := origin front
  · exact absurd (numbered 0 p start) other
  · obtain ⟨q, goes, state⟩ := realizes.goto (path.of_append.state realizes) hi next
    exact ⟨inGrammar, other, frames, below, q, rfl, top, goes, path.of_append.push hi next state⟩

theorem Path.effect_reduce (path : Path g stack) {a : Token} {p : Production} (rest : List Token)
    (acts : t.action (t.state stack) a.kind = .reduce p) :
    Effect t g ⟨stack, a :: rest⟩ (t.step ⟨stack, a :: rest⟩) := by
  obtain ⟨inGrammar, other, frames, below, q, rfl, top, goes, path⟩ :=
    path.exists_reduction numbered realizes acts
  rw [Control.step_reduce acts (pop?_append top below) goes]
  exact .reduce inGrammar other top path

theorem Path.effect {c : Configuration} (path : Path g c.stack) : Effect t g c (t.step c) := by
  obtain ⟨stack, input⟩ := c
  cases input with
  | nil => exact .starve
  | cons a rest =>
    cases acts : t.action (t.state stack) a.kind with
    | shift q =>
      obtain ⟨i, hi, next⟩ := realizes.of_shift (path.state realizes) acts
      obtain ⟨q', acts', state⟩ := realizes.shift (path.state realizes) hi next
      cases acts.symm.trans acts'
      rw [Control.step_shift acts]
      exact .shift (path.push hi next state)
    | reduce p => exact path.effect_reduce numbered realizes rest acts
    | accept =>
      obtain ⟨ends, p, first, finished⟩ := realizes.of_accept (path.state realizes) acts
      rw [Control.step_accept acts]
      exact .accept ends first finished
    | error =>
      rw [Control.step_error acts]
      exact .reject acts

end Soundness

theorem Path.of_accepted {root : Production} {X : Symbol} (rooted : g.Rooted root X)
    (realizes : t.Realizes g) {c : Configuration} (path : Path g c.stack) {q : Nat}
    (accepts : t.step c = .accepted q) :
    symbolsOf c.stack = [X] ∧ ∃ e rest, c.input = e :: rest ∧ e.kind = .endOfInput := by
  have effect := path.effect rooted.numbered realizes
  rw [accepts] at effect
  cases effect with
  | accept ends first finished =>
    exact ⟨rooted.eq_of_finished first finished, _, _, rfl, ends⟩

/-- What a run has made of its tokens: the stack stands for trees whose leaves are the tokens no
longer ahead, and the moves were those that build the trees. -/
structure Parsed (g : Grammar) (tokens : List Token) (ms : List Move) (c : Configuration) :
    Prop where
  path : Path g c.stack
  forest : ∃ (α : List Symbol) (f : Forest g α), symbolsOf c.stack = α ∧
    f.yield ++ c.input = tokens ∧ f.moves = ms.map Move.erase

namespace Parsed

variable {root : Production} {X : Symbol} {tokens : List Token} {ms ns : List Move} {m : Move}
  {c c' : Configuration}

theorem initial (g : Grammar) (tokens : List Token) : Parsed g tokens [] ⟨[], tokens⟩ :=
  ⟨.nil, [], .nil, rfl, rfl, rfl⟩

theorem of_effect (parsed : Parsed g tokens ms c) (effect : Effect t g c (.next m c')) :
    Parsed g tokens (ms ++ [m]) c' := by
  obtain ⟨-, α, f, named, leaves, made⟩ := parsed
  cases effect with
  | @shift stack a rest q path =>
    refine ⟨path, _, f.append (.token a rfl .nil), ?_, ?_, ?_⟩
    · simpa [ParseSymbol.symbol] using named
    · simpa [Forest.yield] using leaves
    · simp [Forest.moves_append, Forest.moves, Move.erase, made]
  | @reduce frames below input q p member other body path =>
    rw [symbolsOf_append, body] at named
    subst named
    obtain ⟨f, children, rfl⟩ := f.exists_append
    refine ⟨path, _, f.append (.node p member rfl children .nil), ?_, ?_, ?_⟩
    · simp [ParseSymbol.symbol]
    · simpa [Forest.yield] using leaves
    · rw [Forest.moves_append] at made
      simp [Forest.moves_append, Forest.moves, Move.erase, ← made]

theorem run (numbered : g.Numbered) (realizes : t.Realizes g)
    (parsed : Parsed g tokens ms c) (steps : t.Steps ns c c') : Parsed g tokens (ms ++ ns) c' := by
  induction steps generalizing ms with
  | refl => simpa using parsed
  | next first _ ih =>
    have effect := parsed.path.effect numbered realizes
    rw [first] at effect
    simpa using ih (parsed.of_effect effect)

theorem mem_input (parsed : Parsed g tokens ms c) {e : Token} (member : e ∈ tokens)
    (nowhere : ∀ p ∈ g.productions, e.symbol ∉ p.body) : e ∈ c.input := by
  obtain ⟨path, α, f, rfl, leaves, -⟩ := parsed
  rw [← leaves] at member
  rcases List.mem_append.mp member with shifted | ahead
  · obtain ⟨p, owner, inside⟩ : ∃ p ∈ g.productions, e.symbol ∈ p.body := by
      rcases f.symbol_of_mem_yield shifted with stacked | inside
      · exact path.mem_body stacked
      · exact inside
    exact absurd inside (nowhere p owner)
  · exact ahead

theorem accepted (rooted : g.Rooted root X) (realizes : t.Realizes g)
    (parsed : Parsed g tokens ms c) {q : Nat} (accepts : t.step c = .accepted q) :
    ∃ (f : Forest g [X]) (e : Token) (rest : List Token), e.kind = .endOfInput ∧
      tokens = f.yield ++ e :: rest ∧ f.moves = ms.map Move.erase := by
  obtain ⟨path, α, f, named, leaves, made⟩ := parsed
  obtain ⟨stack, e, rest, ahead, ends⟩ := path.of_accepted rooted realizes accepts
  obtain rfl := named.symm.trans stack
  exact ⟨f, e, rest, ends, ahead ▸ leaves.symm, made⟩

end Parsed

/-- A run that accepts was told the moves of a tree, whose leaves stand before the end of input. -/
theorem Control.Returns.exists_forest {root : Production} {X : Symbol} (rooted : g.Rooted root X)
    (realizes : t.Realizes g) {σ : Type} {o : Observer σ} {tokens : List Token} {s s' : σ}
    (h : t.Returns o tokens s (.ok () s')) :
    ∃ (f : Forest g [X]) (e : Token) (rest : List Token) (ms : List Move) (q : Nat),
      e.kind = .endOfInput ∧ tokens = f.yield ++ e :: rest ∧ f.moves = ms.map Move.erase ∧
        o.tell (ms ++ [.accept q]) s = .ok () s' := by
  obtain ⟨n, ran⟩ := h
  obtain ⟨ms, c, q, steps, accepts, told⟩ := Control.exists_steps_of_runFor ran
  have parsed := (Parsed.initial g tokens).run rooted.numbered realizes steps
  obtain ⟨f, e, rest, ends, leaves, made⟩ := parsed.accepted rooted realizes accepts
  exact ⟨f, e, rest, ms, q, ends, leaves, made, told⟩

end Straightline
