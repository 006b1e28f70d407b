import Straightline.Observer.Recorder
import Straightline.Proofs.Runs

/-!
# Telling observers

What a list of observers is told along a run, over any table. The moves are those of the run without
observers; each of them goes to all observers in order before the next is made; and the first
observer to refuse one ends the run with its error (`Control.returns_all`).

Calls are noted in what the observers share. Observers whose calls are noted do what they did
before, so the notes are of the run that is spoken of.
-/
namespace Straightline

/-- One observer, by its place among the observers, told one move, and its error if it refuses. -/
structure Call where
  observer : Nat
  move : Move
  refusal : Option Error
  deriving DecidableEq, Repr

namespace Call

/-- The calls of a move to the first observers, none of whom refuses. -/
def round (count : Nat) (m : Move) : List Call :=
  (List.range count).map fun i => ⟨i, m, none⟩

def received (i : Nat) (calls : List Call) : List Move :=
  (calls.filter (·.observer == i)).map (·.move)

theorem received_append (i : Nat) (calls calls' : List Call) :
    received i (calls ++ calls') = received i calls ++ received i calls' := by
  simp [received]

theorem received_round (i count : Nat) (m : Move) :
    received i (round count m) = if i < count then [m] else [] := by
  induction count with
  | zero => rfl
  | succ count ih =>
    have last : round (count + 1) m = round count m ++ [⟨count, m, none⟩] := by
      simp [round, List.range_succ]
    rw [last, received_append, ih]
    by_cases same : count = i
    · subst same
      simp [received]
    · have other : received i [⟨count, m, none⟩] = [] := by simp [received, same]
      have before : i < count ↔ i < count + 1 := by omega
      rw [other, List.append_nil]
      simp only [before]

theorem received_rounds {i count : Nat} (inside : i < count) (ms : List Move) :
    received i (ms.flatMap (round count)) = ms := by
  induction ms with
  | nil => rfl
  | cons m ms ih =>
    rw [List.flatMap_cons, received_append, received_round, if_pos inside, ih]
    rfl

end Call

open Call

variable {ρ σ : Type} {t : Control} {o : Observer (ρ × σ)} {r r' : ρ} {states states' : List σ}
  {m : Move} {ms : List Move} {e : Error}

namespace Observer

/-- An observer whose calls are noted behind those that are there. -/
def noted (o : Observer (ρ × σ)) : Observer ((ρ × List Call) × (σ × Nat)) :=
  fun m ((r, calls), (s, i)) =>
    match o m (r, s) with
    | .ok () (r, s) => .ok () ((r, calls ++ [⟨i, m, none⟩]), (s, i))
    | .error e (r, s) => .error e ((r, calls ++ [⟨i, m, some e⟩]), (s, i))

theorem length_of_each (h : each o m r states = .ok () (r', states')) :
    states'.length = states.length := by
  induction states generalizing r states' with
  | nil =>
    cases h
    rfl
  | cons s states ih =>
    unfold each at h
    split at h
    · cases h
    · split at h
      · cases h
      · rename_i told
        cases h
        rw [List.length_cons, List.length_cons, ih told]

theorem each_noted (calls : List Call) (i : Nat) (h : each o m r states = .ok () (r', states')) :
    each o.noted m (r, calls) (states.zipIdx i) =
      .ok () ((r', calls ++ (List.range' i states.length).map (⟨·, m, none⟩)),
        states'.zipIdx i) := by
  induction states generalizing r states' calls i with
  | nil =>
    cases h
    simp [each]
  | cons s states ih =>
    unfold each at h
    split at h
    · cases h
    · rename_i u s' answered
      split at h
      · cases h
      · rename_i v states' told
        cases h
        simp [each, noted, answered, ih _ (i + 1) told, List.range'_succ]

theorem each_noted_error (calls : List Call) (i : Nat)
    (h : each o m r states = .error e (r', states')) :
    ∃ j < states.length, each o.noted m (r, calls) (states.zipIdx i) =
      .error e ((r', calls ++ (List.range' i j).map (⟨·, m, none⟩) ++ [⟨i + j, m, some e⟩]),
        states'.zipIdx i) := by
  induction states generalizing r states' calls i with
  | nil => cases h
  | cons s states ih =>
    unfold each at h
    split at h
    · rename_i e' u s' refused
      cases h
      exact ⟨0, by simp, by simp [each, noted, refused]⟩
    · rename_i u s' answered
      split at h
      · rename_i e' v states' told
        cases h
        obtain ⟨j, inside, noted'⟩ := ih (calls ++ [⟨i, m, none⟩]) (i + 1) told
        have place : i + 1 + j = i + (j + 1) := by omega
        rw [place] at noted'
        refine ⟨j + 1, by simpa using inside, ?_⟩
        simp [each, noted, answered, noted', List.range'_succ]
      · cases h

theorem tell_noted (calls : List Call)
    (h : (all o).tell ms (r, states) = .ok () (r', states')) :
    (all o.noted).tell ms ((r, calls), states.zipIdx) =
        .ok () ((r', calls ++ ms.flatMap (Call.round states.length)), states'.zipIdx) ∧
      states'.length = states.length := by
  induction ms generalizing r states calls with
  | nil =>
    cases h
    exact ⟨by simp [tell, pure, EStateM.pure], rfl⟩
  | cons m ms ih =>
    obtain ⟨⟨u, between⟩, first, further⟩ := tell_cons_eq_ok.mp h
    have first : each o m r states = .ok () (u, between) := first
    obtain ⟨told, length⟩ := ih (calls ++ Call.round states.length m) further
    have same := length_of_each first
    refine ⟨tell_cons_eq_ok.mpr
      ⟨((u, calls ++ Call.round states.length m), between.zipIdx), ?_, ?_⟩, length.trans same⟩
    · rw [Call.round, List.range_eq_range']
      exact each_noted calls 0 first
    · rw [told, same, List.flatMap_cons, List.append_assoc]

end Observer

namespace Control

variable {c c' : Configuration} {tokens : List Token} {n : Nat}

/-- The moves of a run without observers in its first steps. Acceptance is the last move. -/
def moves (t : Control) : Nat → Configuration → List Move
  | 0, _ => []
  | n + 1, c =>
    match t.step c with
    | .failed _ => []
    | .accepted q => [.accept q]
    | .next m c => m :: moves t n c

theorem moves_steps (h : t.Steps ms c c') (n : Nat) :
    t.moves (ms.length + n) c = ms ++ t.moves n c' := by
  induction h with
  | refl => simp
  | next first _ ih =>
    rw [List.length_cons, Nat.add_right_comm, moves, first, List.cons_append, ← ih]

theorem step_told (h : t.step c = .next m c') :
    (∃ a, m = .shift (t.state c.stack) a) ∨ ∃ p, m = .reduce (t.state c'.stack) p := by
  obtain ⟨a, rest, -, ⟨q, -, -, rfl⟩ | ⟨p, below, q, -, -, -, rfl, rfl⟩⟩ := step_next_cases h
  · exact Or.inl ⟨a, rfl⟩
  · exact Or.inr ⟨p, rfl⟩

def verdict {τ : Type} : EStateM.Result Error τ Unit → Except Error Unit
  | .ok () _ => .ok ()
  | .error e _ => .error e

def withCalls (calls : List Call) :
    EStateM.Result Error (ρ × List σ) Unit →
      EStateM.Result Error ((ρ × List Call) × List (σ × Nat)) Unit
  | .ok () (r, states) => .ok () ((r, calls), states.zipIdx)
  | .error e (r, states) => .error e ((r, calls), states.zipIdx)

/-- No observer refused a move: each of them was told the moves of the run without observers, every
move going to all of them in order before the next, and the result is that of that run. -/
def Heard (t : Control) (tokens : List Token) (count : Nat) (calls : List Call)
    (result : Except Error Unit) : Prop :=
  ∃ n bare, t.runFor Observer.silent n ⟨[], tokens⟩ () = some bare ∧ result = verdict bare ∧
    calls = (t.moves n ⟨[], tokens⟩).flatMap (Call.round count) ∧
    ∀ i < count, received i calls = t.moves n ⟨[], tokens⟩

/-- An observer refused a move of the run without observers, and its error is the result: the
observers up to that one were told the moves up to that one, and those behind it the moves
before. -/
def Refused (t : Control) (tokens : List Token) (count : Nat) (calls : List Call)
    (result : Except Error Unit) : Prop :=
  ∃ n told m j e, t.moves n ⟨[], tokens⟩ = told ++ [m] ∧ j < count ∧ result = .error e ∧
    calls = told.flatMap (Call.round count) ++ Call.round j m ++ [⟨j, m, some e⟩] ∧
    ∀ i < count, received i calls = if i ≤ j then told ++ [m] else told

theorem received_refused {i j count : Nat} (inside : i < count) (told : List Move) (m : Move)
    (refusal : Option Error) :
    received i (told.flatMap (Call.round count) ++ Call.round j m ++ [⟨j, m, refusal⟩]) =
      if i ≤ j then told ++ [m] else told := by
  rw [received_append, received_append, received_rounds inside, received_round]
  rcases Nat.lt_trichotomy i j with before | rfl | behind
  · have last : received i [⟨j, m, refusal⟩] = [] := by
      simp [received, Nat.ne_of_gt before]
    rw [if_pos before, if_pos (by omega), last, List.append_nil]
  · simp [received]
  · have last : received i [⟨j, m, refusal⟩] = [] := by
      simp [received, Nat.ne_of_lt behind]
    rw [if_neg (by omega), if_neg (by omega), last, List.append_nil, List.append_nil]

variable {u : ρ} {between : List σ}

theorem heard_of_steps {bare : EStateM.Result Error Unit Unit} {result : Except Error Unit}
    (ran : t.runFor Observer.silent n ⟨[], tokens⟩ () = some bare) (same : result = verdict bare)
    (moved : t.moves n ⟨[], tokens⟩ = ms) (count : Nat) :
    Heard t tokens count (ms.flatMap (Call.round count)) result := by
  subst moved
  exact ⟨n, bare, ran, same, rfl, fun i inside => received_rounds inside _⟩

theorem refused_of_steps (steps : t.Steps ms ⟨[], tokens⟩ c)
    (told : (Observer.all o).tell ms (r, states) = .ok () (u, between))
    (moved : t.moves 1 c = [m]) (refuses : Observer.all o m (u, between) = .error e (r', states')) :
    ∃ calls, Refused t tokens states.length calls (.error e) ∧
      t.runFor (Observer.all o.noted) (ms.length + 1) ⟨[], tokens⟩ ((r, []), states.zipIdx) =
        some (.error e ((r', calls), states'.zipIdx)) := by
  obtain ⟨noted, length⟩ := Observer.tell_noted [] told
  obtain ⟨j, inside, refused⟩ :=
    Observer.each_noted_error (ms.flatMap (Call.round states.length)) 0 refuses
  rw [Nat.zero_add, ← List.range_eq_range'] at refused
  rw [length] at inside
  have refused : Observer.all o.noted m
      ((u, ms.flatMap (Call.round states.length)), between.zipIdx) =
      .error e ((r', ms.flatMap (Call.round states.length) ++ Call.round j m ++ [⟨j, m, some e⟩]),
        states'.zipIdx) := refused
  refine ⟨ms.flatMap (Call.round states.length) ++ Call.round j m ++ [⟨j, m, some e⟩],
    ⟨ms.length + 1, ms, m, j, e, ?_, inside, rfl, rfl, ?_⟩, ?_⟩
  · rw [moves_steps steps, moved]
  · exact fun i inside => received_refused inside ms m (some e)
  · rw [runFor_steps steps noted, List.nil_append, runFor]
    cases last : t.step c with
    | failed e' => simp [moves, last] at moved
    | accepted q =>
      obtain rfl : .accept q = m := by simpa [moves, last] using moved
      exact congrArg some refused
    | next m' d =>
      obtain rfl : m' = m := by simpa [moves, last] using moved
      simp only [refused]

/-- Observers along a run, over any table and any tokens, whatever they do and share. A shift is
told with the state that it leaves, a reduction with the state that it enters. When the run returns,
its calls, as the same observers note them, are of one of two kinds. Either none is a refusal: then
every observer was told the moves of the run without observers, in the order of the moves and, for
each move, of the observers, and the run returns what that run returns. Or the last one is: then the
observers up to the one that refused were told the moves up to the one refused, the others the moves
before it, and the run returns that observer's error. -/
theorem returns_all {outcome : EStateM.Result Error (ρ × List σ) Unit}
    (returned : t.Returns (Observer.all o) tokens (r, states) outcome) :
    (∀ c m c', t.step c = .next m c' →
      (∃ a, m = .shift (t.state c.stack) a) ∨ ∃ p, m = .reduce (t.state c'.stack) p) ∧
    ∃ calls, t.Returns (Observer.all o.noted) tokens ((r, []), states.zipIdx)
        (withCalls calls outcome) ∧
      (Heard t tokens states.length calls (verdict outcome) ∨
        Refused t tokens states.length calls (verdict outcome)) := by
  refine ⟨fun c m c' => step_told, ?_⟩
  obtain ⟨n, ran⟩ := returned
  obtain ⟨ms, c, ⟨u, between⟩, steps, told, ends⟩ := runFor_cases ran
  have quiet : Observer.Quiet Observer.silent () := fun _ => rfl
  rcases ends with
    ⟨e, fails, rfl⟩ | ⟨q, accepts, rfl⟩ | ⟨m, d, e, ⟨r', states'⟩, next, refuses, rfl⟩
  · have moved : t.moves (ms.length + 1) ⟨[], tokens⟩ = ms := by
      rw [moves_steps steps]
      simp [moves, fails]
    have noted := (Observer.tell_noted [] told).1
    refine ⟨_, ⟨_, runFor_of_failed steps fails noted (Nat.lt_succ_self _)⟩, Or.inl ?_⟩
    exact heard_of_steps (runFor_of_failed steps fails (quiet.tell ms) (Nat.lt_succ_self _)) rfl
      moved states.length
  · have moved : t.moves (ms.length + 1) ⟨[], tokens⟩ = ms ++ [.accept q] := by
      rw [moves_steps steps]
      simp [moves, accepts]
    cases answer : Observer.all o (.accept q) (u, between) with
    | ok _ last =>
      have told : (Observer.all o).tell (ms ++ [.accept q]) (r, states) = .ok () last := by
        rw [Observer.tell_append told, Observer.tell_cons answer]
        rfl
      have noted := (Observer.tell_noted [] told).1
      refine ⟨_, ⟨_, runFor_of_accepted steps accepts noted (Nat.lt_succ_self _)⟩, Or.inl ?_⟩
      exact heard_of_steps
        (runFor_of_accepted steps accepts (quiet.tell _) (Nat.lt_succ_self _)) rfl moved
        states.length
    | error e last =>
      obtain ⟨calls, refused, ran⟩ :=
        refused_of_steps steps told (by simp [moves, accepts]) answer
      exact ⟨calls, ⟨_, ran⟩, Or.inr refused⟩
  · obtain ⟨calls, refused, ran⟩ := refused_of_steps steps told (by simp [moves, next]) refuses
    exact ⟨calls, ⟨_, ran⟩, Or.inr refused⟩

/-- Three recorders of a run that shifts, reduces and accepts, of whom the second refuses the
reduction. -/
theorem returns_all_second :
    let t : Control := {
      initial := 0
      action := fun
        | 0, _ => .shift 1
        | 1, _ => .reduce ⟨1, .declarator, [.terminal .intWord]⟩
        | _, _ => .accept
      goto := fun _ _ => some 2 }
    let tokens : List Token := [⟨.intWord, "int", 1, 1⟩, ⟨.endOfInput, "", 1, 4⟩]
    let recorders : List Recorder :=
      [⟨"a", none, 0, true⟩, ⟨"b", some 2, 0, true⟩, ⟨"c", none, 0, true⟩]
    ∃ outcome calls, t.Returns (Observer.all Recorder.observe) tokens ([], recorders) outcome ∧
      t.Returns (Observer.all Recorder.observe.noted) tokens (([], []), recorders.zipIdx)
        (withCalls calls outcome) ∧
      Refused t tokens 3 calls (.error (.invariant (.refused "b"))) := by
  intro t tokens recorders
  have returned : t.Returns (Observer.all Recorder.observe) tokens ([], recorders)
      (.error (.invariant (.refused "b")) _) := ⟨2, rfl⟩
  obtain ⟨-, calls, noted, ⟨n, bare, ran, same, -⟩ | refused⟩ := returns_all returned
  · have accepts : t.runFor Observer.silent 3 ⟨[], tokens⟩ () = some (.ok () ()) := rfl
    have long := runFor_of_le t _ ran (Nat.le_max_left n 3)
    have long' := runFor_of_le t _ accepts (Nat.le_max_right n 3)
    cases long.symm.trans long'
    cases same
  · exact ⟨_, calls, returned, noted, refused⟩

end Control

end Straightline
