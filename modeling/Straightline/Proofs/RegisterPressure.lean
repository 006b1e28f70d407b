import Mathlib.Combinatorics.Enumerative.DoubleCounting
import Straightline.Proofs.Generation
import Straightline.Proofs.NormalShape

/-!
# When the registers run out

Code for instructions of normal shape fails for one reason only: a variable that has no register yet
is asked for while every register holds a variable that is asked for again. Who holds a register
depends on the requests so far. That all of them are held by such variables does not: it is a
condition on the list of requests (`Registers.Pressed`), namely that there are as many variables
asked for before and after as there are registers.
-/
namespace Straightline

namespace Registers

variable {r r' : Registers} {v w : Variable} {q : String} {before ahead : List Variable}

/-! ### Requests in sequence -/

def serve (r : Registers) : List Variable → Except Error Registers
  | [] => .ok r
  | v :: rest =>
    match r.resolve v with
    | .error e => .error e
    | .ok (_, r') => r'.serve rest

theorem serve_append (r : Registers) (first second : List Variable) :
    r.serve (first ++ second) = (r.serve first).bind (·.serve second) := by
  induction first generalizing r with
  | nil => rfl
  | cons v first ih =>
    rw [List.cons_append, serve, serve]
    cases r.resolve v with
    | error e => rfl
    | ok got => exact ih got.2

theorem resolve_capacity (h : r.resolve v = .ok (q, r')) : r'.capacity = r.capacity := by
  simpa [capacity] using congrArg List.length (resolve_registers h)

theorem resolve_of_slot?_eq_none (named : v ≠ .named "") (used : r.usage.getD v 0 ≠ 0)
    (full : r.slot? v = none) : r.resolve v = .error (.registersExhausted v r.capacity) := by
  obtain ⟨left, uses⟩ := Nat.exists_eq_succ_of_ne_zero used
  simp [resolve, named, uses, full]

theorem exists_resolve (named : v ≠ .named "") (used : r.usage.getD v 0 ≠ 0)
    {n : Fin r.slots.length} (slot : r.slot? v = some n) : ∃ q r', r.resolve v = .ok (q, r') := by
  obtain ⟨left, uses⟩ := Nat.exists_eq_succ_of_ne_zero used
  simp [resolve, named, uses, slot]

theorem slot?_eq_none_iff :
    r.slot? v = none ↔
      ∀ s ∈ r.slots, ∃ w, s.occupant = some w ∧ w ≠ v ∧ r.usage.getD w 0 ≠ 0 := by
  simp only [slot?, Option.orElse_eq_orElse, Option.orElse_eq_or, Option.or_eq_none_iff,
    List.findFinIdx?_eq_none_iff]
  constructor
  · rintro ⟨other, occupied, alive⟩ s hs
    cases occupant : s.occupant with
    | none => simpa [occupant] using occupied s hs
    | some w =>
      refine ⟨w, rfl, ?_, ?_⟩
      · simpa [occupant] using other s hs
      · simpa [isDead, occupant] using alive s hs
  · intro full
    refine ⟨?_, ?_, ?_⟩
    · intro s hs
      obtain ⟨w, occupant, other, -⟩ := full s hs
      simpa [occupant] using other
    · intro s hs
      obtain ⟨w, occupant, -⟩ := full s hs
      simp [occupant]
    · intro s hs
      obtain ⟨w, occupant, -, alive⟩ := full s hs
      simpa [isDead, occupant] using alive

theorem Sound.card_registers (sound : r.Sound) :
    (r.slots.map (·.register)).toFinset.card = r.capacity := by
  rw [List.toFinset_card_of_nodup sound.distinct, List.length_map, capacity]

/-! ### What the requests so far leave -/

/-- Registers after some requests: the uses left are the occurrences ahead, whoever was asked for
and is asked for again has a register, and no one else was given one. -/
structure Serves (r : Registers) (before ahead : List Variable) : Prop where
  sound : r.Sound
  uses : ∀ v, r.usage.getD v 0 = ahead.count v
  held : ∀ v ∈ before, v ∈ ahead → ∃ q, r.Holds q v
  asked : ∀ q v, r.Holds q v → v ∈ before

namespace Serves

theorem used_iff (h : r.Serves before ahead) : r.usage.getD v 0 ≠ 0 ↔ v ∈ ahead := by
  rw [h.uses v, Nat.ne_zero_iff_zero_lt, List.count_pos_iff]

theorem resolve (h : r.Serves before (v :: ahead)) (hr : r.resolve v = .ok (q, r')) :
    r'.Serves (before ++ [v]) ahead := by
  refine ⟨h.sound.resolve hr, resolve_count hr h.uses, ?_, ?_⟩
  · intro w hw live
    rcases List.mem_append.mp hw with old | new
    · have live := List.mem_cons_of_mem v live
      obtain ⟨p, hp⟩ := h.held w old live
      exact ⟨p, holds_resolve_of_live h.sound hr hp (h.used_iff.mpr live)⟩
    · obtain rfl := List.mem_singleton.mp new
      exact ⟨q, holds_of_resolve h.sound hr⟩
  · intro p w hp
    rw [holds_resolve h.sound hr] at hp
    rw [List.mem_append]
    split at hp
    · exact Or.inr (List.mem_singleton.mpr hp)
    · exact Or.inl (h.asked p w hp)

theorem capacity_le_of_slot?_eq_none (h : r.Serves before (v :: ahead)) (full : r.slot? v = none) :
    r.capacity ≤ (before.toFinset ∩ ahead.toFinset).card := by
  rw [← h.sound.card_registers]
  -- Each register is held by such a variable, and no two by the same one.
  refine Finset.card_le_card_of_forall_subsingleton r.Holds ?_ ?_
  · intro q hq
    obtain ⟨s, hs, rfl⟩ := List.mem_map.mp (List.mem_toFinset.mp hq)
    obtain ⟨w, occupant, other, alive⟩ := slot?_eq_none_iff.mp full s hs
    have holds : r.Holds s.register w := by rwa [Holds, ← occupant]
    have again := (List.mem_cons.mp (h.used_iff.mp alive)).resolve_left other
    have old := h.asked _ w holds
    exact ⟨w, by simp [old, again], holds⟩
  · rintro w - p ⟨-, hp⟩ q ⟨-, hq⟩
    exact h.sound.unique w p q hp hq

theorem card_lt_of_slot?_eq_some (h : r.Serves before (v :: ahead)) (fresh : v ∉ before)
    {n : Fin r.slots.length} (slot : r.slot? v = some n) :
    (before.toFinset ∩ ahead.toFinset).card < r.capacity := by
  have here : r.slots.get n ∈ r.slots := List.getElem_mem n.isLt
  rw [← h.sound.card_registers]
  -- Each such variable has a register of its own, and none has the one that is given away.
  refine lt_of_le_of_lt (Finset.card_le_card_of_forall_subsingleton (fun w q => r.Holds q w) ?_ ?_)
    (Finset.card_erase_lt_of_mem (List.mem_toFinset.mpr (List.mem_map_of_mem here)))
  · intro w hw
    obtain ⟨old, again⟩ : w ∈ before ∧ w ∈ ahead := by simpa using hw
    have again := List.mem_cons_of_mem v again
    obtain ⟨q, hq⟩ := h.held w old again
    refine ⟨q, Finset.mem_erase.mpr ⟨?_, List.mem_toFinset.mpr (List.mem_map_of_mem hq)⟩, hq⟩
    rintro rfl
    have occupant : (r.slots.get n).occupant = some w := by rw [h.sound.slot_eq here hq rfl]
    rcases slot?_cases slot with own | ⟨-, dead⟩
    · exact fresh (h.asked _ v (by rwa [Holds, ← own]))
    · exact h.used_iff.mpr again (dead w occupant)
  · rintro q - w ⟨-, hw⟩ u ⟨-, hu⟩
    exact h.sound.occupant_eq hw hu

/-- There is no slot exactly for a variable that was not asked for before, when the variables that
were and are asked for again are as many as the registers. -/
theorem slot?_eq_none_iff (h : r.Serves before (v :: ahead)) :
    r.slot? v = none ↔
      v ∉ before ∧ r.capacity ≤ (before.toFinset ∩ ahead.toFinset).card := by
  constructor
  · intro full
    refine ⟨?_, h.capacity_le_of_slot?_eq_none full⟩
    intro old
    obtain ⟨q, hq⟩ := h.held v old List.mem_cons_self
    obtain ⟨w, occupant, other, -⟩ := Registers.slot?_eq_none_iff.mp full _ hq
    exact other (Option.some.inj occupant).symm
  · rintro ⟨fresh, many⟩
    cases slot : r.slot? v with
    | none => rfl
    | some n => exact absurd many (Nat.not_le.mpr (h.card_lt_of_slot?_eq_some fresh slot))

end Serves

/-! ### The pressure of a list of requests -/

/-- A request that cannot be served by so many registers: for a variable that was not asked for
before, when at least as many others were asked for before and are asked for again after it. -/
structure Pressed (capacity : Nat) (requests : List Variable) (k : Nat) (v : Variable) : Prop where
  here : requests[k]? = some v
  fresh : v ∉ requests.take k
  full : capacity ≤ ((requests.take k).toFinset ∩ (requests.drop (k + 1)).toFinset).card

instance (capacity : Nat) (requests : List Variable) (k : Nat) (v : Variable) :
    Decidable (Pressed capacity requests k v) :=
  decidable_of_iff (_ ∧ _ ∧ _)
    ⟨fun ⟨here, fresh, full⟩ => ⟨here, fresh, full⟩, fun ⟨here, fresh, full⟩ => ⟨here, fresh, full⟩⟩

theorem pressed_length_iff {capacity : Nat} :
    Pressed capacity (before ++ v :: ahead) before.length w ↔
      w = v ∧ v ∉ before ∧ capacity ≤ (before.toFinset ∩ ahead.toFinset).card := by
  constructor
  · rintro ⟨here, fresh, full⟩
    obtain rfl : v = w := by simpa using here
    exact ⟨rfl, by simpa using fresh, by simpa using full⟩
  · rintro ⟨rfl, fresh, full⟩
    exact ⟨by simp, by simpa using fresh, by simpa using full⟩

theorem Serves.serve (h : r.Serves before ahead) (named : ∀ v ∈ ahead, v ≠ .named "") :
    (∃ r', r.serve ahead = .ok r' ∧
      ∀ k v, before.length ≤ k → ¬ Pressed r.capacity (before ++ ahead) k v) ∨
    ∃ k v, Pressed r.capacity (before ++ ahead) k v ∧
      (∀ j w, before.length ≤ j → j < k → ¬ Pressed r.capacity (before ++ ahead) j w) ∧
      r.serve ahead = .error (.registersExhausted v r.capacity) := by
  induction ahead generalizing r before with
  | nil =>
    refine Or.inl ⟨r, rfl, ?_⟩
    rintro k v hk ⟨here, -, -⟩
    simp [List.getElem?_eq_none hk] at here
  | cons v ahead ih =>
    have proper := named v List.mem_cons_self
    have used := h.used_iff.mpr (List.mem_cons_self (a := v) (l := ahead))
    have first (w : Variable) : Pressed r.capacity (before ++ v :: ahead) before.length w ↔
        w = v ∧ r.slot? v = none := by
      rw [pressed_length_iff, h.slot?_eq_none_iff]
    cases slot : r.slot? v with
    | none =>
      refine Or.inr ⟨before.length, v, (first v).mpr ⟨rfl, slot⟩, ?_, ?_⟩
      · intro j w hj early
        omega
      · simp only [Registers.serve, resolve_of_slot?_eq_none proper used slot]
    | some n =>
      obtain ⟨q, r', hr⟩ := exists_resolve proper used slot
      have served := h.resolve hr
      have step : r.serve (v :: ahead) = r'.serve ahead := by simp only [Registers.serve, hr]
      have here (k : Nat) (w : Variable) (hk : before.length ≤ k)
          (pressed : Pressed r.capacity (before ++ v :: ahead) k w) :
          (before ++ [v]).length ≤ k := by
        rcases Nat.eq_or_lt_of_le hk with rfl | later
        · have := ((first w).mp pressed).2
          rw [slot] at this
          cases this
        · rwa [List.length_append]
      have := ih served fun w hw => named w (List.mem_cons_of_mem v hw)
      rw [resolve_capacity hr, List.append_assoc, List.singleton_append, ← step] at this
      rcases this with ⟨r'', ok, calm⟩ | ⟨k, w, pressed, calm, failed⟩
      · refine Or.inl ⟨r'', ok, ?_⟩
        intro k w hk pressed
        exact calm k w (here k w hk pressed) pressed
      · refine Or.inr ⟨k, w, pressed, ?_, failed⟩
        intro j u hj early again
        exact calm j u (here j u hj again) early again

theorem serves_ofNames {names : List String} {instructions : List Instruction}
    (h : ofNames names (.ofInstructions instructions) = .ok r) :
    r.Serves [] (instructions.flatMap (·.occurrences)) := by
  refine ⟨sound_ofNames h, ?_, ?_, ?_⟩
  · obtain ⟨-, -, rfl⟩ := ofNames_cases h
    exact Usage.getD_ofInstructions instructions
  · intro v hv
    cases hv
  · intro q v hq
    exact absurd hq (not_holds_ofNames h q v)

end Registers

namespace Target

variable {t : Target} {i : Instruction} {instructions : List Instruction} {r : Registers}

/-! ### Code as a list of requests -/

/-- A computation that makes requests for given variables and fails only where one of them does. -/
def Asks {α : Type} (g : Generator α) (requests : List Variable) : Prop :=
  ∀ r, (g r).map (·.2) = r.serve requests

theorem Asks.pure {α : Type} (a : α) : Asks (pure a) [] := fun _ => rfl

theorem Asks.register {α : Type} {v : Variable} {f : String → Generator α}
    {requests : List Variable} (h : ∀ q, Asks (f q) requests) :
    Asks (Target.register v >>= f) (v :: requests) := by
  intro r
  simp only [bind, StateT.bind, Target.register, Registers.serve, Except.bind]
  cases r.resolve v with
  | error e => rfl
  | ok got => exact h got.1 got.2

theorem asks_code (normal : i.isNormal = true) : Asks (t.code i) i.occurrences := by
  cases i with
  | move dest src =>
    cases src with
    | imm n => exact .register fun _ => .pure _
    | var v => exact .register fun _ => .register fun _ => .pure _
  | ret value =>
    cases value with
    | imm n => exact .pure _
    | var v => exact .register fun _ => .pure _
  | binary op dest lhs rhs =>
    cases lhs with
    | imm n => cases op <;> cases normal
    | var v =>
      cases rhs with
      | var w =>
        cases op <;> exact .register fun _ => .register fun _ => .register fun _ => .pure _
      | imm n =>
        cases op with
        | add =>
          have fits : fitsSum n = true := normal
          refine .register fun _ => .register fun _ => ?_
          rw [if_pos fits]
          exact .pure _
        | sub => cases normal
        | mul => cases normal

theorem asks_line (normal : i.isNormal = true) : Asks (t.line i) i.occurrences := by
  intro r
  rw [← asks_code normal (t := t) r]
  simp only [line, bind, StateT.bind, Except.bind]
  cases t.code i r <;> rfl

/-- Instructions of normal shape have code exactly where the requests for their variables are
served, and then one line each. -/
theorem generate_length (normal : Instruction.NormalForm instructions) (r : Registers) :
    (t.generate instructions r).map (·.lines.length) =
      (r.serve (instructions.flatMap (·.occurrences))).map fun _ => instructions.length := by
  induction instructions generalizing r with
  | nil => rfl
  | cons i rest ih =>
    obtain ⟨first, further⟩ := normal
    have asked := asks_line first (t := t) r
    rw [generate, linesOnto, List.flatMap_cons, Registers.serve_append, ← asked]
    cases t.line i r with
    | error e => rfl
    | ok got =>
      obtain ⟨l, r'⟩ := got
      dsimp only [Except.map, Except.bind]
      by_cases returns : i.isReturn = true
      · rw [if_pos returns] at further
        subst further
        rw [if_pos returns]
        rfl
      · rw [if_neg returns] at further
        rw [if_neg returns, linesOnto_eq]
        have := ih further r'
        cases made : t.generate rest r' <;>
          cases served : r'.serve (rest.flatMap (·.occurrences)) <;>
          simp_all [Except.map]

/-- From free registers, either no request is pressed and each instruction gets its line, or the
first that is pressed is reported. -/
theorem generate_cases {names : List String} (t : Target)
    (normal : Instruction.NormalForm instructions)
    (named : ∀ v ∈ instructions.flatMap (·.occurrences), v ≠ .named "")
    (allocated : Registers.ofNames names (.ofInstructions instructions) = .ok r) :
    let requests := instructions.flatMap (·.occurrences)
    (∃ a, t.generate instructions r = .ok a ∧ a.lines.length = instructions.length ∧
      ∀ k v, ¬ Registers.Pressed names.length requests k v) ∨
    ∃ k v, Registers.Pressed names.length requests k v ∧
      (∀ j w, j < k → ¬ Registers.Pressed names.length requests j w) ∧
      t.generate instructions r = .error (.registersExhausted v names.length) := by
  intro requests
  have capacity : r.capacity = names.length := by
    rw [← Registers.registers_ofNames allocated, List.length_map, Registers.capacity]
  have lines := generate_length (t := t) normal r
  have served := (Registers.serves_ofNames allocated).serve named
  rw [capacity, List.nil_append] at served
  rcases served with ⟨r', ok, calm⟩ | ⟨k, v, pressed, calm, failed⟩
  · rw [ok] at lines
    cases made : t.generate instructions r with
    | error e => simp [made, Except.map] at lines
    | ok a =>
      refine Or.inl ⟨a, rfl, by simpa [made, Except.map] using lines, ?_⟩
      intro k v
      exact calm k v (Nat.zero_le k)
  · rw [failed] at lines
    cases made : t.generate instructions r with
    | ok a => simp [made, Except.map] at lines
    | error e =>
      have same : e = .registersExhausted v names.length := by simpa [made, Except.map] using lines
      refine Or.inr ⟨k, v, pressed, ?_, by rw [same]⟩
      intro j w early
      exact calm j w (Nat.zero_le j) early

/-- Registers run out exactly under pressure. Code for instructions of normal shape fails if and
only if some request for a variable is pressed, the first such request is what the error reports,
and otherwise each instruction gets its line. -/
theorem generate_under_pressure (t : Target) {names : List String}
    {instructions : List Instruction} (nonempty : names ≠ []) (distinct : names.Nodup)
    (normal : Instruction.NormalForm instructions)
    (named : ∀ v ∈ instructions.flatMap (·.occurrences), v ≠ .named "") :
    let requests := instructions.flatMap (·.occurrences)
    ∃ r, Registers.ofNames names (.ofInstructions instructions) = .ok r ∧
      ((∃ e, t.generate instructions r = .error e) ↔
        ∃ k v, Registers.Pressed names.length requests k v) ∧
      (∀ k v, Registers.Pressed names.length requests k v →
        (∀ j w, j < k → ¬ Registers.Pressed names.length requests j w) →
        t.generate instructions r = .error (.registersExhausted v names.length)) ∧
      ((¬ ∃ k v, Registers.Pressed names.length requests k v) →
        ∃ a, t.generate instructions r = .ok a ∧ a.lines.length = instructions.length) := by
  intro requests
  have allocated := Registers.ofNames_of_nodup nonempty distinct (.ofInstructions instructions)
  refine ⟨_, allocated, ?_⟩
  rcases generate_cases t normal named allocated with
    ⟨a, made, lines, calm⟩ | ⟨k, v, pressed, calm, failed⟩
  · refine ⟨⟨?_, ?_⟩, ?_, ?_⟩
    · rintro ⟨e, failed⟩
      rw [made] at failed
      cases failed
    · rintro ⟨k, v, pressed⟩
      exact absurd pressed (calm k v)
    · intro k v pressed
      exact absurd pressed (calm k v)
    · intro _
      exact ⟨a, made, lines⟩
  · refine ⟨⟨?_, ?_⟩, ?_, ?_⟩
    · intro _
      exact ⟨k, v, pressed⟩
    · intro _
      exact ⟨_, failed⟩
    · intro j w first least
      -- Two least positions are one, and hold one variable.
      have same : j = k := by
        rcases Nat.lt_trichotomy j k with early | same | late
        · exact absurd first (calm j w early)
        · exact same
        · exact absurd pressed (least k v late)
      subst same
      have same := first.here.symm.trans pressed.here
      rw [failed, Option.some.inj same]
    · intro calm
      exact absurd ⟨k, v, pressed⟩ calm

/-- Three variables are needed at once and there are two registers: the third to be set finds both
of them held. -/
theorem generate_under_pressure_three :
    let instructions : List Instruction :=
      [.move (.named "a") (.imm 1), .move (.named "b") (.imm 2), .move (.named "c") (.imm 3),
        .binary .add (.temp 0) (.var (.named "a")) (.var (.named "b")),
        .binary .mul (.temp 1) (.var (.temp 0)) (.var (.named "c")), .ret (.var (.temp 1))]
    let requests := instructions.flatMap (·.occurrences)
    Instruction.NormalForm instructions ∧ (∀ v ∈ requests, v ≠ .named "") ∧
      Registers.Pressed 2 requests 2 (.named "c") ∧
      ∃ r, Registers.ofNames ["t0", "t1"] (.ofInstructions instructions) = .ok r ∧
        Target.generate ⟨"a0", false⟩ instructions r =
          .error (.registersExhausted (.named "c") 2) := by
  intro instructions requests
  have normal : Instruction.NormalForm instructions := by decide
  have named : ∀ v ∈ requests, v ≠ .named "" := by decide
  have pressed : Registers.Pressed 2 requests 2 (.named "c") := by decide
  have calm : ∀ j w, j < 2 → ¬ Registers.Pressed 2 requests j w := by
    rintro j w early ⟨here, fresh, full⟩
    have : j = 0 ∨ j = 1 := by omega
    rcases this with rfl | rfl <;> revert full <;> decide
  obtain ⟨r, allocated, -, least, -⟩ :=
    @generate_under_pressure ⟨"a0", false⟩ ["t0", "t1"] instructions (by decide) (by decide) normal
      named
  exact ⟨normal, named, pressed, r, allocated, least 2 _ pressed calm⟩

end Target

end Straightline
