import Straightline.Proofs.RegisterPressure
import Straightline.Proofs.Sequencing

/-!
# Registers after any requests

Registers stay in use when a request is refused. Whatever was asked for before, no variable has two
registers, a request that is served takes one use of its variable and changes one register at most,
and a variable is given the same register each time: while it has uses left nobody else is given
that register, and after its last use it is refused.
-/
namespace Straightline

namespace Registers

variable {r r' : Registers} {v w : Variable} {p q : String} {e : Error} {names : List String}

/-! ### One request -/

theorem request_eq_ok_iff : request v r = .ok q r' ↔ r.resolve v = .ok (q, r') := by
  unfold request
  cases r.resolve v with
  | error e => simp
  | ok got => cases got; simp

theorem eq_of_request_eq_error (h : request v r = .error e r') : r' = r := by
  unfold request at h
  split at h
  · cases h
    rfl
  · cases h

def occupant? (r : Registers) (q : String) : Option Variable :=
  (r.slots.find? (·.register == q)).bind (·.occupant)

theorem Sound.occupant?_eq_some_iff (sound : r.Sound) : r.occupant? q = some v ↔ r.Holds q v := by
  unfold occupant?
  constructor
  · intro h
    obtain ⟨s, found, occupant⟩ := Option.bind_eq_some_iff.mp h
    have register : s.register = q := by simpa using List.find?_some found
    rw [Holds, ← register, ← occupant]
    exact List.mem_of_find?_eq_some found
  · intro h
    cases found : r.slots.find? (·.register == q) with
    | none => simpa using List.find?_eq_none.mp found _ h
    | some s =>
      have register : s.register = q := by simpa using List.find?_some found
      rw [sound.slot_eq (List.mem_of_find?_eq_some found) h register]
      rfl

/-- The changes that serving a request makes: one use of the variable is gone, and its register is
the only one with a new occupant, if any, the old one having no use left. -/
structure Grants (r r' : Registers) (v : Variable) (q : String) : Prop where
  used : ∃ left, r.usage? v = some (left + 1) ∧ r'.usage? v = some left
  others : ∀ w, w ≠ v → r'.usage? w = r.usage? w
  bound : r'.occupant? q = some v
  elsewhere : ∀ p, p ≠ q → r'.occupant? p = r.occupant? p
  spent : ∀ w, r.occupant? q = some w → w ≠ v → r.usage? w = some 0

theorem usage?_of_getD {n : Nat} (h : r.usage.getD v 0 = n + 1) : r.usage? v = some (n + 1) := by
  rw [Std.TreeMap.getD_eq_getD_getElem?] at h
  unfold usage?
  cases counter : r.usage[v]? with
  | none => simp [counter] at h
  | some m => simpa [counter] using h

theorem getD_of_usage? {n : Nat} (h : r.usage? v = some n) : r.usage.getD v 0 = n := by
  rw [Std.TreeMap.getD_eq_getD_getElem?, ← usage?, h]
  rfl

/-! ### Registers in use -/

/-- Registers with given names, each of them free or occupied by a variable that is counted. -/
structure InUse (names : List String) (r : Registers) : Prop where
  sound : r.Sound
  registers : r.slots.map (·.register) = names
  counted : ∀ q v, r.Holds q v → ∃ n, r.usage? v = some n

namespace InUse

theorem usage?_eq_zero (h : InUse names r) (holds : r.Holds q v) (spent : r.usage.getD v 0 = 0) :
    r.usage? v = some 0 := by
  obtain ⟨n, counter⟩ := h.counted q v holds
  rw [counter, ← spent, getD_of_usage? counter]

theorem grants (h : InUse names r) (served : r.resolve v = .ok (q, r')) : Grants r r' v q := by
  have sound := h.sound.resolve served
  refine ⟨?_, ?_, ?_, ?_, ?_⟩
  · obtain ⟨n, left, -, uses, -, rfl⟩ := resolve_cases served
    exact ⟨left, usage?_of_getD uses, by simp [usage?]⟩
  · intro w other
    obtain ⟨n, left, -, -, -, rfl⟩ := resolve_cases served
    simp [usage?, Std.TreeMap.getElem?_insert, other.symm]
  · exact sound.occupant?_eq_some_iff.mpr (holds_of_resolve h.sound served)
  · intro p other
    apply Option.ext
    intro w
    rw [sound.occupant?_eq_some_iff, h.sound.occupant?_eq_some_iff, holds_resolve h.sound served,
      if_neg other]
  · intro w occupied other
    have holds := h.sound.occupant?_eq_some_iff.mp occupied
    exact h.usage?_eq_zero holds (dead_of_resolve h.sound served holds other)

theorem resolve (h : InUse names r) (served : r.resolve v = .ok (q, r')) : InUse names r' := by
  refine ⟨h.sound.resolve served, (resolve_registers served).trans h.registers, ?_⟩
  intro p w holds
  have granted := h.grants served
  by_cases same : w = v
  · subst same
    obtain ⟨left, -, counter⟩ := granted.used
    exact ⟨left, counter⟩
  · rw [holds_resolve h.sound served] at holds
    split at holds
    · exact absurd holds same
    · rw [granted.others w same]
      exact h.counted p w holds

/-- A request is served when the variable has a use left and there is a register that it has, that
is free, or whose occupant has no use left. -/
theorem exists_request_iff (h : InUse names r) :
    (∃ q r', request v r = .ok q r') ↔
      v ≠ .named "" ∧ (∃ left, r.usage? v = some (left + 1)) ∧
        ∃ q ∈ names, ∀ w, r.occupant? q = some w → w = v ∨ r.usage? w = some 0 := by
  constructor
  · rintro ⟨q, r', served⟩
    have served := request_eq_ok_iff.mp served
    have granted := h.grants served
    obtain ⟨left, used, -⟩ := granted.used
    have named : v ≠ .named "" := by
      rintro rfl
      simp [Registers.resolve] at served
    have listed : q ∈ names := by
      have here := holds_of_resolve h.sound served
      rw [← (h.resolve served).registers]
      exact List.mem_map_of_mem here
    refine ⟨named, ⟨left, used⟩, q, listed, ?_⟩
    intro w occupied
    by_cases same : w = v
    · exact Or.inl same
    · exact Or.inr (granted.spent w occupied same)
  · rintro ⟨named, ⟨left, used⟩, q, listed, available⟩
    have uses : r.usage.getD v 0 ≠ 0 := by simp [getD_of_usage? used]
    cases slot : r.slot? v with
    | some n =>
      obtain ⟨q, r', served⟩ := exists_resolve named uses slot
      exact ⟨q, r', request_eq_ok_iff.mpr served⟩
    | none =>
      rw [← h.registers] at listed
      obtain ⟨s, hs, rfl⟩ := List.mem_map.mp listed
      obtain ⟨w, occupant, other, alive⟩ := slot?_eq_none_iff.mp slot s hs
      have holds : r.Holds s.register w := by rwa [Holds, ← occupant]
      rcases available w (h.sound.occupant?_eq_some_iff.mpr holds) with same | spent
      · exact absurd same other
      · exact absurd (getD_of_usage? spent) alive

theorem request (h : InUse names r) (v : Variable) : InUse names (stateOf (request v r)) := by
  cases answered : Registers.request v r with
  | ok q r' => exact h.resolve (request_eq_ok_iff.mp answered)
  | error e r' =>
    obtain rfl := eq_of_request_eq_error answered
    exact h

end InUse

theorem inUse_ofNames {usage : Usage} (h : ofNames names usage = .ok r) : InUse names r := by
  refine ⟨sound_ofNames h, registers_ofNames h, ?_⟩
  intro q v holds
  exact absurd holds (not_holds_ofNames h q v)

/-! ### Requests one after another -/

def after (r : Registers) (requests : List Variable) : Registers :=
  requests.foldl (fun r v => stateOf (request v r)) r

theorem InUse.after (h : InUse names r) (requests : List Variable) :
    InUse names (r.after requests) := by
  unfold Registers.after
  induction requests generalizing r with
  | nil => exact h
  | cons v rest ih => exact ih (h.request v)

/-- A register that nobody else has while a variable has uses left. -/
def Reserves (r : Registers) (q : String) (v : Variable) : Prop :=
  r.Holds q v ∨ r.usage.getD v 0 = 0

theorem Reserves.resolve (reserved : r.Reserves q v) (sound : r.Sound)
    (served : r.resolve w = .ok (p, r')) : r'.Reserves q v := by
  have uses := resolve_usage served v
  rcases reserved with holds | spent
  · by_cases live : r.usage.getD v 0 = 0
    · right
      omega
    · left
      exact holds_resolve_of_live sound served holds live
  · right
    omega

theorem Reserves.request (reserved : r.Reserves q v) (sound : r.Sound) (w : Variable) :
    (stateOf (Registers.request w r)).Reserves q v := by
  cases answered : Registers.request w r with
  | ok p r' => exact reserved.resolve sound (request_eq_ok_iff.mp answered)
  | error e r' =>
    obtain rfl := eq_of_request_eq_error answered
    exact reserved

theorem Reserves.after (reserved : r.Reserves q v) (h : InUse names r)
    (requests : List Variable) : (r.after requests).Reserves q v := by
  unfold Registers.after
  induction requests generalizing r with
  | nil => exact reserved
  | cons w rest ih => exact ih (reserved.request h.sound w) (h.request w)

theorem Reserves.eq_of_resolve (reserved : r.Reserves q v) (sound : r.Sound)
    (served : r.resolve v = .ok (p, r')) : p = q := by
  rcases reserved with holds | spent
  · exact (eq_of_resolve_of_holds sound served holds).symm
  · obtain ⟨n, left, -, uses, -, -⟩ := resolve_cases served
    omega

/-- Registers over any history. However they were asked before, no variable has two registers, a
request is served exactly when there is a use left and a register to be had, serving it makes the
changes of `Grants` and later requests for the variable get the same register, and refusing it
changes nothing. -/
theorem ofNames_history {names : List String} (nonempty : names ≠ []) (distinct : names.Nodup)
    (usage : Usage) :
    ∃ r, ofNames names usage = .ok r ∧ ∀ before : List Variable,
      let s := r.after before
      (∀ v p q, s.occupant? p = some v → s.occupant? q = some v → p = q) ∧
      (∀ v, (∃ q s', request v s = .ok q s') ↔
        v ≠ .named "" ∧ (∃ left, s.usage? v = some (left + 1)) ∧
          ∃ q ∈ names, ∀ w, s.occupant? q = some w → w = v ∨ s.usage? w = some 0) ∧
      (∀ v q s', request v s = .ok q s' → Grants s s' v q ∧
        ∀ between p s'', request v (s'.after between) = .ok p s'' → p = q) ∧
      ∀ v e s', request v s = .error e s' → s' = s := by
  have made := ofNames_of_nodup nonempty distinct usage
  refine ⟨_, made, ?_⟩
  intro before s
  have inUse : InUse names s := (inUse_ofNames made).after before
  refine ⟨?_, fun v => inUse.exists_request_iff, ?_, fun v e s' => eq_of_request_eq_error⟩
  · intro v p q hp hq
    rw [inUse.sound.occupant?_eq_some_iff] at hp hq
    exact inUse.sound.unique v p q hp hq
  · intro v q s' answered
    have served := request_eq_ok_iff.mp answered
    refine ⟨inUse.grants served, ?_⟩
    intro between p s'' again
    have first : s'.Reserves q v := Or.inl (holds_of_resolve inUse.sound served)
    have later := inUse.resolve served
    exact (first.after later between).eq_of_resolve (later.after between).sound
      (request_eq_ok_iff.mp again)

/-- One register for two variables, and a third that is not counted: after a refusal the register is
taken from the first variable, which is spent, and stays with the second. -/
theorem ofNames_history_evicting :
    let usage : Usage := .ofList [(.temp 0, 1), (.temp 1, 2)] compare
    let r : Registers := ⟨[⟨"t0", none⟩], usage⟩
    let s := r.after [.temp 0, .temp 2]
    let s' := s.after [.temp 1]
    ["t0"] ≠ [] ∧ ["t0"].Nodup ∧ ofNames ["t0"] usage = .ok r ∧
      s.occupant? "t0" = some (.temp 0) ∧ request (.temp 1) s = .ok "t0" s' ∧
      Grants s s' (.temp 1) "t0" ∧
      ∃ s'', request (.temp 1) (s'.after [.temp 0]) = .ok "t0" s'' := by
  intro usage r s s'
  have nonempty : ["t0"] ≠ [] := by decide
  have distinct : ["t0"].Nodup := by decide
  obtain ⟨r', made, history⟩ := ofNames_history nonempty distinct usage
  obtain rfl : r = r' := Except.ok.inj made
  have first : request (.temp 1) s = .ok "t0" s' := rfl
  obtain ⟨granted, same⟩ := (history [.temp 0, .temp 2]).2.2.1 (.temp 1) "t0" s' first
  obtain ⟨p, s'', again⟩ : ∃ p s'', request (.temp 1) (s'.after [.temp 0]) = .ok p s'' :=
    ⟨_, _, rfl⟩
  obtain rfl := same [.temp 0] p s'' again
  exact ⟨nonempty, distinct, made, rfl, first, granted, s'', again⟩

end Registers

end Straightline
