import Mathlib.Data.List.Nodup
import Straightline.Proofs.RegisterMachine

/-!
# Registers that are reused

A register is handed to another variable only when its occupant has no use left. The uses left are
the occurrences ahead, so the registers keep the value of every variable that is still read
(`Registers.Tracks`), and the code of a program leaves in the return register what the program
returns.
-/
namespace Straightline

namespace Registers

def Holds (r : Registers) (q : String) (v : Variable) : Prop :=
  ⟨q, some v⟩ ∈ r.slots

/-- Registers with different names, no two of them occupied by one variable. -/
structure Sound (r : Registers) : Prop where
  distinct : (r.slots.map (·.register)).Nodup
  unique : ∀ v p q, r.Holds p v → r.Holds q v → p = q

theorem Sound.slot_eq {r : Registers} (sound : r.Sound) {s u : Slot} (hs : s ∈ r.slots)
    (hu : u ∈ r.slots) (same : s.register = u.register) : s = u :=
  List.inj_on_of_nodup_map sound.distinct hs hu same

theorem Sound.occupant_eq {r : Registers} (sound : r.Sound) {q : String} {v w : Variable}
    (hv : r.Holds q v) (hw : r.Holds q w) : v = w := by
  have same := sound.slot_eq hv hw rfl
  simpa using same

theorem slot?_cases {r : Registers} {v : Variable} {n : Fin r.slots.length}
    (h : r.slot? v = some n) :
    (r.slots.get n).occupant = some v ∨
      (∀ q, ¬ r.Holds q v) ∧ ∀ w, (r.slots.get n).occupant = some w → r.usage.getD w 0 = 0 := by
  unfold slot? at h
  cases own : r.slots.findFinIdx? (·.occupant == some v) with
  | some m =>
    have : m = n := by simpa [own] using h
    subst this
    exact Or.inl (by simpa using (List.findFinIdx?_eq_some_iff.mp own).1)
  | none =>
    have absent : ∀ q, ¬ r.Holds q v := by
      intro q hq
      have := List.findFinIdx?_eq_none_iff.mp own _ hq
      simp at this
    refine Or.inr ⟨absent, ?_⟩
    intro w hw
    cases free : r.slots.findFinIdx? (·.occupant.isNone) with
    | some m =>
      have : m = n := by simpa [own, free] using h
      subst this
      have := (List.findFinIdx?_eq_some_iff.mp free).1
      simp_all
    | none =>
      have dead : r.slots.findFinIdx? r.isDead = some n := by simpa [own, free] using h
      have := (List.findFinIdx?_eq_some_iff.mp dead).1
      simp_all [isDead]

/-- What a successful request does: the slot it takes is bound to the variable, and one use is
gone. -/
theorem resolve_cases {r r' : Registers} {v : Variable} {q : String}
    (h : r.resolve v = .ok (q, r')) :
    ∃ n left, r.slot? v = some n ∧ r.usage.getD v 0 = left + 1 ∧ q = (r.slots.get n).register ∧
      r' = ⟨r.slots.set n ⟨q, some v⟩, r.usage.insert v left⟩ := by
  unfold resolve at h
  split at h
  · cases h
  · split at h
    · cases h
    · rename_i left uses
      split at h
      · cases h
      · rename_i n slot
        cases h
        exact ⟨n, left, slot, uses, rfl, rfl⟩

variable {r r' : Registers} {v : Variable} {q : String}

theorem resolve_usage (h : r.resolve v = .ok (q, r')) (w : Variable) :
    r.usage.getD w 0 = r'.usage.getD w 0 + if v = w then 1 else 0 := by
  obtain ⟨n, left, -, uses, -, rfl⟩ := resolve_cases h
  by_cases same : v = w
  · subst same
    simp [uses]
  · simp [Std.TreeMap.getD_insert, same]

theorem resolve_registers (h : r.resolve v = .ok (q, r')) :
    r'.slots.map (·.register) = r.slots.map (·.register) := by
  obtain ⟨n, left, -, -, rfl, rfl⟩ := resolve_cases h
  apply List.ext_getElem
  · simp
  · intro i hi hi'
    by_cases same : n.val = i <;> simp [same]

theorem holds_resolve (sound : r.Sound) (h : r.resolve v = .ok (q, r')) (p : String)
    (w : Variable) : r'.Holds p w ↔ if p = q then w = v else r.Holds p w := by
  obtain ⟨n, left, -, -, rfl, rfl⟩ := resolve_cases h
  have alone (i : Nat) (hi : i < r.slots.length)
      (same : r.slots[i].register = (r.slots.get n).register) : i = n := by
    have slots := sound.slot_eq (List.getElem_mem hi) (List.getElem_mem n.isLt) same
    exact (List.Nodup.of_map _ sound.distinct).getElem_inj_iff.mp slots
  simp only [Holds, List.mem_iff_getElem, List.length_set]
  constructor
  · rintro ⟨i, hi, at_i⟩
    by_cases same : n.val = i
    · subst same
      simp at at_i
      simp [← at_i.1, ← at_i.2]
    · rw [List.getElem_set_ne same] at at_i
      have other : p ≠ (r.slots.get n).register := by
        rintro rfl
        exact same (alone i hi (by rw [at_i])).symm
      rw [if_neg other]
      exact ⟨i, hi, at_i⟩
  · intro bound
    by_cases same : p = (r.slots.get n).register
    · rw [if_pos same] at bound
      exact ⟨n, n.isLt, by simp [same, bound]⟩
    · rw [if_neg same] at bound
      obtain ⟨i, hi, at_i⟩ := bound
      have other : n.val ≠ i := by
        rintro rfl
        exact same (by simp [at_i])
      exact ⟨i, hi, by rw [List.getElem_set_ne other]; exact at_i⟩

theorem holds_of_resolve (sound : r.Sound) (h : r.resolve v = .ok (q, r')) : r'.Holds q v :=
  (holds_resolve sound h q v).mpr (by simp)

theorem eq_of_resolve_of_holds (sound : r.Sound) (h : r.resolve v = .ok (q, r')) {p : String}
    (hp : r.Holds p v) : p = q := by
  obtain ⟨n, left, slot, -, rfl, -⟩ := resolve_cases h
  rcases slot?_cases slot with own | ⟨absent, -⟩
  · refine sound.unique v p _ hp ?_
    rw [Holds, ← own]
    exact List.getElem_mem n.isLt
  · exact absurd hp (absent p)

theorem dead_of_resolve (sound : r.Sound) (h : r.resolve v = .ok (q, r')) {w : Variable}
    (hw : r.Holds q w) (other : w ≠ v) : r.usage.getD w 0 = 0 := by
  obtain ⟨n, left, slot, -, rfl, -⟩ := resolve_cases h
  have here : r.slots.get n = ⟨(r.slots.get n).register, some w⟩ :=
    sound.slot_eq (List.getElem_mem n.isLt) hw rfl
  rcases slot?_cases slot with own | ⟨-, dead⟩
  · rw [here] at own
    exact absurd (Option.some.inj own) other
  · exact dead w (by rw [here])

theorem Sound.resolve (sound : r.Sound) (h : r.resolve v = .ok (q, r')) : r'.Sound := by
  refine ⟨by rw [resolve_registers h]; exact sound.distinct, ?_⟩
  intro w a b ha hb
  rw [holds_resolve sound h] at ha hb
  split at ha <;> split at hb
  · simp [*]
  · subst ha
    exact absurd (eq_of_resolve_of_holds sound h hb) ‹_›
  · subst hb
    exact absurd (eq_of_resolve_of_holds sound h ha) ‹_›
  · exact sound.unique w a b ha hb

theorem holds_resolve_of_holds (sound : r.Sound) (h : r.resolve v = .ok (q, r')) {p : String}
    (hp : r.Holds p v) (a : String) (w : Variable) : r'.Holds a w ↔ r.Holds a w := by
  have own : r.Holds q v := eq_of_resolve_of_holds sound h hp ▸ hp
  rw [holds_resolve sound h]
  split
  · rename_i same
    subst same
    exact ⟨fun hw => hw ▸ own, fun hw => sound.occupant_eq hw own⟩
  · rfl

theorem holds_resolve_of_live (sound : r.Sound) (h : r.resolve v = .ok (q, r')) {p : String}
    {w : Variable} (hp : r.Holds p w) (live : r.usage.getD w 0 ≠ 0) : r'.Holds p w := by
  rw [holds_resolve sound h]
  split
  · rename_i same
    subst same
    by_contra other
    exact live (dead_of_resolve sound h hp other)
  · exact hp

theorem resolve_count (h : r.resolve v = .ok (q, r')) {ahead : List Variable}
    (uses : ∀ w, r.usage.getD w 0 = (v :: ahead).count w) (w : Variable) :
    r'.usage.getD w 0 = ahead.count w := by
  have before := uses w
  rw [resolve_usage h w, List.count_cons] at before
  simp only [beq_iff_eq] at before
  omega

/-! ### Values in registers -/

/-- Registers that keep what is still to be read: the uses left are the occurrences ahead, and each
variable among them that is set has its value in its register. -/
structure Tracks (r : Registers) (ahead : List Variable) (env : Environment)
    (regs : RegisterFile) : Prop where
  sound : r.Sound
  uses : ∀ v, r.usage.getD v 0 = ahead.count v
  held : ∀ v n, env[v]? = some n → v ∈ ahead → ∃ q, r.Holds q v ∧ regs q = n

namespace Tracks

variable {ahead : List Variable} {env : Environment} {regs : RegisterFile}

/-- What a request evicts has no use left, so nothing that is still to be read is lost. -/
theorem resolve (h : Tracks r (v :: ahead) env regs) (hr : r.resolve v = .ok (q, r')) :
    Tracks r' ahead env regs := by
  refine ⟨h.sound.resolve hr, resolve_count hr h.uses, ?_⟩
  intro w n hw live
  have live := List.mem_cons_of_mem v live
  obtain ⟨p, hp, value⟩ := h.held w n hw live
  have used : r.usage.getD w 0 ≠ 0 := by
    rw [h.uses w]
    exact Nat.ne_of_gt (List.count_pos_iff.mpr live)
  exact ⟨p, holds_resolve_of_live h.sound hr hp used, value⟩

theorem read (h : Tracks r (v :: ahead) env regs) (hr : r.resolve v = .ok (q, r')) {n : Int64}
    (hv : env[v]? = some n) : regs q = n ∧ ∀ a w, r'.Holds a w ↔ r.Holds a w := by
  obtain ⟨p, hp, value⟩ := h.held v n hv (List.mem_cons_self ..)
  have own := eq_of_resolve_of_holds h.sound hr hp
  subst own
  exact ⟨value, holds_resolve_of_holds h.sound hr hp⟩

theorem write (h : Tracks r ahead env regs) {dest : Variable} (hq : r.Holds q dest) (n : Int64) :
    Tracks r ahead (env.insert dest n) (Function.update regs q n) := by
  refine ⟨h.sound, h.uses, ?_⟩
  intro w m hw live
  by_cases same : dest = w
  · subst same
    have : n = m := by simpa using hw
    exact ⟨q, hq, by simp [this]⟩
  · have kept : env[w]? = some m := by simpa [Std.TreeMap.getElem?_insert, same] using hw
    obtain ⟨p, hp, value⟩ := h.held w m kept live
    have other : p ≠ q := by
      rintro rfl
      exact same (h.sound.occupant_eq hq hp)
    exact ⟨p, hp, by simp [other, value]⟩

end Tracks

end Registers

/-! ### The start -/

theorem Usage.getD_ofInstructions (instructions : List Instruction) (v : Variable) :
    (Usage.ofInstructions instructions).getD v 0 =
      (instructions.flatMap (·.occurrences)).count v := by
  have counted (vs : List Variable) (u : Usage) :
      (vs.foldl (fun u v => u.insert v (u.getD v 0 + 1)) u).getD v 0 = u.getD v 0 + vs.count v := by
    induction vs generalizing u with
    | nil => simp
    | cons w vs ih =>
      rw [List.foldl_cons, ih, List.count_cons]
      by_cases same : w = v
      · subst same
        simp
        omega
      · simp [Std.TreeMap.getD_insert, same]
  simpa [Usage.ofInstructions] using counted _ ∅

namespace Registers

theorem nodup_of_firstRepeat? {seen names : List String} (h : firstRepeat? seen names = none) :
    names.Nodup ∧ ∀ name ∈ names, name ∉ seen := by
  induction names generalizing seen with
  | nil => simp
  | cons name names ih =>
    rw [firstRepeat?] at h
    split at h
    · cases h
    · rename_i new
      obtain ⟨distinct, unseen⟩ := ih h
      refine ⟨List.nodup_cons.mpr ⟨?_, distinct⟩, ?_⟩
      · intro again
        exact unseen name again (List.mem_cons_self ..)
      · intro other hother
        rcases List.mem_cons.mp hother with rfl | hother
        · simpa using new
        · exact fun old => unseen other hother (List.mem_cons_of_mem name old)

theorem firstRepeat?_eq_none {seen names : List String} (distinct : names.Nodup)
    (unseen : ∀ name ∈ names, name ∉ seen) : firstRepeat? seen names = none := by
  induction names generalizing seen with
  | nil => rfl
  | cons name names ih =>
    obtain ⟨once, distinct⟩ := List.nodup_cons.mp distinct
    have new := unseen name List.mem_cons_self
    rw [firstRepeat?, if_neg (by simpa using new)]
    refine ih distinct ?_
    intro other hother again
    rcases List.mem_cons.mp again with rfl | old
    · exact once hother
    · exact unseen other (List.mem_cons_of_mem name hother) old

theorem ofNames_cases {names : List String} {usage : Usage} {r : Registers}
    (h : ofNames names usage = .ok r) :
    names ≠ [] ∧ names.Nodup ∧ r = ⟨names.map (⟨·, none⟩), usage⟩ := by
  unfold ofNames at h
  split at h
  · cases h
  · rename_i some
    split at h
    · cases h
    · rename_i distinct
      cases h
      exact ⟨by simpa using some, (nodup_of_firstRepeat? distinct).1, rfl⟩

theorem ofNames_of_nodup {names : List String} (nonempty : names ≠ []) (distinct : names.Nodup)
    (usage : Usage) : ofNames names usage = .ok ⟨names.map (⟨·, none⟩), usage⟩ := by
  rw [ofNames, if_neg (by simpa using nonempty),
    firstRepeat?_eq_none distinct fun _ _ => List.not_mem_nil]

theorem registers_ofNames {names : List String} {usage : Usage} {r : Registers}
    (h : ofNames names usage = .ok r) : r.slots.map (·.register) = names := by
  obtain ⟨-, -, rfl⟩ := ofNames_cases h
  simp [Function.comp_def]

theorem not_holds_ofNames {names : List String} {usage : Usage} {r : Registers}
    (h : ofNames names usage = .ok r) (q : String) (v : Variable) : ¬ r.Holds q v := by
  obtain ⟨-, -, rfl⟩ := ofNames_cases h
  simp [Holds]

theorem sound_ofNames {names : List String} {usage : Usage} {r : Registers}
    (h : ofNames names usage = .ok r) : r.Sound := by
  refine ⟨?_, ?_⟩
  · rw [registers_ofNames h]
    exact (ofNames_cases h).2.1
  · intro v p q hp
    exact absurd hp (not_holds_ofNames h p v)

theorem tracks_ofNames {names : List String} {instructions : List Instruction} {r : Registers}
    (h : ofNames names (.ofInstructions instructions) = .ok r) (regs : RegisterFile) :
    r.Tracks (instructions.flatMap (·.occurrences)) ∅ regs := by
  refine ⟨sound_ofNames h, ?_, ?_⟩
  · obtain ⟨-, -, rfl⟩ := ofNames_cases h
    exact Usage.getD_ofInstructions instructions
  · intro v n hv
    simp at hv

end Registers

end Straightline
