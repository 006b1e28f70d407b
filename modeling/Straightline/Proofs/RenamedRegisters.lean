import Mathlib.Data.List.Count
import Straightline.Proofs.RegisterReuse
import Straightline.Proofs.Renaming

/-!
# Registers for renamed code

Registers are handed out by the order in which variables are asked for and by the uses they have
left; their names play no part. So instructions whose variables are renamed, different ones
differently, get the same code, or run out of registers as they did before (`generate_rename`).
-/
namespace Straightline

/-- Both computations succeed, with results that are related, or both fail. -/
inductive Agree {ε α β : Type} (R : α → β → Prop) : Except ε α → Except ε β → Prop where
  | ok {a : α} {b : β} : R a b → Agree R (.ok a) (.ok b)
  | error {e e' : ε} : Agree R (.error e) (.error e')

theorem Agree.bind {ε α β γ δ : Type} {R : α → β → Prop} {S : γ → δ → Prop} {x : Except ε α}
    {x' : Except ε β} {k : α → Except ε γ} {k' : β → Except ε δ} (h : Agree R x x')
    (further : ∀ a b, R a b → Agree S (k a) (k' b)) : Agree S (x >>= k) (x' >>= k') := by
  cases h with
  | ok related => exact further _ _ related
  | error => exact .error

/-- Renamings that take different variables to different ones and keep what has no name apart from
what has one. -/
structure Variable.Faithful (f : Variable → Variable) : Prop where
  injective : Function.Injective f
  nameless : ∀ v, f v = .named "" ↔ v = .named ""

theorem Variable.faithful_renumber {g : Nat → Nat} (h : Function.Injective g) :
    Faithful (renumber g) where
  injective := renumber_injective h
  nameless v := by cases v <;> simp [renumber]

def Slot.rename (f : Variable → Variable) (s : Slot) : Slot :=
  ⟨s.register, s.occupant.map f⟩

namespace Registers

variable {f : Variable → Variable} {r r' : Registers}

/-- The same registers with their occupants renamed, which have as many uses left. -/
structure Renamed (f : Variable → Variable) (r r' : Registers) : Prop where
  slots : r'.slots = r.slots.map (Slot.rename f)
  usage : ∀ v, r'.usage.getD (f v) 0 = r.usage.getD v 0

theorem slot?_val (r : Registers) (v : Variable) :
    (r.slot? v).map (·.val) =
      (r.slots.findIdx? (·.occupant == some v) <|> r.slots.findIdx? (·.occupant.isNone) <|>
        r.slots.findIdx? r.isDead) := by
  simp only [slot?, List.findIdx?_eq_map_findFinIdx?_val]
  cases r.slots.findFinIdx? (·.occupant == some v) with
  | some n => rfl
  | none => cases r.slots.findFinIdx? (·.occupant.isNone) <;> rfl

theorem Renamed.slot?_val (h : Renamed f r r') (faithful : Variable.Faithful f) (v : Variable) :
    (r'.slot? (f v)).map (·.val) = (r.slot? v).map (·.val) := by
  have own (s : Slot) : ((s.rename f).occupant == some (f v)) = (s.occupant == some v) := by
    obtain ⟨register, _ | w⟩ := s
    · rfl
    · simp [Slot.rename, faithful.injective.eq_iff]
  have free (s : Slot) : (s.rename f).occupant.isNone = s.occupant.isNone := by
    simp [Slot.rename]
  have dead (s : Slot) : r'.isDead (s.rename f) = r.isDead s := by
    obtain ⟨register, _ | w⟩ := s
    · rfl
    · simp [isDead, Slot.rename, h.usage]
  simp only [Registers.slot?_val, h.slots, List.findIdx?_map, Function.comp_def, own, free, dead]

theorem Renamed.resolve (h : Renamed f r r') (faithful : Variable.Faithful f) (v : Variable) :
    Agree (ε := Error) (fun p p' => p'.1 = p.1 ∧ Renamed f p.2 p'.2) (r.resolve v)
      (r'.resolve (f v)) := by
  -- the slots are compared as numbers, since the two lists give them different bounds
  have same := h.slot?_val faithful v
  obtain ⟨slots, usage⟩ := r
  obtain ⟨slots', usage'⟩ := r'
  obtain ⟨rfl, left⟩ := h
  simp only [Registers.resolve, left v]
  by_cases nameless : v = .named ""
  · rw [if_pos nameless, if_pos ((faithful.nameless v).mpr nameless)]
    exact .error
  · rw [if_neg nameless, if_neg (nameless ∘ (faithful.nameless v).mp)]
    cases usage.getD v 0 with
    | zero => exact .error
    | succ uses =>
      cases found : slot? ⟨slots, usage⟩ v with
      | none =>
        cases found' : slot? ⟨slots.map (Slot.rename f), usage'⟩ (f v) with
        | none => exact .error
        | some n' => simp [found, found'] at same
      | some n =>
        cases found' : slot? ⟨slots.map (Slot.rename f), usage'⟩ (f v) with
        | none => simp [found, found'] at same
        | some n' =>
          rw [found, found'] at same
          have place : n'.val = n.val := Option.some.inj same
          have register : (slots.map (Slot.rename f))[n'].register = slots[n].register := by
            simp [place, Slot.rename]
          refine .ok ⟨register, ?_, ?_⟩
          · simp [place, Slot.rename]
          · intro w
            simp [Std.TreeMap.getD_insert, faithful.injective.eq_iff, left]

theorem renamed_ofNames {names : List String} (nonempty : names ≠ []) (distinct : names.Nodup)
    (faithful : Variable.Faithful f) (code : List Instruction) :
    ∃ r r', ofNames names (.ofInstructions code) = .ok r ∧
      ofNames names (.ofInstructions (code.map (Instruction.rename f))) = .ok r' ∧
      Renamed f r r' := by
  refine ⟨_, _, ofNames_of_nodup nonempty distinct _, ofNames_of_nodup nonempty distinct _, ?_, ?_⟩
  · simp [Slot.rename]
  · intro v
    rw [Usage.getD_ofInstructions, Usage.getD_ofInstructions,
      Instruction.flatMap_occurrences_rename,
      List.count_map_of_injective _ _ faithful.injective]

end Registers

namespace Target

variable {f : Variable → Variable} {α β γ δ : Type}

def Alike (f : Variable → Variable) (R : α → β → Prop) (x : Generator α) (x' : Generator β) :
    Prop :=
  ∀ r r', r.Renamed f r' → Agree (fun p p' => R p.1 p'.1 ∧ p.2.Renamed f p'.2) (x r) (x' r')

theorem Alike.pure {R : α → β → Prop} {a : α} {b : β} (h : R a b) :
    Alike f R (pure a) (pure b) :=
  fun _ _ renamed => .ok ⟨h, renamed⟩

theorem Alike.throw {R : α → β → Prop} (e e' : Error) : Alike f R (throw e) (throw e') :=
  fun _ _ _ => .error

theorem Alike.bind {R : α → β → Prop} {S : γ → δ → Prop} {x : Generator α} {x' : Generator β}
    {k : α → Generator γ} {k' : β → Generator δ} (h : Alike f R x x')
    (further : ∀ a b, R a b → Alike f S (k a) (k' b)) : Alike f S (x >>= k) (x' >>= k') :=
  fun r r' renamed => (h r r' renamed).bind fun _ _ related =>
    further _ _ related.1 _ _ related.2

section Faithful

variable (faithful : Variable.Faithful f)
include faithful

theorem alike_register (v : Variable) :
    Alike f (fun q q' => q' = q) (register v) (register (f v)) :=
  fun _ _ renamed => renamed.resolve faithful v

theorem alike_operandRegister (i j : Instruction) (o : Operand) :
    Alike f (fun q q' => q' = q) (operandRegister i o) (operandRegister j (o.rename f)) := by
  cases o with
  | var v => exact alike_register faithful v
  | imm n => exact .throw _ _

theorem alike_code (t : Target) (i : Instruction) :
    Alike f (fun c c' => c' = c) (t.code i) (t.code (i.rename f)) := by
  cases i with
  | move dest src =>
    cases src with
    | imm n =>
      refine (alike_register faithful dest).bind ?_
      rintro rd _ rfl
      exact .pure rfl
    | var v =>
      refine (alike_register faithful dest).bind ?_
      rintro rd _ rfl
      refine (alike_register faithful v).bind ?_
      rintro rs _ rfl
      exact .pure rfl
  | ret value =>
    cases value with
    | imm n => exact .pure rfl
    | var v =>
      refine (alike_register faithful v).bind ?_
      rintro rs _ rfl
      exact .pure rfl
  | binary op dest lhs rhs =>
    have three (i j : Instruction) :
        Alike f (fun c c' : Code => c' = c)
          (do
            let rd ← register dest
            let rs1 ← operandRegister i lhs
            let rs2 ← operandRegister i rhs
            return .arithmetic op rd rs1 rs2)
          (do
            let rd ← register (f dest)
            let rs1 ← operandRegister j (lhs.rename f)
            let rs2 ← operandRegister j (rhs.rename f)
            return .arithmetic op rd rs1 rs2) := by
      refine (alike_register faithful dest).bind ?_
      rintro rd _ rfl
      refine (alike_operandRegister faithful i j lhs).bind ?_
      rintro rs1 _ rfl
      refine (alike_operandRegister faithful i j rhs).bind ?_
      rintro rs2 _ rfl
      exact .pure rfl
    cases rhs with
    | var v => cases op <;> exact three _ _
    | imm n =>
      cases op with
      | add =>
        refine (alike_register faithful dest).bind ?_
        rintro rd _ rfl
        refine (alike_operandRegister faithful _ _ lhs).bind ?_
        rintro rs _ rfl
        split
        · exact .pure rfl
        · exact .throw _ _
      | sub => exact three _ _
      | mul => exact three _ _

theorem alike_line (t : Target) (i : Instruction) :
    Alike f (fun l l' => l'.code = l.code) (t.line i) (t.line (i.rename f)) :=
  (alike_code faithful t i).bind fun _ _ same => .pure same

theorem linesOnto_rename (t : Target) {done done' : List AssemblyLine}
    (before : done'.map (·.code) = done.map (·.code)) (code : List Instruction) {r r' : Registers}
    (renamed : r.Renamed f r') :
    Agree (fun a a' => a'.lines.map (·.code) = a.lines.map (·.code)) (t.linesOnto done code r)
      (t.linesOnto done' (code.map (Instruction.rename f)) r') := by
  induction code generalizing done done' r r' with
  | nil => exact .ok (by simp [before])
  | cons i rest ih =>
    rw [List.map_cons, linesOnto, linesOnto, Instruction.isReturn_rename]
    have here := alike_line faithful t i r r' renamed
    generalize t.line i r = line at here ⊢
    generalize t.line (i.rename f) r' = line' at here ⊢
    cases here with
    | error => exact .error
    | @ok made made' related =>
      obtain ⟨same, renamed⟩ := related
      have longer : (made'.1 :: done').map (·.code) = (made.1 :: done).map (·.code) := by
        rw [List.map_cons, List.map_cons, same, before]
      dsimp only
      split
      · exact .ok (by rw [List.map_reverse, List.map_reverse, longer])
      · exact ih longer renamed

/-- Renamed code is generated as the code is, but for the comments. -/
theorem generate_rename (t : Target) (code : List Instruction) {r r' : Registers}
    (renamed : r.Renamed f r') :
    Agree (fun a a' => a'.lines.map (·.code) = a.lines.map (·.code)) (t.generate code r)
      (t.generate (code.map (Instruction.rename f)) r') :=
  linesOnto_rename faithful t rfl code renamed

end Faithful

end Target

end Straightline
