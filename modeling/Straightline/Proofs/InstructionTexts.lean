import Straightline.Proofs.Decimals
import Straightline.Proofs.Generation
import Straightline.Proofs.MaximalMunch
import Straightline.Proofs.NormalAccounts

/-!
# Instructions are told apart by their texts

The first character of an operand tells a name, a temporary and a number apart, so that the operand
can be read back from its text (`Operand.read?_text`). Operands hold no comma and instructions no
line end: the text of an instruction is cut into its arguments, and a listing into its lines, in one
way only. Where all names are words of source texts, instructions are what their texts say, and so
are programs by their listings and generated code by its comments (`Program.texts_faithful`).
-/
namespace Straightline

/-- A temporary, or a name that is a word of source texts. -/
def Variable.Spelled : Variable → Prop
  | named name => (Lexeme.word name).WellFormed
  | temp _ => True

theorem Lexeme.wellFormed_word_iff (name : String) : (Lexeme.word name).WellFormed ↔
    name.toList.head?.any Char.isAlpha = true ∧ name.toList.tail.all Char.isAlphanum = true := by
  cases shape : name.toList with
  | nil => simp [WellFormed, shape]
  | cons c cs => simp [WellFormed, shape]

instance : DecidablePred Variable.Spelled
  | .named name => decidable_of_iff _ (Lexeme.wellFormed_word_iff name).symm
  | .temp _ => inferInstanceAs (Decidable True)

theorem Decimal.exists_digits (n : Int64) :
    ∃ m, (text n).toList = Nat.toDigits 10 m ∨ (text n).toList = '-' :: Nat.toDigits 10 m := by
  unfold text
  cases n.toInt with
  | ofNat m => exact ⟨m, Or.inl (toList_natural m)⟩
  | negSucc m => exact ⟨m + 1, Or.inr (toList_negative m)⟩

theorem eq_of_map_eq_map {α β : Type} {f : α → β} {l l' : List α}
    (inj : ∀ a ∈ l, ∀ b ∈ l', f a = f b → a = b) (same : l.map f = l'.map f) : l = l' := by
  induction l generalizing l' with
  | nil => simpa using same
  | cons a l ih =>
    cases l' with
    | nil => simp at same
    | cons b l' =>
      have first := inj a List.mem_cons_self b List.mem_cons_self (List.cons.inj same).1
      have rest := ih (fun a ha b hb => inj a (List.mem_cons_of_mem _ ha) b
        (List.mem_cons_of_mem _ hb)) (List.cons.inj same).2
      rw [first, rest]

/-! ### Operands -/

namespace Operand

variable {o o' : Operand} {c : Char}

def Spelled : Operand → Prop
  | var v => v.Spelled
  | imm _ => True

def read? (text : String) : Option Operand :=
  match text.toList with
  | [] => none
  | c :: rest =>
    if c = '$' then (Decimal.natural? rest).map fun n => var (.temp n)
    else if c.isAlpha then some (var (.named text))
    else (Decimal.read? text).map imm

theorem toList_temp (n : Nat) : (Variable.temp n).text.toList = '$' :: Nat.toDigits 10 n := by
  show ("$" ++ n.repr).toList = _
  simp

theorem exists_head_imm (n : Int64) :
    ∃ c rest, (imm n).text.toList = c :: rest ∧ c ≠ '$' ∧ c.isAlpha = false := by
  rcases Decimal.exists_digits n with ⟨m, digits | digits⟩
  · rcases List.exists_cons_of_ne_nil (Nat.toDigits_ne_nil (b := 10) (n := m)) with ⟨c, rest, shape⟩
    have digit : c.isDigit = true := by
      apply Decimal.isDigit_of_mem_toDigits (n := m)
      rw [shape]
      exact List.mem_cons_self
    refine ⟨c, rest, digits.trans shape, ?_, ?_⟩
    · rintro rfl
      cases digit
    · by_contra letter
      rw [Lexeme.isDigit_of_isAlpha (eq_true_of_ne_false letter)] at digit
      cases digit
  · exact ⟨'-', Nat.toDigits 10 m, digits, by decide, rfl⟩

theorem read?_text (spelled : o.Spelled) : read? o.text = some o := by
  unfold read?
  cases o with
  | var v =>
    cases v with
    | named name =>
      obtain ⟨c, rest, shape, letter, -⟩ := spelled
      have other : c ≠ '$' := by
        rintro rfl
        cases letter
      rw [show (text (var (.named name))).toList = c :: rest from shape]
      simp only [if_neg other, if_pos letter]
      rfl
    | temp n =>
      rw [show (text (var (.temp n))).toList = _ from toList_temp n]
      simp [Decimal.natural?_toDigits]
  | imm n =>
    obtain ⟨c, rest, shape, other, noLetter⟩ := exists_head_imm n
    rw [shape]
    simp only [if_neg other, noLetter]
    rw [show text (imm n) = Decimal.text n from rfl, Decimal.read?_text]
    rfl

theorem text_injective (spelled : o.Spelled) (spelled' : o'.Spelled) (same : o.text = o'.text) :
    o = o' := by
  have back := read?_text spelled
  rw [same, read?_text spelled'] at back
  exact (Option.some.inj back).symm

def isArgument (c : Char) : Bool :=
  c.isAlphanum || c == '$' || c == '-'

theorem isArgument_of_isAlphanum (h : c.isAlphanum = true) : isArgument c = true := by
  rw [isArgument, h]
  rfl

theorem isArgument_of_mem_toDigits {m : Nat} (h : c ∈ Nat.toDigits 10 m) : isArgument c = true := by
  apply isArgument_of_isAlphanum
  exact Bool.or_eq_true_iff.mpr (Or.inr (Decimal.isDigit_of_mem_toDigits h))

theorem isArgument_of_mem_text (spelled : o.Spelled) (h : c ∈ o.text.toList) :
    isArgument c = true := by
  cases o with
  | var v =>
    cases v with
    | named name =>
      obtain ⟨d, rest, shape, letter, word⟩ := spelled
      have inside : c ∈ d :: rest := shape ▸ h
      apply isArgument_of_isAlphanum
      rcases List.mem_cons.mp inside with rfl | inside
      · exact Bool.or_eq_true_iff.mpr (Or.inl letter)
      · exact word c inside
    | temp n =>
      have inside : c ∈ '$' :: Nat.toDigits 10 n := toList_temp n ▸ h
      rcases List.mem_cons.mp inside with rfl | inside
      · rfl
      · exact isArgument_of_mem_toDigits inside
  | imm n =>
    have inside : c ∈ (Decimal.text n).toList := h
    rcases Decimal.exists_digits n with ⟨m, digits | digits⟩
    · rw [digits] at inside
      exact isArgument_of_mem_toDigits inside
    · rw [digits] at inside
      rcases List.mem_cons.mp inside with rfl | inside
      · rfl
      · exact isArgument_of_mem_toDigits inside

end Operand

/-! ### Instructions -/

theorem Operator.mnemonic_injective {op op' : Operator} (h : op.mnemonic = op'.mnemonic) :
    op = op' := by
  revert h
  cases op <;> cases op' <;> decide

namespace Instruction

variable {i j : Instruction} {o : Operand} {xs ys : List (List Char)}

def Spelled (i : Instruction) : Prop :=
  ∀ v ∈ i.occurrences, v.Spelled

instance : DecidablePred Instruction.Spelled :=
  fun i => inferInstanceAs (Decidable (∀ v ∈ i.occurrences, v.Spelled))

def arguments (i : Instruction) : List Operand :=
  (i.result?.map Operand.var).toList ++ i.operands

theorem eq_of_arguments (mnemonics : i.mnemonic = j.mnemonic) (same : i.arguments = j.arguments) :
    i = j := by
  cases i with
  | move dest src => cases j <;> simp_all [arguments, result?, operands]
  | binary op dest lhs rhs =>
    cases j with
    | binary op' dest' lhs' rhs' =>
      have operators : op = op' := Operator.mnemonic_injective mnemonics
      simp_all [arguments, result?, operands]
    | _ => simp_all [arguments, result?, operands]
  | ret value => cases j <;> simp_all [arguments, result?, operands]

theorem Spelled.argument (spelled : i.Spelled) (h : o ∈ i.arguments) : o.Spelled := by
  cases o with
  | imm n => trivial
  | var v =>
    apply spelled v
    rcases List.mem_append.mp h with h | h
    · simp_all [occurrences]
    · exact List.mem_append_right _ (List.mem_filterMap.mpr ⟨_, h, rfl⟩)

theorem arguments_ne_nil (i : Instruction) : i.arguments ≠ [] := by
  cases i <;> simp [arguments, result?, operands]

theorem toList_text (i : Instruction) :
    i.text.toList =
      i.mnemonic.toList ++ ' ' :: [',', ' '].intercalate (i.arguments.map (·.text.toList)) := by
  cases i <;> simp [text, arguments, result?, operands] <;> rfl

theorem length_mnemonic (i : Instruction) : i.mnemonic.toList.length = 3 := by
  cases i with
  | move dest src => simp [mnemonic]
  | binary op dest lhs rhs => cases op <;> simp [mnemonic, Operator.mnemonic]
  | ret value => simp [mnemonic]

theorem intercalate_comma (x : List Char) (xs : List (List Char)) :
    [',', ' '].intercalate (x :: xs) = [','].intercalate (x :: xs.map (' ' :: ·)) := by
  induction xs generalizing x with
  | nil => simp
  | cons y ys ih =>
    rw [List.intercalate_cons_cons, ih, List.map_cons, List.intercalate_cons_cons]
    cases ys <;> simp

theorem splitOn_comma {x : List Char} (h : ∀ y ∈ x :: xs, ',' ∉ y) :
    ([',', ' '].intercalate (x :: xs)).splitOn ',' = x :: xs.map (' ' :: ·) := by
  rw [intercalate_comma]
  apply List.splitOn_intercalate
  · simpa using h
  · simp

/-- Texts without commas are determined by what they are joined to. -/
theorem eq_of_intercalate (hx : ∀ x ∈ xs, ',' ∉ x) (hy : ∀ y ∈ ys, ',' ∉ y) (some : xs ≠ [])
    (some' : ys ≠ []) (same : [',', ' '].intercalate xs = [',', ' '].intercalate ys) : xs = ys := by
  cases xs with
  | nil => contradiction
  | cons x xs =>
    cases ys with
    | nil => contradiction
    | cons y ys =>
      have parts := splitOn_comma hx
      rw [same, splitOn_comma hy] at parts
      rw [(List.cons.inj parts).1,
        List.map_injective_iff.mpr List.cons_injective (List.cons.inj parts).2]

theorem Spelled.notMem_arguments (spelled : i.Spelled) {c : Char}
    (other : Operand.isArgument c = false) : ∀ x ∈ i.arguments.map (·.text.toList), c ∉ x := by
  intro x hx inside
  rcases List.mem_map.mp hx with ⟨o, ho, rfl⟩
  rw [Operand.isArgument_of_mem_text (spelled.argument ho) inside] at other
  cases other

theorem text_injective (spelled : i.Spelled) (spelled' : j.Spelled) (same : i.text = j.text) :
    i = j := by
  have texts := congrArg String.toList same
  rw [toList_text, toList_text] at texts
  -- Nothing but its length tells where a mnemonic ends: the arguments hold blanks as well.
  have lengths : i.mnemonic.toList.length = j.mnemonic.toList.length := by
    rw [length_mnemonic, length_mnemonic]
  obtain ⟨mnemonics, joined⟩ := List.append_inj texts lengths
  have arguments : i.arguments.map (·.text.toList) = j.arguments.map (·.text.toList) := by
    apply eq_of_intercalate (spelled.notMem_arguments rfl) (spelled'.notMem_arguments rfl)
    · simpa using i.arguments_ne_nil
    · simpa using j.arguments_ne_nil
    · exact (List.cons.inj joined).2
  apply eq_of_arguments (String.toList_inj.mp mnemonics)
  apply eq_of_map_eq_map ?_ arguments
  intro o ho o' ho' same
  exact Operand.text_injective (spelled.argument ho) (spelled'.argument ho')
    (String.toList_inj.mp same)

theorem notMem_intercalate {c : Char} {between : List Char} (outside : c ∉ between)
    (h : ∀ x ∈ xs, c ∉ x) : c ∉ between.intercalate xs := by
  induction xs with
  | nil => simp
  | cons x xs ih =>
    have here : c ∉ x := h x List.mem_cons_self
    cases xs with
    | nil => simpa using here
    | cons y ys =>
      have behind := ih fun x hx => h x (List.mem_cons_of_mem _ hx)
      rw [List.intercalate_cons_cons]
      simp [here, outside, behind]

theorem newline_notMem_mnemonic (i : Instruction) : '\n' ∉ i.mnemonic.toList := by
  cases i with
  | move dest src => simp [mnemonic]
  | binary op dest lhs rhs => cases op <;> simp [mnemonic, Operator.mnemonic]
  | ret value => simp [mnemonic]

theorem Spelled.newline_notMem (spelled : i.Spelled) : '\n' ∉ i.text.toList := by
  have joined : '\n' ∉ [',', ' '].intercalate (i.arguments.map (·.text.toList)) :=
    notMem_intercalate (by decide) (spelled.notMem_arguments rfl)
  rw [toList_text]
  simp [i.newline_notMem_mnemonic, joined]

end Instruction

/-! ### Listings -/

namespace Program

variable {p q : Program}

theorem flatMap_newline (lines : List (List Char)) :
    lines.flatMap (· ++ ['\n']) = ['\n'].intercalate (lines ++ [[]]) := by
  induction lines with
  | nil => simp
  | cons l lines ih =>
    rw [List.flatMap_cons, ih]
    cases lines <;> simp

/-- Lines without line ends are told from each other by the line ends behind them. -/
theorem splitOn_lines {lines : List (List Char)} (h : ∀ l ∈ lines, '\n' ∉ l) :
    (lines.flatMap (· ++ ['\n'])).splitOn '\n' = lines ++ [[]] := by
  rw [flatMap_newline]
  apply List.splitOn_intercalate
  · intro l hl
    rcases List.mem_append.mp hl with hl | hl
    · exact h l hl
    · simp_all
  · simp

def lineOf (n : Nat) (i : Instruction) : List Char :=
  (Decimal.padded '0' 4 n).toList ++ ':' :: ' ' :: i.text.toList

theorem toList_listing (p : Program) :
    p.listing.toList = (p.instructions.mapIdx lineOf).flatMap (· ++ ['\n']) := by
  rw [listing, String.toList_join, List.mapIdx_eq_zipIdx_map, List.mapIdx_eq_zipIdx_map,
    List.flatMap_map, List.flatMap_map]
  simp [lineOf]

theorem newline_notMem_padded (n : Nat) : '\n' ∉ (Decimal.padded '0' 4 n).toList := by
  intro inside
  rw [Decimal.padded, String.toList_ofList] at inside
  rcases List.mem_append.mp inside with inside | inside
  · exact absurd (List.eq_of_mem_replicate inside) (by decide)
  · exact absurd (Decimal.isDigit_of_mem_toDigits inside) (by decide)

theorem splitOn_listing (spelled : ∀ i ∈ p.instructions, i.Spelled) :
    p.listing.toList.splitOn '\n' = p.instructions.mapIdx lineOf ++ [[]] := by
  rw [toList_listing]
  apply splitOn_lines
  intro l hl
  rcases List.mem_mapIdx.mp hl with ⟨n, inside, rfl⟩
  have text := (spelled _ (List.getElem_mem inside)).newline_notMem
  simp [lineOf, newline_notMem_padded, text]

theorem listing_injective (spelled : ∀ i ∈ p.instructions, i.Spelled)
    (spelled' : ∀ i ∈ q.instructions, i.Spelled) (same : p.listing = q.listing) :
    p.instructions = q.instructions := by
  have lines : p.instructions.mapIdx lineOf = q.instructions.mapIdx lineOf := by
    have cut := splitOn_listing spelled
    rw [same, splitOn_listing spelled'] at cut
    exact (List.append_cancel_right cut).symm
  -- The same position is written in front of both, whatever its number of digits.
  apply List.ext_getElem
  · simpa using congrArg List.length lines
  · intro n hn hn'
    have line : lineOf n p.instructions[n] = lineOf n q.instructions[n] := by
      simpa [hn, hn'] using congrArg (·[n]?) lines
    apply Instruction.text_injective (spelled _ (List.getElem_mem hn))
      (spelled' _ (List.getElem_mem hn'))
    apply String.toList_inj.mp
    simpa [lineOf] using line

end Program

/-! ### Comments -/

namespace Target

variable {t : Target} {instructions : List Instruction} {r : Registers} {a : Assembly}

theorem comments_linesOnto (comments : t.comments = true) {done : List AssemblyLine}
    (h : t.linesOnto done instructions r = .ok a) :
    a.lines.map (·.comment) = done.reverse.map (·.comment) ++
      (Instruction.upToReturn instructions).map fun i => some i.text := by
  induction instructions generalizing done r with
  | nil =>
    cases h
    simp [Instruction.upToReturn]
  | cons i rest ih =>
    rw [linesOnto] at h
    cases made : t.line i r with
    | error e => simp [made] at h
    | ok got =>
      obtain ⟨l, r'⟩ := got
      have comment : l.comment = some i.text := by
        obtain ⟨c, r₁, -, rest⟩ := stateT_bind_eq_ok.mp made
        cases rest
        simp [comments]
      simp only [made] at h
      rw [Instruction.upToReturn]
      split at h
      · cases h
        simp_all
      · rw [ih h]
        simp_all

theorem comments_generate (comments : t.comments = true)
    (h : t.generate instructions r = .ok a) :
    a.lines.map (·.comment) = (Instruction.upToReturn instructions).map fun i => some i.text := by
  simpa using comments_linesOnto comments h

end Target

/-- Where the names are words of source texts, instructions with the same text are the same,
programs with the same listing have the same instructions, and code with the same comments is made
from the same instructions up to the first return, whatever registers it uses. -/
theorem Program.texts_faithful :
    (∀ i j : Instruction, i.Spelled → j.Spelled → i.text = j.text → i = j) ∧
    (∀ p q : Program, (∀ i ∈ p.instructions, i.Spelled) → (∀ i ∈ q.instructions, i.Spelled) →
      p.listing = q.listing → p.instructions = q.instructions) ∧
    ∀ (t t' : Target) (l l' : List Instruction) (r r' : Registers) (a a' : Assembly),
      t.comments = true → t'.comments = true →
      (∀ i ∈ l, i.Spelled) → (∀ i ∈ l', i.Spelled) →
      t.generate l r = .ok a → t'.generate l' r' = .ok a' →
      a.lines.map (·.comment) = a'.lines.map (·.comment) →
      Instruction.upToReturn l = Instruction.upToReturn l' := by
  refine ⟨fun i j => Instruction.text_injective, fun p q => listing_injective, ?_⟩
  intro t t' l l' r r' a a' comments comments' spelled spelled' made made' same
  rw [Target.comments_generate comments made, Target.comments_generate comments' made'] at same
  apply eq_of_map_eq_map ?_ same
  intro i hi j hj texts
  apply Instruction.text_injective
  · exact spelled i (Instruction.mem_of_mem_upToReturn hi)
  · exact spelled' j (Instruction.mem_of_mem_upToReturn hj)
  · exact Option.some.inj texts

/-- A name written like a temporary cannot be told from it. -/
example : (Instruction.ret (.var (.named "$0"))).text =
    (Instruction.ret (.var (.temp 0))).text := by decide

/-- A negative number and a temporary with the same digit, and code for the same instructions with
other registers and with one more return. -/
theorem Program.texts_faithful_signed :
    let i : Instruction := .binary .sub (.temp 1) (.var (.named "a1")) (.imm (-1))
    let j : Instruction := .binary .sub (.temp 1) (.var (.named "a1")) (.var (.temp 1))
    let l : List Instruction := [.move (.temp 1) (.imm 5), .ret (.var (.temp 1))]
    let t : Target := ⟨"a0", true⟩
    let t' : Target := ⟨"a1", true⟩
    let r : Registers := ⟨[⟨"t0", none⟩], .ofInstructions l⟩
    let r' : Registers := ⟨[⟨"s2", none⟩], .ofInstructions l⟩
    let a : Assembly := ⟨[⟨.li "t0" 5, some "MOV $1, 5"⟩, ⟨.mv "a0" "t0", some "RET $1"⟩]⟩
    let a' : Assembly := ⟨[⟨.li "s2" 5, some "MOV $1, 5"⟩, ⟨.mv "a1" "s2", some "RET $1"⟩]⟩
    i.Spelled ∧ j.Spelled ∧ i.text ≠ j.text ∧
      (Program.mk [i, j] 2).listing ≠ (Program.mk [j, i] 2).listing ∧
      t.generate l r = .ok a ∧ t'.generate (l ++ [.ret (.imm 7)]) r' = .ok a' ∧
      Instruction.upToReturn l = Instruction.upToReturn (l ++ [.ret (.imm 7)]) := by
  intro i j l t t' r r' a a'
  have hi : i.Spelled := by decide
  have hj : j.Spelled := by decide
  have made : t.generate l r = .ok a := by decide +kernel
  have made' : t'.generate (l ++ [.ret (.imm 7)]) r' = .ok a' := by decide +kernel
  refine ⟨hi, hj, ?_, ?_, made, made', ?_⟩
  · intro same
    exact absurd (texts_faithful.1 i j hi hj same) (by decide)
  · intro same
    have both : ∀ k ∈ [i, j], k.Spelled := by decide
    have both' : ∀ k ∈ [j, i], k.Spelled := by decide
    exact absurd (texts_faithful.2.1 ⟨[i, j], 2⟩ ⟨[j, i], 2⟩ both both' same) (by decide)
  · exact texts_faithful.2.2 t t' l _ r r' a a' rfl rfl (by decide) (by decide) made made' rfl

end Straightline
