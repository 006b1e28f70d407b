import Mathlib.Data.List.DropRight
import Straightline.Json.Printer
import Straightline.Json.Reader
import Straightline.Proofs.Decimals

/-!
# JSON texts are read back

Reading takes the text of a value back to the value (`parse?_render`), for every value whose numbers
are integers and whose strings are texts. The induction is on the value; what follows its text is
arbitrary up to its first character, since only a number could run on into it.
-/
namespace Straightline.Json

/-! ## Strings -/

theorem unit?_control {c : Char} (h : c.toNat < 32) :
    unit? '0' '0' (c.toNat / 16).digitChar (c.toNat % 16).digitChar = some (.char c) := by
  have (i : Fin 32) : unit? '0' '0' ((i : Nat) / 16).digitChar ((i : Nat) % 16).digitChar =
      some (.char (Char.ofNat i)) := by
    revert i; decide
  simpa using this ⟨c.toNat, h⟩

/-- A character is read back from the way it is written inside a string. -/
theorem units_escape (done : List Unit16) (c : Char) (rest : List Char) :
    units done (escape c ++ rest) = units (.char c :: done) rest := by
  unfold escape
  split_ifs with quote backslash newline returned tab back feed control
  · subst quote; rfl
  · subst backslash; rfl
  · subst newline; rfl
  · subst returned; rfl
  · subst tab; rfl
  · have : c = Char.ofNat 8 := by rw [← back, Char.ofNat_toNat]
    subst this; rfl
  · have : c = Char.ofNat 12 := by rw [← feed, Char.ofNat_toNat]
    subst this; rfl
  · simp [units, unit?_control control]
  · simp [units, backslash, control]

theorem units_flatMap (done : List Unit16) (cs rest : List Char) :
    units done (cs.flatMap escape ++ '"' :: rest) = some (done.reverse ++ cs.map .char, rest) := by
  induction cs generalizing done with
  | nil => simp [units]
  | cons c cs ih => simp [units_escape, ih]

theorem assemble_chars (cs : List Char) : assemble (cs.map .char) = some cs := by
  induction cs with
  | nil => rfl
  | cons c cs ih => simp [assemble, ih]

theorem string_escaped (s : String) (rest : List Char) :
    string (s.toList.flatMap escape ++ '"' :: rest) = some (some s, rest) := by
  simp [string, units_flatMap, assemble_chars]

/-! ## Numbers -/

/-- A text in front of which a number ends: it is empty or goes on with a comma or a new line. -/
def Delimits : List Char → Prop
  | [] => True
  | c :: _ => c = ',' ∨ c = '\n'

theorem whole_toDigits (n : Nat) {rest : List Char} (ends : Delimits rest) :
    whole (Nat.toDigits 10 n ++ rest) = some (Nat.toDigits 10 n, rest) := by
  by_cases zero : n = 0
  · subst zero; rfl
  · have all : ∀ c ∈ Nat.toDigits 10 n, c.isDigit = true :=
      fun _ => Decimal.isDigit_of_mem_toDigits
    have none : rest.takeWhile Char.isDigit = [] ∧ rest.dropWhile Char.isDigit = rest := by
      cases rest with
      | nil => simp
      | cons c cs => obtain rfl | rfl := ends <;> simp
    have nonempty : Nat.toDigits 10 n ≠ [] := Nat.toDigits_ne_nil
    unfold whole
    split
    · rename_i front
      obtain ⟨d, ds, leading⟩ := List.exists_cons_of_ne_nil nonempty
      rw [leading, List.cons_append] at front
      rw [(List.cons.inj front).1] at leading
      exact absurd (Decimal.eq_zero_of_toDigits leading) zero
    · rw [digits, List.takeWhile_append_of_pos all, List.dropWhile_append_of_pos all, none.1,
        none.2, List.append_nil]
      split
      · exact absurd ‹_› nonempty
      · rfl

theorem unsigned_toDigits (negative : Bool) (n : Nat) {rest : List Char} (ends : Delimits rest)
    (signed : negative = true → n ≠ 0) :
    unsigned negative (Nat.toDigits 10 n ++ rest) =
      some (.int (if negative then -(n : Int) else n), rest) := by
  have point : fraction rest = some ([], rest) := by
    cases rest with
    | nil => rfl
    | cons c cs => obtain rfl | rfl := ends <;> rfl
  have power : exponent rest = some ([], rest) := by
    cases rest with
    | nil => rfl
    | cons c cs => obtain rfl | rfl := ends <;> rfl
  cases negative <;>
    simp_all [unsigned, whole_toDigits n ends, Decimal.value_toDigits]

theorem value_digit {c : Char} (digit : c.isDigit = true) (n : Nat) (cs : List Char) :
    value (n + 1) (c :: cs) = unsigned false (c :: cs) := by
  have ne (d : Char) (other : d.isDigit = false) : c ≠ d := by
    rintro rfl
    simp [other] at digit
  simp [value, skipBlanks, isBlank, number, ne ' ', ne '\n', ne '\r', ne '\t', ne 'n', ne 't',
    ne 'f', ne '"', ne '[', ne '\x7b', ne '-']

theorem value_int (n : Nat) (i : Int) {rest : List Char} (ends : Delimits rest) :
    value (n + 1) ((toString i).toList ++ rest) = some (.int i, rest) := by
  cases i with
  | ofNat i =>
    have front := unsigned_toDigits false i ends (by simp)
    obtain ⟨d, ds, leading⟩ := List.exists_cons_of_ne_nil (Nat.toDigits_ne_nil (b := 10) (n := i))
    have digit : d.isDigit = true := Decimal.isDigit_of_mem_toDigits (n := i) (by simp [leading])
    rw [leading, List.cons_append] at front
    rw [Int.ofNat_eq_natCast, Decimal.toList_natural, leading, List.cons_append, value_digit digit,
      front]
    rfl
  | negSucc i =>
    rw [Decimal.toList_negative, List.cons_append]
    exact unsigned_toDigits true (i + 1) ends (by simp)

/-! ## Arrays and objects -/

theorem skipBlanks_cons {c : Char} (h : isBlank c = false) (cs : List Char) :
    skipBlanks (c :: cs) = c :: cs :=
  List.dropWhile_cons_of_neg (by simp [h])

theorem skipBlanks_skipBlanks (cs : List Char) : skipBlanks (skipBlanks cs) = skipBlanks cs :=
  List.dropWhile_idempotent isBlank cs

theorem skipBlanks_writeLine (depth : Nat) (cs : List Char) :
    skipBlanks (writeLine depth cs) = skipBlanks cs := by
  have blanks : ∀ c ∈ '\n' :: List.replicate (2 * depth) ' ', isBlank c = true := by
    simp [isBlank]
  show (('\n' :: List.replicate (2 * depth) ' ') ++ cs).dropWhile isBlank = _
  exact List.dropWhile_append_of_pos blanks

theorem length_writeLine (depth : Nat) (cs : List Char) :
    (writeLine depth cs).length = 2 * depth + cs.length + 1 := by
  simp [writeLine]

theorem value_blanks {cs ds : List Char} (h : skipBlanks cs = skipBlanks ds) (n : Nat) :
    value n cs = value n ds := by
  cases n with
  | zero => rfl
  | succ n => rw [value, value, h]

theorem value_blank (n : Nat) (cs : List Char) : value n (' ' :: cs) = value n cs :=
  value_blanks (List.dropWhile_cons_of_pos rfl) n

theorem elements_blanks {cs ds : List Char} (h : skipBlanks cs = skipBlanks ds) (n : Nat)
    (done : List Json) : elements n done cs = elements n done ds := by
  cases n with
  | zero => rfl
  | succ n => rw [elements, elements, value_blanks h]

theorem fields_blanks {cs ds : List Char} (h : skipBlanks cs = skipBlanks ds) (n : Nat)
    (done : List (Option String × Json)) : fields n done cs = fields n done ds := by
  cases n with
  | zero => rfl
  | succ n => rw [fields, fields, h]

theorem delimits_writeLine (depth : Nat) (cs : List Char) : Delimits (writeLine depth cs) :=
  .inr rfl

theorem delimits_comma (cs : List Char) : Delimits (',' :: cs) :=
  .inl rfl

/-- A value that is read back from its text, at every depth and in front of every text that ends a
number. Two calls for each character are enough. -/
structure Legible (v : Json) : Prop where
  grows : ∀ depth rest, rest.length < (write depth rest v).length
  reads : ∀ depth {rest} {n}, Delimits rest → 2 * (write depth rest v).length ≤ n →
    value n (write depth rest v) = some (v, rest)

theorem elements_last {v : Json} (legible : Legible v) {depth outer n : Nat} (done : List Json)
    {rest : List Char}
    (bound : 2 * (write depth (writeLine outer (']' :: rest)) v).length ≤ n) :
    elements (n + 1) done (write depth (writeLine outer (']' :: rest)) v) =
      some (.arr (v :: done).reverse, rest) := by
  rw [elements, legible.reads depth (delimits_writeLine outer _) bound]
  simp [skipBlanks_writeLine, skipBlanks_cons, isBlank]

theorem elements_next {v : Json} (legible : Legible v) {depth n : Nat} (done : List Json)
    {rest : List Char} (bound : 2 * (write depth (',' :: writeLine depth rest) v).length ≤ n) :
    elements (n + 1) done (write depth (',' :: writeLine depth rest) v) =
      elements n (v :: done) rest := by
  rw [elements, legible.reads depth (delimits_comma _) bound]
  simp [skipBlanks_cons, isBlank, elements_blanks (skipBlanks_writeLine depth rest)]

theorem elements_write {v : Json} {vs : List Json} (legible : ∀ w ∈ v :: vs, Legible w)
    {depth outer n : Nat} (done : List Json) {rest : List Char}
    (bound : 2 * (write depth (writeItems depth (writeLine outer (']' :: rest)) vs) v).length ≤ n) :
    elements (n + 1) done (write depth (writeItems depth (writeLine outer (']' :: rest)) vs) v) =
      some (.arr (done.reverse ++ v :: vs), rest) := by
  have first := legible v (by simp)
  induction vs generalizing v n done with
  | nil =>
    rw [writeItems] at bound ⊢
    simpa using elements_last first done bound
  | cons w vs ih =>
    have others : ∀ u ∈ w :: vs, Legible u := fun u hu => legible u (List.mem_cons_of_mem v hu)
    have longer := first.grows depth (writeItems depth (writeLine outer (']' :: rest)) (w :: vs))
    rw [writeItems] at longer bound ⊢
    rw [elements_next first done bound]
    -- the comma and the new line pay for the call that has been made
    rw [List.length_cons, length_writeLine] at longer
    obtain ⟨n, rfl⟩ := Nat.exists_eq_add_one_of_ne_zero (show n ≠ 0 by omega)
    rw [ih others (v :: done) (by omega) (others w (by simp))]
    simp

theorem fields_last {v : Json} (legible : Legible v) (key : String) {depth outer n : Nat}
    (done : List (Option String × Json)) {rest : List Char}
    (bound : 2 * (write depth (writeLine outer ('\x7d' :: rest)) v).length ≤ n) :
    fields (n + 1) done
        (writeString (':' :: ' ' :: write depth (writeLine outer ('\x7d' :: rest)) v) (some key)) =
      some (.obj ((some key, v) :: done).reverse, rest) := by
  have data := legible.reads depth (delimits_writeLine outer _) bound
  rw [← value_blank] at data
  simp [fields, writeString, skipBlanks_cons, isBlank, string_escaped, data, skipBlanks_writeLine]

theorem fields_next {v : Json} (legible : Legible v) (key : String) {depth n : Nat}
    (done : List (Option String × Json)) {rest : List Char}
    (bound : 2 * (write depth (',' :: writeLine depth rest) v).length ≤ n) :
    fields (n + 1) done
        (writeString (':' :: ' ' :: write depth (',' :: writeLine depth rest) v) (some key)) =
      fields n ((some key, v) :: done) rest := by
  have data := legible.reads depth (delimits_comma _) bound
  rw [← value_blank] at data
  simp [fields, writeString, skipBlanks_cons, isBlank, string_escaped, data,
    fields_blanks (skipBlanks_writeLine depth rest)]

theorem length_writeString (rest : List Char) (key : String) :
    rest.length < (writeString rest (some key)).length := by
  simp only [writeString, List.length_cons, List.length_append]
  omega

theorem length_field (cs : List Char) (key : String) :
    cs.length + 2 < (writeString (':' :: ' ' :: cs) (some key)).length :=
  length_writeString (':' :: ' ' :: cs) key

theorem fields_write {key : String} {v : Json} {fs : List (Option String × Json)}
    (texts : ∀ f ∈ fs, f.1.isSome = true) (legible : ∀ f ∈ (some key, v) :: fs, Legible f.2)
    {depth outer n : Nat} (done : List (Option String × Json)) {rest : List Char}
    (bound : 2 * (write depth
      (writeFields depth (writeLine outer ('\x7d' :: rest)) fs) v).length ≤ n) :
    fields (n + 1) done
        (writeString (':' :: ' ' :: write depth
          (writeFields depth (writeLine outer ('\x7d' :: rest)) fs) v) (some key)) =
      some (.obj (done.reverse ++ (some key, v) :: fs), rest) := by
  have first : Legible v := legible (some key, v) (by simp)
  induction fs generalizing key v n done with
  | nil =>
    rw [writeFields] at bound ⊢
    simpa using fields_last first key done bound
  | cons f fs ih =>
    obtain ⟨_ | other, w⟩ := f
    · simpa using texts (none, w) (by simp)
    have others : ∀ f ∈ (some other, w) :: fs, Legible f.2 :=
      fun f hf => legible f (List.mem_cons_of_mem _ hf)
    have longer := first.grows depth
      (writeFields depth (writeLine outer ('\x7d' :: rest)) ((some other, w) :: fs))
    have inner := length_field
      (write depth (writeFields depth (writeLine outer ('\x7d' :: rest)) fs) w) other
    rw [writeFields] at longer bound ⊢
    rw [fields_next first key done bound]
    rw [List.length_cons, length_writeLine] at longer
    obtain ⟨n, rfl⟩ := Nat.exists_eq_add_one_of_ne_zero (show n ≠ 0 by omega)
    rw [ih (fun f hf => texts f (by simp [hf])) others ((some key, v) :: done) (by omega)
      (others (some other, w) (by simp))]
    simp

/-! ## Values -/

/-- Values whose numbers are integers and whose strings, names of fields included, are texts. -/
inductive Plain : Json → Prop
  | null : Plain .null
  | bool (b : Bool) : Plain (.bool b)
  | int (n : Int) : Plain (.int n)
  | str (s : String) : Plain (.str (some s))
  | arr {items : List Json} : (∀ v ∈ items, Plain v) → Plain (.arr items)
  | obj {fields : List (Option String × Json)} : (∀ f ∈ fields, f.1.isSome = true) →
      (∀ f ∈ fields, Plain f.2) → Plain (.obj fields)

theorem length_writeItems {vs : List Json} (legible : ∀ v ∈ vs, Legible v) (depth : Nat)
    (rest : List Char) : rest.length ≤ (writeItems depth rest vs).length := by
  induction vs with
  | nil => simp [writeItems]
  | cons v vs ih =>
    have tail := ih fun w hw => legible w (List.mem_cons_of_mem v hw)
    have longer := (legible v (by simp)).grows depth (writeItems depth rest vs)
    rw [writeItems, List.length_cons, length_writeLine]
    omega

theorem length_writeFields {fs : List (Option String × Json)}
    (texts : ∀ f ∈ fs, f.1.isSome = true) (legible : ∀ f ∈ fs, Legible f.2) (depth : Nat)
    (rest : List Char) : rest.length ≤ (writeFields depth rest fs).length := by
  induction fs with
  | nil => simp [writeFields]
  | cons f fs ih =>
    obtain ⟨_ | key, v⟩ := f
    · simpa using texts (none, v) (by simp)
    have tail := ih (fun w hw => texts w (List.mem_cons_of_mem _ hw))
      fun w hw => legible w (List.mem_cons_of_mem _ hw)
    have first : Legible v := legible (some key, v) (by simp)
    have longer := first.grows depth (writeFields depth rest fs)
    have inner := length_field (write depth (writeFields depth rest fs) v) key
    rw [writeFields, List.length_cons, length_writeLine]
    omega

theorem value_of_elements {n : Nat} {cs : List Char} {r : Json × List Char}
    (h : elements n [] cs = some r) : value (n + 1) ('[' :: cs) = some r := by
  simp only [value, skipBlanks_cons (c := '[') rfl]
  split
  · rename_i closing
    -- no value starts with the closing bracket
    cases n with
    | zero => simp [elements] at h
    | succ n =>
      cases n with
      | zero => simp [elements, value] at h
      | succ n => simp [elements, value, closing, number, unsigned, whole, digits] at h
  · rwa [elements_blanks (skipBlanks_skipBlanks cs)]

theorem value_of_fields {n : Nat} {cs : List Char} {r : Json × List Char}
    (h : fields n [] cs = some r) : value (n + 1) ('\x7b' :: cs) = some r := by
  simp only [value, skipBlanks_cons (c := '\x7b') rfl]
  split
  · rename_i closing
    cases n with
    | zero => simp [fields] at h
    | succ n => simp [fields, closing] at h
  · rwa [fields_blanks (skipBlanks_skipBlanks cs)]

theorem legible_arr {items : List Json} (legible : ∀ v ∈ items, Legible v) :
    Legible (.arr items) where
  grows depth rest := by
    cases items with
    | nil =>
      rw [write, List.length_cons, List.length_cons]
      omega
    | cons v vs =>
      have tail := length_writeItems (fun w hw => legible w (List.mem_cons_of_mem v hw)) (depth + 1)
        (writeLine depth (']' :: rest))
      have longer := (legible v (by simp)).grows (depth + 1)
        (writeItems (depth + 1) (writeLine depth (']' :: rest)) vs)
      rw [length_writeLine, List.length_cons] at tail
      rw [write, List.length_cons, length_writeLine]
      omega
  reads depth {rest n} ends bound := by
    cases items with
    | nil =>
      rw [write, List.length_cons] at bound
      obtain ⟨n, rfl⟩ := Nat.exists_eq_add_one_of_ne_zero (show n ≠ 0 by omega)
      simp [write, value, skipBlanks_cons, isBlank]
    | cons v vs =>
      rw [write, List.length_cons, length_writeLine] at bound
      obtain ⟨n, rfl⟩ := Nat.exists_eq_add_of_le' (show 2 ≤ n by omega)
      rw [write]
      apply value_of_elements
      rw [elements_blanks (skipBlanks_writeLine _ _)]
      exact elements_write legible [] (by omega)

theorem legible_obj {fs : List (Option String × Json)} (texts : ∀ f ∈ fs, f.1.isSome = true)
    (legible : ∀ f ∈ fs, Legible f.2) : Legible (.obj fs) where
  grows depth rest := by
    rcases fs with _ | ⟨⟨_ | key, v⟩, fs⟩
    · rw [write, List.length_cons, List.length_cons]
      omega
    · simpa using texts (none, v) (by simp)
    · have tail := length_writeFields (fun f hf => texts f (List.mem_cons_of_mem _ hf))
        (fun f hf => legible f (List.mem_cons_of_mem _ hf)) (depth + 1)
        (writeLine depth ('\x7d' :: rest))
      have first : Legible v := legible (some key, v) (by simp)
      have longer := first.grows (depth + 1)
        (writeFields (depth + 1) (writeLine depth ('\x7d' :: rest)) fs)
      have inner := length_field
        (write (depth + 1) (writeFields (depth + 1) (writeLine depth ('\x7d' :: rest)) fs) v) key
      rw [length_writeLine, List.length_cons] at tail
      rw [write, List.length_cons, length_writeLine]
      omega
  reads depth {rest n} ends bound := by
    rcases fs with _ | ⟨⟨_ | key, v⟩, fs⟩
    · rw [write, List.length_cons] at bound
      obtain ⟨n, rfl⟩ := Nat.exists_eq_add_one_of_ne_zero (show n ≠ 0 by omega)
      simp [write, value, skipBlanks_cons, isBlank]
    · simpa using texts (none, v) (by simp)
    · have inner := length_field
        (write (depth + 1) (writeFields (depth + 1) (writeLine depth ('\x7d' :: rest)) fs) v) key
      rw [write, List.length_cons, length_writeLine] at bound
      obtain ⟨n, rfl⟩ := Nat.exists_eq_add_of_le' (show 2 ≤ n by omega)
      rw [write]
      apply value_of_fields
      rw [fields_blanks (skipBlanks_writeLine _ _)]
      exact fields_write (fun f hf => texts f (List.mem_cons_of_mem _ hf)) legible [] (by omega)

theorem legible_scalar {v : Json} (grows : ∀ depth rest, rest.length < (write depth rest v).length)
    (reads : ∀ depth rest n, Delimits rest → value (n + 1) (write depth rest v) = some (v, rest)) :
    Legible v where
  grows := grows
  reads depth {rest n} ends bound := by
    have longer := grows depth rest
    obtain ⟨n, rfl⟩ := Nat.exists_eq_add_one_of_ne_zero (show n ≠ 0 by omega)
    exact reads depth rest n ends

theorem Plain.legible {v : Json} (plain : Plain v) : Legible v := by
  induction plain with
  | null =>
    apply legible_scalar
    · intro depth rest
      simp only [write, List.length_cons]
      omega
    · intro depth rest n _
      simp [write, value, skipBlanks_cons, isBlank]
  | bool b =>
    apply legible_scalar
    · intro depth rest
      cases b <;> simp only [write, List.length_cons] <;> omega
    · intro depth rest n _
      cases b <;> simp [write, value, skipBlanks_cons, isBlank]
  | int i =>
    apply legible_scalar
    · intro depth rest
      have nonempty : (toString i).toList ≠ [] := by
        cases i with
        | ofNat i => exact Decimal.toList_natural i ▸ Nat.toDigits_ne_nil
        | negSucc i => exact Decimal.toList_negative i ▸ List.cons_ne_nil _ _
      have := List.length_pos_of_ne_nil nonempty
      rw [write, List.length_append]
      omega
    · intro depth rest n ends
      rw [write, value_int n i ends]
  | str s =>
    apply legible_scalar
    · intro depth rest
      rw [write]
      exact length_writeString rest s
    · intro depth rest n _
      simp [write, writeString, value, skipBlanks_cons, isBlank, string_escaped]
  | arr _ ih => exact legible_arr ih
  | obj texts _ ih => exact legible_obj texts ih

/-- Reading takes the text of a value back to the value. -/
theorem parse?_render {v : Json} (plain : Plain v) : parse? v.render = some v := by
  have read := plain.legible.reads 0 (show Delimits [] from trivial) (Nat.le_add_right _ 2)
  simp [parse?, render, read, skipBlanks]

end Straightline.Json
