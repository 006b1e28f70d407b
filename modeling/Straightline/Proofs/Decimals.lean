import Straightline.Decimal

/-!
# Decimal texts are read back

The digits of a number have it as their value and no needless zero in front, and reading takes the
text of a word back to the word (`read?_text`).
-/
namespace Straightline.Decimal

theorem value_append (digits : List Char) (c : Char) :
    value (digits ++ [c]) = 10 * value digits + (c.toNat - '0'.toNat) := by
  simp [value]

theorem toNat_digitChar {d : Nat} (h : d < 10) : d.digitChar.toNat - '0'.toNat = d := by
  have (i : Fin 10) : (i : Nat).digitChar.toNat - '0'.toNat = i := by
    revert i; decide
  exact this ⟨d, h⟩

theorem value_toDigits (n : Nat) : value (Nat.toDigits 10 n) = n := by
  induction n using Nat.strongRecOn with
  | ind n ih =>
    rw [Nat.toDigits_eq_if (by decide)]
    split
    · rename_i small
      simpa [value] using toNat_digitChar small
    · rw [value_append, ih (n / 10) (by omega), toNat_digitChar (Nat.mod_lt n (by decide))]
      omega

theorem eq_zero_of_toDigits {n : Nat} {rest : List Char} (h : Nat.toDigits 10 n = '0' :: rest) :
    n = 0 := by
  induction n using Nat.strongRecOn generalizing rest with
  | ind n ih =>
    rw [Nat.toDigits_eq_if (by decide)] at h
    split at h
    · rename_i small
      have value := toNat_digitChar small
      rw [(List.cons.inj h).1] at value
      exact value.symm
    · obtain ⟨c, cs, digits⟩ :=
        List.exists_cons_of_ne_nil (Nat.toDigits_ne_nil (b := 10) (n := n / 10))
      rw [digits, List.cons_append] at h
      rw [(List.cons.inj h).1] at digits
      have := ih (n / 10) (by omega) digits
      omega

theorem isDigit_of_mem_toDigits {n : Nat} {c : Char} (h : c ∈ Nat.toDigits 10 n) :
    c.isDigit = true :=
  Nat.isDigit_of_mem_toDigits (by decide) (by decide) h

theorem natural?_toDigits (n : Nat) : natural? (Nat.toDigits 10 n) = some n := by
  have digits : (Nat.toDigits 10 n).all Char.isDigit = true :=
    List.all_eq_true.mpr fun _ => isDigit_of_mem_toDigits
  simp [natural?, digits, Nat.toDigits_ne_nil, value_toDigits]

theorem integer?_toDigits (n : Nat) : integer? (Nat.toDigits 10 n) = some (n : Int) := by
  have unsigned (c : Char) (hc : c.isDigit = false) : ∀ rest, Nat.toDigits 10 n ≠ c :: rest := by
    intro rest h
    have digit := isDigit_of_mem_toDigits (n := n) (c := c) (by simp [h])
    simp [hc] at digit
  unfold integer?
  split
  · exact absurd ‹_› (unsigned '-' (by decide) _)
  · exact absurd ‹_› (unsigned '+' (by decide) _)
  · simp [natural?_toDigits]

theorem toList_natural (n : Nat) : (toString (n : Int)).toList = Nat.toDigits 10 n := by
  show n.repr.toList = _
  exact Nat.toList_repr

theorem toList_negative (n : Nat) :
    (toString (Int.negSucc n)).toList = '-' :: Nat.toDigits 10 (n + 1) := by
  show ("-" ++ (n + 1).repr).toList = _
  simp

theorem integer?_toString (n : Int) : integer? (toString n).toList = some n := by
  cases n with
  | ofNat n => exact toList_natural n ▸ integer?_toDigits n
  | negSucc n =>
    rw [toList_negative, integer?, natural?_toDigits]
    rfl

/-- Reading takes the text of a word back to the word. -/
theorem read?_text (n : Int64) : read? (text n) = some n := by
  rw [read?, text, integer?_toString, Option.bind_some, word?,
    if_pos ⟨n.minValue_le_toInt, n.toInt_le⟩, Int64.ofInt_toInt]

end Straightline.Decimal
