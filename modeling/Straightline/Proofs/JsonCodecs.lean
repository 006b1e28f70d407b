import Mathlib.Algebra.Ring.Nat
import Mathlib.Data.List.Basic
import Straightline.Json.Decode
import Straightline.Proofs.JsonText

/-!
# How typed values are stored

How a type is stored says what is written for its members, how they are read, and which of them fit
(`Stores`): those whose numbers are machine words. A list or a pair is stored by what stands in it,
and a record is read by the names of its fields (`allFields?_record`).
-/
namespace Straightline.Json

/-- The members of a type that fit are read back from what is written for them, and only such are
ever read. -/
structure Stores {α : Type} (toJson : α → Json) (ofJson? : Json → Option α) (fits : α → Prop) :
    Prop where
  plain : ∀ a, Plain (toJson a)
  reads : ∀ a, fits a → ofJson? (toJson a) = some a
  fits : ∀ {v a}, ofJson? v = some a → fits a

variable {α β : Type} {toJson : α → Json} {ofJson? : Json → Option α} {fits : α → Prop}
  {toJson' : β → Json} {ofJson'? : Json → Option β} {fits' : β → Prop}

def IsWord (n : Nat) : Prop :=
  n < 2 ^ 64

theorem size?_int (i : Int) {n : Nat} : (int i).size? = some n ↔ i = n ∧ IsWord n := by
  have bound : Int.pow 2 64 = 2 ^ 64 := rfl
  rw [size?, bound, IsWord]
  split
  · rw [Option.some.injEq]
    omega
  · refine iff_of_false (by simp) ?_
    omega

theorem stores_size : Stores nat size? IsWord where
  plain n := .int n
  reads n small := (size?_int n).mpr ⟨rfl, small⟩
  fits {v n} h := by
    cases v with
    | int i => exact ((size?_int i).mp h).2
    | _ => cases h

theorem mapM_eq_some_map {f : α → Option β} {g : α → β} {as : List α}
    (h : ∀ a ∈ as, f a = some (g a)) : as.mapM f = some (as.map g) := by
  induction as with
  | nil => rfl
  | cons a as ih => simp_all

theorem exists_of_mapM_eq_some {vs : List Json} {as : List α} (h : vs.mapM ofJson? = some as) :
    ∀ a ∈ as, ∃ v, ofJson? v = some a := by
  induction vs generalizing as with
  | nil => simp_all
  | cons v vs ih =>
    simp only [List.mapM_cons, Option.bind_eq_bind, Option.bind_eq_some_iff] at h
    obtain ⟨a, first, rest, further, h⟩ := h
    cases h
    intro b hb
    rcases List.mem_cons.mp hb with rfl | hb
    · exact ⟨v, first⟩
    · exact ih further b hb

theorem Stores.list (stores : Stores toJson ofJson? fits) :
    Stores (fun as => .arr (as.map toJson)) (list? ofJson?) (∀ a ∈ ·, fits a) where
  plain as := .arr (by simpa using fun a _ => stores.plain a)
  reads as fit := by
    rw [list?, List.mapM_map]
    simpa using mapM_eq_some_map (f := ofJson? ∘ toJson) fun a ha => stores.reads a (fit a ha)
  fits {v as} h := by
    cases v with
    | arr items =>
      intro a ha
      obtain ⟨w, read⟩ := exists_of_mapM_eq_some h a ha
      exact stores.fits read
    | _ => cases h

theorem Stores.pair (first : Stores toJson ofJson? fits) (second : Stores toJson' ofJson'? fits') :
    Stores (fun p => .arr [toJson p.1, toJson' p.2]) (pair? ofJson? ofJson'?)
      (fun p => fits p.1 ∧ fits' p.2) where
  plain p := .arr (by simp [first.plain, second.plain])
  reads p fit := by simp [pair?, first.reads p.1 fit.1, second.reads p.2 fit.2]
  fits {v p} h := by
    unfold pair? at h
    split at h
    · simp only [Option.bind_eq_bind, Option.bind_eq_some_iff] at h
      obtain ⟨a, left, b, right, h⟩ := h
      cases h
      exact ⟨first.fits left, second.fits right⟩
    · cases h

/-! ## Records and choices -/

theorem plain_record {fields : List (String × Json)} (h : ∀ f ∈ fields, Plain f.2) :
    Plain (record fields) :=
  .obj (List.forall_mem_map.mpr fun _ _ => rfl) (List.forall_mem_map.mpr h)

theorem choice?_nat (name : String) (n : Nat) :
    (record [(name, nat n)]).choice? = some (name, some (nat n)) :=
  rfl

theorem filter_name {fields : List (String × Json)} (distinct : (fields.map (·.1)).Nodup)
    {f : String × Json} (hf : f ∈ fields) : fields.filter (·.1 == f.1) = [f] := by
  induction fields with
  | nil => cases hf
  | cons a fields ih =>
    rw [List.map_cons, List.nodup_cons] at distinct
    obtain ⟨fresh, distinct⟩ := distinct
    rcases List.mem_cons.mp hf with rfl | hf
    · have others : ∀ g ∈ fields, g.1 ≠ f.1 := by
        intro g hg same
        rw [← same] at fresh
        exact fresh (List.mem_map_of_mem hg)
      simpa [List.filter_eq_nil_iff] using others
    · have other : a.1 ≠ f.1 := by
        intro same
        rw [same] at fresh
        exact fresh (List.mem_map_of_mem hf)
      simpa [other] using ih distinct hf

theorem field?_record {fields : List (String × Json)} (distinct : (fields.map (·.1)).Nodup)
    {f : String × Json} (hf : f ∈ fields) :
    field? (fields.map fun f => (some f.1, f.2)) f.1 = some (some f.2) := by
  have here := congrArg (List.map fun f => (some f.1, f.2)) (filter_name distinct hf)
  rw [field?, List.filter_map]
  simp only [Function.comp_def, Option.some_beq_some, here, List.map_singleton]

theorem allFields?_record (fields : List (String × Json)) (distinct : (fields.map (·.1)).Nodup) :
    (record fields).allFields? (fields.map (·.1)) = some (fields.map (·.2)) := by
  have named : (fields.map (·.1)).mapM (field? (fields.map fun f => (some f.1, f.2))) =
      some (fields.map fun f => some f.2) := by
    rw [List.mapM_map]
    exact mapM_eq_some_map fun f hf => field?_record distinct hf
  have present : (fields.map fun f => some f.2).mapM id = some (fields.map (·.2)) := by
    rw [List.mapM_map]
    exact mapM_eq_some_map fun f _ => rfl
  simp [allFields?, record, fields?, named, present]

end Straightline.Json
