import Mathlib.Data.List.Perm.Basic

/-!
# Exchange sort

The double loop that compares each position with every later one and swaps the two entries when
the later one comes first. One run of the inner loop is a `sweep`.
-/

namespace Foundation

open List
namespace ExchangeSort

variable {α : Type*} (less : α → α → Bool)

/-- The inner loop at one position: the entry left there and the entries behind it. -/
def sweep (current : α) : List α → α × List α
  | [] => (current, [])
  | later :: rest =>
    if less later current then
      ((sweep later rest).1, current :: (sweep later rest).2)
    else
      ((sweep current rest).1, later :: (sweep current rest).2)

/-- The outer loop over the first `fuel` positions. -/
def sortFuel : Nat → List α → List α
  | 0, items => items
  | _ + 1, [] => []
  | fuel + 1, current :: rest =>
    (sweep less current rest).1 :: sortFuel fuel (sweep less current rest).2

/-- Sort a list by exchanging entries that are out of order. -/
def sort (items : List α) : List α := sortFuel less items.length items

@[simp]
theorem length_sweep (current : α) (rest : List α) :
    (sweep less current rest).2.length = rest.length := by
  induction rest generalizing current with
  | nil => rfl
  | cons later rest induction =>
    simp only [sweep]
    split <;> simp [induction]

theorem sweep_perm (current : α) (rest : List α) :
    ((sweep less current rest).1 :: (sweep less current rest).2).Perm (current :: rest) := by
  induction rest generalizing current with
  | nil => exact .refl _
  | cons later rest induction =>
    simp only [sweep]
    split
    · exact (List.Perm.swap current _ _).trans ((induction later).cons current)
    · exact (List.Perm.swap later _ _).trans
        (((induction current).cons later).trans (List.Perm.swap current later rest))

theorem sortFuel_perm (fuel : Nat) (items : List α) : (sortFuel less fuel items).Perm items := by
  induction fuel generalizing items with
  | zero => exact .refl _
  | succ fuel induction =>
    cases items with
    | nil => exact .refl _
    | cons current rest =>
      exact ((induction _).cons _).trans (sweep_perm less current rest)

theorem sort_perm (items : List α) : (sort less items).Perm items :=
  sortFuel_perm less items.length items

section Sorted

variable (notLess_refl : ∀ a, less a a = false)
  (notLess_of_less : ∀ a b, less a b = true → less b a = false)
  (notLess_trans : ∀ a b c, less b a = false → less c b = false → less c a = false)

include notLess_refl notLess_of_less notLess_trans

theorem sweep_least (current : α) (rest : List α) :
    ∀ item ∈ current :: rest, less item (sweep less current rest).1 = false := by
  induction rest generalizing current with
  | nil =>
    intro item member
    obtain rfl := mem_singleton.mp member
    exact notLess_refl item
  | cons later rest induction =>
    intro item member
    simp only [sweep]
    split
    · rename_i earlier
      have laterLeast := induction later later mem_cons_self
      rcases mem_cons.mp member with rfl | member
      · exact notLess_trans _ _ _ laterLeast (notLess_of_less _ _ earlier)
      · exact induction later item member
    rename_i ordered
    have currentLeast := induction current current mem_cons_self
    rcases mem_cons.mp member with rfl | member
    · exact currentLeast
    rcases mem_cons.mp member with rfl | member
    · exact notLess_trans _ _ _ currentLeast (by simpa using ordered)
    · exact induction current item (mem_cons_of_mem _ member)

theorem sortFuel_sorted (fuel : Nat) (items : List α) (enough : items.length ≤ fuel) :
    (sortFuel less fuel items).Pairwise fun earlier later => less later earlier = false := by
  induction fuel generalizing items with
  | zero =>
    obtain rfl : items = [] := eq_nil_of_length_eq_zero (by omega)
    exact List.Pairwise.nil
  | succ fuel induction =>
    cases items with
    | nil => exact List.Pairwise.nil
    | cons current rest =>
      simp only [sortFuel]
      refine List.Pairwise.cons ?_ (induction _ (by simpa using enough))
      intro item member
      have swept : item ∈ (sweep less current rest).1 :: (sweep less current rest).2 :=
        mem_cons_of_mem _ ((sortFuel_perm less fuel _).mem_iff.mp member)
      exact sweep_least less notLess_refl notLess_of_less notLess_trans current rest item
        ((sweep_perm less current rest).mem_iff.mp swept)

theorem sort_sorted (items : List α) :
    (sort less items).Pairwise fun earlier later => less later earlier = false :=
  sortFuel_sorted less notLess_refl notLess_of_less notLess_trans items.length items (Nat.le_refl _)

end Sorted

end ExchangeSort
end Foundation
