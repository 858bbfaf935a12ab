/-!
Sorting lists. Items of which none comes before the other stay in their order.
-/

namespace CodeAtlas.Sorting

variable {α : Type}

/-- Puts an item in front of the first one that it may stand before. -/
def insert (le : α → α → Bool) (a : α) : List α → List α
  | [] => [a]
  | b :: rest => if le a b then a :: b :: rest else b :: insert le a rest

/-- The items in order. -/
def sort (le : α → α → Bool) (as : List α) : List α := as.foldr (insert le) []

theorem insert_perm (le : α → α → Bool) (a : α) (as : List α) :
    (insert le a as).Perm (a :: as) := by
  induction as with
  | nil => exact .refl _
  | cons b rest ih =>
    rw [insert]
    split
    · exact .refl _
    · exact (ih.cons b).trans (.swap a b rest)

theorem sort_perm (le : α → α → Bool) (as : List α) : (sort le as).Perm as := by
  induction as with
  | nil => exact .refl _
  | cons a rest ih => exact (insert_perm le a _).trans (ih.cons a)

theorem pairwise_insert {le : α → α → Bool} (htotal : ∀ a b, le a b = true ∨ le b a = true)
    (htrans : ∀ a b c, le a b = true → le b c = true → le a c = true) (a : α) {as : List α}
    (h : as.Pairwise fun x y => le x y = true) :
    (insert le a as).Pairwise fun x y => le x y = true := by
  induction as with
  | nil => exact List.pairwise_singleton _ a
  | cons b rest ih =>
    obtain ⟨hb, hrest⟩ := List.pairwise_cons.mp h
    rw [insert]
    split
    · next hab =>
      refine List.pairwise_cons.mpr ⟨fun c hc => ?_, h⟩
      rcases List.mem_cons.mp hc with rfl | hc
      · exact hab
      · exact htrans a b c hab (hb c hc)
    · next hab =>
      refine List.pairwise_cons.mpr ⟨fun c hc => ?_, ih hrest⟩
      rcases List.mem_cons.mp ((insert_perm le a rest).mem_iff.mp hc) with rfl | hc
      · exact (htotal b c).resolve_right hab
      · exact hb c hc

/-- What has been sorted is in order. -/
theorem pairwise_sort {le : α → α → Bool} (htotal : ∀ a b, le a b = true ∨ le b a = true)
    (htrans : ∀ a b c, le a b = true → le b c = true → le a c = true) (as : List α) :
    (sort le as).Pairwise fun x y => le x y = true := by
  induction as with
  | nil => exact .nil
  | cons a rest ih => exact pairwise_insert htotal htrans a ih

end CodeAtlas.Sorting
