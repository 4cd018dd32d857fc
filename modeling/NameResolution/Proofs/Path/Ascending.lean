import Mathlib.Data.List.Basic
import NameResolution.Path.Order

/-!
# Ascending lists of paths

`sortDistinct` hands out a list in ascending order and each value once
(`pairwise_sortDistinct`), and of values that are one for the order it keeps one. Paths
are one for their order exactly when they have the same components
(`Path.compare_eq_iff`), so nothing is lost from a list in which the components tell the
paths apart (`mem_sortDistinct`).
-/

namespace NameResolution

section Sorting

variable {α : Type} {cmp : α → α → Ordering}

/-- Inserting brings in nothing but what is inserted. -/
theorem mem_of_mem_insertSorted {a b : α} {l : List α} (h : b ∈ insertSorted cmp a l) :
    b = a ∨ b ∈ l := by
  induction l with
  | nil => exact .inl (List.mem_singleton.mp h)
  | cons c l ih =>
    rw [insertSorted] at h
    split at h
    next => exact List.mem_cons.mp h
    next => exact .inr h
    next =>
      rcases List.mem_cons.mp h with rfl | h
      · exact .inr List.mem_cons_self
      · exact (ih h).imp id (List.mem_cons_of_mem _)

/-- What is put in is there, unless another value was there that is the same for the order. -/
theorem mem_insertSorted {a b : α} {l : List α} (heq : ∀ c ∈ l, cmp a c = .eq → a = c) :
    b ∈ insertSorted cmp a l ↔ b = a ∨ b ∈ l := by
  refine ⟨mem_of_mem_insertSorted, ?_⟩
  induction l with
  | nil => simp [insertSorted]
  | cons c l ih =>
    intro h
    rw [insertSorted]
    split
    next => exact List.mem_cons.mpr h
    next hc =>
      have hac : a = c := heq c List.mem_cons_self hc
      rcases h with rfl | h
      · exact hac ▸ List.mem_cons_self
      · exact h
    next =>
      have hrest : b = a ∨ b ∈ l → b ∈ c :: insertSorted cmp a l := fun h =>
        List.mem_cons_of_mem _ (ih (fun d hd => heq d (List.mem_cons_of_mem _ hd)) h)
      rcases h with h | h
      · exact hrest (.inl h)
      · rcases List.mem_cons.mp h with rfl | h
        · exact List.mem_cons_self
        · exact hrest (.inr h)

/-- Sorting brings in nothing. -/
theorem mem_of_mem_sortDistinct {a : α} {l : List α} (h : a ∈ sortDistinct cmp l) : a ∈ l := by
  induction l with
  | nil => exact h
  | cons b l ih =>
    rcases mem_of_mem_insertSorted h with rfl | h
    · exact List.mem_cons_self
    · exact List.mem_cons_of_mem _ (ih h)

/-- Nothing is lost from a list in which no two values are the same for the order. -/
theorem mem_sortDistinct {a : α} {l : List α} (heq : ∀ b ∈ l, ∀ c ∈ l, cmp b c = .eq → b = c) :
    a ∈ sortDistinct cmp l ↔ a ∈ l := by
  induction l with
  | nil => rfl
  | cons b l ih =>
    have hfirst : ∀ c ∈ sortDistinct cmp l, cmp b c = .eq → b = c := fun c hc =>
      heq b List.mem_cons_self c (List.mem_cons_of_mem _ (mem_of_mem_sortDistinct hc))
    have hrest := ih fun c hc d hd =>
      heq c (List.mem_cons_of_mem _ hc) d (List.mem_cons_of_mem _ hd)
    show a ∈ insertSorted cmp b (sortDistinct cmp l) ↔ _
    rw [mem_insertSorted hfirst, hrest, List.mem_cons]

variable [Std.TransCmp cmp]

/-- Inserting keeps a list ascending, without repeats. -/
theorem pairwise_insertSorted {a : α} {l : List α} (h : l.Pairwise fun b c => cmp b c = .lt) :
    (insertSorted cmp a l).Pairwise fun b c => cmp b c = .lt := by
  induction l with
  | nil => exact List.pairwise_singleton _ a
  | cons b l ih =>
    have hb := List.pairwise_cons.mp h
    rw [insertSorted]
    split
    next hlt =>
      refine List.pairwise_cons.mpr ⟨fun c hc => ?_, h⟩
      rcases List.mem_cons.mp hc with rfl | hc
      · exact hlt
      · exact Std.TransCmp.lt_trans hlt (hb.1 c hc)
    next => exact h
    next hgt =>
      refine List.pairwise_cons.mpr ⟨fun c hc => ?_, ih hb.2⟩
      rcases mem_of_mem_insertSorted hc with rfl | hc
      · exact Std.OrientedCmp.gt_iff_lt.mp hgt
      · exact hb.1 c hc

/-- Lists are handed out in ascending order, without repeats. -/
theorem pairwise_sortDistinct (l : List α) :
    (sortDistinct cmp l).Pairwise fun a b => cmp a b = .lt := by
  induction l with
  | nil => exact List.Pairwise.nil
  | cons a l ih => exact pairwise_insertSorted ih

end Sorting

/-! ## The order of paths -/

/-- Components that weigh the same are the same. -/
theorem Component.weight_injective : Function.Injective Component.weight := by
  intro c d h
  cases c with
  | name t =>
    cases d with
    | name u =>
      have hchars : t.map Char.toNat = u.map Char.toNat := (List.cons.inj h).2
      have hinj : Function.Injective Char.toNat := fun _ _ => Char.toNat_inj.mp
      rw [List.map_injective_iff.mpr hinj hchars]
    | _ => simp [weight] at h
  | _ => cases d <;> simp_all [weight]

namespace Path

instance : Std.TransCmp Path.compare := inferInstanceAs (Std.TransCmp (compareOn Path.weight))

/-- Paths are one for their order when they have the same components. -/
theorem compare_eq_iff {p q : Path} : p.compare q = .eq ↔ p.components = q.components := by
  unfold Path.compare
  rw [Std.compare_eq_iff_eq]
  exact (List.map_injective_iff.mpr Component.weight_injective).eq_iff

end Path

end NameResolution
