import Mathlib.Data.List.Sort
import ScriptGraph.Graph

namespace ScriptGraph

namespace Order

theorem eq_of_toBits {x y : Float} (h : x.toBits = y.toBits) : x = y := by
  obtain ⟨⟨bits, valid⟩⟩ := x
  obtain ⟨⟨bits', valid'⟩⟩ := y
  obtain rfl : bits = bits' := h
  rfl

theorem key_injective : Function.Injective key := by
  intro x y h
  have hx : x.toBits.toNat < UInt64.size := x.toBits.toNat_lt_size
  have hy : y.toBits.toNat < UInt64.size := y.toBits.toNat_lt_size
  simp only [key, UInt64.size] at h hx hy
  apply eq_of_toBits
  apply UInt64.toNat_inj.mp
  split at h <;> split at h <;> omega

section

variable {α : Type} {le : α → α → Bool}

theorem sort_eq_insertionSort (le : α → α → Bool) (l : List α) : sort le l = l.insertionSort (le · · = true) := by
  have hinsert (a : α) (l : List α) : insert le a l = l.orderedInsert (le · · = true) a := by
    induction l with
    | nil => rfl
    | cons b l ih => rw [insert, List.orderedInsert_cons, ih]
  induction l with
  | nil => rfl
  | cons a l ih => rw [sort, List.insertionSort_cons, ih, hinsert]

theorem mem_sort {a : α} {l : List α} : a ∈ sort le l ↔ a ∈ l := by
  rw [sort_eq_insertionSort, List.mem_insertionSort]

theorem sort_map {β : Type} (f : β → α) (le : α → α → Bool) (l : List β) :
    sort le (l.map f) = (sort (fun a b => le (f a) (f b)) l).map f := by
  rw [sort_eq_insertionSort, sort_eq_insertionSort]
  exact (List.map_insertionSort _ _ f l fun _ _ _ _ => Iff.rfl).symm

/-- The items can be put into ascending order. -/
structure IsPreorder (le : α → α → Bool) : Prop where
  total : ∀ a b, le a b = true ∨ le b a = true
  trans : ∀ {a b c}, le a b = true → le b c = true → le a c = true

theorem IsPreorder.comap {β : Type} (h : IsPreorder le) (f : β → α) : IsPreorder fun a b => le (f a) (f b) :=
  ⟨fun a b => h.total (f a) (f b), h.trans⟩

theorem IsPreorder.pairwise_sort (h : IsPreorder le) (l : List α) : (sort le l).Pairwise (le · · = true) := by
  have : Std.Total (le · · = true) := ⟨h.total⟩
  have : IsTrans α (le · · = true) := ⟨fun _ _ _ => h.trans⟩
  rw [sort_eq_insertionSort]
  exact List.pairwise_insertionSort _ l

/-- What the sorted items are mapped to does not depend on their order before, if items of equal rank
are mapped to the same. -/
theorem map_sort_eq_of_perm {β : Type} {f : β → α} (h : IsPreorder le) {l l' : List β} (hperm : l.Perm l')
    (hanti : ∀ a ∈ l, ∀ b ∈ l, le (f a) (f b) = true → le (f b) (f a) = true → f a = f b) :
    (sort (fun a b => le (f a) (f b)) l).map f = (sort (fun a b => le (f a) (f b)) l').map f := by
  have hsorted (l : List β) : ((sort (fun a b => le (f a) (f b)) l).map f).Pairwise (le · · = true) :=
    List.pairwise_map.mpr ((h.comap f).pairwise_sort l)
  have hsame (l : List β) : (sort (fun a b => le (f a) (f b)) l).Perm l := by
    rw [sort_eq_insertionSort]
    exact List.perm_insertionSort _ l
  apply List.Perm.eq_of_pairwise _ (hsorted l) (hsorted l')
  · exact (((hsame l).trans hperm).trans (hsame l').symm).map f
  · intro a b ha hb hab hba
    obtain ⟨c, hc, rfl⟩ := List.mem_map.mp ha
    obtain ⟨d, hd, rfl⟩ := List.mem_map.mp hb
    exact hanti c ((hsame l).subset hc) d (hperm.symm.subset ((hsame l').subset hd)) hab hba

end

end Order

namespace Point

theorem columnsFirst_iff {p q : Point} : p.columnsFirst q = true ↔ Order.key p.x < Order.key q.x ∨
    Order.key p.x = Order.key q.x ∧ Order.key p.y ≤ Order.key q.y := by
  simp [columnsFirst]

theorem rowsFirst_iff {p q : Point} : p.rowsFirst q = true ↔ Order.key p.y < Order.key q.y ∨
    Order.key p.y = Order.key q.y ∧ Order.key p.x ≤ Order.key q.x := by
  simp [rowsFirst]

theorem isPreorder_columnsFirst : Order.IsPreorder columnsFirst where
  total p q := by
    rw [columnsFirst_iff, columnsFirst_iff]
    omega
  trans hpq hqr := by
    rw [columnsFirst_iff] at hpq hqr ⊢
    omega

theorem isPreorder_rowsFirst : Order.IsPreorder rowsFirst where
  total p q := by
    rw [rowsFirst_iff, rowsFirst_iff]
    omega
  trans hpq hqr := by
    rw [rowsFirst_iff] at hpq hqr ⊢
    omega

theorem eq_of_keys {p q : Point} (hx : Order.key p.x = Order.key q.x)
    (hy : Order.key p.y = Order.key q.y) : p = q := by
  obtain ⟨x, y⟩ := p
  obtain ⟨x', y'⟩ := q
  obtain rfl := Order.key_injective hx
  obtain rfl := Order.key_injective hy
  rfl

theorem eq_of_columnsFirst {p q : Point} (hpq : p.columnsFirst q = true) (hqp : q.columnsFirst p = true) :
    p = q := by
  rw [columnsFirst_iff] at hpq hqp
  exact eq_of_keys (by omega) (by omega)

theorem eq_of_rowsFirst {p q : Point} (hpq : p.rowsFirst q = true) (hqp : q.rowsFirst p = true) : p = q := by
  rw [rowsFirst_iff] at hpq hqp
  exact eq_of_keys (by omega) (by omega)

end Point

end ScriptGraph
