/-
  QuantumProgram — lists put together one element at a time.

  `Rearranged R l l'` says that `l'` is put together from the elements of `l`
  in turn, each going in front of elements that it may pass by `R`.  Both the
  sort and the packing do this.  Then `l'` holds the elements of `l`, place by
  place (`Rearranged.exists_places`), a pair that is turned round may pass, and
  products over a monoid agree if elements that may pass commute there
  (`Rearranged.prod_eq`).  A relation between elements and later ones is kept if
  elements that may pass have it both ways (`Rearranged.pairwise_iff`).
-/
import Mathlib.Data.List.FinRange
import Mathlib.Data.List.NodupEquivFin
import Mathlib.Algebra.BigOperators.Group.List.Basic
import QuantumProgram.Proofs.Dependence

namespace QuantumProgram

variable {α : Type}

/-- `Rearranged R l l'`: the list `l'` is put together from the elements of `l`
    in turn, where `x` goes in front of `after` only if `R y x` for each `y` of
    `after`. -/
inductive Rearranged (R : α → α → Prop) : List α → List α → Prop
  | nil : Rearranged R [] []
  | insert {l before after : List α} (x : α) (h : Rearranged R l (before ++ after))
      (hR : ∀ y ∈ after, R y x) : Rearranged R (l ++ [x]) (before ++ x :: after)

namespace Rearranged

variable {R : α → α → Prop} {l l' : List α}

theorem perm (h : Rearranged R l l') : l'.Perm l := by
  induction h with
  | nil => exact .nil
  | @insert l before after x _ _ ih =>
    exact List.perm_middle.trans ((ih.cons x).trans (List.perm_append_singleton x l).symm)

/-- **Products agree if elements that may pass commute.** -/
theorem prod_eq {M : Type*} [Monoid M] {φ : α → M}
    (hR : ∀ x ∈ l, ∀ y ∈ l, R x y → φ x * φ y = φ y * φ x) (h : Rearranged R l l') :
    (l'.map φ).prod = (l.map φ).prod := by
  induction h with
  | nil => rfl
  | @insert l before after x hrest hx ih =>
    have hold := ih fun y hy z hz => hR y (List.mem_append_left _ hy) z (List.mem_append_left _ hz)
    have hc : φ x * (after.map φ).prod = (after.map φ).prod * φ x := by
      refine Commute.list_prod_right _ _ fun m hm => ?_
      obtain ⟨y, hy, rfl⟩ := List.mem_map.1 hm
      have hyl : y ∈ l := hrest.perm.mem_iff.1 (List.mem_append_right _ hy)
      exact (hR y (List.mem_append_left _ hyl) x (by simp) (hx y hy)).symm
    simp only [List.map_append, List.prod_append, List.map_cons, List.prod_cons] at hold ⊢
    rw [hc, ← mul_assoc, hold, List.map_nil, List.prod_nil, mul_one]

/-- **What holds between elements and later ones is kept** if it holds both ways
    between elements that may pass. -/
theorem pairwise_iff {S : α → α → Prop} (hR : ∀ x y, R x y → S x y ∧ S y x)
    (h : Rearranged R l l') : l'.Pairwise S ↔ l.Pairwise S := by
  induction h with
  | nil => rfl
  | @insert l before after x hrest hx ih =>
    have hafter : ∀ y ∈ after, S y x ∧ S x y := fun y hy => hR y x (hx y hy)
    have hlast : (l ++ [x]).Pairwise S ↔
        (before ++ after).Pairwise S ∧ ∀ y ∈ before ++ after, S y x := by
      rw [List.pairwise_append, ih]
      simp [hrest.perm.mem_iff]
    rw [hlast, List.pairwise_append, List.pairwise_append, List.pairwise_cons,
      List.forall_mem_append]
    constructor
    · rintro ⟨hbefore, ⟨-, htail⟩, hacross⟩
      exact ⟨⟨hbefore, htail, fun y hy z hz => hacross y hy z (List.mem_cons_of_mem x hz)⟩,
        fun y hy => hacross y hy x List.mem_cons_self, fun y hy => (hafter y hy).1⟩
    · rintro ⟨⟨hbefore, htail, hacross⟩, hend, -⟩
      refine ⟨hbefore, ⟨fun y hy => (hafter y hy).2, htail⟩, fun y hy z hz => ?_⟩
      rcases List.mem_cons.1 hz with rfl | hz
      · exact hend y hy
      · exact hacross y hy z hz

/-- The places of the elements of `l` in the order in which `l'` has them. -/
theorem exists_order (d : α) (h : Rearranged R l l') :
    ∃ order : List ℕ, order.Perm (List.range l.length) ∧ l' = order.map (l.getD · d) ∧
      order.Pairwise fun j i => i < j → R (l.getD i d) (l.getD j d) := by
  induction h with
  | nil => exact ⟨[], by simp⟩
  | @insert l before after x _ hx ih =>
    obtain ⟨order, hperm, heq, hpair⟩ := ih
    obtain ⟨first, last, rfl, hb, ha⟩ := List.append_eq_map_iff.1 heq
    have hlt : ∀ i ∈ first ++ last, i < l.length := fun i hi =>
      List.mem_range.1 (hperm.mem_iff.1 hi)
    have hget : ∀ i ∈ first ++ last, (l ++ [x]).getD i d = l.getD i d := fun i hi => by
      simp [List.getD_eq_getElem?_getD, List.getElem?_append_left (hlt i hi)]
    have hlast : (l ++ [x]).getD l.length d = x := by simp
    refine ⟨first ++ l.length :: last, ?_, ?_, ?_⟩
    · rw [List.length_append, List.length_singleton, List.range_succ]
      exact List.perm_middle.trans ((hperm.cons _).trans (List.perm_append_singleton _ _).symm)
    · rw [List.map_append, List.map_cons, hlast, ← hb, ← ha]
      congr 1
      · exact List.map_congr_left fun i hi => (hget i (by simp [hi])).symm
      · congr 1
        exact List.map_congr_left fun i hi => (hget i (by simp [hi])).symm
    · have hold := List.pairwise_append.1 (hpair.imp_of_mem fun {j i} hj hi hji hij => by
        rw [hget j hj, hget i hi]; exact hji hij :
          (first ++ last).Pairwise fun j i => i < j → R ((l ++ [x]).getD i d) ((l ++ [x]).getD j d))
      refine List.pairwise_append.2 ⟨hold.1, List.pairwise_cons.2 ⟨fun i hi _ => ?_, hold.2.1⟩, ?_⟩
      · rw [hlast, hget i (by simp [hi])]
        exact hx _ (ha ▸ List.mem_map_of_mem hi)
      · intro j hj i hi
        rcases List.mem_cons.1 hi with rfl | hi
        -- nothing that is there already comes from behind the new element
        · exact fun hlt' => absurd hlt' (Nat.not_lt_of_lt (hlt j (by simp [hj])))
        · exact hold.2.2 j hj i hi

/-- **The places of the elements in the new list**: none is lost or used twice,
    and of two elements that are turned round the second may pass the first. -/
theorem exists_places [Inhabited α] (h : Rearranged R l l') :
    ∃ place : Fin l.length ≃ Fin l'.length, (∀ i, l'[place i] = l[i]) ∧
      ∀ i j, i < j → place j < place i → R l[i] l[j] := by
  obtain ⟨order, hperm, rfl, hpair⟩ := h.exists_order default
  have hnodup : order.Nodup := hperm.nodup_iff.2 List.nodup_range
  have hidx : ∀ i : Fin l.length, order.idxOf i.1 < order.length := fun i =>
    List.idxOf_lt_length_of_mem (hperm.mem_iff.2 (List.mem_range.2 i.2))
  have hlt : ∀ k (hk : k < order.length), order[k] < l.length := fun k hk =>
    List.mem_range.1 (hperm.mem_iff.1 (List.getElem_mem hk))
  let place : Fin l.length ≃ Fin (order.map (l.getD · default)).length :=
    { toFun := fun i => ⟨order.idxOf i.1, by simpa only [List.length_map] using hidx i⟩
      invFun := fun k => ⟨order.get ⟨k.1, by simpa only [List.length_map] using k.2⟩, hlt _ _⟩
      left_inv := fun i => Fin.ext (List.getElem_idxOf _)
      right_inv := fun k => Fin.ext (hnodup.idxOf_getElem _ _) }
  refine ⟨place, fun i => ?_, fun i j hij hji => ?_⟩
  · simp [place, List.getElem_idxOf (hidx i)]
  · have := List.pairwise_iff_getElem.1 hpair _ _ (hidx j) (hidx i) hji
    simpa [List.getElem_idxOf, hij] using this

end Rearranged

end QuantumProgram
