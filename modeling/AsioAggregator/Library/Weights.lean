import AsioAggregator.Library.Sums

/-!
# Weighing ordered maps

The weight of a map is the sum of the weights of its entries, where that of an entry depends on its
key and is additive in its value. The sum of several maps weighs what these weigh together, even
where they share keys.
-/

namespace Weights

open Std Sums

variable {κ α β : Type*} {cmp : κ → κ → Ordering} [TransCmp cmp]
variable [AddCommMonoid α] [AddCommMonoid β]

def weigh (w : κ → α →+ β) (entries : List (κ × α)) : β :=
  (entries.map fun e => w e.1 e.2).sum

/-- The weight `w` at the keys in `P`, and none elsewhere. -/
def only (P : κ → Bool) (w : κ → α →+ β) (k : κ) : α →+ β := if P k then w k else 0

theorem weigh_only (P : κ → Bool) (w : κ → α →+ β) (entries : List (κ × α)) :
    weigh (only P w) entries = weigh w (entries.filter fun e => P e.1) := by
  induction entries with
  | nil => rfl
  | cons e entries ih =>
    have hcons : ∀ (v : κ → α →+ β) es, weigh v (e :: es) = v e.1 e.2 + weigh v es :=
      fun _ _ => List.sum_cons
    rw [hcons, ih, List.filter_cons]
    cases he : P e.1 with
    | true => rw [if_pos rfl, hcons, only, he, if_pos rfl]
    | false => rw [if_neg Bool.false_ne_true, only, he, if_neg Bool.false_ne_true,
        AddMonoidHom.zero_apply, zero_add]

theorem getD_of_isSum {maps : List (ExtTreeMap κ α cmp)} {total : ExtTreeMap κ α cmp}
    (h : IsSum maps total) (k : κ) :
    total[k]?.getD 0 = (maps.map fun m => m[k]?.getD 0).sum := by
  have hsum : ∀ ms : List (ExtTreeMap κ α cmp),
      (ms.filterMap fun m => m[k]?).sum = (ms.map fun m => m[k]?.getD 0).sum := by
    intro ms
    induction ms with
    | nil => rfl
    | cons m ms ih => cases hm : m[k]? <;> simp [hm, ih]
  cases hk : total[k]? with
  | some v => rw [Option.getD_some, (h k).2 v hk, hsum]
  | none =>
    have hmissing : ∀ m ∈ maps, m[k]? = none := by
      intro m hm
      have hnot : k ∉ total := by simp [ExtTreeMap.mem_iff_isSome_getElem?, hk]
      exact ExtTreeMap.getElem?_eq_none fun hkm => hnot ((h k).1.mpr ⟨m, hm, hkm⟩)
    rw [← hsum, List.filterMap_eq_nil_iff.mpr hmissing]
    rfl

variable [LawfulEqCmp cmp] [DecidableEq κ]

theorem weigh_toList (w : κ → α →+ β) (m : ExtTreeMap κ α cmp) {s : Finset κ}
    (hs : ∀ k ∈ m, k ∈ s) : weigh w m.toList = ∑ k ∈ s, w k (m[k]?.getD 0) := by
  have hvalue : ∀ e ∈ m.toList, w e.1 e.2 = w e.1 (m[e.1]?.getD 0) := by
    intro e he
    rw [ExtTreeMap.mem_toList_iff_getElem?_eq_some.mp he, Option.getD_some]
  have hnodup : m.keys.Nodup := ExtTreeMap.distinct_keys.imp fun h heq =>
    h (LawfulEqCmp.compare_eq_iff_eq.mpr heq)
  have hkeys : weigh w m.toList = ∑ k ∈ m.keys.toFinset, w k (m[k]?.getD 0) := by
    rw [List.sum_toFinset _ hnodup, ← ExtTreeMap.map_fst_toList_eq_keys, List.map_map, weigh,
      List.map_congr_left hvalue]
    rfl
  rw [hkeys]
  refine Finset.sum_subset (fun k hk => ?_) fun k _ hk => ?_
  · exact hs k (ExtTreeMap.mem_keys.mp (List.mem_toFinset.mp hk))
  · have hnot : k ∉ m := fun hmem => hk (List.mem_toFinset.mpr (ExtTreeMap.mem_keys.mpr hmem))
    rw [ExtTreeMap.getElem?_eq_none hnot, Option.getD_none, map_zero]

/-- Nothing is lost or counted twice when maps are added up. -/
theorem weigh_of_isSum {maps : List (ExtTreeMap κ α cmp)} {total : ExtTreeMap κ α cmp}
    (h : IsSum maps total) (w : κ → α →+ β) :
    weigh w total.toList = (maps.map fun m => weigh w m.toList).sum := by
  have hkeys : ∀ k, k ∈ total → k ∈ total.keys.toFinset := fun k hk =>
    List.mem_toFinset.mpr (ExtTreeMap.mem_keys.mpr hk)
  have hswap : ∀ ms : List (ExtTreeMap κ α cmp), (∀ m ∈ ms, ∀ k ∈ m, k ∈ total) →
      ∑ k ∈ total.keys.toFinset, w k (ms.map fun m => m[k]?.getD 0).sum =
        (ms.map fun m => weigh w m.toList).sum := by
    intro ms
    induction ms with
    | nil => simp
    | cons m ms ih =>
      intro hms
      obtain ⟨hm, hrest⟩ := List.forall_mem_cons.mp hms
      simp only [List.map_cons, List.sum_cons, map_add, Finset.sum_add_distrib]
      rw [ih hrest, weigh_toList w m fun k hk => hkeys k (hm k hk)]
  rw [weigh_toList w total hkeys, ← hswap maps fun m hm k hk => (h k).1.mpr ⟨m, hm, hk⟩]
  exact Finset.sum_congr rfl fun k _ => congrArg (w k) (getD_of_isSum h k)

theorem weigh_filter_of_isSum {maps : List (ExtTreeMap κ α cmp)} {total : ExtTreeMap κ α cmp}
    (h : IsSum maps total) (w : κ → α →+ β) (P : κ → Bool) :
    weigh w (total.toList.filter fun e => P e.1) =
      (maps.map fun m => weigh w (m.toList.filter fun e => P e.1)).sum := by
  simpa only [weigh_only] using weigh_of_isSum h (only P w)

end Weights
