import Mathlib

/-!
# Sums of ordered maps

Adding a map into another one adds its values key by key, where a key that is not there yet starts
from zero. Adding a list of maps into the empty map gives their sum: it has the keys that any of
them has, with the sum of the values of those that have it. The order of the list is of no
importance.
-/

namespace Sums

open Std

variable {κ α : Type*} {cmp : κ → κ → Ordering} [TransCmp cmp]

/-- Adds the entries of a list one after the other. -/
def addEntries [Zero α] [Add α] (m : ExtTreeMap κ α cmp) (entries : List (κ × α)) :
    ExtTreeMap κ α cmp :=
  entries.foldl (fun m e => m.alter e.1 fun v => some (v.getD 0 + e.2)) m

/-- `total` has the keys of all `maps`, and at each of them the sum over the maps that have it. -/
def IsSum [Zero α] [Add α] (maps : List (ExtTreeMap κ α cmp)) (total : ExtTreeMap κ α cmp) : Prop :=
  ∀ k, (k ∈ total ↔ ∃ m ∈ maps, k ∈ m) ∧
    ∀ v, total[k]? = some v → v = (maps.filterMap fun m => m[k]?).sum

def valuesAt [DecidableEq κ] (entries : List (κ × α)) (k : κ) : List α :=
  (entries.filter fun e => e.1 = k).map Prod.snd

section Entries
variable [LawfulEqCmp cmp] [DecidableEq κ]

theorem valuesAt_cons (e : κ × α) (entries : List (κ × α)) (k : κ) :
    valuesAt (e :: entries) k =
      if e.1 = k then e.2 :: valuesAt entries k else valuesAt entries k := by
  by_cases h : e.1 = k <;> simp [valuesAt, h]

theorem valuesAt_append (entries entries' : List (κ × α)) (k : κ) :
    valuesAt (entries ++ entries') k = valuesAt entries k ++ valuesAt entries' k := by
  simp only [valuesAt, List.filter_append, List.map_append]

theorem valuesAt_eq_nil_iff {entries : List (κ × α)} {k : κ} :
    valuesAt entries k = [] ↔ ∀ v, (k, v) ∉ entries := by
  simp only [valuesAt, List.map_eq_nil_iff, List.filter_eq_nil_iff, decide_eq_true_iff]
  constructor
  · intro h v hv
    exact h _ hv rfl
  · rintro h ⟨k', v⟩ hv rfl
    exact h v hv

theorem valuesAt_toList (m : ExtTreeMap κ α cmp) (k : κ) : valuesAt m.toList k = m[k]?.toList := by
  have hmem : ∀ v, (k, v) ∈ m.toList ↔ m[k]? = some v := fun v =>
    ExtTreeMap.mem_toList_iff_getElem?_eq_some
  have hdistinct : m.toList.Pairwise fun e e' => e.1 ≠ e'.1 :=
    ExtTreeMap.distinct_keys_toList.imp fun h heq =>
      h (LawfulEqCmp.compare_eq_iff_eq.mpr heq)
  cases hk : m[k]? with
  | none =>
    refine valuesAt_eq_nil_iff.mpr fun v hv => ?_
    rw [hmem, hk] at hv
    cases hv
  | some v =>
    obtain ⟨before, after, heq⟩ := List.append_of_mem ((hmem v).mpr hk)
    rw [heq] at hdistinct ⊢
    obtain ⟨-, hafter, hbefore⟩ := List.pairwise_append.mp hdistinct
    have hb : valuesAt before k = [] := valuesAt_eq_nil_iff.mpr fun v' hv' =>
      hbefore _ hv' _ List.mem_cons_self rfl
    have ha : valuesAt after k = [] := valuesAt_eq_nil_iff.mpr fun v' hv' =>
      (List.pairwise_cons.mp hafter).1 _ hv' rfl
    rw [valuesAt_append, valuesAt_cons, if_pos rfl, hb, ha]
    rfl

theorem valuesAt_flatMap (maps : List (ExtTreeMap κ α cmp)) (k : κ) :
    valuesAt (maps.flatMap ExtTreeMap.toList) k = maps.filterMap fun m => m[k]? := by
  induction maps with
  | nil => rfl
  | cons m maps ih =>
    rw [List.flatMap_cons, valuesAt_append, valuesAt_toList, ih, List.filterMap_cons]
    cases m[k]? <;> rfl

variable [Zero α] [Add α]

/-- A key holds what it held before and, one after the other, the values added at it. -/
theorem getElem?_addEntries (m : ExtTreeMap κ α cmp) (entries : List (κ × α)) (k : κ) :
    (addEntries m entries)[k]? = if valuesAt entries k = [] then m[k]?
      else some ((valuesAt entries k).foldl (· + ·) (m[k]?.getD 0)) := by
  induction entries generalizing m with
  | nil => rfl
  | cons e entries ih =>
    have hstep : (m.alter e.1 fun v => some (v.getD 0 + e.2))[k]? =
        if e.1 = k then some (m[k]?.getD 0 + e.2) else m[k]? := by
      rw [ExtTreeMap.getElem?_alter]
      by_cases hk : e.1 = k
      · simp [hk, ReflCmp.compare_self]
      · simp [hk, LawfulEqCmp.compare_eq_iff_eq]
    change (addEntries (m.alter e.1 _) entries)[k]? = _
    rw [ih, hstep, valuesAt_cons]
    by_cases hk : e.1 = k
    · by_cases hnil : valuesAt entries k = [] <;> simp [hk, hnil]
    · simp [hk]

end Entries

theorem foldl_addEntries [Zero α] [Add α] (maps : List (ExtTreeMap κ α cmp))
    (m : ExtTreeMap κ α cmp) :
    maps.foldl (fun acc m => addEntries acc m.toList) m =
      addEntries m (maps.flatMap ExtTreeMap.toList) := by
  induction maps generalizing m with
  | nil => rfl
  | cons m' maps ih =>
    rw [List.foldl_cons, ih, List.flatMap_cons, addEntries, addEntries, addEntries,
      List.foldl_append]

section Sum
variable [LawfulEqCmp cmp]

/-- The keys of the result, whatever addition does. -/
theorem mem_foldl_addEntries [DecidableEq κ] [Zero α] [Add α] (maps : List (ExtTreeMap κ α cmp))
    (k : κ) :
    k ∈ maps.foldl (fun acc m => addEntries acc m.toList) (∅ : ExtTreeMap κ α cmp) ↔
      ∃ m ∈ maps, k ∈ m := by
  have hvalues : valuesAt (maps.flatMap ExtTreeMap.toList) k = [] ↔ ∀ m ∈ maps, k ∉ m := by
    simp [valuesAt_flatMap, List.filterMap_eq_nil_iff]
  rw [← ExtTreeMap.isSome_getElem?_iff_mem, foldl_addEntries, getElem?_addEntries]
  by_cases hk : valuesAt (maps.flatMap ExtTreeMap.toList) k = []
  · have hnone := hvalues.mp hk
    rw [if_pos hk, ExtTreeMap.getElem?_empty]
    simpa using hnone
  · rw [if_neg hk]
    by_contra hnot
    exact hk (hvalues.mpr fun m hm hmem => hnot (by simpa using ⟨m, hm, hmem⟩))

variable [AddCommMonoid α]

/-- Starting from the empty map, this gives the sum. -/
theorem isSum_foldl [DecidableEq κ] (maps : List (ExtTreeMap κ α cmp)) :
    IsSum maps (maps.foldl (fun acc m => addEntries acc m.toList) (∅ : ExtTreeMap κ α cmp)) := by
  intro k
  refine ⟨mem_foldl_addEntries maps k, fun v hv => ?_⟩
  rw [foldl_addEntries, getElem?_addEntries, valuesAt_flatMap] at hv
  by_cases hk : (maps.filterMap fun m => m[k]?) = []
  · simp [hk] at hv
  · rw [if_neg hk, ExtTreeMap.getElem?_empty, Option.getD_none, ← List.sum_eq_foldl] at hv
    exact (Option.some.inj hv).symm

theorem IsSum.unique {maps maps' : List (ExtTreeMap κ α cmp)} {total total' : ExtTreeMap κ α cmp}
    (h : IsSum maps total) (h' : IsSum maps' total') (hperm : maps.Perm maps') :
    total = total' := by
  refine ExtTreeMap.ext_getElem? fun k => ?_
  have hmem : k ∈ total ↔ k ∈ total' := by
    rw [(h k).1, (h' k).1]
    exact exists_congr fun m => and_congr_left fun _ => hperm.mem_iff
  by_cases hk : k ∈ total
  · have hv := ExtTreeMap.getElem?_eq_some_getElem hk
    have hv' := ExtTreeMap.getElem?_eq_some_getElem (hmem.mp hk)
    rw [hv, hv', (h k).2 _ hv, (h' k).2 _ hv', (hperm.filterMap _).sum_eq]
  · rw [ExtTreeMap.getElem?_eq_none hk, ExtTreeMap.getElem?_eq_none (mt hmem.mpr hk)]

end Sum
end Sums
