import Mathlib

/-!
# Last writer wins on ordered maps

A write stores a value at a key or erases the key. Performing a list of writes on an ordered map
leaves at every key what the last write at that key says, and what was there before where no write
names the key. Repeating the list therefore changes nothing, and consecutive lists may be joined or
split at will.
-/

namespace Writes

open Std

variable {κ α β : Type*} {cmp : κ → κ → Ordering}

/-- A key with the value to store there, or with nothing to erase it. -/
abbrev Write (κ α : Type*) := κ × Option α

/-- What the last entry for the key says, if the list has one. -/
def last [DecidableEq κ] (ws : List (κ × α)) (k : κ) : Option α :=
  ((ws.filter fun w => w.1 = k).getLast?).map Prod.snd

section Last
variable [DecidableEq κ]

@[simp] theorem last_nil (k : κ) : last ([] : List (κ × α)) k = none := rfl

theorem last_append (ws ws' : List (κ × α)) (k : κ) :
    last (ws ++ ws') k = (last ws' k).or (last ws k) := by
  simp only [last, List.filter_append, List.getLast?_append, Option.map_or]

theorem last_singleton (w : κ × α) (k : κ) :
    last [w] k = if w.1 = k then some w.2 else none := by
  by_cases h : w.1 = k <;> simp [last, h]

theorem last_mem {ws : List (κ × α)} {k : κ} {v : α} (h : last ws k = some v) : (k, v) ∈ ws := by
  obtain ⟨w, hw, rfl⟩ := Option.map_eq_some_iff.mp h
  have hmem := List.mem_of_getLast? hw
  rw [List.mem_filter, decide_eq_true_iff] at hmem
  rw [← hmem.2]
  exact hmem.1

theorem last_eq_none_iff {ws : List (κ × α)} {k : κ} :
    last ws k = none ↔ ∀ w ∈ ws, w.1 ≠ k := by
  simp only [last, Option.map_eq_none_iff, List.getLast?_eq_none_iff, List.filter_eq_nil_iff,
    decide_eq_true_iff, ne_eq]

theorem last_cons (w : κ × α) (ws : List (κ × α)) (k : κ) :
    last (w :: ws) k = (last ws k).or (if w.1 = k then some w.2 else none) := by
  rw [← List.singleton_append, last_append, last_singleton]

theorem last_map (f : κ → α → β) (ws : List (κ × α)) (k : κ) :
    last (ws.map fun w => (w.1, f w.1 w.2)) k = (last ws k).map (f k) := by
  induction ws with
  | nil => rfl
  | cons w ws ih =>
    rw [List.map_cons, last_cons, last_cons, ih]
    by_cases h : w.1 = k <;> simp [h]

theorem last_filter {f : κ × α → Bool} {ws : List (κ × α)} {k : κ} {v : α}
    (h : last ws k = some v) (hf : f (k, v)) : last (ws.filter f) k = some v := by
  induction ws using List.reverseRecOn with
  | nil => cases h
  | append_singleton ws w ih =>
    rw [last_append, last_singleton] at h
    rw [List.filter_append, last_append]
    by_cases hw : w.1 = k
    · simp only [hw, if_true, Option.some_or, Option.some.injEq] at h
      have hkeep : f w = true := by rwa [← hw, ← h] at hf
      simp [hkeep, last_singleton, hw, h]
    · simp only [hw, if_false, Option.none_or] at h
      cases hkeep : f w <;> simp [hkeep, last_singleton, hw, ih h]

end Last

section Perform
variable [TransCmp cmp]

def write (m : ExtTreeMap κ α cmp) : Write κ α → ExtTreeMap κ α cmp
  | (k, some v) => m.insert k v
  | (k, none) => m.erase k

def perform (m : ExtTreeMap κ α cmp) (ws : List (Write κ α)) : ExtTreeMap κ α cmp :=
  ws.foldl write m

@[simp] theorem perform_nil (m : ExtTreeMap κ α cmp) : perform m [] = m := rfl

theorem perform_cons (m : ExtTreeMap κ α cmp) (w : Write κ α) (ws : List (Write κ α)) :
    perform m (w :: ws) = perform (write m w) ws := rfl

theorem perform_append (m : ExtTreeMap κ α cmp) (ws ws' : List (Write κ α)) :
    perform m (ws ++ ws') = perform (perform m ws) ws' :=
  List.foldl_append

variable [LawfulEqCmp cmp] [DecidableEq κ]

theorem getElem?_write (m : ExtTreeMap κ α cmp) (w : Write κ α) (k : κ) :
    (write m w)[k]? = if w.1 = k then w.2 else m[k]? := by
  obtain ⟨k', _ | v⟩ := w
  · simp only [write, ExtTreeMap.getElem?_erase, LawfulEqCmp.compare_eq_iff_eq]
  · simp only [write, ExtTreeMap.getElem?_insert, LawfulEqCmp.compare_eq_iff_eq]

/-- Every key holds what the last write at it says. -/
theorem getElem?_perform (m : ExtTreeMap κ α cmp) (ws : List (Write κ α)) (k : κ) :
    (perform m ws)[k]? = (last ws k).getD m[k]? := by
  induction ws using List.reverseRecOn with
  | nil => rfl
  | append_singleton ws w ih =>
    rw [perform_append, perform_cons, perform_nil, getElem?_write, ih, last_append, last_singleton]
    by_cases h : w.1 = k <;> simp [h]

theorem getElem?_perform_eq_some {m : ExtTreeMap κ α cmp} {ws : List (Write κ α)} {k : κ} {v : α} :
    (perform m ws)[k]? = some v ↔
      last ws k = some (some v) ∨ last ws k = none ∧ m[k]? = some v := by
  rw [getElem?_perform]
  cases last ws k <;> simp

theorem perform_self (m : ExtTreeMap κ α cmp) (ws : List (Write κ α)) :
    perform (perform m ws) ws = perform m ws := by
  refine ExtTreeMap.ext_getElem? fun k => ?_
  rw [getElem?_perform, getElem?_perform]
  cases last ws k <;> rfl

/-- Only the empty list of writes changes no map at all. -/
theorem forall_perform_eq_self_iff [Nonempty α] {ws : List (Write κ α)} :
    (∀ m : ExtTreeMap κ α cmp, perform m ws = m) ↔ ws = [] := by
  constructor
  · intro h
    rcases List.eq_nil_or_concat ws with hnil | ⟨ws', ⟨k, o⟩, rfl⟩
    · exact hnil
    rw [List.concat_eq_append] at h
    have hlast : last (ws' ++ [(k, o)]) k = some o := by
      rw [last_append, last_singleton, if_pos rfl, Option.some_or]
    cases o with
    | none =>
      have v := Classical.arbitrary α
      have hk := congrArg (·[k]?) (h ((∅ : ExtTreeMap κ α cmp).insert k v))
      simp [getElem?_perform, hlast] at hk
    | some v =>
      have hk := congrArg (·[k]?) (h ∅)
      simp [getElem?_perform, hlast] at hk
  · rintro rfl m
    rfl

theorem last_eq_some_iff {ws : List (κ × α)} {k : κ} {v : α}
    (h : ∀ v v', (k, v) ∈ ws → (k, v') ∈ ws → v = v') : last ws k = some v ↔ (k, v) ∈ ws := by
  refine ⟨last_mem, fun hv => ?_⟩
  cases hlast : last ws k with
  | none => exact absurd rfl (last_eq_none_iff.mp hlast _ hv)
  | some v' => rw [h v v' hv (last_mem hlast)]

theorem last_toList_filter (m : ExtTreeMap κ α cmp) (f : κ × α → Bool) (k : κ) :
    last (m.toList.filter f) k = m[k]?.filter fun v => f (k, v) := by
  have hmem : ∀ v, (k, v) ∈ m.toList.filter f ↔ m[k]? = some v ∧ f (k, v) = true := by
    intro v
    rw [List.mem_filter, ExtTreeMap.mem_toList_iff_getElem?_eq_some]
  refine Option.ext fun v => ?_
  rw [last_eq_some_iff, hmem, Option.filter_eq_some_iff]
  intro v v' hv hv'
  exact Option.some.inj (((hmem v).mp hv).1.symm.trans ((hmem v').mp hv').1)

theorem last_toList (m : ExtTreeMap κ α cmp) (k : κ) : last m.toList k = m[k]? := by
  have hlast := last_toList_filter m (fun _ => true) k
  rw [List.filter_eq_self.mpr fun _ _ => rfl] at hlast
  rw [hlast]
  cases m[k]? <;> simp [Option.filter_some]

variable [DecidableEq α]

/-- The writes that erase what is not in the new map and store what differs in it. -/
def changes (old new : ExtTreeMap κ α cmp) : List (Write κ α) :=
  (old.toList.filter fun l => new[l.1]?.isNone).map (fun l => (l.1, none)) ++
    (new.toList.filter fun l => old[l.1]? ≠ some l.2).map fun l => (l.1, some l.2)

omit [DecidableEq κ] in
theorem mem_changes {old new : ExtTreeMap κ α cmp} {k : κ} {o : Option α}
    (h : (k, o) ∈ changes old new) :
    o = none ∧ (∃ v, old[k]? = some v) ∨ ∃ v, o = some v ∧ new[k]? = some v := by
  rcases List.mem_append.mp h with h | h
  · obtain ⟨⟨k, v⟩, hl, heq⟩ := List.mem_map.mp h
    obtain ⟨rfl, rfl⟩ := Prod.mk.inj heq
    exact Or.inl ⟨rfl, v, ExtTreeMap.mem_toList_iff_getElem?_eq_some.mp (List.mem_filter.mp hl).1⟩
  · obtain ⟨⟨k, v⟩, hl, heq⟩ := List.mem_map.mp h
    obtain ⟨rfl, rfl⟩ := Prod.mk.inj heq
    exact Or.inr ⟨v, rfl, ExtTreeMap.mem_toList_iff_getElem?_eq_some.mp (List.mem_filter.mp hl).1⟩

theorem perform_changes (old new : ExtTreeMap κ α cmp) : perform old (changes old new) = new := by
  refine ExtTreeMap.ext_getElem? fun k => ?_
  rw [getElem?_perform, changes, last_append, last_map (fun _ _ => none),
    last_map (fun _ v => some v), last_toList_filter, last_toList_filter]
  cases hnew : new[k]? with
  | none => cases hold : old[k]? <;> simp [Option.filter_some, hnew]
  | some v =>
    by_cases hsame : old[k]? = some v
    · simp [Option.filter_some, hnew, hsame]
    · simp [Option.filter_some, hsame]

end Perform
end Writes
