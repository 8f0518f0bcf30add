import Mathlib.Data.List.Basic
import Mathlib.Data.List.Count
import Mathlib.Data.List.Perm.Basic
import Mathlib.Tactic.Common

/-!
# Tagged operations that replace each other

A list of pending items, each with the tag of the session that it belongs to. A step takes one item
out and puts its successors in, under the same tag. A kind of item whose successors hold no more of
the kind than the item itself never becomes more frequent under any tag. So a session that starts
with one item of the kind has at most one of them at any time.
-/

namespace Tagged

variable {α : Type*} {l : List (α × ℕ)} {k : ℕ} {x : α × ℕ} {P : α → Bool}

theorem countP_eraseIdx {β : Type*} {l : List β} {k : ℕ} {x : β} (h : l[k]? = some x)
    (P : β → Bool) : l.countP P = (l.eraseIdx k).countP P + if P x then 1 else 0 := by
  obtain ⟨hk, rfl⟩ := List.getElem?_eq_some_iff.mp h
  rw [← (List.getElem_cons_eraseIdx_perm hk).countP_eq P, List.countP_cons]

theorem countP_map_tag (P : α → Bool) (a : ℕ) (xs : List α) :
    (xs.map fun x => (x, a)).countP (fun x => P x.1) = xs.countP P := by
  rw [List.countP_map]
  rfl

/-- The number of items of the kind `P` under the tag `a`. -/
def count (P : α → Bool) (a : ℕ) (l : List (α × ℕ)) : ℕ := l.countP fun x => P x.1 && x.2 = a

theorem count_append (P : α → Bool) (a : ℕ) (l l' : List (α × ℕ)) :
    count P a (l ++ l') = count P a l + count P a l' :=
  List.countP_append

theorem count_map (P : α → Bool) (a b : ℕ) (xs : List α) :
    count P a (xs.map fun x => (x, b)) = if b = a then xs.countP P else 0 := by
  induction xs with
  | nil => simp [count]
  | cons y ys ih =>
    simp only [count, List.map_cons, List.countP_cons] at ih ⊢
    rw [ih]
    by_cases hb : b = a <;> simp [hb]

theorem count_eraseIdx (h : l[k]? = some x) (P : α → Bool) (a : ℕ) :
    count P a l = count P a (l.eraseIdx k) + if P x.1 && x.2 = a then 1 else 0 :=
  countP_eraseIdx h _

theorem count_eq_zero_iff {a : ℕ} : count P a l = 0 ↔ ∀ y ∈ l, P y.1 → y.2 ≠ a := by
  rw [count, List.countP_eq_zero]
  refine forall₂_congr fun y _ => ?_
  rw [Bool.and_eq_true, not_and, decide_eq_true_iff]

theorem count_step_le {x : α} {a : ℕ} {ys : List α} (h : l[k]? = some (x, a))
    (hys : ys.countP P ≤ if P x then 1 else 0) (b : ℕ) :
    count P b (l.eraseIdx k ++ ys.map fun y => (y, a)) ≤ count P b l := by
  rw [count_append, count_map, count_eraseIdx h]
  by_cases hb : a = b
  · simp only [hb, if_true, decide_true, Bool.and_true]
    exact Nat.add_le_add_left hys _
  · simp [hb]

theorem ne_tag_of_count_le_one {x : α} {a : ℕ} (h : l[k]? = some (x, a)) (hx : P x = true)
    (hcount : count P a l ≤ 1) : ∀ y ∈ l.eraseIdx k, P y.1 → y.2 ≠ a := by
  rw [count_eraseIdx h, hx] at hcount
  refine count_eq_zero_iff.mp ?_
  simpa using hcount

theorem forall_mem_iff_eraseIdx {β : Type*} {l : List β} {k : ℕ} {x : β} (h : l[k]? = some x)
    (Q : β → Prop) : (∀ y ∈ l, Q y) ↔ Q x ∧ ∀ y ∈ l.eraseIdx k, Q y := by
  obtain ⟨hk, rfl⟩ := List.getElem?_eq_some_iff.mp h
  simp only [← (List.getElem_cons_eraseIdx_perm hk).mem_iff, List.forall_mem_cons]

/-- Where at most one item of a kind was there, at most one is there after a step exactly when the
step adds none or finds only items that satisfy `Q`, of which the step leaves none behind. -/
theorem countP_step_le_one_iff {ys : List α} {b : Bool} {Q : α × ℕ → Prop} (h : l[k]? = some x)
    (hone : l.countP (fun y => P y.1) ≤ 1) (hys : ys.countP P = if b then 1 else 0)
    (hx : b = true → P x.1 → Q x) (hQ : b = true → ∀ y ∈ l.eraseIdx k, P y.1 → ¬ Q y) :
    (l.eraseIdx k ++ ys.map fun y => (y, x.2)).countP (fun y => P y.1) ≤ 1 ↔
      (b = true → ∀ y ∈ l, P y.1 → Q y) := by
  have hrest : (l.eraseIdx k).countP (fun y => P y.1) ≤ 1 :=
    Nat.le_trans (List.eraseIdx_sublist l k).countP_le hone
  rw [List.countP_append, countP_map_tag, hys]
  cases b with
  | false => simpa using hrest
  | true =>
    have hnone : (l.eraseIdx k).countP (fun y => P y.1) + 1 ≤ 1 ↔
        ∀ y ∈ l.eraseIdx k, ¬ P y.1 = true := by
      rw [← List.countP_eq_zero]
      omega
    simp only [if_true, true_implies, hnone, forall_mem_iff_eraseIdx h fun y => P y.1 → Q y]
    constructor
    · intro hrest
      exact ⟨hx rfl, fun y hy hP => absurd hP (hrest y hy)⟩
    · rintro ⟨-, hall⟩ y hy hP
      exact hQ rfl y hy hP (hall y hy hP)

end Tagged
