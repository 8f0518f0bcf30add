import Mathlib

/-!
# Scanning a sorted list

A loop that leaves a sorted list at the first element out of range has seen every element in range.
-/

namespace SortedScan

variable {α : Type*} {R : α → α → Prop} {p : α → Bool} {l : List α}

/-- On a list in which nothing in range comes after something out of range, leaving early is the
same as looking at everything. -/
theorem takeWhile_eq_filter (hsorted : l.Pairwise R) (hmono : ∀ a b, R a b → p b → p a) :
    l.takeWhile p = l.filter p := by
  induction l with
  | nil => rfl
  | cons a l ih =>
    obtain ⟨ha, hl⟩ := List.pairwise_cons.mp hsorted
    by_cases hp : p a
    · rw [List.takeWhile_cons_of_pos hp, List.filter_cons_of_pos hp, ih hl]
    · have hnone : l.filter p = [] :=
        List.filter_eq_nil_iff.mpr fun b hb hpb => hp (hmono a b (ha b hb) hpb)
      rw [List.takeWhile_cons_of_neg hp, List.filter_cons_of_neg hp, hnone]

theorem not_of_mem_dropWhile (hsorted : l.Pairwise R) (hmono : ∀ a b, R a b → p b → p a) {a : α}
    (ha : a ∈ l.dropWhile p) : ¬ p a := by
  induction l with
  | nil => cases ha
  | cons b l ih =>
    obtain ⟨hb, hl⟩ := List.pairwise_cons.mp hsorted
    by_cases hp : p b
    · rw [List.dropWhile_cons_of_pos hp] at ha
      exact ih hl ha
    · rw [List.dropWhile_cons_of_neg hp] at ha
      rcases List.mem_cons.mp ha with rfl | ha
      · exact hp
      · exact fun hpa => hp (hmono b a (hb a ha) hpa)

/-- Of two positions the element at the earlier one is related to that at the later one. -/
theorem rel_of_splits {a b : α} {pre post pre' post' : List α} (hsorted : l.Pairwise R)
    (h : l = pre ++ a :: post) (h' : l = pre' ++ b :: post') (hle : pre.length ≤ pre'.length) :
    a = b ∨ R a b := by
  have hpre : pre <+: pre' :=
    List.prefix_of_prefix_length_le ⟨a :: post, h.symm⟩ ⟨b :: post', h'.symm⟩ hle
  obtain ⟨mid, rfl⟩ := hpre
  have htail : a :: post = mid ++ b :: post' := by
    rw [h, List.append_assoc] at h'
    exact List.append_cancel_left h'
  rw [h] at hsorted
  cases mid with
  | nil =>
    rw [List.nil_append, List.cons.injEq] at htail
    exact Or.inl htail.1
  | cons c mid =>
    rw [List.cons_append, List.cons.injEq] at htail
    have hb : b ∈ post := by rw [htail.2]; simp
    exact Or.inr ((List.pairwise_cons.mp (List.pairwise_append.mp hsorted).2.1).1 b hb)

theorem pairwise_of_forall₂ {β : Type*} {S : α → β → Prop} {Q : β → β → Prop} {ys : List β}
    (h : List.Forall₂ S l ys) (hsorted : l.Pairwise R)
    (hQ : ∀ a a' b b', R a a' → S a b → S a' b' → Q b b') : ys.Pairwise Q := by
  induction h with
  | nil => exact .nil
  | cons hab hrest ih =>
    obtain ⟨ha, hl⟩ := List.pairwise_cons.mp hsorted
    refine List.pairwise_cons.mpr ⟨fun b' hb' => ?_, ih hl⟩
    obtain ⟨i, hi, rfl⟩ := List.mem_iff_getElem.mp hb'
    have hi' := hrest.length_eq ▸ hi
    exact hQ _ _ _ _ (ha _ (List.getElem_mem hi')) hab (hrest.get hi' hi)

theorem filter_eq_of_split {a : α} {pre post : List α} (hsorted : l.Pairwise R)
    (h : l = pre ++ a :: post) (hbefore : ∀ b, R b a → p b) (ha : p a)
    (hafter : ∀ b, R a b → ¬ p b) :
    l.filter p = pre ++ [a] := by
  obtain ⟨-, htail, hcross⟩ := List.pairwise_append.mp (h ▸ hsorted)
  have hpre : pre.filter p = pre :=
    List.filter_eq_self.mpr fun b hb => hbefore b (hcross b hb a List.mem_cons_self)
  have hpost : post.filter p = [] :=
    List.filter_eq_nil_iff.mpr fun b hb => hafter b ((List.pairwise_cons.mp htail).1 b hb)
  rw [h, List.filter_append, List.filter_cons_of_pos ha, hpre, hpost]

theorem takeWhile_take {n : ℕ} (h : l.length ≤ n ∨ ∃ a ∈ l.take n, ¬ p a) :
    (l.take n).takeWhile p = l.takeWhile p := by
  rcases h with hle | ⟨a, ha, hnot⟩
  · rw [List.take_of_length_le hle]
  · conv_rhs => rw [← List.take_append_drop n l]
    rw [List.takeWhile_append, if_neg]
    intro hlen
    have hself := (List.takeWhile_prefix p).eq_of_length hlen
    exact hnot (List.takeWhile_eq_self_iff.mp hself a ha)

theorem takeWhile_take_sublist (n : ℕ) (p : α → Bool) (l : List α) :
    ((l.take n).takeWhile p).Sublist (l.takeWhile p) := by
  conv_rhs => rw [← List.take_append_drop n l]
  rw [List.takeWhile_append]
  split_ifs with hlen
  · exact (List.takeWhile_sublist p).trans (List.sublist_append_left _ _)
  · exact List.Sublist.refl _

end SortedScan
