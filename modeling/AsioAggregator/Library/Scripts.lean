import AsioAggregator.Library.Tagged

/-!
# Sessions that follow a script

Tagged operations of one kind, of which each session has one at a time. If the one that ends is
followed by the next line of a script when it succeeds, and by none of the kind when it fails, then
the session has performed the lines of the script in order up to some point, whatever the items of
other kinds and of other tags have done in between.
-/

namespace Tagged

variable {α : Type*} {l : List (α × ℕ)} {k a b : ℕ} {P : α → Bool}

/-- The items of the kind `P` under the tag `a`. -/
def under (P : α → Bool) (a : ℕ) (l : List (α × ℕ)) : List α :=
  (l.filter fun x => P x.1 && x.2 = a).map Prod.fst

theorem under_append (P : α → Bool) (a : ℕ) (l l' : List (α × ℕ)) :
    under P a (l ++ l') = under P a l ++ under P a l' := by
  simp only [under, List.filter_append, List.map_append]

theorem under_map (P : α → Bool) (a b : ℕ) (ys : List α) :
    under P b (ys.map fun y => (y, a)) = if a = b then ys.filter P else [] := by
  induction ys with
  | nil => simp [under]
  | cons y ys ih =>
    have hcons : under P b ((y :: ys).map fun y => (y, a)) =
        under P b [(y, a)] ++ under P b (ys.map fun y => (y, a)) :=
      under_append P b [(y, a)] _
    rw [hcons, ih]
    by_cases hab : a = b <;> by_cases hy : P y <;> simp [under, hab, hy]

theorem under_eq_nil (h : ∀ x ∈ l, x.2 ≠ a) : under P a l = [] := by
  rw [under, List.map_eq_nil_iff, List.filter_eq_nil_iff]
  intro x hx
  simp [h x hx]

theorem under_eraseIdx {x : α × ℕ} (h : l[k]? = some x) (hx : (P x.1 && x.2 = a) = false) :
    under P a (l.eraseIdx k) = under P a l := by
  obtain ⟨hk, rfl⟩ := List.getElem?_eq_some_iff.mp h
  have hsplit : l = l.take k ++ l[k] :: l.drop (k + 1) := by
    rw [← List.drop_eq_getElem_cons hk, List.take_append_drop]
  have hfilter : (l.filter fun x => P x.1 && x.2 = a) =
      (l.take k).filter (fun x => P x.1 && x.2 = a) ++
        (l.drop (k + 1)).filter fun x => P x.1 && x.2 = a := by
    conv_lhs => rw [hsplit]
    rw [List.filter_append, List.filter_cons_of_neg (by rw [hx]; exact Bool.false_ne_true)]
  rw [List.eraseIdx_eq_take_drop_succ, under, under, hfilter, List.filter_append]

theorem mem_under {x : α} (h : l[k]? = some (x, a)) (hx : P x = true) : x ∈ under P a l :=
  List.mem_map.mpr ⟨(x, a), List.mem_filter.mpr ⟨List.mem_of_getElem? h, by simp [hx]⟩, rfl⟩

theorem under_eraseIdx_self {x : α} (h : l[k]? = some (x, a)) (hx : P x = true)
    (hone : under P a l = [x]) : under P a (l.eraseIdx k) = [] := by
  have hcount : count P a l ≤ 1 := by
    have hlength := congrArg List.length hone
    rw [under, List.length_map, ← List.countP_eq_length_filter] at hlength
    exact Nat.le_of_eq hlength
  rw [under, List.map_eq_nil_iff, List.filter_eq_nil_iff]
  intro z hz
  have hnone := ne_tag_of_count_le_one h hx hcount z hz
  simpa using hnone

/-- If every tag is one of the first `n` and has at most one item of the kind, there are at most
`n` of them. -/
theorem countP_le_of_count_le_one {n : ℕ} (hone : ∀ a, count P a l ≤ 1)
    (htags : ∀ x ∈ l, 1 ≤ x.2 ∧ x.2 ≤ n) : l.countP (fun x => P x.1) ≤ n := by
  induction n generalizing l with
  | zero =>
    have hnil : l = [] := List.eq_nil_iff_forall_not_mem.mpr fun x hx => by
      have := htags x hx
      omega
    simp [hnil]
  | succ n ih =>
    have hsplit := List.countP_eq_countP_filter_add l (fun x => P x.1) fun x => decide (x.2 ≤ n)
    have hlow : (l.filter fun x => decide (x.2 ≤ n)).countP (fun x => P x.1) ≤ n := by
      refine ih (fun a => ?_) fun x hx => ?_
      · exact Nat.le_trans List.filter_sublist.countP_le (hone a)
      · obtain ⟨hmem, hle⟩ := List.mem_filter.mp hx
        exact ⟨(htags x hmem).1, of_decide_eq_true hle⟩
    have hhigh : (l.filter fun x => !decide (x.2 ≤ n)).countP (fun x => P x.1) ≤ 1 := by
      refine Nat.le_trans ?_ (hone (n + 1))
      rw [List.countP_filter, count]
      refine List.countP_mono_left fun x hx h => ?_
      have htag := (htags x hx).2
      simp only [Bool.and_eq_true, Bool.not_eq_true', decide_eq_false_iff_not] at h
      simp only [Bool.and_eq_true, decide_eq_true_eq]
      exact ⟨h.1, by omega⟩
    omega

/-- What has been done are the first lines of the script, of which only the last one may have
failed. Unless it has, the next line is pending. -/
structure FollowsScript (script : ℕ → α) (done : List (α × Bool)) (pending : List α) : Prop where
  in_order : ∀ i x ok, done[i]? = some (x, ok) → x = script i ∧ (ok = false → i + 1 = done.length)
  next : pending = if done.all Prod.snd then [script done.length] else []

namespace FollowsScript
variable {script : ℕ → α} {done : List (α × Bool)} {x : α}

theorem start (script : ℕ → α) : FollowsScript script [] [script 0] where
  in_order i x ok h := by simp at h
  next := rfl

theorem all_done (h : FollowsScript script done [x]) :
    done.all Prod.snd = true ∧ x = script done.length := by
  have hnext := h.next
  split_ifs at hnext with hall
  exact ⟨hall, List.singleton_inj.mp hnext⟩

theorem advance (h : FollowsScript script done [x]) (ok : Bool) :
    FollowsScript script (done ++ [(x, ok)])
      (if ok then [script (done.length + 1)] else []) := by
  obtain ⟨hall, hx⟩ := h.all_done
  refine ⟨fun i y ok' hi => ?_, ?_⟩
  · rcases Nat.lt_or_ge i done.length with hlt | hge
    · rw [List.getElem?_append_left hlt] at hi
      refine ⟨(h.in_order i y ok' hi).1, ?_⟩
      rintro rfl
      have hok := List.all_eq_true.mp hall _ (List.mem_of_getElem? hi)
      cases hok
    · rw [List.getElem?_append_right hge] at hi
      obtain ⟨hzero, heq⟩ : i - done.length = 0 ∧ (x, ok) = (y, ok') := by
        rcases hzero : i - done.length with _ | n
        · rw [hzero] at hi
          exact ⟨rfl, Option.some.inj hi⟩
        · rw [hzero] at hi
          cases hi
      obtain ⟨rfl, rfl⟩ := Prod.mk.inj heq
      obtain rfl : i = done.length := by omega
      exact ⟨hx, fun _ => by simp⟩
  · rw [List.all_append, hall, List.length_append, List.length_singleton]
    cases ok <;> rfl

end FollowsScript

theorem FollowsScript.current {script : ℕ → α} {done : List (α × Bool)} {x : α}
    (h : FollowsScript script done (under P a l)) (hk : l[k]? = some (x, a)) (hx : P x = true) :
    under P a l = [x] ∧ x = script done.length := by
  have hmem := mem_under hk hx
  have hnext := h.next
  split_ifs at hnext
  · rw [hnext] at hmem
    have heq := List.mem_singleton.mp hmem
    exact ⟨heq ▸ hnext, heq⟩
  · rw [hnext] at hmem
    cases hmem

/-- One item ends under its tag: its successors hold the next line and no other item of the kind, or
none if it has failed. -/
theorem FollowsScript.step {script : ℕ → α} {done : List (α × Bool)} {x : α} {ys : List α}
    {ok : Bool} (h : FollowsScript script done (under P a l)) (hk : l[k]? = some (x, a))
    (hx : P x = true)
    (hys : ys.filter P = if ok then [script (done.length + 1)] else []) :
    FollowsScript script (done ++ [(x, ok)])
      (under P a (l.eraseIdx k ++ ys.map fun y => (y, a))) := by
  have hone := (h.current hk hx).1
  rw [under_append, under_eraseIdx_self hk hx hone, under_map, if_pos rfl, hys, List.nil_append]
  rw [hone] at h
  exact h.advance ok

theorem under_step_of_other {x : α} {ys : List α} (hk : l[k]? = some (x, a))
    (hys : P x = false ∨ a ≠ b) (hnone : P x = false → ys.filter P = []) :
    under P b (l.eraseIdx k ++ ys.map fun y => (y, a)) = under P b l := by
  have hx : (P x && decide (a = b)) = false := by
    rcases hys with hP | hab
    · rw [hP]
      rfl
    · rw [decide_eq_false hab, Bool.and_false]
  rw [under_append, under_eraseIdx hk hx, under_map]
  by_cases hab : a = b
  · rw [if_pos hab, hnone (hys.resolve_right fun h => h hab), List.append_nil]
  · rw [if_neg hab, List.append_nil]

end Tagged
