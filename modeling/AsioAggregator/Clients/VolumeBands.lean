import AsioAggregator.Aggregator
import AsioAggregator.Library.SortedScan

/-!
# The volume-band client

Going down one side of the book, the client reports for each threshold the first level at which the
notional reaches it, and for the thresholds that the whole side does not reach its last level. One
index into the thresholds is shared by all levels: since the thresholds increase, none that was
left behind could have been reached before.
-/

namespace AsioAggregator

open SortedScan

variable {D : Type}

/-- A printed line: the notional and price where a threshold was reached, or those at the end. -/
inductive VolumeLine (D : Type) where
  | reached (band price cum : D)
  | notReached (band cum nearest : D)
deriving DecidableEq

def VolumeLine.price : VolumeLine D → D
  | .reached _ price _ => price
  | .notReached _ _ nearest => nearest

/-- The accumulators of the loop over one side; `left` are the bands from `band_idx` on. -/
structure VolumeState (D : Type) where
  cum : D
  lastPrice : D
  left : List D
  lines : List (VolumeLine D)

/-- The inner loop, which prints and passes the bands that are reached. -/
def reportReached [LE D] [DecidableLE D] (cum lastPrice : D) :
    List D → List (VolumeLine D) → VolumeState D
  | band :: left, lines =>
    if cum ≥ band then reportReached cum lastPrice left (lines ++ [.reached band lastPrice cum])
    else ⟨cum, lastPrice, band :: left, lines⟩
  | [], lines => ⟨cum, lastPrice, [], lines⟩

section Loop
variable [Zero D] [Add D] [Mul D] [LE D] [DecidableLE D]

def VolumeState.visit (s : VolumeState D) (level : Level D) : VolumeState D :=
  reportReached (s.cum + level.quantity * level.price) level.price s.left s.lines

/-- The lines printed for one side; the last loop is over the bands not reached. -/
def volumeLines (bands : List D) (levels : List (Level D)) : List (VolumeLine D) :=
  let s := levels.foldl VolumeState.visit ⟨0, 0, bands, []⟩
  s.lines ++ s.left.map fun band => .notReached band s.cum s.lastPrice

end Loop

def volumeThresholds : List ℕ := [10000, 100000, 1000000, 5000000, 10000000, 25000000, 50000000]

def volumeBands [Semiring D] [LinearOrder D] (update : BookUpdate D) :
    List (VolumeLine D) × List (VolumeLine D) :=
  let bands := volumeThresholds.map fun n : ℕ => (n : D)
  (volumeLines bands update.bids, volumeLines bands update.asks)

def notional [Zero D] [Add D] [Mul D] (levels : List (Level D)) : D :=
  (levels.map fun l => l.quantity * l.price).sum

section Spec
variable [Zero D] [Add D] [Mul D] [LT D] [LE D]

def Below (T : D) (levels : List (Level D)) : Prop :=
  ∀ before l, before ++ [l] <+: levels → notional (before ++ [l]) < T

/-- The line that a threshold deserves: the first level whose notional reaches it, or the last. -/
inductive ReportsFor (levels : List (Level D)) (T : D) : VolumeLine D → Prop where
  | reached {before after : List (Level D)} {l : Level D} (hlevels : levels = before ++ l :: after)
      (hbelow : Below T before) (hreach : T ≤ notional (before ++ [l])) :
      ReportsFor levels T (.reached T l.price (notional (before ++ [l])))
  | notReached {before : List (Level D)} {l : Level D} (hlevels : levels = before ++ [l])
      (hbelow : Below T levels) : ReportsFor levels T (.notReached T (notional levels) l.price)

end Spec

section Lines
variable [AddMonoid D] [Mul D] [LinearOrder D]

omit [LinearOrder D] in
theorem notional_concat (levels : List (Level D)) (l : Level D) :
    notional (levels ++ [l]) = notional levels + l.quantity * l.price := by
  simp [notional]

theorem below_concat {T : D} {levels : List (Level D)} {l : Level D} :
    Below T (levels ++ [l]) ↔ Below T levels ∧ notional (levels ++ [l]) < T := by
  constructor
  · intro h
    exact ⟨fun before l' hle => h before l' (hle.trans (List.prefix_append _ _)),
      h levels l List.prefix_rfl⟩
  · rintro ⟨h, hlast⟩ before l' hle
    rcases List.prefix_concat_iff.mp hle with heq | hle
    · rw [heq]
      exact hlast
    · exact h before l' hle

theorem Below.mono {T T' : D} {levels : List (Level D)} (h : Below T levels) (hT : T ≤ T') :
    Below T' levels :=
  fun before l hle => (h before l hle).trans_le hT

omit [AddMonoid D] [Mul D] in
theorem reportReached_eq (cum lastPrice : D) (left : List D) (lines : List (VolumeLine D)) :
    reportReached cum lastPrice left lines =
      ⟨cum, lastPrice, left.dropWhile (· ≤ cum),
        lines ++ (left.takeWhile (· ≤ cum)).map fun band => .reached band lastPrice cum⟩ := by
  induction left generalizing lines with
  | nil => simp [reportReached]
  | cons band left ih => by_cases h : band ≤ cum <;> simp [reportReached, h, ih]

structure Visited (bands : List D) (seen : List (Level D)) (s : VolumeState D) : Prop where
  cum_eq : s.cum = notional seen
  lastPrice_eq : ∀ before l, seen = before ++ [l] → s.lastPrice = l.price
  passed : ∃ done, bands = done ++ s.left ∧ List.Forall₂ (fun T line => ∃ before l,
    before ++ [l] <+: seen ∧ Below T before ∧ T ≤ notional (before ++ [l]) ∧
      line = .reached T l.price (notional (before ++ [l]))) done s.lines
  below : ∀ T ∈ s.left, Below T seen

theorem visited_nil (bands : List D) : Visited bands [] (⟨0, 0, bands, []⟩ : VolumeState D) where
  cum_eq := rfl
  lastPrice_eq before l h := by simp at h
  passed := ⟨[], rfl, .nil⟩
  below T _ before l hle := by simp at hle

theorem visited_visit {bands : List D} (hbands : bands.Pairwise (· < ·)) {seen : List (Level D)}
    {s : VolumeState D} (h : Visited bands seen s) (level : Level D) :
    Visited bands (seen ++ [level]) (s.visit level) := by
  obtain ⟨done, hdone, hlines⟩ := h.passed
  have hcum : s.cum + level.quantity * level.price = notional (seen ++ [level]) := by
    rw [notional_concat, h.cum_eq]
  have hleft : s.left.Pairwise (· < ·) := (List.pairwise_append.mp (hdone ▸ hbands)).2.1
  rw [VolumeState.visit, reportReached_eq, hcum]
  have hmono : ∀ T T', T < T' → decide (T' ≤ notional (seen ++ [level])) = true →
      decide (T ≤ notional (seen ++ [level])) = true := fun T T' hT h =>
    decide_eq_true (hT.le.trans (of_decide_eq_true h))
  refine ⟨rfl, ?_, ?_, ?_⟩
  · intro before l heq
    exact congrArg Level.price (List.append_inj_right' heq rfl |> List.singleton_inj.mp)
  · refine ⟨done ++ s.left.takeWhile (· ≤ notional (seen ++ [level])), ?_, ?_⟩
    · rw [hdone, List.append_assoc, List.takeWhile_append_dropWhile]
    · refine List.rel_append (hlines.imp ?_) ?_
      · rintro T line ⟨before, l, hle, hreport⟩
        exact ⟨before, l, hle.trans (List.prefix_append _ _), hreport⟩
      · rw [List.forall₂_map_right_iff, List.forall₂_same]
        intro T hT
        have hreach := List.mem_takeWhile_imp hT
        exact ⟨seen, level, List.prefix_rfl, h.below T (List.takeWhile_subset _ hT),
          of_decide_eq_true hreach, rfl⟩
  · intro T hT
    have hnot := not_of_mem_dropWhile hleft hmono hT
    exact below_concat.mpr ⟨h.below T (List.dropWhile_subset _ hT), by simpa using hnot⟩

theorem visited_foldl {bands : List D} (hbands : bands.Pairwise (· < ·)) (levels : List (Level D)) :
    Visited bands levels (levels.foldl VolumeState.visit ⟨0, 0, bands, []⟩) := by
  induction levels using List.reverseRecOn with
  | nil => exact visited_nil bands
  | append_singleton levels level ih =>
    rw [List.foldl_append]
    exact visited_visit hbands ih level

/-- Each band gets one line, in order: the one it deserves. -/
theorem volumeLines_report {levels : List (Level D)} (hlevels : levels ≠ []) {bands : List D}
    (hbands : bands.Pairwise (· < ·)) :
    List.Forall₂ (ReportsFor levels) bands (volumeLines bands levels) := by
  obtain ⟨hcum, hlast, ⟨done, hdone, hlines⟩, hbelow⟩ := visited_foldl hbands levels
  obtain ⟨before, l, hsplit⟩ := List.eq_nil_or_concat levels |>.resolve_left hlevels
  rw [List.concat_eq_append] at hsplit
  simp only [volumeLines]
  generalize levels.foldl VolumeState.visit ⟨0, 0, bands, []⟩ = s at *
  rw [hdone]
  refine List.rel_append (hlines.imp ?_) ?_
  · rintro T line ⟨before', l', ⟨after, hle⟩, hbelow', hreach, rfl⟩
    exact .reached (by simpa using hle.symm) hbelow' hreach
  · rw [List.forall₂_map_right_iff, List.forall₂_same]
    intro T hT
    rw [hcum, hlast before l hsplit]
    exact .notReached hsplit (hbelow T hT)

theorem ReportsFor.split {levels : List (Level D)} {T : D} {line : VolumeLine D}
    (h : ReportsFor levels T line) :
    ∃ before l after, levels = before ++ l :: after ∧ line.price = l.price ∧ Below T before ∧
      (after = [] ∨ T ≤ notional (before ++ [l])) := by
  cases h with
  | reached hlevels hbelow hreach => exact ⟨_, _, _, hlevels, rfl, hbelow, Or.inr hreach⟩
  | notReached hlevels hbelow =>
    exact ⟨_, _, [], hlevels, rfl, (below_concat.mp (hlevels ▸ hbelow)).1, Or.inl rfl⟩

theorem ReportsFor.price_rel {levels : List (Level D)} {R : Level D → Level D → Prop}
    (hsorted : levels.Pairwise R) {T T' : D} (hT : T < T') {line line' : VolumeLine D}
    (h : ReportsFor levels T line) (h' : ReportsFor levels T' line') :
    ∃ l l', line.price = l.price ∧ line'.price = l'.price ∧ (l = l' ∨ R l l') := by
  obtain ⟨before, l, after, hsplit, hprice, hbelow, -⟩ := h.split
  obtain ⟨before', l', after', hsplit', hprice', -, hreach'⟩ := h'.split
  refine ⟨l, l', hprice, hprice', rel_of_splits hsorted hsplit hsplit' ?_⟩
  by_contra hlt
  have hle : before <+: levels := ⟨l :: after, hsplit.symm⟩
  have hle' : before' ++ [l'] <+: levels := ⟨after', by simp [hsplit']⟩
  have hshorter : before' ++ [l'] <+: before := by
    refine List.prefix_of_prefix_length_le hle' hle ?_
    simp only [List.length_append, List.length_singleton]
    omega
  rcases hreach' with rfl | hreach'
  · have hlen := congrArg List.length (hsplit.symm.trans hsplit')
    simp only [List.length_append, List.length_cons, List.length_nil] at hlen
    omega
  · exact absurd (hreach'.trans_lt (hbelow _ _ hshorter)) (not_lt_of_gt hT)

end Lines

section Client
variable [Semiring D] [LinearOrder D]

/-- For any increasing thresholds, those of the client among them, each side reports the first
level that reaches a threshold, or its last one, and on a sorted side the prices follow suit. -/
theorem volume_bands_first_depth [IsStrictOrderedRing D] {levels : List (Level D)}
    (hlevels : levels ≠ []) {bands : List D} (hbands : bands.Pairwise (· < ·)) :
    List.Forall₂ (ReportsFor levels) bands (volumeLines bands levels) ∧
      ((levels.Pairwise fun l l' => l.price > l'.price) →
        (volumeLines bands levels).Pairwise fun line line' => line'.price ≤ line.price) ∧
      ((levels.Pairwise fun l l' => l.price < l'.price) →
        (volumeLines bands levels).Pairwise fun line line' => line.price ≤ line'.price) ∧
      (volumeThresholds.map fun n : ℕ => (n : D)).Pairwise (· < ·) := by
  have hreport := volumeLines_report hlevels hbands
  refine ⟨hreport, fun hsorted => ?_, fun hsorted => ?_, ?_⟩
  · refine pairwise_of_forall₂ hreport hbands fun T T' line line' hT h h' => ?_
    obtain ⟨l, l', hl, hl', heq | hlt⟩ := h.price_rel hsorted hT h'
    · rw [hl, hl', heq]
    · rw [hl, hl']
      exact hlt.le
  · refine pairwise_of_forall₂ hreport hbands fun T T' line line' hT h h' => ?_
    obtain ⟨l, l', hl, hl', heq | hlt⟩ := h.price_rel hsorted hT h'
    · rw [hl, hl', heq]
    · rw [hl, hl']
      exact hlt.le
  · rw [List.pairwise_map]
    have hnat : volumeThresholds.Pairwise (· < ·) := by decide
    exact hnat.imp fun h => Nat.cast_lt.mpr h

end Client

section Example

def exampleDepth : List (Level ℚ) := [⟨100, 2⟩, ⟨99, 10⟩]

theorem volume_bands_first_depth_example :
    List.Forall₂ (ReportsFor exampleDepth) [150, 500, 1000, 2000]
      (volumeLines [150, 500, 1000, 2000] exampleDepth) :=
  (volume_bands_first_depth (by decide) (by decide +kernel)).1

example : volumeLines [150, 500, 1000, 2000] exampleDepth =
    [.reached 150 100 200, .reached 500 99 1190, .reached 1000 99 1190,
      .notReached 2000 1190 99] := by decide +kernel

end Example
end AsioAggregator
