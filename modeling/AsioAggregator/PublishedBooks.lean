import AsioAggregator.Consolidation

/-!
# What is published

A `BookUpdate` carries the best levels of each consolidated side, best first, with their
consolidated quantities, and leaves out none but the worst ones. Its first levels are therefore the
best bid and the best ask that any connector had when the books were consolidated last.
-/

namespace AsioAggregator

open Std Runs

variable {D : Type}

/-- `levels` are the best levels of `side`, as many as a `BookUpdate` may carry, best first. -/
structure BestLevels {cmp : D → D → Ordering} [TransCmp cmp] (better : D → D → Prop)
    (side : ExtTreeMap D D cmp) (levels : List (Level D)) : Prop where
  sorted : levels.Pairwise fun l l' => better l.price l'.price
  length_eq : levels.length = min maxDepth side.size
  carried : ∀ l ∈ levels, side[l.price]? = some l.quantity
  omitted : ∀ p ∈ side, (∀ l ∈ levels, l.price ≠ p) → ∀ l ∈ levels, better l.price p

def levelOf (entry : D × D) : Level D := ⟨entry.1, entry.2⟩

theorem copyLevels_eq (count : ℕ) (entries : List (D × D)) :
    copyLevels count entries = (entries.take (maxDepth - count)).map levelOf := by
  induction entries generalizing count with
  | nil => simp [copyLevels]
  | cons entry entries ih =>
    by_cases hcount : count ≥ maxDepth
    · have hzero : maxDepth - count = 0 := by omega
      simp [copyLevels, hcount, hzero]
    · have hsucc : maxDepth - count = maxDepth - (count + 1) + 1 := by omega
      simp only [copyLevels, hcount, if_false, ih, hsucc, List.take_succ_cons, List.map_cons,
        levelOf]

section Sides
variable {cmp : D → D → Ordering} [TransCmp cmp] {better : D → D → Prop}

theorem bestLevels_copyLevels [LawfulEqCmp cmp] (hcmp : ∀ p p', cmp p p' = .lt → better p p')
    (side : ExtTreeMap D D cmp) : BestLevels better side (copyLevels 0 side.toList) := by
  have hlevels : copyLevels 0 side.toList = (side.toList.take maxDepth).map levelOf :=
    copyLevels_eq 0 _
  have hsorted : side.toList.Pairwise fun e e' => better e.1 e'.1 :=
    ExtTreeMap.ordered_keys_toList.imp fun h => hcmp _ _ h
  have hmem : ∀ e, e ∈ side.toList ↔ side[e.1]? = some e.2 := fun e =>
    ExtTreeMap.mem_toList_iff_getElem?_eq_some
  rw [hlevels]
  refine ⟨?_, ?_, ?_, ?_⟩
  · rw [List.pairwise_map]
    exact hsorted.take
  · simp
  · intro l hl
    obtain ⟨e, he, rfl⟩ := List.mem_map.mp hl
    exact (hmem e).mp (List.mem_of_mem_take he)
  · intro p hp habsent l hl
    obtain ⟨e, he, rfl⟩ := List.mem_map.mp hl
    have hp' : (p, side[p]) ∈ side.toList :=
      (hmem _).mpr (ExtTreeMap.getElem?_eq_some_getElem hp)
    rw [← List.take_append_drop maxDepth side.toList] at hp' hsorted
    rcases List.mem_append.mp hp' with htake | hdrop
    · exact absurd rfl (habsent _ (List.mem_map.mpr ⟨_, htake, rfl⟩))
    · exact (List.pairwise_append.mp hsorted).2.2 e he _ hdrop

theorem BestLevels.head {side : ExtTreeMap D D cmp} {l : Level D} {levels : List (Level D)}
    (h : BestLevels better side (l :: levels)) :
    l.price ∈ side ∧ ∀ p ∈ side, p = l.price ∨ better l.price p := by
  have hl : l.price ∈ side := by
    rw [← ExtTreeMap.isSome_getElem?_iff_mem, h.carried l List.mem_cons_self]
    rfl
  refine ⟨hl, fun p hp => ?_⟩
  by_cases habsent : ∀ l' ∈ l :: levels, l'.price ≠ p
  · exact Or.inr (h.omitted p hp habsent l List.mem_cons_self)
  · push Not at habsent
    obtain ⟨l', hl', rfl⟩ := habsent
    rcases List.mem_cons.mp hl' with rfl | hrest
    · exact Or.inl rfl
    · exact Or.inr ((List.pairwise_cons.mp h.sorted).1 l' hrest)

theorem BestLevels.exists_head {side : ExtTreeMap D D cmp} {levels : List (Level D)}
    (h : BestLevels better side levels) (hside : side ≠ ∅) :
    ∃ l, levels[0]? = some l ∧ l.price ∈ side ∧ ∀ p ∈ side, p = l.price ∨ better l.price p := by
  have hsize : side.size ≠ 0 := fun h0 => hside (ExtTreeMap.eq_empty_iff_size_eq_zero.mpr h0)
  cases levels with
  | nil =>
    have hlen := h.length_eq
    simp only [List.length_nil, maxDepth] at hlen
    omega
  | cons l levels => exact ⟨l, rfl, h.head⟩

/-- The first level of a side with the prices of all `sides` is the best one of them. -/
theorem BestLevels.head_of_mem_iff {sides : List (ExtTreeMap D D cmp)}
    {total : ExtTreeMap D D cmp} {levels : List (Level D)} {l : Level D}
    (h : BestLevels better total levels) (hmem : ∀ p, p ∈ total ↔ ∃ side ∈ sides, p ∈ side)
    (hl : levels.head? = some l) :
    (∃ side ∈ sides, l.price ∈ side) ∧
      ∀ side ∈ sides, ∀ p ∈ side, p = l.price ∨ better l.price p := by
  obtain ⟨rest, rfl⟩ := List.head?_eq_some_iff.mp hl
  obtain ⟨hfirst, hbest⟩ := h.head
  exact ⟨(hmem _).mp hfirst, fun side hside p hp => hbest p ((hmem p).mpr ⟨side, hside, hp⟩)⟩

end Sides

variable [LinearOrder D]

theorem bestLevels_bids (now : ℤ) (b : Books D) :
    BestLevels (· > ·) b.bids (buildBookUpdate now b).bids :=
  bestLevels_copyLevels (fun _ _ h => compare_lt_iff_lt.mp h) b.bids

theorem bestLevels_asks (now : ℤ) (b : Books D) :
    BestLevels (· < ·) b.asks (buildBookUpdate now b).asks :=
  bestLevels_copyLevels (fun _ _ h => compare_lt_iff_lt.mp h) b.asks

def bestBid (c : Feed D) : Option D := c.localBooks.bids.minKey?

def bestAsk (c : Feed D) : Option D := c.localBooks.asks.minKey?

theorem bestBid_eq_some {c : Feed D} {p : D} :
    bestBid c = some p ↔ p ∈ c.localBooks.bids ∧ ∀ p' ∈ c.localBooks.bids, p' ≤ p := by
  simp only [bestBid, ExtTreeMap.minKey?_eq_some_iff_mem_and_forall, Ordering.isLE_iff_ne_gt,
    compare_le_iff_le]

theorem bestAsk_eq_some {c : Feed D} {p : D} :
    bestAsk c = some p ↔ p ∈ c.localBooks.asks ∧ ∀ p' ∈ c.localBooks.asks, p ≤ p' := by
  simp only [bestAsk, ExtTreeMap.minKey?_eq_some_iff_mem_and_forall, Ordering.isLE_iff_ne_gt,
    compare_le_iff_le]

variable [Zero D] [Add D]

/-- The first published bid is the highest of the best bids of the connectors. -/
theorem head_bids_isGreatest {connectors : List (Feed D)} {now : ℤ} {l : Level D}
    (hl : (buildBookUpdate now (consolidate connectors)).bids.head? = some l) :
    IsGreatest {p | ∃ c ∈ connectors, bestBid c = some p} l.price := by
  obtain ⟨⟨side, hside, hmem⟩, hbest⟩ :=
    (bestLevels_bids now _).head_of_mem_iff (mem_consolidate_bids connectors) hl
  have hupper : ∀ c ∈ connectors, ∀ p ∈ c.localBooks.bids, p ≤ l.price := by
    intro c hc p hp
    exact (hbest _ (List.mem_map.mpr ⟨c, hc, rfl⟩) p hp).elim (fun h => h.le) fun h => h.le
  constructor
  · obtain ⟨c, hc, rfl⟩ := List.mem_map.mp hside
    exact ⟨c, hc, bestBid_eq_some.mpr ⟨hmem, hupper c hc⟩⟩
  · rintro p ⟨c, hc, hp⟩
    exact hupper c hc p (bestBid_eq_some.mp hp).1

theorem head_asks_isLeast {connectors : List (Feed D)} {now : ℤ} {l : Level D}
    (hl : (buildBookUpdate now (consolidate connectors)).asks.head? = some l) :
    IsLeast {p | ∃ c ∈ connectors, bestAsk c = some p} l.price := by
  obtain ⟨⟨side, hside, hmem⟩, hbest⟩ :=
    (bestLevels_asks now _).head_of_mem_iff (mem_consolidate_asks connectors) hl
  have hlower : ∀ c ∈ connectors, ∀ p ∈ c.localBooks.asks, l.price ≤ p := by
    intro c hc p hp
    exact (hbest _ (List.mem_map.mpr ⟨c, hc, rfl⟩) p hp).elim (fun h => h.ge) fun h => h.le
  constructor
  · obtain ⟨c, hc, rfl⟩ := List.mem_map.mp hside
    exact ⟨c, hc, bestAsk_eq_some.mpr ⟨hmem, hlower c hc⟩⟩
  · rintro p ⟨c, hc, hp⟩
    exact hlower c hc p (bestAsk_eq_some.mp hp).1

section Runs
variable [OfNumeral D] (jsonParse : String → Except StdException Json)

end Runs

section Example

end Example
end AsioAggregator
