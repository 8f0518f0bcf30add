import AsioAggregator.Clients.PriceBands
import AsioAggregator.Clients.VolumeBands
import AsioAggregator.Library.Weights
import AsioAggregator.Timestamps
import AsioAggregator.Turns

/-!
# What the clients show of the market

An update that a subscriber holds or has written shows the sum of the local books of all connectors
at one earlier moment. What a client prints for it is therefore about the exchanges: a row of the
table ranks a price among those of all of them, a band holds what they have in it together, and the
notional at a price is what all of them have there and at better prices. All this is in exact
arithmetic, where sums do not depend on their order.
-/

namespace AsioAggregator

open Std Runs SortedScan Sums Weights

variable {D : Type}

section Sides
variable {cmp : D → D → Ordering} [TransCmp cmp]

def volumeWithin [Zero D] [Add D] (within : D → Bool) (side : ExtTreeMap D D cmp) : D :=
  ((side.toList.filter fun e => within e.1).map Prod.snd).sum

def notionalWithin [Zero D] [Add D] [Mul D] (within : D → Bool) (side : ExtTreeMap D D cmp) : D :=
  ((side.toList.filter fun e => within e.1).map fun e => e.2 * e.1).sum

/-- The level that is behind so many better prices of the given sides, with what all of them have
at its price. -/
structure RankedLevel [Zero D] [Add D] (better : D → D → Prop) (sides : List (ExtTreeMap D D cmp))
    (rank : ℕ) (l : Level D) : Prop where
  price_mem : ∃ side ∈ sides, l.price ∈ side
  quantity_eq : l.quantity = (sides.map fun side => side[l.price]?.getD 0).sum
  rank_eq : {p | (∃ side ∈ sides, p ∈ side) ∧ better p l.price}.ncard = rank

/-- A band of the table holds what all sides have in it together. -/
structure BandOfAll [Zero D] [Add D] (sides : List (ExtTreeMap D D cmp)) (within : D → Bool)
    (IsFurthest : Set D → D → Prop) (band : Band D) : Prop where
  cumVol_eq : band.cumVol = (sides.map (volumeWithin within)).sum
  found_iff : band.found ↔ ∃ side ∈ sides, ∃ p ∈ side, within p
  closest : band.found → IsFurthest {p | (∃ side ∈ sides, p ∈ side) ∧ within p} band.closest

/-- At the price `p` all sides have the notional `cum`, there and at better prices, and at no better
price do they have as much as `T`. -/
structure ReachesAt [Zero D] [Add D] [Mul D] [LT D] (sides : List (ExtTreeMap D D cmp))
    (upTo : D → D → Bool) (T p cum : D) : Prop where
  price_mem : ∃ side ∈ sides, p ∈ side
  cum_eq : cum = (sides.map (notionalWithin (upTo p))).sum
  below : ∀ side ∈ sides, ∀ p' ∈ side, p' ≠ p → upTo p p' →
    (sides.map (notionalWithin (upTo p'))).sum < T

/-- What a line about the threshold `T` says; `complete` is whether the update has all levels. -/
def VolumeLine.Holds [Zero D] [Add D] [Mul D] [LT D] [LE D] (sides : List (ExtTreeMap D D cmp))
    (upTo : D → D → Bool) (complete : Prop) (T : D) : VolumeLine D → Prop
  | .reached band p cum => band = T ∧ ReachesAt sides upTo T p cum ∧ T ≤ cum
  | .notReached band cum p => band = T ∧ ReachesAt sides upTo T p cum ∧ cum < T ∧
      (complete → ∀ side ∈ sides, ∀ p' ∈ side, upTo p p')

/-- The order of a side: which prices come before another one, and which ones up to it. -/
structure SideOrder (cmp : D → D → Ordering) (better : D → D → Prop) (upTo : D → D → Bool) : Prop
    where
  better_of_lt : ∀ p p', cmp p p' = .lt → better p p'
  asymm : ∀ p p', better p p' → ¬ better p' p
  upTo_iff : ∀ p p', upTo p p' ↔ p' = p ∨ better p' p

section Totals
variable [LawfulEqCmp cmp] {sides : List (ExtTreeMap D D cmp)} {total : ExtTreeMap D D cmp}

theorem volumeWithin_of_isSum [AddCommMonoid D] (h : IsSum sides total) (within : D → Bool) :
    volumeWithin within total = (sides.map (volumeWithin within)).sum := by
  classical
  exact weigh_filter_of_isSum h (fun _ => AddMonoidHom.id D) within

theorem notionalWithin_of_isSum [NonUnitalNonAssocSemiring D] (h : IsSum sides total)
    (within : D → Bool) :
    notionalWithin within total = (sides.map (notionalWithin within)).sum := by
  classical
  exact weigh_filter_of_isSum h (fun p => AddMonoidHom.mulRight p) within

end Totals

section Ranks
variable {better : D → D → Prop} {sides : List (ExtTreeMap D D cmp)} {total : ExtTreeMap D D cmp}

theorem BestLevels.better_iff {levels : List (Level D)} (h : BestLevels better total levels)
    (hasymm : ∀ p p', better p p' → ¬ better p' p) {i : ℕ} {l : Level D}
    (hl : levels[i]? = some l) (p : D) :
    p ∈ total ∧ better p l.price ↔ p ∈ (levels.take i).map Level.price := by
  obtain ⟨hi, hget⟩ := List.getElem?_eq_some_iff.mp hl
  have hsplit : levels = levels.take i ++ l :: levels.drop (i + 1) := by
    rw [← hget, ← List.drop_eq_getElem_cons hi, List.take_append_drop]
  have hsorted := h.sorted
  rw [hsplit] at hsorted
  obtain ⟨-, htail, hcross⟩ := List.pairwise_append.mp hsorted
  rw [List.mem_map]
  constructor
  · rintro ⟨hp, hbetter⟩
    by_contra hnot
    have hlater : ∀ l' ∈ levels, l'.price ≠ p := by
      rintro l' hl' rfl
      rw [hsplit] at hl'
      rcases List.mem_append.mp hl' with hbefore | hafter
      · exact hnot ⟨l', hbefore, rfl⟩
      rcases List.mem_cons.mp hafter with rfl | hafter
      · exact hasymm _ _ hbetter hbetter
      · exact hasymm _ _ hbetter ((List.pairwise_cons.mp htail).1 l' hafter)
    exact hasymm _ _ hbetter (h.omitted p hp hlater l (List.mem_of_getElem? hl))
  · rintro ⟨l', hl', rfl⟩
    refine ⟨?_, hcross l' hl' l List.mem_cons_self⟩
    rw [← ExtTreeMap.isSome_getElem?_iff_mem, h.carried l' (List.mem_of_mem_take hl')]
    rfl

/-- The level at an index is behind that many better ones. -/
theorem BestLevels.rankedLevel [AddCommMonoid D] {levels : List (Level D)}
    (h : BestLevels better total levels) (hasymm : ∀ p p', better p p' → ¬ better p' p)
    (hsum : IsSum sides total) {i : ℕ} {l : Level D} (hl : levels[i]? = some l) :
    RankedLevel better sides i l := by
  have hcarried := h.carried l (List.mem_of_getElem? hl)
  refine ⟨?_, ?_, ?_⟩
  · rw [← (hsum l.price).1, ← ExtTreeMap.isSome_getElem?_iff_mem, hcarried]
    rfl
  · rw [← getD_of_isSum hsum, hcarried, Option.getD_some]
  · classical
    have hset : {p | (∃ side ∈ sides, p ∈ side) ∧ better p l.price} =
        (((levels.take i).map Level.price).toFinset : Set D) := by
      ext p
      rw [Set.mem_ofPred_eq, ← (hsum p).1, h.better_iff hasymm hl]
      simp
    have hnodup : ((levels.take i).map Level.price).Nodup := by
      rw [List.Nodup, List.pairwise_map]
      refine h.sorted.take.imp fun {l₁ l₂} hlt heq => ?_
      rw [heq] at hlt
      exact hasymm _ _ hlt hlt
    have hi := (List.getElem?_eq_some_iff.mp hl).1
    rw [hset, Set.ncard_coe_finset, List.toFinset_card_of_nodup hnodup, List.length_map,
      List.length_take_of_le hi.le]

end Ranks

section Bands
variable {better : D → D → Prop} {within : D → Bool}
variable {sides : List (ExtTreeMap D D cmp)} {total : ExtTreeMap D D cmp}

theorem length_copyLevels (side : ExtTreeMap D D cmp) :
    (copyLevels 0 side.toList).length = min maxDepth side.size := by
  simp [copyLevels_eq]

/-- The update has all levels of a side, or one that the band does not hold. -/
def Uncut (within : D → Bool) (levels : List (Level D)) : Prop :=
  levels.length < maxDepth ∨ ∃ l ∈ levels, ¬ within l.price

theorem scanBand_copyLevels [Add D] (side : ExtTreeMap D D cmp) (band : Band D)
    (huncut : Uncut within (copyLevels 0 side.toList)) :
    scanBand within band (copyLevels 0 side.toList) =
      scanBand within band (side.toList.map levelOf) := by
  have hlevels : copyLevels 0 side.toList = (side.toList.map levelOf).take maxDepth := by
    rw [copyLevels_eq, Nat.sub_zero, List.map_take]
  rw [scanBand_eq, scanBand_eq, hlevels, takeWhile_take]
  rcases huncut with hlen | ⟨l, hl, hnot⟩
  · left
    rw [length_copyLevels] at hlen
    simp only [List.length_map, ExtTreeMap.length_toList]
    omega
  · exact Or.inr ⟨l, hlevels ▸ hl, hnot⟩

variable [LawfulEqCmp cmp]

theorem bandOfAll_copyLevels [AddCommMonoid D] (better : D → D → Prop)
    (hcmp : ∀ p p', cmp p p' = .lt → better p p')
    (hwithin : ∀ p p', better p p' → within p' → within p) {IsFurthest : Set D → D → Prop}
    (hfurthest : ∀ s p, p ∈ s → (∀ p' ∈ s, p' = p ∨ better p' p) → IsFurthest s p)
    (hsum : IsSum sides total) (huncut : Uncut within (copyLevels 0 total.toList)) :
    BandOfAll sides within IsFurthest
      (scanBand within ⟨0, 0, false⟩ (copyLevels 0 total.toList)) := by
  rw [scanBand_copyLevels total _ huncut]
  have hband := bandOf_scanBand better hcmp hwithin hfurthest total
  refine ⟨hband.cumVol_eq.trans (volumeWithin_of_isSum hsum within), ?_, ?_⟩
  · rw [hband.found_iff]
    simp only [(hsum _).1]
    exact ⟨fun ⟨p, ⟨side, hside, hp⟩, hw⟩ => ⟨side, hside, p, hp, hw⟩,
      fun ⟨side, hside, p, hp, hw⟩ => ⟨p, ⟨side, hside, hp⟩, hw⟩⟩
  · simpa only [(hsum _).1] using hband.closest

theorem cumVol_copyLevels_le [AddCommMonoid D] [PartialOrder D] [IsOrderedAddMonoid D]
    (hcmp : ∀ p p', cmp p p' = .lt → better p p')
    (hwithin : ∀ p p', better p p' → within p' → within p) (hsum : IsSum sides total)
    (hnonneg : ∀ p q : D, total[p]? = some q → 0 ≤ q) :
    (scanBand within ⟨0, 0, false⟩ (copyLevels 0 total.toList)).cumVol ≤
      (sides.map (volumeWithin within)).sum := by
  have hsorted : total.toList.Pairwise fun e e' => better e.1 e'.1 :=
    ExtTreeMap.ordered_keys_toList.imp fun h => hcmp _ _ h
  rw [← volumeWithin_of_isSum hsum, scanBand_eq, cumVol_foldl_extend, zero_add, copyLevels_eq,
    List.takeWhile_map, List.map_map, volumeWithin,
    ← takeWhile_eq_filter hsorted fun e e' h hp => hwithin _ _ h hp]
  refine ((takeWhile_take_sublist _ _ _).map Prod.snd).sum_le_sum fun q hq => ?_
  obtain ⟨e, he, rfl⟩ := List.mem_map.mp hq
  exact hnonneg e.1 e.2
    (ExtTreeMap.mem_toList_iff_getElem?_eq_some.mp (List.takeWhile_subset _ he))

end Bands

section Depth
variable {better : D → D → Prop} {upTo : D → D → Bool}
variable {sides : List (ExtTreeMap D D cmp)} {total : ExtTreeMap D D cmp}

theorem copyLevels_eq_append {before after : List (Level D)} {l : Level D}
    (h : copyLevels 0 total.toList = before ++ l :: after) :
    ∃ entries e rest, total.toList = entries ++ e :: rest ∧ before = entries.map levelOf ∧
      l = levelOf e ∧ (after = [] → before.length + 1 < maxDepth → rest = []) := by
  rw [copyLevels_eq, Nat.sub_zero] at h
  obtain ⟨entries, tail, htake, rfl, htail⟩ := List.map_eq_append_iff.mp h
  obtain ⟨e, rest, rfl, rfl, rfl⟩ := List.map_eq_cons_iff.mp htail
  refine ⟨entries, e, rest ++ total.toList.drop maxDepth, ?_, rfl, rfl, fun hafter hlen => ?_⟩
  · rw [← List.cons_append, ← List.append_assoc, ← htake, List.take_append_drop]
  · have hshort := congrArg List.length htake
    rw [List.map_eq_nil_iff.mp hafter] at hshort ⊢
    rw [List.length_map] at hlen
    simp only [List.length_take, List.length_append, List.length_singleton] at hshort
    rw [List.nil_append, List.drop_eq_nil_iff]
    omega

variable [NonUnitalNonAssocSemiring D]

theorem notionalWithin_upTo (horder : SideOrder cmp better upTo) {entries rest : List (D × D)}
    {e : D × D} (hsplit : total.toList = entries ++ e :: rest) :
    notionalWithin (upTo e.1) total = notional ((entries ++ [e]).map levelOf) := by
  have hsorted : total.toList.Pairwise fun e e' => better e.1 e'.1 :=
    ExtTreeMap.ordered_keys_toList.imp fun h => horder.better_of_lt _ _ h
  have hfilter : (total.toList.filter fun e' => upTo e.1 e'.1) = entries ++ [e] := by
    refine filter_eq_of_split hsorted hsplit (fun e' h => ?_) ?_ fun e' h hup => ?_
    · exact (horder.upTo_iff _ _).mpr (Or.inr h)
    · exact (horder.upTo_iff _ _).mpr (Or.inl rfl)
    · rcases (horder.upTo_iff _ _).mp hup with heq | hbetter
      · rw [heq] at h
        exact horder.asymm _ _ h h
      · exact horder.asymm _ _ h hbetter
  rw [notionalWithin, hfilter, notional, List.map_map]
  rfl

variable [LawfulEqCmp cmp] [LinearOrder D]

theorem reachesAt_of_below (horder : SideOrder cmp better upTo) (hsum : IsSum sides total) {T : D}
    {entries rest : List (D × D)} {e : D × D} (hsplit : total.toList = entries ++ e :: rest)
    (hbelow : Below T (entries.map levelOf)) :
    ReachesAt sides upTo T e.1 (notional ((entries ++ [e]).map levelOf)) := by
  have hmem : ∀ p, p ∈ total ↔ ∃ e' ∈ total.toList, e'.1 = p := fun p => by
    rw [← ExtTreeMap.mem_keys, ← ExtTreeMap.map_fst_toList_eq_keys, List.mem_map]
  have hsorted : (entries ++ e :: rest).Pairwise fun e e' => better e.1 e'.1 :=
    hsplit ▸ ExtTreeMap.ordered_keys_toList.imp fun h => horder.better_of_lt _ _ h
  refine ⟨?_, ?_, ?_⟩
  · exact (hsum e.1).1.mp ((hmem e.1).mpr ⟨e, by simp [hsplit], rfl⟩)
  · rw [← notionalWithin_upTo horder hsplit, notionalWithin_of_isSum hsum]
  · intro side hside p' hp' hne hup
    have hbetter := ((horder.upTo_iff _ _).mp hup).resolve_left hne
    obtain ⟨e', he', rfl⟩ := (hmem p').mp ((hsum p').1.mpr ⟨side, hside, hp'⟩)
    rw [hsplit] at he'
    have hbefore : e' ∈ entries := by
      rcases List.mem_append.mp he' with hbefore | hafter
      · exact hbefore
      rcases List.mem_cons.mp hafter with rfl | hafter
      · exact absurd rfl hne
      · have hworse := (List.pairwise_cons.mp (List.pairwise_append.mp hsorted).2.1).1 e' hafter
        exact absurd hbetter (horder.asymm _ _ hworse)
    obtain ⟨first, second, rfl⟩ := List.append_of_mem hbefore
    have hsplit' : total.toList = first ++ e' :: (second ++ e :: rest) := by
      rw [hsplit, List.append_assoc, List.cons_append]
    rw [← notionalWithin_of_isSum hsum, notionalWithin_upTo horder hsplit', List.map_append]
    exact hbelow (first.map levelOf) (levelOf e') ⟨second.map levelOf, by simp⟩

/-- Every line of the volume bands says what the sides have together. -/
theorem ReportsFor.holds (horder : SideOrder cmp better upTo) (hsum : IsSum sides total) {T : D}
    {line : VolumeLine D} (h : ReportsFor (copyLevels 0 total.toList) T line) :
    line.Holds sides upTo ((copyLevels 0 total.toList).length < maxDepth) T := by
  cases h with
  | reached hlevels hbelow hreach =>
    obtain ⟨entries, e, rest, hsplit, rfl, rfl, -⟩ := copyLevels_eq_append hlevels
    have hreaches := reachesAt_of_below horder hsum hsplit hbelow
    rw [List.map_append] at hreaches
    exact ⟨rfl, hreaches, hreach⟩
  | notReached hlevels hbelow =>
    rw [hlevels] at hbelow ⊢
    obtain ⟨entries, e, rest, hsplit, rfl, rfl, hrest⟩ := copyLevels_eq_append hlevels
    obtain ⟨hbefore, hlast⟩ := below_concat.mp hbelow
    have hreaches := reachesAt_of_below horder hsum hsplit hbefore
    rw [List.map_append] at hreaches
    refine ⟨rfl, hreaches, hlast, fun hcomplete side hside p' hp' => ?_⟩
    rw [hrest rfl (by simpa using hcomplete)] at hsplit
    have hp : p' ∈ total := (hsum p').1.mpr ⟨side, hside, hp'⟩
    rw [← ExtTreeMap.mem_keys, ← ExtTreeMap.map_fst_toList_eq_keys, hsplit] at hp
    obtain ⟨e', he', rfl⟩ := List.mem_map.mp hp
    have hsorted : (entries ++ [e]).Pairwise fun e e' => better e.1 e'.1 :=
      hsplit ▸ ExtTreeMap.ordered_keys_toList.imp fun h => horder.better_of_lt _ _ h
    refine (horder.upTo_iff _ _).mpr ?_
    rcases List.mem_append.mp he' with hbefore | hlast
    · exact Or.inr ((List.pairwise_append.mp hsorted).2.2 e' hbefore e List.mem_cons_self)
    · exact Or.inl (List.mem_singleton.mp hlast ▸ rfl)

end Depth
end Sides

section Crossing
variable [LinearOrder D]

def bestBids (connectors : List (Feed D)) : Set D := {p | ∃ c ∈ connectors, bestBid c = some p}

def bestAsks (connectors : List (Feed D)) : Set D := {p | ∃ c ∈ connectors, bestAsk c = some p}

variable [AddCommGroup D] [IsOrderedAddMonoid D]

/-- By how much the best bid of a connector exceeds the best ask of one. -/
def crossings (connectors : List (Feed D)) : Set D :=
  {spread | ∃ c ∈ connectors, ∃ c' ∈ connectors, ∃ bid ask,
    bestBid c = some bid ∧ bestAsk c' = some ask ∧ spread = bid - ask}

/-- The warning is about the two connectors that are furthest apart. -/
theorem crossedBy_eq_some_iff {connectors : List (Feed D)} {bid ask spread : D}
    (hbid : IsGreatest (bestBids connectors) bid)
    (hask : IsLeast (bestAsks connectors) ask) :
    crossedBy bid ask = some spread ↔ 0 < spread ∧ IsGreatest (crossings connectors) spread := by
  have hgreatest : IsGreatest (crossings connectors) (bid - ask) := by
    obtain ⟨⟨c, hc, hbest⟩, hupper⟩ := hbid
    obtain ⟨⟨c', hc', hbest'⟩, hlower⟩ := hask
    refine ⟨⟨c, hc, c', hc', bid, ask, hbest, hbest', rfl⟩, ?_⟩
    rintro _ ⟨d, hd, d', hd', p, q, hp, hq, rfl⟩
    exact sub_le_sub (hupper ⟨d, hd, hp⟩) (hlower ⟨d', hd', hq⟩)
  simp only [crossedBy, Option.ite_none_right_eq_some, Option.some.injEq]
  constructor
  · rintro ⟨hpos, rfl⟩
    exact ⟨hpos, hgreatest⟩
  · rintro ⟨hpos, hspread⟩
    obtain rfl := hgreatest.unique hspread
    exact ⟨hpos, rfl⟩

end Crossing

section Rows

theorem askRows_rows {asks : List (Level D)} {n : ℕ} {displayNum : ℤ} {rows : List (TableRow D)}
    (h : askRows asks n displayNum = some rows) :
    ∀ row ∈ rows, row.number + n + displayNum = maxLevel + 1 + row.index ∧
      asks[row.index]? = some row.level := by
  induction n generalizing displayNum rows with
  | zero =>
    cases h
    simp
  | succ n ih =>
    simp only [askRows, Option.bind_eq_bind, Option.bind_eq_some_iff, Option.pure_def,
      Option.some.injEq] at h
    obtain ⟨lvl, hlvl, rest, hrest, rfl⟩ := h
    refine List.forall_mem_cons.mpr ⟨⟨?_, hlvl⟩, fun row hrow => ?_⟩
    · push_cast
      ring
    · obtain ⟨hnumber, hlevel⟩ := ih hrest row hrow
      refine ⟨?_, hlevel⟩
      push_cast
      linarith

theorem mapM_bidRow_rows {bids : List (Level D)} {indices : List ℕ} {rows : List (TableRow D)}
    (h : (indices.mapM fun i : ℕ => do
      let lvl ← bids[i]?
      return ⟨(i : ℤ) + 1, i, lvl⟩) = some rows) :
    ∀ row ∈ rows, row.number = row.index + 1 ∧ bids[row.index]? = some row.level := by
  induction indices generalizing rows with
  | nil =>
    cases h
    simp
  | cons i indices ih =>
    simp only [List.mapM_cons, Option.bind_eq_bind, Option.bind_eq_some_iff, Option.pure_def,
      Option.some.injEq] at h
    obtain ⟨row, ⟨lvl, hlvl, rfl⟩, rest, hrest, rfl⟩ := h
    exact List.forall_mem_cons.mpr ⟨⟨rfl, hlvl⟩, ih hrest⟩

end Rows

section Screens
variable [Field D] [LinearOrder D] [IsStrictOrderedRing D]

/-- The rows of the table number the bids from one, but the asks from the second best one. -/
structure BboScreen.ShowsMarket (connectors : List (Feed D)) (screen : BboScreen D) : Prop where
  bestBid : RankedLevel (· > ·) (bidSides connectors) 0 screen.bestBid
  bestAsk : RankedLevel (· < ·) (askSides connectors) 0 screen.bestAsk
  warning : ∀ spread, screen.warning = some spread ↔
    0 < spread ∧ IsGreatest (crossings connectors) spread
  bids : ∀ row ∈ screen.bids, row.number = row.index + 1 ∧
    RankedLevel (· > ·) (bidSides connectors) row.index row.level
  asks : ∀ row ∈ screen.asks, row.number = row.index ∧
    RankedLevel (· < ·) (askSides connectors) row.index row.level

/-- The table is exact for a band that the update holds, and never shows too much. -/
structure PriceBandsScreen.ShowsMarket (connectors : List (Feed D)) (update : BookUpdate D)
    (screen : PriceBandsScreen D) : Prop where
  highestBid : IsGreatest (bestBids connectors) screen.bestBid
  lowestAsk : IsLeast (bestAsks connectors) screen.bestAsk
  warning : ∀ spread, screen.warning = some spread ↔
    0 < spread ∧ IsGreatest (crossings connectors) spread
  widths : screen.rows.map BandRow.bps = bpsLevels.map fun bps : ℕ => (bps : D)
  targets : ∀ row ∈ screen.rows,
    row.bidTarget = (screen.bestBid + screen.bestAsk) / 2 * (1 - row.bps / 10000) ∧
      row.askTarget = (screen.bestBid + screen.bestAsk) / 2 * (1 + row.bps / 10000)
  bids : ∀ row ∈ screen.rows, Uncut (fun p => p ≥ row.bidTarget) update.bids →
    BandOfAll (bidSides connectors) (fun p => p ≥ row.bidTarget) IsLeast row.bid
  asks : ∀ row ∈ screen.rows, Uncut (fun p => p ≤ row.askTarget) update.asks →
    BandOfAll (askSides connectors) (fun p => p ≤ row.askTarget) IsGreatest row.ask
  atMost : (∀ c ∈ connectors, c.localBooks.ForallLevels fun _ q => 0 ≤ q) →
    ∀ row ∈ screen.rows,
      row.bid.cumVol ≤ ((bidSides connectors).map (volumeWithin fun p => p ≥ row.bidTarget)).sum ∧
      row.ask.cumVol ≤ ((askSides connectors).map (volumeWithin fun p => p ≤ row.askTarget)).sum

omit [Field D] [IsStrictOrderedRing D] in
theorem sideOrder_bids :
    SideOrder (fun p p' : D => compare p' p) (· > ·) (fun p p' => p' ≥ p) where
  better_of_lt _ _ h := compare_lt_iff_lt.mp h
  asymm _ _ := lt_asymm
  upTo_iff _ _ := decide_eq_true_iff.trans (le_iff_eq_or_lt.trans (or_congr_left eq_comm))

omit [Field D] [IsStrictOrderedRing D] in
theorem sideOrder_asks : SideOrder (compare : D → D → Ordering) (· < ·) (fun p p' => p' ≤ p) where
  better_of_lt _ _ h := compare_lt_iff_lt.mp h
  asymm _ _ := lt_asymm
  upTo_iff _ _ := decide_eq_true_iff.trans le_iff_eq_or_lt

section Shows
variable {connectors : List (Feed D)} {u : BookUpdate D}

theorem BboScreen.showsMarket {screen : BboScreen D} (hu : Shows (consolidate connectors) u)
    (h : bboScreen u = some screen) : screen.ShowsMarket connectors := by
  obtain ⟨now, rfl⟩ := hu
  obtain ⟨hbid, hask, hasks, hbids, hwarning⟩ := bboScreen_eq_some.mp h
  have hbidLevel : ∀ {i l}, (buildBookUpdate now (consolidate connectors)).bids[i]? = some l →
      RankedLevel (· > ·) (bidSides connectors) i l := fun hl =>
    (bestLevels_bids now _).rankedLevel (fun _ _ => lt_asymm) (isSum_consolidate_bids _) hl
  have haskLevel : ∀ {i l}, (buildBookUpdate now (consolidate connectors)).asks[i]? = some l →
      RankedLevel (· < ·) (askSides connectors) i l := fun hl =>
    (bestLevels_asks now _).rankedLevel (fun _ _ => lt_asymm) (isSum_consolidate_asks _) hl
  refine ⟨hbidLevel hbid, haskLevel hask, fun spread => ?_, fun row hrow => ?_, fun row hrow => ?_⟩
  · rw [hwarning]
    rw [← List.head?_eq_getElem?] at hbid hask
    exact crossedBy_eq_some_iff (head_bids_isGreatest hbid) (head_asks_isLeast hask)
  · obtain ⟨hnumber, hlevel⟩ := mapM_bidRow_rows hbids row hrow
    exact ⟨hnumber, hbidLevel hlevel⟩
  · obtain ⟨hnumber, hlevel⟩ := askRows_rows hasks row hrow
    exact ⟨by linarith, haskLevel hlevel⟩

theorem getElem?_nonneg_of_isSum {cmp : D → D → Ordering} [TransCmp cmp]
    {sides : List (ExtTreeMap D D cmp)} {total : ExtTreeMap D D cmp} (hsum : IsSum sides total)
    (h : ∀ side ∈ sides, ∀ p q : D, side[p]? = some q → 0 ≤ q) (p q : D)
    (hq : total[p]? = some q) : 0 ≤ q := by
  rw [(hsum p).2 q hq]
  refine List.sum_nonneg fun q' hq' => ?_
  obtain ⟨side, hside, hget⟩ := List.mem_filterMap.mp hq'
  exact h side hside p q' hget

omit [Field D] [IsStrictOrderedRing D] in
theorem bidBand_closed {target : D} (p p' : D) (h : p > p') (hp : decide (p' ≥ target) = true) :
    decide (p ≥ target) = true :=
  decide_eq_true ((of_decide_eq_true hp).trans h.le)

omit [Field D] [IsStrictOrderedRing D] in
theorem askBand_closed {target : D} (p p' : D) (h : p < p') (hp : decide (p' ≤ target) = true) :
    decide (p ≤ target) = true :=
  decide_eq_true (h.le.trans (of_decide_eq_true hp))

omit [IsStrictOrderedRing D] in
theorem bidBand_ofAll (now : ℤ) {target : D}
    (huncut : Uncut (fun p => p ≥ target) (buildBookUpdate now (consolidate connectors)).bids) :
    BandOfAll (bidSides connectors) (fun p => p ≥ target) IsLeast
      (scanBand (fun p => p ≥ target) ⟨0, 0, false⟩
        (buildBookUpdate now (consolidate connectors)).bids) := by
  refine bandOfAll_copyLevels (· > ·) (fun _ _ h => compare_lt_iff_lt.mp h) bidBand_closed ?_
    (isSum_consolidate_bids connectors) huncut
  intro s p hp hlower
  exact ⟨hp, fun p' hp' => (hlower p' hp').elim (fun h => h.ge) fun h => h.le⟩

omit [IsStrictOrderedRing D] in
theorem askBand_ofAll (now : ℤ) {target : D}
    (huncut : Uncut (fun p => p ≤ target) (buildBookUpdate now (consolidate connectors)).asks) :
    BandOfAll (askSides connectors) (fun p => p ≤ target) IsGreatest
      (scanBand (fun p => p ≤ target) ⟨0, 0, false⟩
        (buildBookUpdate now (consolidate connectors)).asks) := by
  refine bandOfAll_copyLevels (· < ·) (fun _ _ h => compare_lt_iff_lt.mp h) askBand_closed ?_
    (isSum_consolidate_asks connectors) huncut
  intro s p hp hupper
  exact ⟨hp, fun p' hp' => (hupper p' hp').elim (fun h => h.le) fun h => h.le⟩

theorem cumVol_bidBand_le (now : ℤ) (target : D)
    (hnonneg : ∀ c ∈ connectors, c.localBooks.ForallLevels fun _ q => 0 ≤ q) :
    (scanBand (fun p => p ≥ target) ⟨0, 0, false⟩
        (buildBookUpdate now (consolidate connectors)).bids).cumVol ≤
      ((bidSides connectors).map (volumeWithin fun p => p ≥ target)).sum := by
  have hsum := isSum_consolidate_bids connectors
  refine cumVol_copyLevels_le (fun _ _ h => compare_lt_iff_lt.mp h) bidBand_closed hsum
    (getElem?_nonneg_of_isSum hsum fun side hside => ?_)
  obtain ⟨c, hc, rfl⟩ := List.mem_map.mp hside
  exact (hnonneg c hc).1

theorem cumVol_askBand_le (now : ℤ) (target : D)
    (hnonneg : ∀ c ∈ connectors, c.localBooks.ForallLevels fun _ q => 0 ≤ q) :
    (scanBand (fun p => p ≤ target) ⟨0, 0, false⟩
        (buildBookUpdate now (consolidate connectors)).asks).cumVol ≤
      ((askSides connectors).map (volumeWithin fun p => p ≤ target)).sum := by
  have hsum := isSum_consolidate_asks connectors
  refine cumVol_copyLevels_le (fun _ _ h => compare_lt_iff_lt.mp h) askBand_closed hsum
    (getElem?_nonneg_of_isSum hsum fun side hside => ?_)
  obtain ⟨c, hc, rfl⟩ := List.mem_map.mp hside
  exact (hnonneg c hc).2

theorem PriceBandsScreen.showsMarket {screen : PriceBandsScreen D}
    (hu : Shows (consolidate connectors) u) (h : priceBands u = some screen) :
    screen.ShowsMarket connectors u := by
  obtain ⟨now, rfl⟩ := hu
  simp only [priceBands, Option.bind_eq_bind, Option.bind_eq_some_iff, Option.pure_def,
    Option.some.injEq] at h
  obtain ⟨bid, hbid, ask, hask, rfl⟩ := h
  rw [← List.head?_eq_getElem?] at hbid hask
  have hbest := head_bids_isGreatest hbid
  have hbest' := head_asks_isLeast hask
  refine ⟨hbest, hbest', fun spread => crossedBy_eq_some_iff hbest hbest', ?_, ?_, ?_, ?_, ?_⟩
  · rw [List.map_map]
    rfl
  · intro row hrow
    obtain ⟨bps, -, rfl⟩ := List.mem_map.mp hrow
    exact ⟨rfl, rfl⟩
  · intro row hrow huncut
    obtain ⟨bps, -, rfl⟩ := List.mem_map.mp hrow
    exact bidBand_ofAll now huncut
  · intro row hrow huncut
    obtain ⟨bps, -, rfl⟩ := List.mem_map.mp hrow
    exact askBand_ofAll now huncut
  · intro hnonneg row hrow
    obtain ⟨bps, -, rfl⟩ := List.mem_map.mp hrow
    exact ⟨cumVol_bidBand_le now _ hnonneg, cumVol_askBand_le now _ hnonneg⟩

theorem exists_bboScreen (hu : Shows (consolidate connectors) u) (hbids : u.bids ≠ [])
    (hasks : maxLevel < u.asks.length) :
    ∃ screen, bboScreen u = some screen ∧ screen.ShowsMarket connectors := by
  obtain ⟨screen, hscreen⟩ := Option.isSome_iff_exists.mp ((isSome_bboScreen hbids).mpr hasks)
  exact ⟨screen, hscreen, BboScreen.showsMarket hu hscreen⟩

theorem exists_priceBands (hu : Shows (consolidate connectors) u) (hbids : u.bids ≠ [])
    (hasks : u.asks ≠ []) :
    ∃ screen, priceBands u = some screen ∧ screen.ShowsMarket connectors u := by
  have hbid := List.getElem?_eq_getElem (List.length_pos_iff.mpr hbids)
  have hask := List.getElem?_eq_getElem (List.length_pos_iff.mpr hasks)
  obtain ⟨screen, hscreen⟩ : ∃ screen, priceBands u = some screen := by
    simp only [priceBands, hbid, hask, Option.bind_eq_bind, Option.bind_some, Option.pure_def]
    exact ⟨_, rfl⟩
  exact ⟨screen, hscreen, PriceBandsScreen.showsMarket hu hscreen⟩

def VolumeLinesShowMarket (connectors : List (Feed D)) (update : BookUpdate D)
    (lines : List (VolumeLine D) × List (VolumeLine D)) : Prop :=
  List.Forall₂ (VolumeLine.Holds (bidSides connectors) (fun p p' => p' ≥ p)
      (update.bids.length < maxDepth)) (volumeThresholds.map fun n : ℕ => (n : D)) lines.1 ∧
    List.Forall₂ (VolumeLine.Holds (askSides connectors) (fun p p' => p' ≤ p)
      (update.asks.length < maxDepth)) (volumeThresholds.map fun n : ℕ => (n : D)) lines.2

theorem volumeBands_showMarket (hu : Shows (consolidate connectors) u) (hbids : u.bids ≠ [])
    (hasks : u.asks ≠ []) : VolumeLinesShowMarket connectors u (volumeBands u) := by
  have hthresholds : (volumeThresholds.map fun n : ℕ => (n : D)).Pairwise (· < ·) := by
    rw [List.pairwise_map]
    have hnat : volumeThresholds.Pairwise (· < ·) := by decide
    exact hnat.imp fun h => Nat.cast_lt.mpr h
  obtain ⟨now, rfl⟩ := hu
  exact ⟨(volumeLines_report hbids hthresholds).imp fun _ _ h =>
      h.holds sideOrder_bids (isSum_consolidate_bids connectors),
    (volumeLines_report hasks hthresholds).imp fun _ _ h =>
      h.holds sideOrder_asks (isSum_consolidate_asks connectors)⟩

end Shows
end Screens

section Streams
variable [LinearOrder D] [Zero D] [Add D] [OfNumeral D]
variable {jsonParse : String → Except StdException Json} {exchanges : List Exchange}
variable {events : List ServerEvent} {s : Server D} {j : ℕ} {sub : Subscriber D}
variable {v : UInt64} {u : BookUpdate D}

/-- Whatever a subscriber has been sent shows the connectors as some earlier messages left them. -/
theorem got_run
    (hrun : run (Server.step jsonParse) (Server.initial exchanges : Server D) events = some s)
    (hsub : s.subscribers[j]? = some sub) (hgot : sub.Got v u) :
    ∃ seen connectors, seen <+: events ∧ Replayed jsonParse exchanges seen connectors ∧
      Shows (consolidate connectors) u := by
  refine history_invariant (I := fun events (s : Server D) => ∀ sub, s.subscribers[j]? = some sub →
    sub.Got v u → ∃ seen connectors, seen <+: events ∧
      Replayed jsonParse exchanges seen connectors ∧ Shows (consolidate connectors) u)
    ?_ ?_ hrun sub hsub hgot
  · intro sub hsub
    simp [Server.initial] at hsub
  rintro es t e t' hes ih hs sub hsub hgot
  have hlater : es <+: es ++ [e] := List.prefix_append _ _
  obtain ⟨sub', hsub', hgot'⟩ | ⟨now, -, -, -, hu⟩ := got_step hs hsub hgot
  · obtain ⟨seen, connectors, hseen, hconnectors⟩ := ih sub' hsub' hgot'
    exact ⟨seen, connectors, hseen.trans hlater, hconnectors⟩
  · obtain ⟨seen, hseen, ⟨connectors, hbook, hconnectors⟩, -⟩ := reflects_run hes
    exact ⟨seen, connectors, hseen.trans hlater, hconnectors, now, hbook ▸ hu⟩

end Streams

section Example

def thickText : String :=
  "\x7b\"lastUpdateId\":160,\"bids\":[[\"100\",\"2\"]],\"asks\":[[\"101\",\"1\"]," ++
    "[\"102\",\"1\"],[\"103\",\"1\"],[\"104\",\"1\"],[\"105\",\"1\"],[\"106\",\"1\"]," ++
    "[\"107\",\"1\"],[\"108\",\"1\"],[\"109\",\"1\"],[\"110\",\"1\"],[\"111\",\"1\"]]\x7d"

def higherText : String :=
  "\x7b\"lastUpdateId\":161,\"bids\":[[\"102\",\"3\"]],\"asks\":[[\"103\",\"2\"]]\x7d"

def decodeMarket : String → Except StdException Json :=
  decodeTable
    [(thickText, .object
      [("asks", .array ((List.range 11).map fun i => .level (toString (101 + i)) "1")),
      ("bids", .array [.level "100" "2"]), ("lastUpdateId", .number 160)]),
    (higherText, .object [("asks", .array [.level "103" "2"]), ("bids", .array [.level "102" "3"]),
      ("lastUpdateId", .number 161)])]

def marketEvents : List ServerEvent :=
  [.subscribe, .deliver 0 thickText, .deliver 1 higherText, .runStrand 0, .runStrand 0,
    .poll 0 false, .runStrand 5, .resume 0 true]

def marketUpdate : BookUpdate ℚ where
  timestampMs := 5
  bids := [⟨102, 3⟩, ⟨100, 2⟩]
  asks := (List.range 11).map fun i : ℕ => ⟨101 + i, if i = 2 then 3 else 1⟩

theorem run_marketEvents :
    ∃ s : Server ℚ, run (Server.step decodeMarket) (Server.initial [.binance, .binance])
      marketEvents = some s ∧ s.subscribers = [⟨2, .polling, [(2, marketUpdate)]⟩] :=
  exists_of_run_any
    (P := fun s : Server ℚ => s.subscribers = [⟨2, .polling, [(2, marketUpdate)]⟩])
    (show (run (Server.step decodeMarket) (Server.initial [.binance, .binance])
      marketEvents).any _ = true by decide +kernel)

end Example

section Clients
variable [Field D] [LinearOrder D] [IsStrictOrderedRing D] [OfNumeral D]
variable {jsonParse : String → Except StdException Json} {exchanges : List Exchange}
variable {events : List ServerEvent} {s : Server D} {j : ℕ} {sub : Subscriber D}
variable {v : UInt64} {u : BookUpdate D}

/-- The best-bid-and-offer client gets through an update with a bid and more than ten asks, and its
screen ranks the levels of all connectors together, as they stood at one moment of the run. -/
theorem bbo_shows_market
    (hrun : run (Server.step jsonParse) (Server.initial exchanges : Server D) events = some s)
    (hsub : s.subscribers[j]? = some sub) (hwritten : (v, u) ∈ sub.written) (hbids : u.bids ≠ [])
    (hasks : maxLevel < u.asks.length) :
    ∃ seen connectors, seen <+: events ∧ Replayed jsonParse exchanges seen connectors ∧
      ∃ screen, bboScreen u = some screen ∧ screen.ShowsMarket connectors := by
  obtain ⟨seen, connectors, hseen, hconnectors, hshows⟩ :=
    got_run hrun hsub (Or.inr hwritten)
  exact ⟨seen, connectors, hseen, hconnectors, exists_bboScreen hshows hbids hasks⟩

theorem bbo_shows_market_example :
    ∃ (seen : List ServerEvent) (connectors : List (Feed ℚ)), seen <+: marketEvents ∧
      Replayed decodeMarket [.binance, .binance] seen connectors ∧
        ∃ screen, bboScreen marketUpdate = some screen ∧ screen.ShowsMarket connectors := by
  obtain ⟨s, hrun, hsubs⟩ := run_marketEvents
  exact bbo_shows_market (j := 0) (v := 2) (u := marketUpdate) hrun (by rw [hsubs]; rfl)
    List.mem_cons_self (by decide +kernel) (by decide +kernel)

/-- The price-band client prints what all connectors together had within each band. -/
theorem price_bands_show_market
    (hrun : run (Server.step jsonParse) (Server.initial exchanges : Server D) events = some s)
    (hsub : s.subscribers[j]? = some sub) (hwritten : (v, u) ∈ sub.written) (hbids : u.bids ≠ [])
    (hasks : u.asks ≠ []) :
    ∃ seen connectors, seen <+: events ∧ Replayed jsonParse exchanges seen connectors ∧
      ∃ screen, priceBands u = some screen ∧ screen.ShowsMarket connectors u := by
  obtain ⟨seen, connectors, hseen, hconnectors, hshows⟩ :=
    got_run hrun hsub (Or.inr hwritten)
  exact ⟨seen, connectors, hseen, hconnectors, exists_priceBands hshows hbids hasks⟩

theorem price_bands_show_market_example :
    ∃ (seen : List ServerEvent) (connectors : List (Feed ℚ)), seen <+: marketEvents ∧
      Replayed decodeMarket [.binance, .binance] seen connectors ∧
        ∃ screen, priceBands marketUpdate = some screen ∧
          screen.ShowsMarket connectors marketUpdate := by
  obtain ⟨s, hrun, hsubs⟩ := run_marketEvents
  exact price_bands_show_market (j := 0) (v := 2) (u := marketUpdate) hrun (by rw [hsubs]; rfl)
    List.mem_cons_self (by decide +kernel) (by decide +kernel)

/-- The volume-band client prints for each threshold where all connectors together reached it. -/
theorem volume_bands_show_market
    (hrun : run (Server.step jsonParse) (Server.initial exchanges : Server D) events = some s)
    (hsub : s.subscribers[j]? = some sub) (hwritten : (v, u) ∈ sub.written)
    (hbids : u.bids ≠ []) (hasks : u.asks ≠ []) :
    ∃ seen connectors, seen <+: events ∧ Replayed jsonParse exchanges seen connectors ∧
      VolumeLinesShowMarket connectors u (volumeBands u) := by
  obtain ⟨seen, connectors, hseen, hconnectors, hshows⟩ :=
    got_run hrun hsub (Or.inr hwritten)
  exact ⟨seen, connectors, hseen, hconnectors, volumeBands_showMarket hshows hbids hasks⟩

theorem volume_bands_show_market_example :
    ∃ (seen : List ServerEvent) (connectors : List (Feed ℚ)), seen <+: marketEvents ∧
      Replayed decodeMarket [.binance, .binance] seen connectors ∧
        VolumeLinesShowMarket connectors marketUpdate (volumeBands marketUpdate) := by
  obtain ⟨s, hrun, hsubs⟩ := run_marketEvents
  exact volume_bands_show_market (j := 0) (v := 2) (u := marketUpdate) hrun
    (by rw [hsubs]; rfl) List.mem_cons_self (by decide +kernel) (by decide +kernel)

end Clients

end AsioAggregator
