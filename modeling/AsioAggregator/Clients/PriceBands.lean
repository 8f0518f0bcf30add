import AsioAggregator.Clients.Bbo
import AsioAggregator.PublishedBooks
import AsioAggregator.Library.SortedScan

/-!
# The price-band client

For every width in basis points the client sums up the levels within that distance of the mid
price, and leaves each side at the first level that is further away. Since the server sends sorted
and, up to its depth, complete books, the sums are those of the whole consolidated book.
-/

namespace AsioAggregator

open Std SortedScan

variable {D : Type}

structure Band (D : Type) where
  cumVol : D
  closest : D
  found : Bool
deriving DecidableEq

/-- The loop over one side, which breaks at the first level that is not within the band. -/
def scanBand [Add D] (within : D → Bool) : Band D → List (Level D) → Band D
  | band, [] => band
  | band, level :: rest =>
    if within level.price then
      scanBand within ⟨band.cumVol + level.quantity, level.price, true⟩ rest
    else band

structure BandRow (D : Type) where
  bps : D
  bidTarget : D
  bid : Band D
  askTarget : D
  ask : Band D
deriving DecidableEq

structure PriceBandsScreen (D : Type) where
  bestBid : D
  bestAsk : D
  mid : D
  warning : Option D
  rows : List (BandRow D)
deriving DecidableEq

def bpsLevels : List ℕ := [1, 2, 5, 10, 20, 50, 100, 200, 500, 1000]

section Rows
variable [Field D] [LinearOrder D]

def bidTarget (mid bps : D) : D := mid * (1 - bps / 10000)

def askTarget (mid bps : D) : D := mid * (1 + bps / 10000)

def bandRow (update : BookUpdate D) (mid bps : D) : BandRow D where
  bps := bps
  bidTarget := bidTarget mid bps
  bid := scanBand (fun price => price ≥ bidTarget mid bps) ⟨0, 0, false⟩ update.bids
  askTarget := askTarget mid bps
  ask := scanBand (fun price => price ≤ askTarget mid bps) ⟨0, 0, false⟩ update.asks

/-- What is printed for an update; `bids(0)` and `asks(0)` have to be there. -/
def priceBands (update : BookUpdate D) : Option (PriceBandsScreen D) := do
  let bid ← update.bids[0]?
  let ask ← update.asks[0]?
  let bestBid := bid.price
  let bestAsk := ask.price
  let mid := (bestBid + bestAsk) / 2
  return ⟨bestBid, bestAsk, mid, crossedBy bestBid bestAsk,
    bpsLevels.map fun bps => bandRow update mid bps⟩

end Rows

/-- The levels of a side within a band: their volume, whether there are any, and the one that is
furthest away. -/
structure BandOf [Zero D] [Add D] {cmp : D → D → Ordering} [TransCmp cmp]
    (side : ExtTreeMap D D cmp) (within : D → Bool) (IsFurthest : Set D → D → Prop)
    (band : Band D) : Prop where
  cumVol_eq : band.cumVol = ((side.toList.filter fun e => within e.1).map Prod.snd).sum
  found_iff : band.found ↔ ∃ p ∈ side, within p
  closest : band.found → IsFurthest {p | p ∈ side ∧ within p} band.closest

section Scan
variable {cmp : D → D → Ordering} [TransCmp cmp] {better : D → D → Prop} {within : D → Bool}

def Band.extend [Add D] (band : Band D) (level : Level D) : Band D :=
  ⟨band.cumVol + level.quantity, level.price, true⟩

theorem scanBand_eq [Add D] (within : D → Bool) (band : Band D) (levels : List (Level D)) :
    scanBand within band levels =
      (levels.takeWhile fun l => within l.price).foldl Band.extend band := by
  induction levels generalizing band with
  | nil => rfl
  | cons level levels ih => by_cases h : within level.price <;> simp [scanBand, h, ih, Band.extend]

theorem cumVol_foldl_extend [AddMonoid D] (band : Band D) (levels : List (Level D)) :
    (levels.foldl Band.extend band).cumVol = band.cumVol + (levels.map Level.quantity).sum := by
  induction levels generalizing band with
  | nil => simp
  | cons level levels ih => simp [ih, Band.extend, add_assoc]

theorem found_foldl_extend [Add D] (band : Band D) (levels : List (Level D)) :
    (levels.foldl Band.extend band).found = (band.found || !levels.isEmpty) := by
  induction levels generalizing band with
  | nil => simp
  | cons level levels ih => simp [ih, Band.extend]

/-- The loop over a sorted side sees all levels within a band that starts at the best one. -/
theorem scanBand_toList [Add D] (hcmp : ∀ p p', cmp p p' = .lt → better p p')
    (hwithin : ∀ p p', better p p' → within p' → within p) (side : ExtTreeMap D D cmp)
    (band : Band D) :
    scanBand within band (side.toList.map levelOf) =
      ((side.toList.filter fun e => within e.1).map levelOf).foldl Band.extend band := by
  have hsorted : side.toList.Pairwise fun e e' => better e.1 e'.1 :=
    ExtTreeMap.ordered_keys_toList.imp fun h => hcmp _ _ h
  rw [scanBand_eq, List.takeWhile_map]
  congr 2
  exact takeWhile_eq_filter hsorted fun e e' h hp => hwithin _ _ h hp

theorem exists_mem_filter_toList [LawfulEqCmp cmp] (within : D → Bool)
    (side : ExtTreeMap D D cmp) (p : D) :
    (∃ e ∈ side.toList.filter fun e => within e.1, e.1 = p) ↔ p ∈ side ∧ within p := by
  simp only [List.mem_filter]
  constructor
  · rintro ⟨e, ⟨he, hwithin⟩, rfl⟩
    have hget : side[e.1]? = some e.2 := ExtTreeMap.mem_toList_iff_getElem?_eq_some.mp he
    exact ⟨ExtTreeMap.mem_iff_isSome_getElem?.mpr (by rw [hget]; rfl), hwithin⟩
  · rintro ⟨hp, hwithin⟩
    have hget : (p, side[p]) ∈ side.toList :=
      ExtTreeMap.mem_toList_iff_getElem?_eq_some.mpr (ExtTreeMap.getElem?_eq_some_getElem hp)
    exact ⟨_, ⟨hget, hwithin⟩, rfl⟩

/-- The loop computes the band, for a `better` that orders the side and a notion of the furthest
price that fits it. -/
theorem bandOf_scanBand [AddMonoid D] [LawfulEqCmp cmp] (better : D → D → Prop)
    (hcmp : ∀ p p', cmp p p' = .lt → better p p')
    (hwithin : ∀ p p', better p p' → within p' → within p) {IsFurthest : Set D → D → Prop}
    (hfurthest : ∀ s p, p ∈ s → (∀ p' ∈ s, p' = p ∨ better p' p) → IsFurthest s p)
    (side : ExtTreeMap D D cmp) :
    BandOf side within IsFurthest (scanBand within ⟨0, 0, false⟩ (side.toList.map levelOf)) := by
  rw [scanBand_toList hcmp hwithin]
  have hmem := exists_mem_filter_toList within side
  have hsorted : (side.toList.filter fun e => within e.1).Pairwise fun e e' => better e.1 e'.1 :=
    (ExtTreeMap.ordered_keys_toList.imp fun h => hcmp _ _ h).filter _
  refine ⟨?_, ?_, ?_⟩
  · rw [cumVol_foldl_extend, zero_add, List.map_map]
    rfl
  · rw [found_foldl_extend]
    simp only [← hmem]
    cases side.toList.filter fun e => within e.1 <;> simp
  · intro hfound
    generalize side.toList.filter (fun e => within e.1) = entries at hmem hsorted hfound ⊢
    rcases List.eq_nil_or_concat entries with rfl | ⟨init, last, rfl⟩
    · cases hfound
    rw [List.concat_eq_append] at hmem hsorted ⊢
    have hclosest : (((init ++ [last]).map levelOf).foldl Band.extend ⟨0, 0, false⟩).closest =
        last.1 := by
      simp [Band.extend, levelOf]
    rw [hclosest]
    refine hfurthest _ _ ((hmem last.1).mp ⟨last, by simp, rfl⟩) fun p hp => ?_
    obtain ⟨e, he, rfl⟩ := (hmem p).mpr hp
    rcases List.mem_append.mp he with hinit | hlast
    · exact Or.inr ((List.pairwise_append.mp hsorted).2.2 e hinit last List.mem_cons_self)
    · rw [List.mem_singleton] at hlast
      exact Or.inl (hlast ▸ rfl)

theorem BandOf.cumVol_le [AddCommMonoid D] [PartialOrder D] [IsOrderedAddMonoid D]
    [LawfulEqCmp cmp] {side : ExtTreeMap D D cmp} {within' : D → Bool}
    {IsFurthest : Set D → D → Prop} {band band' : Band D} (h : BandOf side within IsFurthest band)
    (h' : BandOf side within' IsFurthest band') (hwider : ∀ p, within p → within' p)
    (hnonneg : ∀ p q : D, side[p]? = some q → 0 ≤ q) : band.cumVol ≤ band'.cumVol := by
  rw [h.cumVol_eq, h'.cumVol_eq]
  have hsub : (side.toList.filter fun e => within e.1).Sublist
      (side.toList.filter fun e => within' e.1) :=
    List.monotone_filter_right _ fun e he => hwider e.1 he
  refine (hsub.map Prod.snd).sum_le_sum fun q hq => ?_
  obtain ⟨e, he, rfl⟩ := List.mem_map.mp hq
  exact hnonneg e.1 e.2
    (ExtTreeMap.mem_toList_iff_getElem?_eq_some.mp (List.mem_of_mem_filter he))

end Scan

section Table

theorem copyLevels_of_size_le {cmp : D → D → Ordering} [TransCmp cmp] {side : ExtTreeMap D D cmp}
    (hsize : side.size ≤ maxDepth) : copyLevels 0 side.toList = side.toList.map levelOf := by
  rw [copyLevels_eq, List.take_of_length_le (by simpa using hsize)]

variable [Field D] [LinearOrder D]

theorem bandOf_bandRow {b : Books D} (hbids : b.bids.size ≤ maxDepth)
    (hasks : b.asks.size ≤ maxDepth) (now : ℤ) (mid bps : D) :
    BandOf b.bids (fun p => p ≥ bidTarget mid bps) IsLeast
        (bandRow (buildBookUpdate now b) mid bps).bid ∧
      BandOf b.asks (fun p => p ≤ askTarget mid bps) IsGreatest
        (bandRow (buildBookUpdate now b) mid bps).ask := by
  simp only [bandRow, buildBookUpdate, copyLevels_of_size_le hbids, copyLevels_of_size_le hasks]
  constructor
  · refine bandOf_scanBand (· > ·) (fun _ _ h => compare_lt_iff_lt.mp h) ?_ ?_ b.bids
    · intro p p' hp hp'
      exact decide_eq_true ((of_decide_eq_true hp').trans hp.le)
    · intro s p hp hlower
      exact ⟨hp, fun p' hp' => (hlower p' hp').elim (fun h => h.ge) fun h => h.le⟩
  · refine bandOf_scanBand (· < ·) (fun _ _ h => compare_lt_iff_lt.mp h) ?_ ?_ b.asks
    · intro p p' hp hp'
      exact decide_eq_true (hp.le.trans (of_decide_eq_true hp'))
    · intro s p hp hupper
      exact ⟨hp, fun p' hp' => (hupper p' hp').elim (fun h => h.le) fun h => h.le⟩

theorem priceBands_eq {b : Books D} (hbids : b.bids ≠ ∅) (hasks : b.asks ≠ ∅) (now : ℤ) :
    ∃ screen, priceBands (buildBookUpdate now b) = some screen ∧
      IsGreatest {p | p ∈ b.bids} screen.bestBid ∧ IsLeast {p | p ∈ b.asks} screen.bestAsk ∧
      screen.mid = (screen.bestBid + screen.bestAsk) / 2 ∧
      screen.rows = bpsLevels.map fun bps : ℕ =>
        bandRow (buildBookUpdate now b) screen.mid bps := by
  obtain ⟨bid, hbid, hbidMem, hbidBest⟩ := (bestLevels_bids now b).exists_head hbids
  obtain ⟨ask, hask, haskMem, haskBest⟩ := (bestLevels_asks now b).exists_head hasks
  let mid := (bid.price + ask.price) / 2
  refine ⟨⟨bid.price, ask.price, mid, crossedBy bid.price ask.price,
    bpsLevels.map fun bps : ℕ => bandRow (buildBookUpdate now b) mid bps⟩, ?_,
    ⟨hbidMem, fun p hp => ?_⟩, ⟨haskMem, fun p hp => ?_⟩, rfl, rfl⟩
  · simp only [priceBands, hbid, hask, Option.bind_eq_bind, Option.bind_some, Option.pure_def]
    rfl
  · exact (hbidBest p hp).elim (fun h => h.le) fun h => h.le
  · exact (haskBest p hp).elim (fun h => h.ge) fun h => h.le

variable [IsStrictOrderedRing D]

theorem bidTarget_antitone {mid : D} (hmid : 0 ≤ mid) {bps bps' : D} (h : bps ≤ bps') :
    bidTarget mid bps' ≤ bidTarget mid bps := by
  unfold bidTarget
  gcongr

theorem askTarget_monotone {mid : D} (hmid : 0 ≤ mid) {bps bps' : D} (h : bps ≤ bps') :
    askTarget mid bps ≤ askTarget mid bps' := by
  unfold askTarget
  gcongr

/-- What is printed is computed as from the whole consolidated book, for every width, and a wider
band has no less volume and reaches no less far. -/
theorem price_bands_exact {b : Books D} (hbids : b.bids.size ≤ maxDepth)
    (hasks : b.asks.size ≤ maxDepth) (hbids' : b.bids ≠ ∅) (hasks' : b.asks ≠ ∅) (now : ℤ) :
    ∃ screen, priceBands (buildBookUpdate now b) = some screen ∧
      IsGreatest {p | p ∈ b.bids} screen.bestBid ∧ IsLeast {p | p ∈ b.asks} screen.bestAsk ∧
      screen.mid = (screen.bestBid + screen.bestAsk) / 2 ∧
      (screen.rows = bpsLevels.map fun bps : ℕ =>
        bandRow (buildBookUpdate now b) screen.mid bps) ∧
      (∀ bps, BandOf b.bids (fun p => p ≥ screen.mid * (1 - bps / 10000)) IsLeast
          (bandRow (buildBookUpdate now b) screen.mid bps).bid ∧
        BandOf b.asks (fun p => p ≤ screen.mid * (1 + bps / 10000)) IsGreatest
          (bandRow (buildBookUpdate now b) screen.mid bps).ask) ∧
      (b.ForallLevels (fun _ q => 0 ≤ q) → 0 ≤ screen.mid → ∀ bps bps', bps ≤ bps' →
        let row := bandRow (buildBookUpdate now b) screen.mid bps
        let row' := bandRow (buildBookUpdate now b) screen.mid bps'
        row.bid.cumVol ≤ row'.bid.cumVol ∧ row.ask.cumVol ≤ row'.ask.cumVol ∧
          (row.bid.found → row'.bid.found ∧ row'.bid.closest ≤ row.bid.closest) ∧
          (row.ask.found → row'.ask.found ∧ row.ask.closest ≤ row'.ask.closest)) := by
  obtain ⟨screen, hscreen, hbest, hbest', hmid, hrows⟩ := priceBands_eq hbids' hasks' now
  have hband := bandOf_bandRow hbids hasks now screen.mid
  refine ⟨screen, hscreen, hbest, hbest', hmid, hrows, hband, ?_⟩
  intro hnonneg hmid bps bps' hbps row row'
  obtain ⟨hbid, hask⟩ := hband bps
  obtain ⟨hbid', hask'⟩ := hband bps'
  have hbidWider : ∀ p : D, decide (p ≥ bidTarget screen.mid bps) = true →
      decide (p ≥ bidTarget screen.mid bps') = true := fun p hp =>
    decide_eq_true ((bidTarget_antitone hmid hbps).trans (of_decide_eq_true hp))
  have haskWider : ∀ p : D, decide (p ≤ askTarget screen.mid bps) = true →
      decide (p ≤ askTarget screen.mid bps') = true := fun p hp =>
    decide_eq_true ((of_decide_eq_true hp).trans (askTarget_monotone hmid hbps))
  refine ⟨hbid.cumVol_le hbid' hbidWider hnonneg.1, hask.cumVol_le hask' haskWider hnonneg.2,
    fun hfound => ?_, fun hfound => ?_⟩
  · obtain ⟨hmem, -⟩ := hbid.closest hfound
    have hmem' := And.imp_right (hbidWider _) hmem
    have hfound' := hbid'.found_iff.mpr ⟨_, hmem'⟩
    exact ⟨hfound', (hbid'.closest hfound').2 hmem'⟩
  · obtain ⟨hmem, -⟩ := hask.closest hfound
    have hmem' := And.imp_right (haskWider _) hmem
    have hfound' := hask'.found_iff.mpr ⟨_, hmem'⟩
    exact ⟨hfound', (hask'.closest hfound').2 hmem'⟩

section Example

def exampleBands : Books ℚ :=
  (((Books.empty.setBid 1000 1).setBid 999 2).setBid 900 4).setAsk 999 3

theorem price_bands_exact_example :
    ∃ screen, priceBands (buildBookUpdate 0 exampleBands) = some screen ∧
      IsGreatest {p | p ∈ exampleBands.bids} screen.bestBid := by
  obtain ⟨screen, hscreen, hbest, -⟩ :=
    price_bands_exact (b := exampleBands) (by decide +kernel) (by decide +kernel)
      (by decide +kernel) (by decide +kernel) 0
  exact ⟨screen, hscreen, hbest⟩

example : (bandRow (buildBookUpdate 0 exampleBands) (1999 / 2) 10).bid = ⟨3, 999, true⟩ := by
  decide +kernel

end Example
end Table
end AsioAggregator
