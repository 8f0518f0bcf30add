import AsioAggregator.Aggregator

/-!
# The best-bid-and-offer client

For every update the client prints the best ask and the best bid and a table of the levels behind
them. The two halves of the table are printed by different loops, of which only the one over bids
looks at how many levels there are.
-/

namespace AsioAggregator

variable {D : Type}

structure TableRow (D : Type) where
  number : ℤ
  index : ℕ
  level : Level D
deriving DecidableEq

structure BboScreen (D : Type) where
  bestBid : Level D
  bestAsk : Level D
  warning : Option D
  asks : List (TableRow D)
  bids : List (TableRow D)
deriving DecidableEq

def maxLevel : ℕ := 10

/-- By how much the best bid exceeds the best ask, where it does: the warning of a crossed book. -/
def crossedBy [Zero D] [Sub D] [LT D] [DecidableLT D] (bidPrice askPrice : D) : Option D :=
  let spread := bidPrice - askPrice
  if spread > 0 then some spread else none

/-- `for (int i = max_level; i > 0; --i)`; an index past the end is undefined. -/
def askRows (asks : List (Level D)) : ℕ → ℤ → Option (List (TableRow D))
  | 0, _ => some []
  | i + 1, displayNum => do
    let lvl ← asks[i + 1]?
    let rest ← askRows asks i (displayNum + 1)
    return ⟨maxLevel - displayNum + 1, i + 1, lvl⟩ :: rest

/-- The loop over bids, which ends at the smaller of `max_level` and the number of bids. -/
def bidRows (bids : List (Level D)) : Option (List (TableRow D)) :=
  (List.range (min maxLevel bids.length)).mapM fun i : ℕ => do
    let lvl ← bids[i]?
    return ⟨(i : ℤ) + 1, i, lvl⟩

/-- What is printed for an update, unless an access is out of bounds. -/
def bboScreen [Zero D] [Sub D] [LT D] [DecidableLT D] (update : BookUpdate D) :
    Option (BboScreen D) := do
  let bid ← update.bids[0]?
  let ask ← update.asks[0]?
  let asks ← askRows update.asks maxLevel 1
  let bids ← bidRows update.bids
  return ⟨bid, ask, crossedBy bid.price ask.price, asks, bids⟩

section Rows

theorem index_askRows {asks : List (Level D)} {n : ℕ} {displayNum : ℤ} {rows : List (TableRow D)}
    (h : askRows asks n displayNum = some rows) :
    rows.map TableRow.index = (List.range' 1 n).reverse := by
  induction n generalizing displayNum rows with
  | zero =>
    cases h
    rfl
  | succ n ih =>
    simp only [askRows, Option.bind_eq_bind, Option.bind_eq_some_iff, Option.pure_def,
      Option.some.injEq] at h
    obtain ⟨lvl, -, rest, hrest, rfl⟩ := h
    rw [List.map_cons, ih hrest, List.range'_concat, List.reverse_append]
    simp [Nat.add_comm]

theorem isSome_askRows (asks : List (Level D)) (n : ℕ) (displayNum : ℤ) :
    (askRows asks n displayNum).isSome ↔ n = 0 ∨ n < asks.length := by
  induction n generalizing displayNum with
  | zero => simp [askRows]
  | succ n ih =>
    have hrest := ih (displayNum + 1)
    by_cases hn : n + 1 < asks.length
    · have hsome : (askRows asks n (displayNum + 1)).isSome := hrest.mpr (Or.inr (by omega))
      obtain ⟨rest, hrest'⟩ := Option.isSome_iff_exists.mp hsome
      simp [askRows, hn, hrest']
    · simp [askRows, hn]

theorem mapM_bidRow {bids : List (Level D)} {indices : List ℕ}
    (h : ∀ i ∈ indices, i < bids.length) :
    ∃ rows : List (TableRow D),
      (indices.mapM fun i : ℕ => do
        let lvl ← bids[i]?
        return ⟨(i : ℤ) + 1, i, lvl⟩) = some rows ∧
      rows.map TableRow.index = indices ∧ ∀ row ∈ rows, bids[row.index]? = some row.level := by
  induction indices with
  | nil => exact ⟨[], rfl, rfl, by simp⟩
  | cons i indices ih =>
    obtain ⟨hi, hrest⟩ := List.forall_mem_cons.mp h
    obtain ⟨rows, hrows, hindex, hlevel⟩ := ih hrest
    have hget : bids[i]? = some bids[i] := List.getElem?_eq_getElem hi
    refine ⟨⟨(i : ℤ) + 1, i, bids[i]⟩ :: rows, ?_, by simp [hindex], ?_⟩
    · simp only [Option.pure_def, Option.bind_eq_bind] at hrows
      simp [List.mapM_cons, hget, hrows]
    · simpa [hget] using hlevel

theorem bidRows_complete (bids : List (Level D)) :
    ∃ rows, bidRows bids = some rows ∧
      rows.map TableRow.index = List.range (min maxLevel bids.length) ∧
      ∀ row ∈ rows, bids[row.index]? = some row.level := by
  refine mapM_bidRow fun i hi => ?_
  rw [List.mem_range] at hi
  omega

end Rows

section Screen
variable [Zero D] [Sub D] [LT D] [DecidableLT D]

/-- The table is printed without an access out of bounds, with the best asks from worst to best and
the best bids from best to worst. -/
def TableComplete (update : BookUpdate D) : Prop :=
  ∃ screen, bboScreen update = some screen ∧
    screen.asks.map TableRow.index = (List.range (min maxLevel update.asks.length)).reverse ∧
    screen.bids.map TableRow.index = List.range (min maxLevel update.bids.length)

theorem bboScreen_eq_some {update : BookUpdate D} {screen : BboScreen D} :
    bboScreen update = some screen ↔
      update.bids[0]? = some screen.bestBid ∧ update.asks[0]? = some screen.bestAsk ∧
        askRows update.asks maxLevel 1 = some screen.asks ∧
        bidRows update.bids = some screen.bids ∧
        screen.warning = crossedBy screen.bestBid.price screen.bestAsk.price := by
  obtain ⟨bid, ask, warning, asks, bids⟩ := screen
  simp only [bboScreen, Option.bind_eq_bind, Option.bind_eq_some_iff, Option.pure_def,
    Option.some.injEq, BboScreen.mk.injEq]
  constructor
  · rintro ⟨bid, hbid, ask, hask, asks, hasks, bids, hbids, rfl, rfl, rfl, rfl, rfl⟩
    exact ⟨hbid, hask, hasks, hbids, rfl⟩
  · rintro ⟨hbid, hask, hasks, hbids, rfl⟩
    exact ⟨bid, hbid, ask, hask, asks, hasks, bids, hbids, rfl, rfl, rfl, rfl, rfl⟩

/-- Printing stays in bounds only for more asks than the table has rows. -/
theorem isSome_bboScreen {update : BookUpdate D} (hbids : update.bids ≠ []) :
    (bboScreen update).isSome ↔ maxLevel < update.asks.length := by
  constructor
  · intro h
    obtain ⟨screen, hscreen⟩ := Option.isSome_iff_exists.mp h
    obtain ⟨-, -, hrows, -⟩ := bboScreen_eq_some.mp hscreen
    have hsome : (askRows update.asks maxLevel 1).isSome := by rw [hrows]; rfl
    exact ((isSome_askRows _ _ _).mp hsome).resolve_left (by decide)
  · intro h
    have hsome := (isSome_askRows update.asks maxLevel 1).mpr (Or.inr h)
    obtain ⟨asks, hasks⟩ := Option.isSome_iff_exists.mp hsome
    obtain ⟨bids, hrows, -⟩ := bidRows_complete update.bids
    have hbid := List.getElem?_eq_getElem (List.length_pos_iff.mpr hbids)
    have hask := List.getElem?_eq_getElem (Nat.zero_lt_of_lt h)
    let warning := crossedBy (update.bids.get ⟨0, List.length_pos_iff.mpr hbids⟩).price
      (update.asks.get ⟨0, Nat.zero_lt_of_lt h⟩).price
    exact Option.isSome_iff_exists.mpr
      ⟨⟨_, _, warning, asks, bids⟩, bboScreen_eq_some.mpr ⟨hbid, hask, hasks, hrows, rfl⟩⟩

/-- No table is complete: the loop over asks counts from index 10 down to index 1, out of bounds for
ten asks or fewer and without the best ask for more. -/
theorem not_tableComplete (update : BookUpdate D) : ¬ TableComplete update := by
  rintro ⟨screen, hscreen, hasks, -⟩
  obtain ⟨-, -, hrows, -⟩ := bboScreen_eq_some.mp hscreen
  rw [index_askRows hrows] at hasks
  have hmem : maxLevel ∈ (List.range' 1 maxLevel).reverse := by decide
  rw [hasks, List.mem_reverse, List.mem_range] at hmem
  omega

end Screen

section Example

def thinBook : BookUpdate ℚ := ⟨0, [⟨70400, 1⟩], [⟨70410, 2⟩]⟩

theorem thinBook_out_of_bounds : ¬ TableComplete thinBook := by
  rintro ⟨screen, hscreen, -⟩
  have hnone : bboScreen thinBook = none := by decide +kernel
  cases hnone.symm.trans hscreen

end Example
end AsioAggregator
