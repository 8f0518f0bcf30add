import AsioAggregator.Aggregator
import AsioAggregator.Library.Sums

/-!
# What consolidation computes

The consolidated books hold, at each price that some connector has on that side, the sum of what
the connectors have there. Nothing else matters: neither what was consolidated before, nor the
other side, nor the order of the connectors.
-/

namespace AsioAggregator

open Std Sums

variable {D : Type} [LinearOrder D]

def bidSides (connectors : List (Feed D)) : List (BidMap D) :=
  connectors.map fun c => c.localBooks.bids

def askSides (connectors : List (Feed D)) : List (AskMap D) :=
  connectors.map fun c => c.localBooks.asks

section Keys
variable [Zero D] [Add D]

theorem foldl_addBooks (connectors : List (Feed D)) (b : Books D) :
    connectors.foldl addBooks b =
      ⟨(bidSides connectors).foldl (fun acc m => addEntries acc m.toList) b.bids,
        (askSides connectors).foldl (fun acc m => addEntries acc m.toList) b.asks⟩ := by
  induction connectors generalizing b with
  | nil => rfl
  | cons c connectors ih =>
    rw [List.foldl_cons, ih]
    rfl

theorem mem_consolidate_bids (connectors : List (Feed D)) (p : D) :
    p ∈ (consolidate connectors).bids ↔ ∃ side ∈ bidSides connectors, p ∈ side := by
  rw [consolidate, foldl_addBooks]
  exact mem_foldl_addEntries _ p

theorem mem_consolidate_asks (connectors : List (Feed D)) (p : D) :
    p ∈ (consolidate connectors).asks ↔ ∃ side ∈ askSides connectors, p ∈ side := by
  rw [consolidate, foldl_addBooks]
  exact mem_foldl_addEntries _ p

end Keys

variable [AddCommMonoid D]

theorem isSum_consolidate_bids (connectors : List (Feed D)) :
    IsSum (bidSides connectors) (consolidate connectors).bids := by
  rw [consolidate, foldl_addBooks]
  exact isSum_foldl _

theorem isSum_consolidate_asks (connectors : List (Feed D)) :
    IsSum (askSides connectors) (consolidate connectors).asks := by
  rw [consolidate, foldl_addBooks]
  exact isSum_foldl _

/-- After `update_consolidated_book` each side is the sum of that side of the local books, which
stay as they are. Connectors with the same sides in any order lead to the same result, whatever
was consolidated before. -/
theorem consolidated_is_sum (s : Server D) :
    IsSum (bidSides s.connectors) s.updateConsolidatedBook.consolidated.bids ∧
      IsSum (askSides s.connectors) s.updateConsolidatedBook.consolidated.asks ∧
      s.updateConsolidatedBook.connectors = s.connectors ∧
      (∀ s' : Server D, (bidSides s.connectors).Perm (bidSides s'.connectors) →
        s.updateConsolidatedBook.consolidated.bids =
          s'.updateConsolidatedBook.consolidated.bids) ∧
      (∀ s' : Server D, (askSides s.connectors).Perm (askSides s'.connectors) →
        s.updateConsolidatedBook.consolidated.asks =
          s'.updateConsolidatedBook.consolidated.asks) ∧
      ∀ s' : Server D, s.connectors.Perm s'.connectors →
        s.updateConsolidatedBook.consolidated = s'.updateConsolidatedBook.consolidated := by
  have hbids : ∀ s' : Server D, (bidSides s.connectors).Perm (bidSides s'.connectors) →
      (consolidate s.connectors).bids = (consolidate s'.connectors).bids := fun s' hperm =>
    (isSum_consolidate_bids _).unique (isSum_consolidate_bids _) hperm
  have hasks : ∀ s' : Server D, (askSides s.connectors).Perm (askSides s'.connectors) →
      (consolidate s.connectors).asks = (consolidate s'.connectors).asks := fun s' hperm =>
    (isSum_consolidate_asks _).unique (isSum_consolidate_asks _) hperm
  refine ⟨isSum_consolidate_bids _, isSum_consolidate_asks _, rfl, hbids, hasks, ?_⟩
  intro s' hperm
  have hb := hbids s' (hperm.map _)
  have ha := hasks s' (hperm.map _)
  change consolidate s.connectors = consolidate s'.connectors
  generalize consolidate s.connectors = b at hb ha
  generalize consolidate s'.connectors = b' at hb ha
  obtain ⟨bids, asks⟩ := b
  obtain ⟨bids', asks'⟩ := b'
  congr 1

section Example

def exampleServer : Server ℚ where
  connectors := [⟨.binance, (Books.empty.setBid 70400 1).setAsk 70410 2⟩,
    ⟨.okx, (Books.empty.setBid 70400 3).setBid 70390 4⟩]
  consolidated := Books.empty.setBid 1 1
  version := 7
  strand := []
  subscribers := []

theorem consolidated_is_sum_example :
    exampleServer.updateConsolidatedBook.consolidated =
      { exampleServer with connectors := exampleServer.connectors.reverse
        }.updateConsolidatedBook.consolidated :=
  (consolidated_is_sum exampleServer).2.2.2.2.2 _ (List.reverse_perm _).symm

example : exampleServer.updateConsolidatedBook.consolidated.bids.toList =
    [(70400, 4), (70390, 4)] := by decide +kernel

end Example
end AsioAggregator
