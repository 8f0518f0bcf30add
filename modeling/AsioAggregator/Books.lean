import AsioAggregator.Json
import AsioAggregator.Library.Writes

/-!
# Order books

A pair of ordered maps from prices to quantities: bids from the highest price down, asks from the
lowest price up. Connectors hold their local books in this form and the aggregator its consolidated
ones. Prices and quantities are values of any linearly ordered type `D`, in the place of `double`.
-/

namespace AsioAggregator

open Std

instance bidTransCmp {D : Type} [LinearOrder D] : TransCmp fun a b : D => compare b a :=
  inferInstance

instance askTransCmp {D : Type} [LinearOrder D] : TransCmp (compare : D → D → Ordering) :=
  inferInstance

/-- `std::map<double, double, std::greater<double>>`. -/
abbrev BidMap (D : Type) [LinearOrder D] := ExtTreeMap D D fun a b => compare b a

/-- `std::map<double, double>`. -/
abbrev AskMap (D : Type) [LinearOrder D] := ExtTreeMap D D compare

structure Books (D : Type) [LinearOrder D] where
  bids : BidMap D
  asks : AskMap D

namespace Books
variable {D : Type} [LinearOrder D]

instance : DecidableEq (Books D) := fun b b' =>
  decidable_of_iff (b.bids = b'.bids ∧ b.asks = b'.asks) (by cases b; cases b'; simp)

def empty : Books D := ⟨∅, ∅⟩

@[simp] theorem bids_empty : (empty : Books D).bids = ∅ := rfl

@[simp] theorem asks_empty : (empty : Books D).asks = ∅ := rfl

theorem ext_getElem? {b b' : Books D} (hb : ∀ p : D, b.bids[p]? = b'.bids[p]?)
    (ha : ∀ p : D, b.asks[p]? = b'.asks[p]?) : b = b' := by
  obtain ⟨bids, asks⟩ := b
  obtain ⟨bids', asks'⟩ := b'
  congr 1
  · exact ExtTreeMap.ext_getElem? hb
  · exact ExtTreeMap.ext_getElem? ha

def ForallLevels (P : D → D → Prop) (b : Books D) : Prop :=
  (∀ p q : D, b.bids[p]? = some q → P p q) ∧ ∀ p q : D, b.asks[p]? = some q → P p q

theorem forallLevels_empty (P : D → D → Prop) : ForallLevels P (empty : Books D) := by
  constructor <;> intro p q h <;> simp at h

def setBid (price qty : D) (b : Books D) : Books D := { b with bids := b.bids.insert price qty }

def setAsk (price qty : D) (b : Books D) : Books D := { b with asks := b.asks.insert price qty }

def eraseBid (price : D) (b : Books D) : Books D := { b with bids := b.bids.erase price }

def eraseAsk (price : D) (b : Books D) : Books D := { b with asks := b.asks.erase price }

end Books
end AsioAggregator
