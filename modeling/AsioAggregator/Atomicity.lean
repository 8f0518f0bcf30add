import AsioAggregator.Readings

/-!
# How much of a message is applied

The loops change the local books while they read the message. When a level cannot be read, the
exception is swallowed and what was done before stays: the clearing of the books, and the levels
in front of the one that failed. `parseMessage_applies_readable` says exactly what is left, and that
a parser is all-or-nothing for a message only where nothing fails after the first change.
-/

namespace AsioAggregator

open Std Writes

variable {D : Type} [LinearOrder D] [Zero D] [OfNumeral D]
variable (jsonParse : String → Except StdException Json)

def Complete (ex : Exchange) (msg : String) (b b' : Books D) : Prop :=
  ∃ c, reading jsonParse ex msg = .content c ∧ c.fault = none ∧ b' = c.apply b

def AllOrNothing (D : Type) [LinearOrder D] [Zero D] [OfNumeral D] (ex : Exchange) (msg : String) :
    Prop :=
  ∀ b b' : Books D, parseMessage jsonParse ex msg b = some b' →
    b' = b ∨ Complete jsonParse ex msg b b'

/-- What is left of the books `b`: nothing of the message where the books were not reached, and
else the levels in front of the first one that cannot be read, bids before asks. -/
def PrefixApplied (r : Reading D) (b b' : Books D) : Prop :=
  match r with
  | .skipped _ => b' = b
  | .content c =>
    (c.bids.fault = none →
      b' = ((c.start b).performBids (c.bids.levels.filterMap c.rule)).performAsks
        (c.asks.levels.filterMap c.rule)) ∧
    (c.bids.fault ≠ none → b' = (c.start b).performBids (c.bids.levels.filterMap c.rule))

def Undisturbed (r : Reading D) : Prop :=
  match r with
  | .skipped _ => True
  | .content c => c.fault = none ∨ c.replaces = false ∧ c.bidWrites = [] ∧ c.askWrites = []

instance (r : Reading D) : Decidable (Undisturbed r) :=
  match r with
  | .skipped _ => isTrue trivial
  | .content c =>
    inferInstanceAs (Decidable (c.fault = none ∨
      c.replaces = false ∧ c.bidWrites = [] ∧ c.askWrites = []))

section Content
variable {D : Type} [LinearOrder D]

theorem Content.prefixApplied (c : Content D) (b : Books D) :
    PrefixApplied (.content c) b (c.apply b) := by
  refine ⟨fun h => ?_, fun h => ?_⟩
  · simp [apply, askWrites, bidWrites, h]
  · have hs : c.bids.fault.isSome = true := Option.isSome_iff_ne_none.mpr h
    simp [apply, askWrites, bidWrites, hs]

theorem Content.forall_apply_eq_self_iff [Nonempty D] (c : Content D) :
    (∀ b, c.apply b = b) ↔ c.replaces = false ∧ c.bidWrites = [] ∧ c.askWrites = [] := by
  constructor
  · intro h
    have hrep : c.replaces = false := by
      by_contra hr
      have hr' : c.replaces = true := by simpa using hr
      have p := Classical.arbitrary D
      have hclear : ∀ b, c.apply b = c.apply Books.empty := by
        intro b
        simp only [apply, start, hr', if_true]
      have hlevel := (h (Books.empty.setBid p p)).symm.trans
        ((hclear _).trans (h Books.empty))
      have hp := congrArg (fun b : Books D => b.bids[p]?) hlevel
      simp [Books.setBid] at hp
    have hbids : ∀ m : BidMap D, perform m c.bidWrites = m := by
      intro m
      have hm := congrArg Books.bids (h ⟨m, ∅⟩)
      rwa [bids_apply, start_of_not_replaces hrep] at hm
    have hasks : ∀ m : AskMap D, perform m c.askWrites = m := by
      intro m
      have hm := congrArg Books.asks (h ⟨∅, m⟩)
      rwa [asks_apply, start_of_not_replaces hrep] at hm
    exact ⟨hrep, forall_perform_eq_self_iff.mp hbids, forall_perform_eq_self_iff.mp hasks⟩
  · rintro ⟨hrep, hbids, hasks⟩ b
    simp only [apply, hbids, hasks, start_of_not_replaces hrep, Books.performBids_nil,
      Books.performAsks_nil]

end Content

theorem allOrNothing_iff_undisturbed {ex : Exchange} {msg : String}
    (hread : caught (reading (D := D) jsonParse ex msg).fault) :
    AllOrNothing jsonParse D ex msg ↔ Undisturbed (reading (D := D) jsonParse ex msg) := by
  simp only [AllOrNothing, Complete, parseMessage_eq_some, hread, true_and]
  cases hr : (reading jsonParse ex msg : Reading D) with
  | skipped fault => simp [Reading.apply, Undisturbed]
  | content c =>
    simp only [Reading.apply, Undisturbed, Reading.content.injEq]
    constructor
    · intro h
      by_cases hf : c.fault = none
      · exact Or.inl hf
      · refine Or.inr ((c.forall_apply_eq_self_iff).mp fun b => ?_)
        rcases h b _ rfl with hb | ⟨c', rfl, hc', -⟩
        · exact hb
        · exact absurd hc' hf
    · rintro (hf | hnothing) b b' rfl
      · exact Or.inr ⟨c, rfl, hf, rfl⟩
      · exact Or.inl (c.forall_apply_eq_self_iff.mpr hnothing b)

/-- What a parser leaves behind: the clearing of the books and the levels in front of the first
one that cannot be read, in full where all can be read. This is all or nothing for all books
exactly where nothing fails after the first change. -/
theorem parseMessage_applies_readable {ex : Exchange} {msg : String} {b b' : Books D}
    (h : parseMessage jsonParse ex msg b = some b') :
    PrefixApplied (reading jsonParse ex msg) b b' ∧
      (AllOrNothing jsonParse D ex msg ↔ Undisturbed (reading (D := D) jsonParse ex msg)) := by
  obtain ⟨hread, rfl⟩ := (parseMessage_eq_some jsonParse).mp h
  refine ⟨?_, allOrNothing_iff_undisturbed jsonParse hread⟩
  cases (reading jsonParse ex msg : Reading D) with
  | skipped fault => rfl
  | content c => exact c.prefixApplied b

def tornText : String :=
  "\x7b\"lastUpdateId\":123,\"bids\":[[\"70400.00\",\"1.5\"],[\"n/a\",\"0.8\"]]," ++
    "\"asks\":[[\"70410.00\",\"2.0\"]]\x7d"

def tornMessage : Json :=
  .object [("asks", .array [.level "70410.00" "2.0"]),
    ("bids", .array [.level "70400.00" "1.5", .level "n/a" "0.8"]), ("lastUpdateId", .number 123)]

def decodeTorn : String → Except StdException Json := decodeTable [(tornText, tornMessage)]

theorem tornMessage_not_allOrNothing : ¬ AllOrNothing decodeTorn ℚ .binance tornText := by
  rw [allOrNothing_iff_undisturbed _ (by decide +kernel)]
  decide +kernel

theorem parseMessage_applies_readable_example :
    ∃ b' : Books ℚ,
      parseMessage decodeTorn .binance tornText (Books.empty.setAsk 70420 1) = some b' ∧
      PrefixApplied (reading decodeTorn .binance tornText) (Books.empty.setAsk 70420 1) b' := by
  have h : parseMessage decodeTorn .binance tornText (Books.empty.setAsk 70420 1 : Books ℚ) =
      some (Books.empty.setBid 70400 (3 / 2)) := by
    decide +kernel
  exact ⟨_, h, (parseMessage_applies_readable _ h).1⟩

end AsioAggregator
