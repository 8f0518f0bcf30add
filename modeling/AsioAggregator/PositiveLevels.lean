import AsioAggregator.NoLostUpdate

/-!
# Levels without liquidity

A quoted quantity of zero means that there is no liquidity at the price. Bybit never keeps such a
level. Binance and OKX store every level they read, so that a level of quantity zero stays in the
books exactly when it is the last one listed for its price.
-/

namespace AsioAggregator

open Runs Writes Std

/-- What the sums of an update need: zero is neutral, and positive quantities add up to one. -/
class PositiveSums (D : Type) [LinearOrder D] [Zero D] [Add D] : Prop where
  zero_add_eq (q : D) : 0 + q = q
  add_positive {q r : D} : 0 < q → 0 < r → 0 < q + r

instance rationalSums : PositiveSums ℚ where
  zero_add_eq := zero_add
  add_positive := add_pos

variable {D : Type} [LinearOrder D] [Zero D]

namespace Books

def Positive (b : Books D) : Prop := b.ForallLevels fun _ q => 0 < q

end Books

def Content.levels (c : Content D) : List (D × D) :=
  c.bids.levels ++ if c.bids.fault.isSome then [] else c.asks.levels

def Reading.levels : Reading D → List (D × D)
  | .skipped _ => []
  | .content c => c.levels

/-- No quantity that is read is negative. -/
def NonnegQuantities (r : Reading D) : Prop := ∀ l ∈ r.levels, 0 ≤ l.2

/-- On neither side the last level read for a price has quantity zero. -/
def Content.NoZeroLast (c : Content D) : Prop :=
  (∀ p, last c.bids.levels p ≠ some 0) ∧
    (c.bids.fault = none → ∀ p, last c.asks.levels p ≠ some 0)

def NoZeroLast : Reading D → Prop
  | .skipped _ => True
  | .content c => c.NoZeroLast

theorem noZeroLast_of_forall_ne {r : Reading D} (h : ∀ l ∈ r.levels, l.2 ≠ 0) : NoZeroLast r := by
  cases r with
  | skipped fault => exact trivial
  | content c =>
    refine ⟨fun p hp => h (p, 0) (List.mem_append_left _ (last_mem hp)) rfl, fun hf p hp => ?_⟩
    refine h (p, 0) (List.mem_append_right _ ?_) rfl
    rw [hf]
    exact last_mem hp

section Sides
variable {cmp : D → D → Ordering} [TransCmp cmp] [LawfulEqCmp cmp]

/-- Storing levels of nonnegative quantity in an empty side leaves positive ones only where no last
quantity is zero. -/
theorem perform_store_positive_iff {levels : List (D × D)} (hnonneg : ∀ l ∈ levels, 0 ≤ l.2) :
    (∀ p q : D, (perform (∅ : ExtTreeMap D D cmp) (levels.filterMap storeRule))[p]? = some q →
      0 < q) ↔ ∀ p, last levels p ≠ some 0 := by
  have hstore : levels.filterMap storeRule = levels.map fun l => (l.1, some l.2) := by
    rw [← List.filterMap_eq_map]
    rfl
  have hlast : ∀ p, last (levels.filterMap storeRule) p = (last levels p).map some := by
    intro p
    rw [hstore]
    exact last_map (fun _ q => some q) levels p
  simp only [getElem?_perform, hlast, ExtTreeMap.getElem?_empty]
  constructor
  · intro h p hp
    have hzero := h p 0 (by rw [hp]; rfl)
    exact hzero.false
  · intro h p q hq
    cases hl : last levels p with
    | none => simp [hl] at hq
    | some r =>
      have hr : r = q := by simpa [hl] using hq
      subst hr
      have hne : r ≠ 0 := fun h0 => h p (h0 ▸ hl)
      exact (hnonneg _ (last_mem hl)).lt_of_ne hne.symm

theorem perform_positive {m : ExtTreeMap D D cmp} (hm : ∀ p q : D, m[p]? = some q → 0 < q)
    {ws : List (Write D D)} (hws : ∀ p q, (p, some q) ∈ ws → 0 < q) :
    ∀ p q : D, (perform m ws)[p]? = some q → 0 < q := by
  intro p q hq
  rcases getElem?_perform_eq_some.mp hq with hlast | ⟨-, hold⟩
  · exact hws p q (last_mem hlast)
  · exact hm p q hold

end Sides

theorem mem_filterMap_positiveRule {levels : List (D × D)} {p q : D}
    (h : (p, some q) ∈ levels.filterMap positiveRule) : 0 < q := by
  obtain ⟨l, -, hl⟩ := List.mem_filterMap.mp h
  unfold positiveRule at hl
  split_ifs at hl with hq
  cases hl
  exact hq

theorem mem_filterMap_updateRule {levels : List (D × D)} (hnonneg : ∀ l ∈ levels, 0 ≤ l.2)
    {p q : D} (h : (p, some q) ∈ levels.filterMap updateRule) : 0 < q := by
  obtain ⟨l, hmem, hl⟩ := List.mem_filterMap.mp h
  unfold updateRule at hl
  by_cases hq : l.2 = 0
  · simp [hq] at hl
  · obtain ⟨-, rfl⟩ : l.1 = p ∧ l.2 = q := by simpa [hq] using hl
    exact (hnonneg l hmem).lt_of_ne (Ne.symm hq)

namespace Content

variable {c : Content D} {b : Books D}

theorem apply_positive_iff (hreplaces : c.replaces = true) (hrule : c.rule = storeRule)
    (hnonneg : ∀ l ∈ c.levels, 0 ≤ l.2) (b : Books D) :
    (c.apply b).Positive ↔ c.NoZeroLast := by
  have hbids : ∀ l ∈ c.bids.levels, 0 ≤ l.2 := fun l hl => hnonneg l (List.mem_append_left _ hl)
  simp only [Books.Positive, Books.ForallLevels, NoZeroLast, bids_apply, asks_apply, bidWrites,
    askWrites, hrule, start_of_replaces hreplaces, Books.bids_empty, Books.asks_empty,
    perform_store_positive_iff hbids]
  refine and_congr_right fun _ => ?_
  cases hf : c.bids.fault with
  | some f => simp
  | none =>
    have hasks : ∀ l ∈ c.asks.levels, 0 ≤ l.2 := by
      intro l hl
      refine hnonneg l (List.mem_append_right _ ?_)
      rw [hf]
      exact hl
    simpa using perform_store_positive_iff hasks

/-- The content of a Bybit message keeps the books positive. -/
theorem apply_positive_of_bybit
    (hrule : c.rule = positiveRule ∨ c.rule = updateRule)
    (hnonneg : ∀ l ∈ c.levels, 0 ≤ l.2) (hb : b.Positive) : (c.apply b).Positive := by
  have hstart : (c.start b).Positive := by
    unfold start
    split_ifs
    · exact Books.forallLevels_empty _
    · exact hb
  have hbidWrites : ∀ p q, (p, some q) ∈ c.bidWrites → 0 < q := by
    intro p q hpq
    unfold bidWrites at hpq
    rcases hrule with hrule | hrule
    · exact mem_filterMap_positiveRule (hrule ▸ hpq)
    · exact mem_filterMap_updateRule (fun l hl => hnonneg l (List.mem_append_left _ hl))
        (hrule ▸ hpq)
  have haskWrites : ∀ p q, (p, some q) ∈ c.askWrites → 0 < q := by
    intro p q hpq
    unfold askWrites at hpq
    split_ifs at hpq with hf
    · cases hpq
    rcases hrule with hrule | hrule
    · exact mem_filterMap_positiveRule (hrule ▸ hpq)
    · refine mem_filterMap_updateRule (fun l hl => hnonneg l (List.mem_append_right _ ?_))
        (hrule ▸ hpq)
      rw [if_neg hf]
      exact hl
  exact ⟨perform_positive hstart.1 hbidWrites, perform_positive hstart.2 haskWrites⟩

end Content

section Messages
variable [OfNumeral D] {jsonParse : String → Except StdException Json} {ex : Exchange}
variable {msg : String} {c : Content D} {b b' : Books D}

theorem reading_stores (hex : ex ≠ .bybit) (h : reading jsonParse ex msg = .content c) :
    c.replaces = true ∧ c.rule = storeRule := by
  have hfirst : ∀ j, firstDataReading j = .content c → c.replaces = true ∧ c.rule = storeRule := by
    intro j hj
    unfold firstDataReading at hj
    split at hj
    · cases hj
    · cases hj
      exact ⟨rfl, rfl⟩
  cases ex with
  | binance =>
    simp only [reading, binanceReading] at h
    split at h
    · cases h
    · split_ifs at h
      cases h
      exact ⟨rfl, rfl⟩
  | okx =>
    simp only [reading, okxReading] at h
    split at h
    · cases h
    · split_ifs at h
      exact hfirst _ h
  | bitget =>
    simp only [reading, bitgetReading] at h
    split at h
    · cases h
    · split_ifs at h
      exact hfirst _ h
  | bybit => exact absurd rfl hex

theorem reading_bybit_rule (h : reading jsonParse .bybit msg = .content c) :
    c.rule = positiveRule ∨ c.rule = updateRule := by
  simp only [reading, bybitReading] at h
  split at h
  · cases h
  split_ifs at h
  split at h
  · cases h
  unfold bybitContent at h
  split_ifs at h <;> cases h
  · exact Or.inl rfl
  · exact Or.inr rfl

theorem positive_parseMessage_bybit (h : parseMessage jsonParse .bybit msg b = some b')
    (hnonneg : NonnegQuantities (reading (D := D) jsonParse .bybit msg)) (hb : b.Positive) :
    b'.Positive := by
  obtain ⟨-, rfl⟩ := (parseMessage_eq_some jsonParse).mp h
  cases hr : (reading jsonParse .bybit msg : Reading D) with
  | skipped fault => exact hb
  | content c =>
    rw [hr] at hnonneg
    exact c.apply_positive_of_bybit (reading_bybit_rule hr) hnonneg hb

theorem positive_parseMessage_iff (hex : ex ≠ .bybit)
    (h : parseMessage jsonParse ex msg b = some b')
    (hnonneg : NonnegQuantities (reading (D := D) jsonParse ex msg)) (hb : b.Positive) :
    b'.Positive ↔ NoZeroLast (reading (D := D) jsonParse ex msg) := by
  obtain ⟨-, rfl⟩ := (parseMessage_eq_some jsonParse).mp h
  cases hr : (reading jsonParse ex msg : Reading D) with
  | skipped fault => exact iff_of_true hb trivial
  | content c =>
    rw [hr] at hnonneg
    obtain ⟨hreplaces, hrule⟩ := reading_stores hex hr
    exact c.apply_positive_iff hreplaces hrule hnonneg b

end Messages

section Sums
variable [Add D] [PositiveSums D]

theorem addLevels_positive {cmp : D → D → Ordering} [TransCmp cmp] [LawfulEqCmp cmp]
    {acc side : ExtTreeMap D D cmp} (hacc : ∀ p q : D, acc[p]? = some q → 0 < q)
    (hside : ∀ p q : D, side[p]? = some q → 0 < q) :
    ∀ p q : D, (addLevels acc side)[p]? = some q → 0 < q := by
  have hlist : ∀ l ∈ side.toList, 0 < l.2 := fun l hl =>
    hside l.1 l.2 (ExtTreeMap.mem_toList_iff_getElem?_eq_some.mp hl)
  unfold addLevels
  generalize side.toList = levels at hlist
  induction levels generalizing acc with
  | nil => exact hacc
  | cons l ls ih =>
    rw [List.foldl_cons]
    refine ih ?_ fun l' hl' => hlist l' (List.mem_cons_of_mem _ hl')
    intro p q hq
    have hl := hlist l List.mem_cons_self
    rw [ExtTreeMap.getElem?_alter] at hq
    by_cases hp : cmp l.1 p = .eq
    · simp only [hp, if_true, Option.some.injEq] at hq
      rw [← hq]
      cases ha : acc[l.1]? with
      | none => simpa [ha, PositiveSums.zero_add_eq] using hl
      | some r => simpa [ha] using PositiveSums.add_positive (hacc l.1 r ha) hl
    · rw [if_neg hp] at hq
      exact hacc p q hq

theorem consolidate_positive {connectors : List (Feed D)}
    (h : ∀ c ∈ connectors, c.localBooks.Positive) : (consolidate connectors).Positive := by
  have hfold : ∀ acc : Books D, acc.Positive → (connectors.foldl addBooks acc).Positive := by
    induction connectors with
    | nil => exact fun acc hacc => hacc
    | cons c cs ih =>
      intro acc hacc
      have hc := h c List.mem_cons_self
      refine ih (fun c' hc' => h c' (List.mem_cons_of_mem _ hc')) _ ?_
      exact ⟨addLevels_positive hacc.1 hc.1, addLevels_positive hacc.2 hc.2⟩
  exact hfold _ (Books.forallLevels_empty _)

end Sums

def BookUpdate.Positive (u : BookUpdate D) : Prop := ∀ l ∈ u.bids ++ u.asks, 0 < l.quantity

omit [LinearOrder D] [Zero D] in
theorem mem_copyLevels {count : ℕ} {levels : List (D × D)} {l : Level D}
    (h : l ∈ copyLevels count levels) : (l.price, l.quantity) ∈ levels := by
  induction levels generalizing count with
  | nil => cases h
  | cons x xs ih =>
    unfold copyLevels at h
    split_ifs at h
    · cases h
    · rcases List.mem_cons.mp h with rfl | h
      · exact List.mem_cons_self
      · exact List.mem_cons_of_mem _ (ih h)

theorem buildBookUpdate_positive {b : Books D} (hb : b.Positive) (now : ℤ) :
    (buildBookUpdate now b).Positive := by
  intro l hl
  rcases List.mem_append.mp hl with hl | hl
  · exact hb.1 _ _ (ExtTreeMap.mem_toList_iff_getElem?_eq_some.mp (mem_copyLevels hl))
  · exact hb.2 _ _ (ExtTreeMap.mem_toList_iff_getElem?_eq_some.mp (mem_copyLevels hl))

/-- No level without liquidity in any book, and none in an update that is built now. -/
structure Server.Positive [Add D] (s : Server D) : Prop where
  localBooks : ∀ c ∈ s.connectors, c.localBooks.Positive
  consolidated : s.consolidated.Positive
  updates : ∀ now, (buildBookUpdate now s.consolidated).Positive

def OnMessage (exchanges : List Exchange) (P : Exchange → String → Prop) (e : ServerEvent) : Prop :=
  ∀ i msg ex, e = .deliver i msg → exchanges[i]? = some ex → P ex msg

section Runs
variable [Add D] {exchanges : List Exchange} {events : List ServerEvent} {s s' : Server D}

theorem positive_of_connectors [PositiveSums D] (hs : s.Positive)
    (hconn : s'.connectors = s.connectors)
    (hcons : s'.consolidated = s.consolidated ∨ s'.consolidated = consolidate s.connectors) :
    s'.Positive := by
  have hbooks : s'.consolidated.Positive := by
    rcases hcons with hcons | hcons
    · exact hcons ▸ hs.consolidated
    · exact hcons ▸ consolidate_positive hs.localBooks
  exact ⟨hconn ▸ hs.localBooks, hbooks, buildBookUpdate_positive hbooks⟩

variable [OfNumeral D] {jsonParse : String → Except StdException Json}

theorem positive_deliver_iff {i : ℕ} {msg : String} (hacc : Accounted jsonParse exchanges events s)
    (hs : s.Positive) (hstep : s.step jsonParse (.deliver i msg) = some s')
    (hnonneg : OnMessage exchanges
      (fun ex msg => NonnegQuantities (reading (D := D) jsonParse ex msg)) (.deliver i msg)) :
    s'.Positive ↔ OnMessage exchanges
      (fun ex msg => ex ≠ .bybit → NoZeroLast (reading (D := D) jsonParse ex msg))
      (.deliver i msg) := by
  obtain ⟨c, books, hc, hbooks, rfl⟩ := step_deliver.mp hstep
  obtain ⟨hex, -⟩ := hacc.replayed i c hc
  have hi : i < s.connectors.length := (List.getElem?_eq_some_iff.mp hc).1
  have hold := hs.localBooks c (List.mem_of_getElem? hc)
  have hquant := hnonneg i msg c.exchange rfl hex
  have hmessage : books.Positive ↔
      (c.exchange ≠ .bybit → NoZeroLast (reading (D := D) jsonParse c.exchange msg)) := by
    by_cases hb : c.exchange = .bybit
    · rw [hb] at hbooks hquant
      exact iff_of_true (positive_parseMessage_bybit hbooks hquant hold) fun hne => absurd hb hne
    · rw [positive_parseMessage_iff hb hbooks hquant hold]
      exact ⟨fun h _ => h, fun h => h hb⟩
  constructor
  · intro hs' k msg' ex he hk
    cases he
    obtain rfl : ex = c.exchange := Option.some.inj (hk.symm.trans hex)
    refine hmessage.mp (hs'.localBooks ⟨c.exchange, books⟩ ?_)
    exact List.mem_of_getElem? (List.getElem?_set_self hi)
  · intro hmsg
    have hpos := hmessage.mpr (hmsg i msg c.exchange rfl hex)
    refine ⟨fun d hd => ?_, hs.consolidated, hs.updates⟩
    rcases List.mem_or_eq_of_mem_set hd with hd | rfl
    · exact hs.localBooks d hd
    · exact hpos

variable [PositiveSums D]

theorem positive_step_iff {e : ServerEvent} (hacc : Accounted jsonParse exchanges events s)
    (hs : s.Positive) (hstep : s.step jsonParse e = some s')
    (hnonneg : OnMessage exchanges
      (fun ex msg => NonnegQuantities (reading (D := D) jsonParse ex msg)) e) :
    s'.Positive ↔ OnMessage exchanges
      (fun ex msg => ex ≠ .bybit → NoZeroLast (reading (D := D) jsonParse ex msg)) e := by
  cases e with
  | deliver i msg => exact positive_deliver_iff hacc hs hstep hnonneg
  | runStrand now =>
    refine iff_of_true ?_ fun i msg ex he => by cases he
    obtain ⟨i, rest, -, rfl⟩ | ⟨j, rest, -, rfl⟩ := step_runStrand.mp hstep
    · exact positive_of_connectors hs rfl (Or.inr rfl)
    · exact positive_of_connectors hs rfl (Or.inl rfl)
  | subscribe =>
    refine iff_of_true ?_ fun i msg ex he => by cases he
    obtain rfl := step_subscribe.mp hstep
    exact positive_of_connectors hs rfl (Or.inl rfl)
  | poll j cancelled =>
    refine iff_of_true ?_ fun i msg ex he => by cases he
    obtain ⟨sub, -, -, rfl⟩ := step_poll.mp hstep
    cases cancelled <;> exact positive_of_connectors hs rfl (Or.inl rfl)
  | resume j writeOk =>
    refine iff_of_true ?_ fun i msg ex he => by cases he
    obtain ⟨sub, u, v, -, -, rfl⟩ := step_resume.mp hstep
    exact positive_of_connectors hs rfl (Or.inl rfl)

omit [PositiveSums D] [OfNumeral D] in
theorem positive_initial : (Server.initial exchanges : Server D).Positive := by
  have hempty : (Books.empty : Books D).Positive := Books.forallLevels_empty _
  refine ⟨fun c hc => ?_, hempty, buildBookUpdate_positive hempty⟩
  obtain ⟨ex, -, rfl⟩ := List.mem_map.mp hc
  exact hempty

/-- Where no quantity is negative, all levels of all books and updates stay positive along the run
exactly when no message to Binance or OKX lists a quantity of zero last for a price. -/
theorem levels_positive_iff
    (hrun : run (Server.step jsonParse) (Server.initial exchanges : Server D) events = some s)
    (hnonneg : ∀ e ∈ events, OnMessage exchanges
      (fun ex msg => NonnegQuantities (reading (D := D) jsonParse ex msg)) e) :
    EveryState (Server.step jsonParse) (Server.initial exchanges : Server D) events
        Server.Positive ↔
      ∀ e ∈ events, OnMessage exchanges
        (fun ex msg => ex ≠ .bybit → NoZeroLast (reading (D := D) jsonParse ex msg)) e := by
  rw [← everyStep_iff_forall_mem hrun]
  refine everyState_iff_everyStep positive_initial fun pre e post t t' he ht hpos hstep => ?_
  exact positive_step_iff (accounted_run ht) hpos hstep (hnonneg e (by simp [he]))

end Runs

/-- The message of the parser's own test, which expects the level of quantity zero to be gone. -/
def zeroLevelText : String :=
  "\x7b\"data\":[\x7b\"bids\":[[\"70400.00\",\"1.5\"],[\"70390.00\",\"0.0\"]]," ++
    "\"asks\":[[\"70410.00\",\"2.0\"]]\x7d]\x7d"

def decodeZeroLevel : String → Except StdException Json :=
  decodeTable [(zeroLevelText, .object [("data", .array [.object [
    ("asks", .array [.level "70410.00" "2.0"]),
    ("bids", .array [.level "70400.00" "1.5", .level "70390.00" "0.0"])]])])]

theorem zeroLevelMessage_is_kept :
    NonnegQuantities (reading (D := ℚ) decodeZeroLevel .okx zeroLevelText) ∧
      ¬ EveryState (Server.step decodeZeroLevel) (Server.initial [.okx] : Server ℚ)
        [.deliver 0 zeroLevelText] Server.Positive := by
  refine ⟨by unfold NonnegQuantities; decide +kernel, fun h => ?_⟩
  obtain ⟨s, hrun, hzero⟩ := exists_of_run_any
    (P := fun s : Server ℚ => s.connectors.any fun c => c.localBooks.bids[(70390 : ℚ)]? = some 0)
    (show (run (Server.step decodeZeroLevel) (Server.initial [.okx])
      [.deliver 0 zeroLevelText]).any _ = true by decide +kernel)
  obtain ⟨c, hc, hlevel⟩ := List.any_eq_true.mp hzero
  have hpos := (h.last hrun).localBooks c hc
  exact (hpos.1 _ _ (of_decide_eq_true hlevel)).false

theorem levels_positive_iff_example :
    EveryState (Server.step decodeOneBid) (Server.initial [.binance, .bybit] : Server ℚ)
      [.deliver 0 oneBidText, .deliver 1 subscribedText, .runStrand 0, .runStrand 0]
      Server.Positive := by
  obtain ⟨s, hrun, -⟩ := exists_of_run_any (P := fun s : Server ℚ => pendingUpdates s = 0)
    (show (run (Server.step decodeOneBid) (Server.initial [.binance, .bybit])
      [.deliver 0 oneBidText, .deliver 1 subscribedText, .runStrand 0,
        .runStrand 0]).any _ = true by decide +kernel)
  have hmessages : ∀ P : Exchange → String → Prop, P .binance oneBidText → P .bybit subscribedText →
      ∀ e ∈ [ServerEvent.deliver 0 oneBidText, .deliver 1 subscribedText, .runStrand 0,
          .runStrand 0],
        OnMessage [.binance, .bybit] P e := by
    rintro P hb ha e he i msg ex rfl hex
    simp only [List.mem_cons, ServerEvent.deliver.injEq, reduceCtorEq, List.not_mem_nil,
      or_false] at he
    rcases he with ⟨rfl, rfl⟩ | ⟨rfl, rfl⟩
    · cases hex
      exact hb
    · cases hex
      exact ha
  refine (levels_positive_iff hrun (hmessages _ ?_ ?_)).mpr (hmessages _ (fun _ => ?_) fun h => ?_)
  · unfold NonnegQuantities
    decide +kernel
  · unfold NonnegQuantities
    decide +kernel
  · exact noZeroLast_of_forall_ne (by decide +kernel)
  · exact absurd rfl h

end AsioAggregator
