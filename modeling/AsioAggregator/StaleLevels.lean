import AsioAggregator.Reconnect

/-!
# Levels of earlier connections

Neither `start` nor `fail` clears the local books, and `on_read` hands over its message whatever
connection it comes from. No stale level is held at any time exactly when the books are empty at
every failure and no message that arrives too late stores a level.
-/

namespace AsioAggregator

open Runs Writes

variable {D : Type} [LinearOrder D]

/-- The attempt on which the level at each price was last stored, and the attempts on which a
message has been handled. -/
structure Provenance (D : Type) where
  bids : D → ℕ
  asks : D → ℕ
  heard : List ℕ

def stores (ws : List (Write D D)) (p : D) : Bool := (last ws p).any Option.isSome

namespace Reading

def bidWrites : Reading D → List (Write D D)
  | .skipped _ => []
  | .content c => c.bidWrites

def askWrites : Reading D → List (Write D D)
  | .skipped _ => []
  | .content c => c.askWrites

def StoresNothing (r : Reading D) : Prop :=
  ∀ p, stores r.bidWrites p = false ∧ stores r.askWrites p = false

end Reading

namespace Provenance

def initial : Provenance D := ⟨fun _ => 0, fun _ => 0, []⟩

def receive (h : Provenance D) (a : ℕ) (r : Reading D) : Provenance D where
  bids p := if stores r.bidWrites p then a else h.bids p
  asks p := if stores r.askWrites p then a else h.asks p
  heard := a :: h.heard

end Provenance

namespace Connector

/-- The attempt is the live one, and a message has been handled on it. -/
def Current (c : Connector D) (h : Provenance D) (a : ℕ) : Prop :=
  c.stopped = false ∧ a = c.attempt ∧ c.attempt ∈ h.heard

end Connector

/-- Every level was received on the live connection. -/
structure Live (x : Connector D × Provenance D) : Prop where
  bids : ∀ p q : D, x.1.localBooks.bids[p]? = some q → x.1.Current x.2 (x.2.bids p)
  asks : ∀ p q : D, x.1.localBooks.asks[p]? = some q → x.1.Current x.2 (x.2.asks p)

namespace Live
variable {c c' : Connector D} {h : Provenance D}

theorem of_empty (hempty : c.localBooks = Books.empty) : Live (c, h) where
  bids p q hq := by simp [hempty] at hq
  asks p q hq := by simp [hempty] at hq

theorem eq_empty (hlive : Live (c, h)) (hstopped : c.stopped = true) :
    c.localBooks = Books.empty := by
  refine Books.ext_getElem? (fun p => ?_) (fun p => ?_)
  · refine Option.eq_none_iff_forall_ne_some.mpr fun q hq => ?_
    exact Bool.false_ne_true ((hlive.bids p q hq).1.symm.trans hstopped)
  · refine Option.eq_none_iff_forall_ne_some.mpr fun q hq => ?_
    exact Bool.false_ne_true ((hlive.asks p q hq).1.symm.trans hstopped)

theorem congr (hlive : Live (c, h)) (hbooks : c'.localBooks = c.localBooks)
    (hstopped : c'.stopped = c.stopped) (hattempt : c'.attempt = c.attempt) : Live (c', h) := by
  have hcurrent : ∀ a, c.Current h a → c'.Current h a := by
    intro a ha
    exact ⟨hstopped.trans ha.1, ha.2.1.trans hattempt.symm, hattempt ▸ ha.2.2⟩
  exact {
    bids := fun p q hq => hcurrent _ (hlive.bids p q (hbooks ▸ hq))
    asks := fun p q hq => hcurrent _ (hlive.asks p q (hbooks ▸ hq)) }

end Live

section Sides

theorem stores_iff {ws : List (Write D D)} {p : D} :
    stores ws p = true ↔ ∃ q, last ws p = some (some q) := by
  unfold stores
  cases last ws p with
  | none => simp
  | some o => cases o <;> simp

/-- One side of the books before and after some writes: the levels that the writes leave get the
tag `a`, and the others were there before. -/
theorem side_receive_iff {f g : D → Option D} {ws : List (Write D D)} {tag : D → ℕ} {a : ℕ}
    {C C' : ℕ → Prop} (hbefore : ∀ p q, f p = some q → C (tag p)) (hmono : ∀ b, C b → C' b)
    (hnew : ∀ p q, last ws p = some (some q) → g p = some q)
    (hold : ∀ p q, g p = some q → last ws p = some (some q) ∨ f p = some q) :
    (∀ p q, g p = some q → C' (if stores ws p then a else tag p)) ↔
      (¬ C' a → ∀ p, stores ws p = false) := by
  constructor
  · intro h ha p
    by_contra hp
    obtain ⟨q, hq⟩ := stores_iff.mp (Bool.not_eq_false _ ▸ hp)
    have hC := h p q (hnew p q hq)
    rw [if_pos (stores_iff.mpr ⟨q, hq⟩)] at hC
    exact ha hC
  · intro h p q hq
    by_cases hp : stores ws p = true
    · rw [if_pos hp]
      by_contra ha
      exact Bool.false_ne_true ((h ha p).symm.trans hp)
    · rw [if_neg hp]
      rcases hold p q hq with hlast | hprev
      · exact absurd (stores_iff.mpr ⟨q, hlast⟩) hp
      · exact hmono _ (hbefore p q hprev)

namespace Reading
variable {r : Reading D} {b : Books D} {p q : D}

theorem bids_apply_of_last (h : last r.bidWrites p = some (some q)) :
    (r.apply b).bids[p]? = some q := by
  cases r with
  | skipped fault => simp [bidWrites] at h
  | content c => exact getElem?_perform_eq_some.mpr (Or.inl h)

theorem asks_apply_of_last (h : last r.askWrites p = some (some q)) :
    (r.apply b).asks[p]? = some q := by
  cases r with
  | skipped fault => simp [askWrites] at h
  | content c => exact getElem?_perform_eq_some.mpr (Or.inl h)

theorem bids_of_apply (h : (r.apply b).bids[p]? = some q) :
    last r.bidWrites p = some (some q) ∨ b.bids[p]? = some q := by
  cases r with
  | skipped fault => exact Or.inr h
  | content c =>
    refine (getElem?_perform_eq_some.mp h).imp_right fun ⟨_, hq⟩ => ?_
    cases hc : c.replaces with
    | true => simp [Content.start_of_replaces hc] at hq
    | false => rwa [Content.start_of_not_replaces hc] at hq

theorem asks_of_apply (h : (r.apply b).asks[p]? = some q) :
    last r.askWrites p = some (some q) ∨ b.asks[p]? = some q := by
  cases r with
  | skipped fault => exact Or.inr h
  | content c =>
    have hperform : (perform (c.start b).asks c.askWrites)[p]? = some q := h
    refine (getElem?_perform_eq_some.mp hperform).imp_right fun ⟨_, hq⟩ => ?_
    cases hc : c.replaces with
    | true => simp [Content.start_of_replaces hc] at hq
    | false => rwa [Content.start_of_not_replaces hc] at hq

end Reading
end Sides

/-- Handling a message keeps the levels live unless it comes too late and stores one. -/
theorem live_receive_iff {c c' : Connector D} {h : Provenance D} {a : ℕ} {r : Reading D}
    (hlive : Live (c, h)) (hbooks : c'.localBooks = r.apply c.localBooks)
    (hstopped : c'.stopped = c.stopped) (hattempt : c'.attempt = c.attempt) :
    Live (c', h.receive a r) ↔ (c.stopped = true ∨ a ≠ c.attempt → r.StoresNothing) := by
  have hmono : ∀ b, c.Current h b → c'.Current (h.receive a r) b := by
    intro b hb
    exact ⟨hstopped.trans hb.1, hb.2.1.trans hattempt.symm,
      List.mem_cons_of_mem _ (hattempt ▸ hb.2.2)⟩
  have hlate : ¬ c'.Current (h.receive a r) a ↔ c.stopped = true ∨ a ≠ c.attempt := by
    have hheard : a = c.attempt → c.attempt ∈ (h.receive a r).heard :=
      fun ha => ha ▸ List.mem_cons_self
    rw [Connector.Current, hstopped, hattempt, not_and, ← Bool.not_eq_false, ← imp_iff_not_or]
    exact imp_congr_right fun _ => not_congr (and_iff_left_of_imp hheard)
  have hbids := side_receive_iff (g := fun p => c'.localBooks.bids[p]?) (a := a) hlive.bids hmono
    (fun p q hq => hbooks ▸ Reading.bids_apply_of_last hq)
    (fun p q hq => Reading.bids_of_apply (hbooks ▸ hq))
  have hasks := side_receive_iff (g := fun p => c'.localBooks.asks[p]?) (a := a) hlive.asks hmono
    (fun p q hq => hbooks ▸ Reading.asks_apply_of_last hq)
    (fun p q hq => Reading.asks_of_apply (hbooks ▸ hq))
  rw [hlate] at hbids hasks
  constructor
  · intro hafter hl p
    exact ⟨hbids.mp hafter.bids hl p, hasks.mp hafter.asks hl p⟩
  · intro hnothing
    exact {
      bids := hbids.mpr fun hl p => (hnothing hl p).1
      asks := hasks.mpr fun hl p => (hnothing hl p).2 }

section Steps
variable [Zero D] [OfNumeral D] (jsonParse : String → Except StdException Json)

def observeLevels (h : Provenance D) (c : Connector D) (e : ConnectorEvent) (_ : Connector D) :
    Provenance D :=
  match c.delivers e with
  | none => h
  | some (a, msg) => h.receive a (reading jsonParse c.exchange msg)

abbrev tracedStep :
    Connector D × Provenance D → ConnectorEvent → Option (Connector D × Provenance D) :=
  withHistory (Connector.step jsonParse) (observeLevels jsonParse)

/-- Nothing is held when a running connector fails, and a message that comes from an earlier attempt
or while the connector is stopped stores no level. -/
structure KeepsLive (c : Connector D) (o : Outcome) (p : Pending) : Prop where
  fails : c.stopped = false → failure o p.operation ≠ none → c.localBooks = Books.empty
  late : failure o p.operation = none → handsOver o p.operation = true →
    c.stopped = true ∨ p.attempt ≠ c.attempt →
      (reading (D := D) jsonParse c.exchange o.msg).StoresNothing

variable {jsonParse} {c c' : Connector D} {h : Provenance D} {k : ℕ} {o : Outcome} {p : Pending}

theorem observeLevels_of_idle (hp : c.pending[k]? = some p)
    (hidle : failure o p.operation ≠ none ∨ handsOver o p.operation = false) :
    observeLevels jsonParse h c (.complete k o) c' = h := by
  have hdelivers : c.delivers (.complete k o) = none := by
    simp only [Connector.delivers, hp, Option.bind_some]
    refine if_neg fun ⟨hf, hh⟩ => ?_
    rcases hidle with hne | hfalse
    · exact hne hf
    · exact Bool.false_ne_true (hfalse.symm.trans hh)
  simp only [observeLevels, hdelivers]

theorem observeLevels_of_message (hp : c.pending[k]? = some p)
    (hf : failure o p.operation = none) (hh : handsOver o p.operation = true) :
    observeLevels jsonParse h c (.complete k o) c' =
      h.receive p.attempt (reading jsonParse c.exchange o.msg) := by
  simp only [observeLevels, Connector.delivers, hp, Option.bind_some, hf, hh, and_self, if_true]

theorem live_fail_iff (hlive : Live (c, h)) {ec : ErrorCode} (hf : failure o p.operation = some ec)
    (hfail : (c.view.remove k).fail p.attempt ec o.jitter = some c'.view) :
    Live (c', h) ↔ KeepsLive jsonParse c o p := by
  have hne : failure o p.operation ≠ none := by simp [hf]
  obtain ⟨-, hbooks, hattempt, hstopped'⟩ := View.fail_frame hfail
  cases hstopped : c.stopped with
  | true =>
    refine iff_of_true (hlive.congr hbooks (hstopped'.trans hstopped.symm) hattempt) ?_
    exact ⟨fun hrunning => absurd (hstopped.symm.trans hrunning) Bool.true_eq_false.mp,
      fun hnone => absurd hnone hne⟩
  | false =>
    constructor
    · intro hafter
      exact ⟨fun _ _ => hbooks.symm.trans (hafter.eq_empty hstopped'),
        fun hnone => absurd hnone hne⟩
    · intro hkeeps
      exact Live.of_empty (hbooks.trans (hkeeps.fails hstopped hne))

theorem live_proceed_iff (hlive : Live (c, h)) (hp : c.pending[k]? = some p)
    (hf : failure o p.operation = none) {b : Books D}
    (hb : (c.view.remove k).received jsonParse o p.operation = some b)
    (hnext : c'.view = (c.view.remove k).proceed p.attempt o p.operation b) :
    Live (c', observeLevels jsonParse h c (.complete k o) c') ↔ KeepsLive jsonParse c o p := by
  have hstopped : c'.stopped = c.stopped := congrArg View.stopped hnext
  have hattempt : c'.attempt = c.attempt := congrArg View.attempt hnext
  have hbooks : c'.localBooks = b := congrArg View.localBooks hnext
  cases hh : handsOver o p.operation with
  | false =>
    rw [View.received_of_idle p.operation hh] at hb
    rw [observeLevels_of_idle hp (Or.inr hh)]
    refine iff_of_true
      (hlive.congr (hbooks.trans (Option.some.inj hb).symm) hstopped hattempt) ?_
    exact ⟨fun _ hne => absurd hf hne, fun _ hmsg => absurd (hh.symm.trans hmsg) Bool.false_ne_true⟩
  | true =>
    rw [View.received_of_message p.operation hh] at hb
    obtain ⟨-, rfl⟩ := (parseMessage_eq_some jsonParse).mp hb
    rw [observeLevels_of_message hp hf hh]
    refine (live_receive_iff hlive hbooks hstopped hattempt).trans ?_
    constructor
    · intro hlate
      exact ⟨fun _ hne => absurd hf hne, fun _ _ => hlate⟩
    · intro hkeeps
      exact hkeeps.late hf hh

theorem live_step_iff {e : ConnectorEvent} (hsched : c.view.Scheduled) (hlive : Live (c, h))
    (hs : c.step jsonParse e = some c') :
    Live (c', observeLevels jsonParse h c e c') ↔
      OnCompletion c e fun _ o p => KeepsLive jsonParse c o p := by
  cases e with
  | expire k =>
    have hv := Connector.step_expire hs
    exact iff_of_true (hlive.congr (congrArg View.localBooks hv) (congrArg View.stopped hv)
      (congrArg View.attempt hv)) onCompletion_expire
  | complete k o =>
    obtain ⟨p, hp, -, hv⟩ := Connector.step_complete hs
    rw [onCompletion_complete hp]
    obtain ⟨ec, hf, hfail⟩ | ⟨hf, hr, hstart⟩ | ⟨hf, -, b, hb, hnext⟩ := View.handle_cases hv
    · rw [observeLevels_of_idle hp (Or.inl (by simp [hf]))]
      exact live_fail_iff hlive hf hfail
    · obtain ⟨⟨d, hd⟩, -⟩ := restarts_eq_true_iff.mp hr
      have hidle : handsOver o p.operation = false := by rw [hd]; rfl
      have hstopped := (hsched.start (hd ▸ Connector.view_getElem? hp)).2
      have hempty : c'.localBooks = Books.empty :=
        (congrArg View.localBooks hstart).trans (hlive.eq_empty hstopped)
      refine iff_of_true (Live.of_empty hempty) ?_
      exact ⟨fun _ hne => absurd hf hne,
        fun _ hmsg => absurd (hidle.symm.trans hmsg) Bool.false_ne_true⟩
    · exact live_proceed_iff hlive hp hf hb hnext

/-- All levels are live at every moment of a run exactly when each of its steps keeps them so. -/
theorem levels_live_iff (exchange : Exchange) (events : List ConnectorEvent) :
    EveryState (tracedStep jsonParse) ((Connector.initial exchange : Connector D),
        Provenance.initial) events Live ↔
      EveryStep (tracedStep jsonParse) ((Connector.initial exchange : Connector D),
        Provenance.initial) events
        (fun x e _ => OnCompletion x.1 e fun _ o p => KeepsLive jsonParse x.1 o p) := by
  refine everyState_iff_everyStep ?_ ?_
  · exact Live.of_empty (congrArg View.localBooks (Connector.view_initial exchange))
  · rintro pre e post ⟨c, h⟩ ⟨c', h'⟩ - hpre hlive hstep
    obtain ⟨hs, rfl⟩ := withHistory_eq_some.mp hstep
    exact live_step_iff (scheduled_run (run_of_withHistory hpre)) hlive hs

end Steps

def firstDelta : String :=
  "\x7b\"topic\":\"orderbook.50.BTCUSDT\",\"type\":\"delta\"," ++
    "\"data\":\x7b\"b\":[[\"70400.00\",\"1.5\"]]\x7d\x7d"

def secondDelta : String :=
  "\x7b\"topic\":\"orderbook.50.BTCUSDT\",\"type\":\"delta\"," ++
    "\"data\":\x7b\"b\":[[\"70395.00\",\"3\"]]\x7d\x7d"

def decodeDeltas : String → Except StdException Json :=
  decodeTable
    [(firstDelta, .object [("data", .object [("b", .array [.level "70400.00" "1.5"])]),
      ("topic", .string "orderbook.50.BTCUSDT"), ("type", .string "delta")]),
    (secondDelta, .object [("data", .object [("b", .array [.level "70395.00" "3"])]),
      ("topic", .string "orderbook.50.BTCUSDT"), ("type", .string "delta")])]

/-- The first delta after a reconnect is applied on top of a level of the lost connection. -/
theorem delta_on_stale_level :
    ¬ EveryState (tracedStep decodeDeltas) ((Connector.initial .bybit : Connector ℚ),
      Provenance.initial)
      ([.complete 0 (.success ""), .complete 0 (.success ""), .complete 0 (.success ""),
        .complete 1 (.success ""), .complete 1 (.success ""), .complete 2 (.success firstDelta),
        .complete 2 (.error .eof), .complete 2 (.success ""), .complete 2 (.success ""),
        .complete 2 (.success ""), .complete 2 (.success ""), .complete 3 (.success ""),
        .complete 3 (.success ""), .complete 4 (.success secondDelta)] ++ []) Live :=
  not_everyState
    (B := fun x => x.1.attempt = 2 ∧ x.2.bids 70400 = 1 ∧ x.2.bids 70395 = 2 ∧
      x.1.localBooks.bids[(70400 : ℚ)]? = some (3 / 2))
    (fun x hlive => by
      rw [decide_eq_false_iff_not]
      rintro ⟨hattempt, htag, -, hlevel⟩
      have hcurrent := (hlive.bids 70400 (3 / 2) hlevel).2.1
      omega)
    (by decide +kernel)

end AsioAggregator
