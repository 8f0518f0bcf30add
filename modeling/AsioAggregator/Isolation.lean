import AsioAggregator.NoLostUpdate
import AsioAggregator.Library.Simulation

/-!
# Subscribers do not disturb each other

The loops of `SubscribeBook` share the strand with the update tasks. Leaving out what some of the
subscribers do, and the snapshots posted for them, leaves a run of the same aggregator: the books,
the versions and the streams of the other subscribers are those of the full run.
-/

namespace AsioAggregator

open Runs

def ServerEvent.actor : ServerEvent → Option ℕ
  | .poll j _ | .resume j _ => some j
  | _ => none

def ServerEvent.keptBy (keep : ℕ → Bool) (e : ServerEvent) : Bool := e.actor.all keep

def Task.keptBy (keep : ℕ → Bool) : Task → Bool
  | .update _ => true
  | .snapshot j => keep j

variable {D : Type} [LinearOrder D]

/-- The second state lacks only what the subscribers that are left out have done. -/
structure Server.Without (keep : ℕ → Bool) (s t : Server D) : Prop where
  connectors : t.connectors = s.connectors
  consolidated : t.consolidated = s.consolidated
  version : t.version = s.version
  strand : t.strand = s.strand.filter (Task.keptBy keep)
  length : t.subscribers.length = s.subscribers.length
  subscribers : ∀ j, keep j = true → t.subscribers[j]? = s.subscribers[j]?

namespace Server.Without
variable {keep : ℕ → Bool} {s t : Server D} {j : ℕ} {sub : Subscriber D}

theorem initial (exchanges : List Exchange) :
    Without keep (Server.initial exchanges : Server D) (Server.initial exchanges) where
  connectors := rfl
  consolidated := rfl
  version := rfl
  strand := rfl
  length := rfl
  subscribers _ _ := rfl

theorem skip (h : Without keep s t) (hj : keep j = false) {subscribers : List (Subscriber D)}
    (posted : List Task) (hposted : ∀ task ∈ posted, task = .snapshot j)
    (hlength : subscribers.length = s.subscribers.length)
    (hother : ∀ k, k ≠ j → subscribers[k]? = s.subscribers[k]?) :
    Without keep { s with subscribers := subscribers, strand := s.strand ++ posted } t where
  connectors := h.connectors
  consolidated := h.consolidated
  version := h.version
  strand := by
    have hnone : posted.filter (Task.keptBy keep) = [] := by
      refine List.filter_eq_nil_iff.mpr fun task htask => ?_
      rw [hposted task htask]
      simp [Task.keptBy, hj]
    rw [List.filter_append, hnone, List.append_nil]
    exact h.strand
  length := h.length.trans hlength.symm
  subscribers k hk := by
    have hne : k ≠ j := by
      rintro rfl
      exact Bool.false_ne_true (hj.symm.trans hk)
    rw [hother k hne]
    exact h.subscribers k hk

theorem set (h : Without keep s t) (j : ℕ) (sub : Subscriber D) (posted : List Task)
    (hposted : posted.filter (Task.keptBy keep) = posted) :
    Without keep { s with subscribers := s.subscribers.set j sub, strand := s.strand ++ posted }
      { t with subscribers := t.subscribers.set j sub, strand := t.strand ++ posted } where
  connectors := h.connectors
  consolidated := h.consolidated
  version := h.version
  strand := by rw [h.strand, List.filter_append, hposted]
  length := by simpa using h.length
  subscribers k hk := by
    rw [List.getElem?_set, List.getElem?_set, h.length, h.subscribers k hk]

section Steps
variable [Zero D] [Add D] [OfNumeral D] {jsonParse : String → Except StdException Json}
variable {s' : Server D}

theorem deliver {i : ℕ} {msg : String} (h : Without keep s t)
    (hs : s.step jsonParse (.deliver i msg) = some s') :
    ∃ t', t.step jsonParse (.deliver i msg) = some t' ∧ Without keep s' t' := by
  obtain ⟨c, books, hc, hparse, rfl⟩ := step_deliver.mp hs
  refine ⟨_, step_deliver.mpr ⟨c, books, h.connectors ▸ hc, hparse, rfl⟩, ?_⟩
  exact {
    connectors := by rw [h.connectors]
    consolidated := h.consolidated
    version := h.version
    strand := by rw [h.strand, List.filter_append]; rfl
    length := h.length
    subscribers := h.subscribers }

theorem runStrand {now : ℤ} (h : Without keep s t)
    (hs : s.step jsonParse (.runStrand now) = some s') :
    Without keep s' t ∨ ∃ t', t.step jsonParse (.runStrand now) = some t' ∧ Without keep s' t' := by
  obtain ⟨i, rest, hstrand, rfl⟩ | ⟨j, rest, hstrand, rfl⟩ := step_runStrand.mp hs
  · have hstrand' : t.strand = .update i :: rest.filter (Task.keptBy keep) := by
      rw [h.strand, hstrand]
      rfl
    refine Or.inr ⟨_, step_runStrand.mpr (Or.inl ⟨i, _, hstrand', rfl⟩), ?_⟩
    exact {
      connectors := h.connectors
      consolidated := by rw [h.connectors]
      version := by rw [h.version]
      strand := rfl
      length := h.length
      subscribers := h.subscribers }
  · have hlength : (s.subscribers.modify j fun sub => { sub with
        phase := .received (buildBookUpdate now s.consolidated) s.version }).length =
        s.subscribers.length := List.length_modify _ _ _
    cases hj : keep j with
    | false =>
      refine Or.inl ⟨h.connectors, h.consolidated, h.version, ?_, h.length.trans hlength.symm,
        fun k hk => ?_⟩
      · rw [h.strand, hstrand, List.filter_cons_of_neg (by simp [Task.keptBy, hj])]
      · have hne : j ≠ k := by
          rintro rfl
          exact Bool.false_ne_true (hj.symm.trans hk)
        simp only [List.getElem?_modify, hne, if_false, Option.map_eq_map, Option.map_id',
          h.subscribers k hk]
    | true =>
      have hstrand' : t.strand = .snapshot j :: rest.filter (Task.keptBy keep) := by
        rw [h.strand, hstrand, List.filter_cons_of_pos (by simp [Task.keptBy, hj])]
      refine Or.inr ⟨_, step_runStrand.mpr (Or.inr ⟨j, _, hstrand', rfl⟩), ?_⟩
      exact {
        connectors := h.connectors
        consolidated := h.consolidated
        version := h.version
        strand := rfl
        length := by simpa using h.length
        subscribers := fun k hk => by
          simp only [List.getElem?_modify, h.consolidated, h.version, h.subscribers k hk] }

theorem subscribe (h : Without keep s t) (hs : s.step jsonParse .subscribe = some s') :
    ∃ t', t.step jsonParse .subscribe = some t' ∧ Without keep s' t' := by
  obtain rfl := step_subscribe.mp hs
  refine ⟨_, step_subscribe.mpr rfl, h.connectors, h.consolidated, h.version, h.strand, ?_, ?_⟩
  · simpa using h.length
  · intro k hk
    by_cases hlt : k < s.subscribers.length
    · rw [List.getElem?_append_left hlt, List.getElem?_append_left (h.length ▸ hlt)]
      exact h.subscribers k hk
    · have hge := not_lt.mp hlt
      rw [List.getElem?_append_right hge, List.getElem?_append_right (h.length ▸ hge), h.length]

theorem poll {j : ℕ} {cancelled : Bool} (h : Without keep s t)
    (hs : s.step jsonParse (.poll j cancelled) = some s') :
    keep j = false ∧ Without keep s' t ∨
      keep j = true ∧ ∃ t', t.step jsonParse (.poll j cancelled) = some t' ∧
        Without keep s' t' := by
  obtain ⟨sub, hsub, hpolling, rfl⟩ := step_poll.mp hs
  have hother : ∀ (sub' : Subscriber D) (k : ℕ), k ≠ j →
      (s.subscribers.set j sub')[k]? = s.subscribers[k]? := fun sub' k hne =>
    List.getElem?_set_ne hne.symm
  have hunposted : s.strand ++ [] = s.strand ∧ t.strand ++ [] = t.strand := by simp
  cases hj : keep j with
  | false =>
    refine Or.inl ⟨rfl, ?_⟩
    cases cancelled with
    | false => exact h.skip hj [.snapshot j] (by simp) List.length_set (hother _)
    | true =>
      have hskip := h.skip hj [] (by simp) List.length_set
        (hother { sub with phase := .returned })
      rwa [hunposted.1] at hskip
  | true =>
    have hsub' : t.subscribers[j]? = some sub := (h.subscribers j hj).trans hsub
    refine Or.inr ⟨rfl, _, step_poll.mpr ⟨sub, hsub', hpolling, rfl⟩, ?_⟩
    cases cancelled with
    | false => exact h.set j _ [.snapshot j] (by simp [Task.keptBy, hj])
    | true =>
      have hset := h.set j { sub with phase := .returned } [] rfl
      rwa [hunposted.1, hunposted.2] at hset

theorem resume {j : ℕ} {writeOk : Bool} (h : Without keep s t)
    (hs : s.step jsonParse (.resume j writeOk) = some s') :
    keep j = false ∧ Without keep s' t ∨
      keep j = true ∧ ∃ t', t.step jsonParse (.resume j writeOk) = some t' ∧
        Without keep s' t' := by
  obtain ⟨sub, update, version, hsub, hreceived, rfl⟩ := step_resume.mp hs
  have hunposted : s.strand ++ [] = s.strand ∧ t.strand ++ [] = t.strand := by simp
  cases hj : keep j with
  | false =>
    have hskip := h.skip hj [] (by simp) List.length_set fun k hne =>
      List.getElem?_set_ne (a := sub.consume update version writeOk) hne.symm
    rw [hunposted.1] at hskip
    exact Or.inl ⟨rfl, hskip⟩
  | true =>
    have hsub' : t.subscribers[j]? = some sub := (h.subscribers j hj).trans hsub
    have hset := h.set j (sub.consume update version writeOk) [] rfl
    rw [hunposted.1, hunposted.2] at hset
    exact Or.inr ⟨rfl, _, step_resume.mpr ⟨sub, update, version, hsub', hreceived, rfl⟩, hset⟩

end Steps
end Server.Without

variable [Zero D] [Add D] [OfNumeral D] {jsonParse : String → Except StdException Json}

/-- The run without the subscribers that are left out follows the full one. -/
theorem without_follows (jsonParse : String → Except StdException Json) (keep : ℕ → Bool) :
    Follows (Server.step jsonParse) (Server.step jsonParse) (Server.Without (D := D) keep)
      ServerEvent.isDelivery (ServerEvent.keptBy keep) where
  step {s t e s'} h hs := by
    cases e with
    | deliver i msg => exact Or.inr ⟨rfl, h.deliver hs⟩
    | runStrand now => exact (h.runStrand hs).imp (fun h' => ⟨rfl, h'⟩) fun h' => ⟨rfl, h'⟩
    | subscribe => exact Or.inr ⟨rfl, h.subscribe hs⟩
    | poll j cancelled =>
      refine (h.poll hs).imp (fun h' => ⟨rfl, h'.2⟩) fun h' => ⟨?_, h'.2⟩
      simp [ServerEvent.keptBy, ServerEvent.actor, h'.1]
    | resume j writeOk =>
      refine (h.resume hs).imp (fun h' => ⟨rfl, h'.2⟩) fun h' => ⟨?_, h'.2⟩
      simp [ServerEvent.keptBy, ServerEvent.actor, h'.1]

/-- Whatever the other subscribers do, the aggregator handles the same messages with the same
result, and the subscribers that are kept are sent the same updates, as if the others had never
asked for a snapshot. -/
theorem other_subscribers_invisible {exchanges : List Exchange} {events : List ServerEvent}
    {s : Server D} (keep : ℕ → Bool)
    (hrun : run (Server.step jsonParse) (Server.initial exchanges) events = some s) :
    ∃ kept t, kept.Sublist events ∧ (∀ e ∈ kept, ∀ j, e.actor = some j → keep j = true) ∧
      kept.filter ServerEvent.isDelivery = events.filter ServerEvent.isDelivery ∧
      run (Server.step jsonParse) (Server.initial exchanges) kept = some t ∧
      t.connectors = s.connectors ∧ t.consolidated = s.consolidated ∧ t.version = s.version ∧
      pendingUpdates t = pendingUpdates s ∧
      ∀ j, keep j = true → t.subscribers[j]? = s.subscribers[j]? := by
  obtain ⟨kept, t, hsub, hallowed, hdeliveries, hkept, h⟩ :=
    (without_follows jsonParse keep).exists_run (Server.Without.initial exchanges) hrun
  refine ⟨kept, t, hsub, fun e he j hj => ?_, hdeliveries, hkept, h.connectors, h.consolidated,
    h.version, ?_, h.subscribers⟩
  · have hkeep := hallowed e he
    rwa [ServerEvent.keptBy, hj, Option.all_some] at hkeep
  · rw [pendingUpdates, pendingUpdates, h.strand, List.countP_filter]
    refine List.countP_congr fun task _ => ?_
    cases task <;> simp [Task.isUpdate, Task.keptBy]

def twoSubscribers : List ServerEvent :=
  [.subscribe, .subscribe, .deliver 0 oneBidText, .poll 0 false, .poll 1 false, .runStrand 0,
    .runStrand 1, .resume 0 true, .runStrand 2]

theorem other_subscribers_invisible_example :
    ∃ s : Server ℚ, run (Server.step decodeOneBid) (Server.initial [.binance]) twoSubscribers =
      some s ∧ (∃ sub ∈ s.subscribers, sub.written ≠ []) ∧
        ∃ kept t, kept.Sublist twoSubscribers ∧
          (∀ e ∈ kept, ∀ j, e.actor = some j → decide (j = 1) = true) ∧
          run (Server.step decodeOneBid) (Server.initial [.binance]) kept = some t ∧
          t.subscribers[1]? = s.subscribers[1]? := by
  obtain ⟨s, hrun, hsent⟩ := exists_of_run_any
    (P := fun s : Server ℚ => ∃ sub ∈ s.subscribers, sub.written ≠ [])
    (show (run (Server.step decodeOneBid) (Server.initial [.binance])
      twoSubscribers).any _ = true by decide +kernel)
  obtain ⟨kept, t, hsub, hactors, -, hkept, -, -, -, -, hsame⟩ :=
    other_subscribers_invisible (fun j => decide (j = 1)) hrun
  exact ⟨s, hrun, hsent, kept, t, hsub, hactors, hkept, hsame 1 rfl⟩

end AsioAggregator
