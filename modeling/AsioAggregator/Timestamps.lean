import AsioAggregator.Subscribers

/-!
# What the timestamps say

An update carries the reading of the clock when its snapshot ran. As long as the clock is not set
back, this dates the book in it: the book had become the consolidated one by then, and was not
replaced before. So the updates of all subscribers are ordered by their timestamps as by their
versions.
-/

namespace AsioAggregator

open Runs

variable {D : Type} [LinearOrder D]

def ServerEvent.clock : ServerEvent → Option ℤ
  | .runStrand now => some now
  | _ => none

def clockReadings (events : List ServerEvent) : List ℤ := events.filterMap ServerEvent.clock

def observeBooks (log : List (ℤ × Books D)) (s : Server D) (e : ServerEvent) (s' : Server D) :
    List (ℤ × Books D) :=
  if runsUpdate s e then log ++ e.clock.toList.map fun now => (now, s'.consolidated) else log

def currentBook (log : List (ℤ × Books D)) : Books D :=
  (log.getLast?.map Prod.snd).getD Books.empty

/-- The update shows the book of its version, which was the current one at its timestamp. -/
structure ShowsCurrent (log : List (ℤ × Books D)) (v : UInt64) (u : BookUpdate D) : Prop where
  counted : v.toNat ≤ log.length
  book : u = buildBookUpdate u.timestampMs (currentBook (log.take v.toNat))
  after : ∀ entry ∈ log.take v.toNat, entry.1 ≤ u.timestampMs
  before : ∀ entry ∈ log.drop v.toNat, u.timestampMs ≤ entry.1

def Subscriber.Got (sub : Subscriber D) (v : UInt64) (u : BookUpdate D) : Prop :=
  sub.phase = .received u v ∨ (v, u) ∈ sub.written

section Log
variable {s : Server D} {events : List ServerEvent} {log : List (ℤ × Books D)} {v : UInt64}
variable {u : BookUpdate D}

theorem clockReadings_concat (events : List ServerEvent) (e : ServerEvent) :
    clockReadings (events ++ [e]) = clockReadings events ++ e.clock.toList := by
  rw [clockReadings, List.filterMap_append, clockReadings]
  cases hclock : e.clock <;> simp [hclock]

theorem clockReadings_le {now : ℤ}
    (h : (clockReadings (events ++ [.runStrand now])).Pairwise (· ≤ ·)) :
    ∀ t ∈ clockReadings events, t ≤ now := by
  rw [clockReadings_concat] at h
  exact fun t ht => (List.pairwise_append.mp h).2.2 t ht now List.mem_cons_self

omit [LinearOrder D] in
theorem Subscriber.got_consume {sub : Subscriber D} {u' : BookUpdate D} {v' : UInt64}
    {writeOk : Bool} (hold : sub.phase = .received u' v')
    (h : (sub.consume u' v' writeOk).Got v u) : sub.Got v u := by
  unfold Subscriber.consume at h
  split_ifs at h with hlt hok
  · rcases h with h | hmem
    · cases h
    rcases List.mem_append.mp hmem with hmem | hnew
    · exact Or.inr hmem
    · obtain ⟨rfl, rfl⟩ := Prod.mk.inj (List.mem_singleton.mp hnew)
      exact Or.inl hold
  · rcases h with h | hmem
    · cases h
    · exact Or.inr hmem
  · rcases h with h | hmem
    · cases h
    · exact Or.inr hmem

theorem ShowsCurrent.append (h : ShowsCurrent log v u) {entry : ℤ × Books D}
    (hlater : u.timestampMs ≤ entry.1) : ShowsCurrent (log ++ [entry]) v u where
  counted := by
    rw [List.length_append]
    exact h.counted.trans (Nat.le_add_right _ _)
  book := by
    rw [List.take_append_of_le_length h.counted]
    exact h.book
  after := by
    rw [List.take_append_of_le_length h.counted]
    exact h.after
  before := by
    rw [List.drop_append_of_le_length h.counted]
    intro entry' hmem
    rcases List.mem_append.mp hmem with hold | hnew
    · exact h.before entry' hold
    · rw [List.mem_singleton.mp hnew]
      exact hlater

/-- What the clock has dated so far. -/
structure Dated (events : List ServerEvent) (s : Server D) (log : List (ℤ × Books D)) : Prop where
  version_eq : s.version.toNat = log.length
  book_eq : s.consolidated = currentBook log
  past : ∀ entry ∈ log, entry.1 ∈ clockReadings events
  got : ∀ (j : ℕ) (sub : Subscriber D) v u, s.subscribers[j]? = some sub → sub.Got v u →
    ShowsCurrent log v u ∧ u.timestampMs ∈ clockReadings events

theorem Dated.snapshot (h : Dated events s log) {now : ℤ}
    (hnow : ∀ t ∈ clockReadings events, t ≤ now) :
    ShowsCurrent log s.version (buildBookUpdate now s.consolidated) where
  counted := h.version_eq.le
  book := by
    rw [h.version_eq, List.take_length, ← h.book_eq]
    rfl
  after := by
    rw [h.version_eq, List.take_length]
    exact fun entry hentry => hnow _ (h.past entry hentry)
  before := by
    rw [h.version_eq, List.drop_length]
    exact nofun

end Log

section Steps
variable [Zero D] [Add D] [OfNumeral D] {jsonParse : String → Except StdException Json}
variable {exchanges : List Exchange} {s s' : Server D} {e : ServerEvent}
variable {events : List ServerEvent} {log : List (ℤ × Books D)} {v : UInt64} {u : BookUpdate D}

/-- A subscriber gets nothing but what its snapshots build. -/
theorem got_step {j : ℕ} {sub' : Subscriber D} (hs : s.step jsonParse e = some s')
    (hsub' : s'.subscribers[j]? = some sub') (hgot : sub'.Got v u) :
    (∃ sub, s.subscribers[j]? = some sub ∧ sub.Got v u) ∨
      ∃ now, e = .runStrand now ∧ s.strand.head? = some (.snapshot j) ∧ v = s.version ∧
        u = buildBookUpdate now s.consolidated := by
  obtain ⟨-, rfl⟩ | ⟨sub, hsub, hstep⟩ := step_subscriber hs hsub'
  · rcases hgot with h | h <;> cases h
  cases hstep with
  | idle => exact Or.inl ⟨_, hsub, hgot⟩
  | polled phase _ hnew =>
    exact Or.inl ⟨sub, hsub, Or.inr (hgot.resolve_left (hnew u v))⟩
  | fulfilled now he hhead =>
    rcases hgot with hphase | hmem
    · obtain ⟨rfl, rfl⟩ := Phase.received.inj hphase
      exact Or.inr ⟨now, he, hhead, rfl, rfl⟩
    · exact Or.inl ⟨sub, hsub, Or.inr hmem⟩
  | consumed u' v' writeOk _ hold =>
    exact Or.inl ⟨sub, hsub, Subscriber.got_consume hold hgot⟩

/-- Only the update tasks touch the consolidated book and the version. -/
theorem books_of_no_update (hs : s.step jsonParse e = some s') (hno : runsUpdate s e = false) :
    s'.consolidated = s.consolidated ∧ s'.version = s.version := by
  cases e with
  | deliver i msg =>
    obtain ⟨c, books, -, -, rfl⟩ := step_deliver.mp hs
    exact ⟨rfl, rfl⟩
  | runStrand now =>
    obtain ⟨i, rest, hstrand, rfl⟩ | ⟨j, rest, -, rfl⟩ := step_runStrand.mp hs
    · simp [runsUpdate, hstrand, Task.isUpdate] at hno
    · exact ⟨rfl, rfl⟩
  | subscribe =>
    obtain rfl := step_subscribe.mp hs
    exact ⟨rfl, rfl⟩
  | poll j cancelled =>
    obtain ⟨sub, -, -, rfl⟩ := step_poll.mp hs
    cases cancelled <;> exact ⟨rfl, rfl⟩
  | resume j writeOk =>
    obtain ⟨sub, u, v, -, -, rfl⟩ := step_resume.mp hs
    exact ⟨rfl, rfl⟩

theorem books_of_update (hs : s.step jsonParse e = some s') (hyes : runsUpdate s e = true) :
    ∃ now i, e = .runStrand now ∧ s.strand.head? = some (.update i) ∧
      s'.version = s.version + 1 := by
  cases e with
  | runStrand now =>
    obtain ⟨i, rest, hstrand, rfl⟩ | ⟨j, rest, hstrand, rfl⟩ := step_runStrand.mp hs
    · exact ⟨now, i, rfl, by rw [hstrand]; rfl, rfl⟩
    · simp [runsUpdate, hstrand, Task.isUpdate] at hyes
  | _ => cases hyes

theorem Dated.step (h : Dated events s log) (hs : s.step jsonParse e = some s')
    (hclock : (clockReadings (events ++ [e])).Pairwise (· ≤ ·))
    (hbound : (observeBooks log s e s').length < 2 ^ 64) :
    Dated (events ++ [e]) s' (observeBooks log s e s') := by
  have hlater : ∀ t ∈ clockReadings events, t ∈ clockReadings (events ++ [e]) := by
    rw [clockReadings_concat]
    exact fun t ht => List.mem_append_left _ ht
  cases hupdate : runsUpdate s e with
  | false =>
    obtain ⟨hbook, hversion⟩ := books_of_no_update hs hupdate
    have hlog : observeBooks log s e s' = log := by simp [observeBooks, hupdate]
    rw [hlog]
    refine ⟨hversion ▸ h.version_eq, hbook ▸ h.book_eq, fun entry hentry =>
      hlater _ (h.past entry hentry), fun j sub' v u hsub' hgot => ?_⟩
    obtain ⟨sub, hsub, hgot⟩ | ⟨now, rfl, -, rfl, rfl⟩ := got_step hs hsub' hgot
    · exact ⟨(h.got j sub v u hsub hgot).1, hlater _ (h.got j sub v u hsub hgot).2⟩
    · refine ⟨h.snapshot (clockReadings_le hclock), ?_⟩
      rw [clockReadings_concat]
      exact List.mem_append_right _ List.mem_cons_self
  | true =>
    obtain ⟨now, i, rfl, hhead, hversion⟩ := books_of_update hs hupdate
    have hlog : observeBooks log s (.runStrand now) s' = log ++ [(now, s'.consolidated)] := by
      simp [observeBooks, hupdate, ServerEvent.clock]
    rw [hlog] at hbound ⊢
    rw [List.length_append, List.length_singleton] at hbound
    refine ⟨?_, ?_, fun entry hentry => ?_, fun j sub' v u hsub' hgot => ?_⟩
    · rw [hversion, UInt64.toNat_add, h.version_eq, List.length_append]
      exact Nat.mod_eq_of_lt hbound
    · simp [currentBook]
    · rcases List.mem_append.mp hentry with hold | hnew
      · exact hlater _ (h.past entry hold)
      · rw [List.mem_singleton.mp hnew, clockReadings_concat]
        exact List.mem_append_right _ List.mem_cons_self
    · obtain ⟨sub, hsub, hgot⟩ | ⟨now', -, hhead', -⟩ := got_step hs hsub' hgot
      · obtain ⟨hshows, hreading⟩ := h.got j sub v u hsub hgot
        exact ⟨hshows.append (clockReadings_le hclock _ hreading), hlater _ hreading⟩
      · cases hhead.symm.trans hhead'

theorem dated_run
    (hrun : run (withHistory (Server.step jsonParse) observeBooks)
      ((Server.initial exchanges : Server D), []) events = some (s, log))
    (hclock : (clockReadings events).Pairwise (· ≤ ·)) (hbound : log.length < 2 ^ 64) :
    Dated events s log := by
  have hinv := history_invariant (I := fun es (x : Server D × List (ℤ × Books D)) =>
    (clockReadings es).Pairwise (· ≤ ·) → x.2.length < 2 ^ 64 → Dated es x.1 x.2) ?_ ?_ hrun
  · exact hinv hclock hbound
  · refine fun _ _ => ⟨rfl, rfl, nofun, fun j sub v u hsub _ => ?_⟩
    simp [Server.initial] at hsub
  rintro es ⟨t, l⟩ e ⟨t', l'⟩ - ih hstep hsorted hlt
  obtain ⟨hs, rfl⟩ := withHistory_eq_some.mp hstep
  have hshorter : l.length ≤ (observeBooks l t e t').length := by
    unfold observeBooks
    split_ifs
    · rw [List.length_append]
      exact Nat.le_add_right _ _
    · exact le_rfl
  have hbefore : (clockReadings es).Pairwise (· ≤ ·) := by
    rw [clockReadings_concat] at hsorted
    exact (List.pairwise_append.mp hsorted).1
  exact (ih hbefore (hshorter.trans_lt hlt)).step hs hsorted hlt

/-- If the clock is not set back, every update shows the book that was the current one at its
timestamp, and newer versions have no earlier timestamps, whoever they were written to. -/
theorem updates_show_current_book
    (hrun : run (withHistory (Server.step jsonParse) observeBooks)
      ((Server.initial exchanges : Server D), []) events = some (s, log))
    (hclock : (clockReadings events).Pairwise (· ≤ ·)) (hbound : log.length < 2 ^ 64) :
    (∀ (j : ℕ) (sub : Subscriber D), s.subscribers[j]? = some sub → ∀ w ∈ sub.written,
        ShowsCurrent log w.1 w.2) ∧
      ∀ (j j' : ℕ) (sub sub' : Subscriber D), s.subscribers[j]? = some sub →
        s.subscribers[j']? = some sub' → ∀ w ∈ sub.written, ∀ w' ∈ sub'.written,
          w.1 < w'.1 → w.2.timestampMs ≤ w'.2.timestampMs := by
  have h := dated_run hrun hclock hbound
  have hcurrent : ∀ (j : ℕ) (sub : Subscriber D), s.subscribers[j]? = some sub →
      ∀ w ∈ sub.written, ShowsCurrent log w.1 w.2 := fun j sub hsub w hw =>
    (h.got j sub w.1 w.2 hsub (Or.inr hw)).1
  refine ⟨hcurrent, fun j j' sub sub' hsub hsub' w hw w' hw' hlt => ?_⟩
  have hshows := hcurrent j sub hsub w hw
  have hshows' := hcurrent j' sub' hsub' w' hw'
  -- the book that replaced the older one was there when the newer one was read
  have hbetween : w.1.toNat < w'.1.toNat := UInt64.lt_iff_toNat_lt.mp hlt
  have hindex : w.1.toNat < log.length := hbetween.trans_le hshows'.counted
  have hold : log[w.1.toNat] ∈ log.drop w.1.toNat :=
    List.mem_drop_iff_getElem.mpr ⟨0, by simpa using hindex, by simp⟩
  have hnew : log[w.1.toNat] ∈ log.take w'.1.toNat :=
    List.mem_take_iff_getElem.mpr ⟨w.1.toNat, by omega, rfl⟩
  exact (hshows.before _ hold).trans (hshows'.after _ hnew)

def datedEvents : List ServerEvent :=
  [.deliver 0 oneBidText, .subscribe, .subscribe, .runStrand 1, .poll 0 false, .runStrand 3,
    .resume 0 true, .deliver 1 subscribedText, .poll 1 false, .runStrand 4, .runStrand 7,
    .resume 1 true]

theorem updates_show_current_book_example :
    ∃ (s : Server ℚ) (log : List (ℤ × Books ℚ)), run (withHistory (Server.step decodeOneBid)
        observeBooks) (Server.initial [.binance, .okx], []) datedEvents = some (s, log) ∧
      ∃ sub sub' w w', s.subscribers = [sub, sub'] ∧ w ∈ sub.written ∧ w' ∈ sub'.written ∧
        ShowsCurrent log w.1 w.2 ∧ w.2.timestampMs = 3 ∧ w.2.timestampMs ≤ w'.2.timestampMs := by
  obtain ⟨⟨s, log⟩, hrun, hlength, hsubs⟩ := exists_of_run_any
    (P := fun x : Server ℚ × List (ℤ × Books ℚ) => x.2.length = 2 ∧
      x.1.subscribers.map (fun sub => sub.written.map fun w => (w.1, w.2.timestampMs)) =
        [[(1, 3)], [(2, 7)]])
    (show (run (withHistory (Server.step decodeOneBid) observeBooks)
      ((Server.initial [.binance, .okx] : Server ℚ), []) datedEvents).any _ = true by
        decide +kernel)
  simp only at hlength hsubs
  obtain ⟨sub, rest, hs, hfirst, hrest⟩ := List.map_eq_cons_iff.mp hsubs
  obtain ⟨sub', rest', rfl, hsecond, hnil⟩ := List.map_eq_cons_iff.mp hrest
  obtain rfl := List.map_eq_nil_iff.mp hnil
  obtain ⟨w, hw, hpair⟩ := List.map_eq_singleton_iff.mp hfirst
  obtain ⟨w', hw', hpair'⟩ := List.map_eq_singleton_iff.mp hsecond
  obtain ⟨hversion, htime⟩ := Prod.mk.inj hpair
  obtain ⟨hversion', -⟩ := Prod.mk.inj hpair'
  have hclock : (clockReadings datedEvents).Pairwise (· ≤ ·) := by decide
  obtain ⟨hcurrent, hordered⟩ := updates_show_current_book hrun hclock (by omega)
  have hsub : s.subscribers[0]? = some sub := by rw [hs]; rfl
  have hsub' : s.subscribers[1]? = some sub' := by rw [hs]; rfl
  have hmem : w ∈ sub.written := by rw [hw]; exact List.mem_cons_self
  have hmem' : w' ∈ sub'.written := by rw [hw']; exact List.mem_cons_self
  have hlt : w.1 < w'.1 := by
    rw [hversion, hversion']
    decide
  exact ⟨s, log, hrun, sub, sub', w, w', hs, hmem, hmem', hcurrent 0 sub hsub w hmem, htime,
    hordered 0 1 sub sub' hsub hsub' w hmem w' hmem' hlt⟩

end Steps
end AsioAggregator
