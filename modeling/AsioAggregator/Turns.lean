import AsioAggregator.Stranded
import AsioAggregator.Subscribers
import AsioAggregator.Library.Fifo

/-!
# Snapshots in their turn

The strand serves its tasks in the order in which they were posted. A waiting subscriber has just
one snapshot in it, which is run after the tasks that stood before it, and which shows every message
that was handled before the subscriber asked.
-/

namespace AsioAggregator

open Runs

def ServerEvent.posts : ServerEvent → List Task
  | .deliver i _ => [.update i]
  | .poll j false => [.snapshot j]
  | _ => []

def ServerEvent.isRunStrand : ServerEvent → Bool
  | .runStrand _ => true
  | _ => false

variable {D : Type} [LinearOrder D]

def Phase.isWaiting {D : Type} : Phase D → Bool
  | .waiting => true
  | _ => false

def Server.waiting (s : Server D) : ℕ := s.subscribers.countP fun sub => sub.phase.isWaiting

namespace Server
variable {s : Server D} {j k : ℕ} {sub : Subscriber D}

theorem waits_iff (hsub : s.subscribers[j]? = some sub) :
    s.Waits j ↔ sub.phase.isWaiting = true := by
  constructor
  · rintro ⟨sub', hsub', hwaiting⟩
    obtain rfl : sub = sub' := Option.some.inj (hsub.symm.trans hsub')
    rw [hwaiting]
    rfl
  · intro hwaiting
    refine ⟨sub, hsub, ?_⟩
    cases hphase : sub.phase with
    | waiting => rfl
    | _ => simp [hphase, Phase.isWaiting] at hwaiting

theorem waits_congr {s' : Server D} (h : s'.subscribers[k]? = s.subscribers[k]?) :
    s'.Waits k ↔ s.Waits k := by
  unfold Waits
  rw [h]

end Server

/-- A waiting subscriber has one snapshot in the strand, and another one has none. -/
structure Server.Ticketed (s : Server D) : Prop where
  waiting : ∀ j, s.Waits j → s.strand.count (.snapshot j) = 1
  others : ∀ j, ¬ s.Waits j → s.strand.count (.snapshot j) = 0
  balanced : s.strand.length = pendingUpdates s + s.waiting

namespace Server.Ticketed
variable {s s' : Server D} {j : ℕ} {sub : Subscriber D}

theorem initial (exchanges : List Exchange) : Ticketed (Server.initial exchanges : Server D) where
  waiting j h := by
    obtain ⟨sub, hsub, -⟩ := h
    simp [Server.initial] at hsub
  others j _ := rfl
  balanced := rfl

theorem of_frame (h : Ticketed s) (hsubs : s'.subscribers = s.subscribers)
    (hcount : ∀ k, s'.strand.count (.snapshot k) = s.strand.count (.snapshot k))
    (hlength : s'.strand.length + pendingUpdates s = s.strand.length + pendingUpdates s') :
    Ticketed s' where
  waiting k hk := (hcount k).trans (h.waiting k ((waits_congr (by rw [hsubs])).mp hk))
  others k hk := (hcount k).trans (h.others k fun hk' => hk ((waits_congr (by rw [hsubs])).mpr hk'))
  balanced := by
    have hsame : s'.waiting = s.waiting := by rw [Server.waiting, hsubs, Server.waiting]
    have hbalanced := h.balanced
    omega

theorem set (h : Ticketed s) (hsub : s.subscribers[j]? = some sub) (sub' : Subscriber D)
    (hsubs : s'.subscribers = s.subscribers.set j sub')
    (hother : ∀ k, k ≠ j → s'.strand.count (.snapshot k) = s.strand.count (.snapshot k))
    (hcount : s'.strand.count (.snapshot j) = if sub'.phase.isWaiting then 1 else 0)
    (hlength : s'.strand.length + pendingUpdates s + (if sub.phase.isWaiting then 1 else 0) =
      s.strand.length + pendingUpdates s' + if sub'.phase.isWaiting then 1 else 0) :
    Ticketed s' := by
  obtain ⟨hlt, hget⟩ := List.getElem?_eq_some_iff.mp hsub
  have hsub' : s'.subscribers[j]? = some sub' := by rw [hsubs, List.getElem?_set_self hlt]
  have hsame : ∀ k, k ≠ j → (s'.Waits k ↔ s.Waits k) := by
    intro k hne
    exact waits_congr (by rw [hsubs, List.getElem?_set_ne hne.symm])
  refine ⟨fun k hk => ?_, fun k hk => ?_, ?_⟩
  · by_cases hkj : k = j
    · subst hkj
      rw [hcount, if_pos ((waits_iff hsub').mp hk)]
    · exact (hother k hkj).trans (h.waiting k ((hsame k hkj).mp hk))
  · by_cases hkj : k = j
    · subst hkj
      rw [hcount, if_neg fun hwaiting => hk ((waits_iff hsub').mpr hwaiting)]
    · exact (hother k hkj).trans (h.others k fun hk' => hk ((hsame k hkj).mpr hk'))
  · have hwaiting : s'.waiting + (if sub.phase.isWaiting then 1 else 0) =
        s.waiting + if sub'.phase.isWaiting then 1 else 0 := by
      have hle : (if sub.phase.isWaiting then 1 else 0) ≤ s.waiting := by
        split_ifs with hp
        · exact List.countP_pos_iff.mpr ⟨sub, List.mem_of_getElem? hsub, hp⟩
        · exact Nat.zero_le _
      have hset := List.countP_set (p := fun sub : Subscriber D => sub.phase.isWaiting)
        (a := sub') hlt
      rw [hget, ← hsubs] at hset
      simp only [Server.waiting] at hle ⊢
      omega
    have hbalanced := h.balanced
    omega

end Server.Ticketed

variable [Zero D] [Add D] [OfNumeral D] {jsonParse : String → Except StdException Json}

/-- The strand is a queue. -/
theorem strand_fifo (jsonParse : String → Except StdException Json) :
    Fifo (Server.step (D := D) jsonParse) Server.strand ServerEvent.posts
      ServerEvent.isRunStrand where
  keep {s e s'} hs htakes := by
    cases e with
    | deliver i msg =>
      obtain ⟨c, books, -, -, rfl⟩ := step_deliver.mp hs
      rfl
    | runStrand now => cases htakes
    | subscribe =>
      obtain rfl := step_subscribe.mp hs
      exact (List.append_nil _).symm
    | poll j cancelled =>
      obtain ⟨sub, -, -, rfl⟩ := step_poll.mp hs
      cases cancelled with
      | false => rfl
      | true => exact (List.append_nil _).symm
    | resume j writeOk =>
      obtain ⟨sub, update, version, -, -, rfl⟩ := step_resume.mp hs
      exact (List.append_nil _).symm
  serve {s e s'} hs htakes := by
    cases e with
    | runStrand now =>
      obtain ⟨i, rest, hstrand, rfl⟩ | ⟨j, rest, hstrand, rfl⟩ := step_runStrand.mp hs
      · exact ⟨_, rest, hstrand, (List.append_nil _).symm⟩
      · exact ⟨_, rest, hstrand, (List.append_nil _).symm⟩
    | _ => cases htakes

section Reached
variable {s s' : Server D} {e : ServerEvent} {exchanges : List Exchange}
variable {events : List ServerEvent} {j : ℕ}

theorem ticketed_step (h : s.Ticketed) (hs : s.step jsonParse e = some s') : s'.Ticketed := by
  cases e with
  | deliver i msg =>
    obtain ⟨c, books, -, -, rfl⟩ := step_deliver.mp hs
    refine h.of_frame rfl (fun k => by simp) ?_
    simp only [pendingUpdates, List.length_append, List.countP_append, List.length_singleton,
      List.countP_singleton, Task.isUpdate, if_true]
    omega
  | runStrand now =>
    obtain ⟨i, rest, hstrand, rfl⟩ | ⟨i, rest, hstrand, rfl⟩ := step_runStrand.mp hs
    · refine h.of_frame rfl (fun k => by simp [hstrand]) ?_
      simp only [pendingUpdates, hstrand, List.length_cons, List.countP_cons, Task.isUpdate,
        if_true]
      omega
    · have hi : s.Waits i := by
        by_contra hnot
        have hzero := h.others i hnot
        simp [hstrand] at hzero
      obtain ⟨sub, hsub, hwaiting⟩ := hi
      have hone := h.waiting i ⟨sub, hsub, hwaiting⟩
      refine h.set hsub { sub with
        phase := .received (buildBookUpdate now s.consolidated) s.version } ?_ ?_ ?_ ?_
      · rw [List.modify_eq_set_getElem?, hsub]
        rfl
      · intro k hne
        simp [hstrand, hne.symm]
      · simpa [hstrand, Phase.isWaiting] using hone
      · simp only [pendingUpdates, hstrand, List.length_cons, List.countP_cons, Task.isUpdate,
          hwaiting, Phase.isWaiting, Bool.false_eq_true, if_true, if_false]
        omega
  | subscribe =>
    obtain rfl := step_subscribe.mp hs
    have hwaits : ∀ k, Server.Waits { s with subscribers := s.subscribers ++ [Subscriber.new] } k ↔
        s.Waits k := by
      intro k
      by_cases hlt : k < s.subscribers.length
      · exact Server.waits_congr (List.getElem?_append_left hlt)
      · have hge := not_lt.mp hlt
        have hold : ¬ s.Waits k := by
          rintro ⟨sub, hsub, -⟩
          exact hlt (List.getElem?_eq_some_iff.mp hsub).1
        refine iff_of_false ?_ hold
        rintro ⟨sub, hsub, hwaiting⟩
        rw [List.getElem?_append_right hge] at hsub
        rw [List.mem_singleton.mp (List.mem_of_getElem? hsub)] at hwaiting
        cases hwaiting
    refine ⟨fun k hk => h.waiting k ((hwaits k).mp hk),
      fun k hk => h.others k fun hk' => hk ((hwaits k).mpr hk'), ?_⟩
    have hbalanced := h.balanced
    simpa [Server.waiting, pendingUpdates, Subscriber.new, Phase.isWaiting] using hbalanced
  | poll k cancelled =>
    obtain ⟨sub, hsub, hpolling, rfl⟩ := step_poll.mp hs
    have hzero := h.others k fun hk => by
      rw [Server.waits_iff hsub, hpolling] at hk
      cases hk
    cases cancelled with
    | false =>
      refine h.set hsub { sub with phase := .waiting } rfl ?_ ?_ ?_
      · intro i hne
        simp [hne.symm]
      · simp [hzero, Phase.isWaiting]
      · simp [pendingUpdates, hpolling, Phase.isWaiting, Task.isUpdate]
        omega
    | true =>
      refine h.set hsub { sub with phase := .returned } rfl (fun _ _ => rfl) ?_ ?_
      · simpa [Phase.isWaiting] using hzero
      · simp [pendingUpdates, hpolling, Phase.isWaiting]
  | resume k writeOk =>
    obtain ⟨sub, update, version, hsub, hreceived, rfl⟩ := step_resume.mp hs
    have hzero := h.others k fun hk => by
      rw [Server.waits_iff hsub, hreceived] at hk
      cases hk
    have hidle : (sub.consume update version writeOk).phase.isWaiting = false := by
      unfold Subscriber.consume
      split_ifs <;> rfl
    have hbefore : sub.phase.isWaiting = false := by
      rw [hreceived]
      rfl
    refine h.set hsub _ rfl (fun _ _ => rfl) ?_ ?_
    · rw [hidle]
      exact hzero
    · rw [hidle, hbefore]
      rfl

theorem ticketed_run
    (hrun : run (Server.step jsonParse) (Server.initial exchanges : Server D) events = some s) :
    s.Ticketed :=
  invariant (I := Server.Ticketed) (Server.Ticketed.initial exchanges)
    (fun _ _ _ h hs => ticketed_step h hs) hrun

theorem serve_snapshot {now : ℤ} (h : s.Ticketed) (hhead : s.strand.head? = some (.snapshot j))
    (hs : s.step jsonParse (.runStrand now) = some s') :
    ∃ sub, s.subscribers[j]? = some sub ∧ sub.phase = .waiting ∧ s'.subscribers[j]? =
      some { sub with phase := .received (buildBookUpdate now s.consolidated) s.version } := by
  obtain ⟨i, rest, hstrand, rfl⟩ | ⟨i, rest, hstrand, rfl⟩ := step_runStrand.mp hs
  · simp [hstrand] at hhead
  · obtain rfl : i = j := by simpa [hstrand] using hhead
    have hwaits : s.Waits i := by
      by_contra hnot
      have hzero := h.others i hnot
      simp [hstrand] at hzero
    obtain ⟨sub, hsub, hwaiting⟩ := hwaits
    refine ⟨sub, hsub, hwaiting, ?_⟩
    simp [hsub]

/-- A waiting subscriber is served after the tasks that stand before its snapshot, of which there
are fewer than updates and waiting subscribers, and waits until then. -/
theorem snapshot_in_turn
    (hrun : run (Server.step jsonParse) (Server.initial exchanges : Server D) events = some s)
    (hwaits : s.Waits j) :
    ∃ k, s.strand[k]? = some (.snapshot j) ∧ k < pendingUpdates s + s.waiting ∧
      ∀ later s', run (Server.step jsonParse) s later = some s' →
        (later.countP ServerEvent.isRunStrand ≤ k → s'.Waits j) ∧
        (k < later.countP ServerEvent.isRunStrand →
          ∃ pre now post t t' sub, later = pre ++ .runStrand now :: post ∧
            pre.countP ServerEvent.isRunStrand = k ∧
            run (Server.step jsonParse) s pre = some t ∧
            t.step jsonParse (.runStrand now) = some t' ∧ t.subscribers[j]? = some sub ∧
            t'.subscribers[j]? = some { sub with
              phase := .received (buildBookUpdate now t.consolidated) t.version }) := by
  have h := ticketed_run hrun
  have hone := h.waiting j hwaits
  have hmem : Task.snapshot j ∈ s.strand := List.count_pos_iff.mp (by omega)
  obtain ⟨k, hk⟩ := List.mem_iff_getElem?.mp hmem
  refine ⟨k, hk, h.balanced ▸ (List.getElem?_eq_some_iff.mp hk).1, fun later s' hlater => ?_⟩
  have hreach : ∀ {es u}, run (Server.step jsonParse) s es = some u → u.Ticketed := fun hes =>
    ticketed_run (run_append_eq_some.mpr ⟨s, hrun, hes⟩)
  constructor
  · intro hle
    have hstays := (strand_fifo jsonParse).getElem?_run hk hlater hle
    by_contra hnot
    have hzero := (hreach hlater).others j hnot
    exact absurd (List.mem_of_getElem? hstays) (List.count_eq_zero.mp hzero)
  · intro hlt
    obtain ⟨pre, e, post, t, t', rfl, he, hpre, ht, hhead, hs, -⟩ :=
      (strand_fifo jsonParse).served hk hlater hlt
    cases e with
    | runStrand now =>
      obtain ⟨sub, hsub, -, hserved⟩ := serve_snapshot (hreach ht) hhead hs
      exact ⟨pre, now, post, t, t', sub, rfl, hpre, ht, hs, hsub, hserved⟩
    | _ => cases he

theorem snapshot_in_turn_example :
    ∃ s : Server ℚ, run (Server.step decodeOneBid) (Server.initial [.binance])
        [.subscribe, .subscribe, .deliver 0 oneBidText, .poll 0 false, .poll 1 false] = some s ∧
      s.Waits 1 ∧ ∃ k, s.strand[k]? = some (.snapshot 1) ∧ k < pendingUpdates s + s.waiting := by
  obtain ⟨s, hrun, hphase⟩ := exists_of_run_any
    (P := fun s : Server ℚ => s.subscribers[1]?.map Subscriber.phase = some .waiting)
    (show (run (Server.step decodeOneBid) (Server.initial [.binance])
      [.subscribe, .subscribe, .deliver 0 oneBidText, .poll 0 false, .poll 1 false]).any _ = true by
        decide +kernel)
  obtain ⟨sub, hsub, hwaiting⟩ := Option.map_eq_some_iff.mp hphase
  have hwaits : s.Waits 1 := ⟨sub, hsub, hwaiting⟩
  obtain ⟨k, hk, hlt, -⟩ := snapshot_in_turn hrun hwaits
  exact ⟨s, hrun, hwaits, k, hk, hlt⟩

variable (jsonParse) in
def Replayed (exchanges : List Exchange) (seen : List ServerEvent) (feeds : List (Feed D)) : Prop :=
  feeds.length = exchanges.length ∧ ∀ i c, feeds[i]? = some c →
    exchanges[i]? = some c.exchange ∧
      replay jsonParse c.exchange (messagesTo i seen) = some c.localBooks

variable (jsonParse) in
/-- The book is the consolidation of the messages in `seen`. -/
def Reflects (exchanges : List Exchange) (seen : List ServerEvent) (b : Books D) : Prop :=
  ∃ feeds : List (Feed D), b = consolidate feeds ∧ Replayed jsonParse exchanges seen feeds

theorem Accounted.reflects (h : Accounted jsonParse exchanges events s) :
    Reflects jsonParse exchanges events (consolidate s.connectors) :=
  ⟨s.connectors, rfl, h.length_eq, h.replayed⟩

/-- The messages that the consolidated book lacks have updates pending. -/
theorem reflects_run
    (hrun : run (Server.step jsonParse) (Server.initial exchanges : Server D) events = some s) :
    ∃ seen, seen <+: events ∧ Reflects jsonParse exchanges seen s.consolidated ∧
      messageCount events ≤ messageCount seen + pendingUpdates s := by
  refine history_invariant (I := fun events (s : Server D) => ∃ seen, seen <+: events ∧
    Reflects jsonParse exchanges seen s.consolidated ∧
      messageCount events ≤ messageCount seen + pendingUpdates s) ?_ ?_ hrun
  · have hempty : Accounted jsonParse exchanges [] (Server.initial exchanges : Server D) :=
      accounted_initial
    exact ⟨[], List.nil_prefix, hempty.upToDate rfl ▸ hempty.reflects, Nat.zero_le _⟩
  rintro es t e t' hes ⟨seen, hseen, hreflects, hcount⟩ hs
  have hseen' : seen <+: es ++ [e] := hseen.trans (List.prefix_append _ _)
  have hmore := messageCount_concat es e
  cases e with
  | deliver i msg =>
    obtain ⟨c, books, -, -, rfl⟩ := step_deliver.mp hs
    refine ⟨seen, hseen', hreflects, ?_⟩
    simp only [pendingUpdates, List.countP_append, List.countP_singleton, Task.isUpdate,
      ServerEvent.isDelivery, if_true] at hcount hmore ⊢
    omega
  | runStrand now =>
    have hsame : messageCount (es ++ [.runStrand now]) = messageCount es := hmore
    obtain ⟨i, rest, hstrand, rfl⟩ | ⟨i, rest, hstrand, rfl⟩ := step_runStrand.mp hs
    · exact ⟨es, List.prefix_append _ _, (accounted_run hes).reflects,
        hsame.le.trans (Nat.le_add_right _ _)⟩
    · refine ⟨seen, hseen', hreflects, ?_⟩
      simp only [pendingUpdates, hstrand, List.countP_cons, Task.isUpdate, Bool.false_eq_true,
        if_false] at hcount ⊢
      omega
  | subscribe =>
    obtain rfl := step_subscribe.mp hs
    exact ⟨seen, hseen', hreflects, hmore.le.trans hcount⟩
  | poll k cancelled =>
    obtain ⟨sub, -, -, rfl⟩ := step_poll.mp hs
    cases cancelled with
    | false =>
      refine ⟨seen, hseen', hreflects, hmore.le.trans (hcount.trans ?_)⟩
      simp [pendingUpdates]
    | true => exact ⟨seen, hseen', hreflects, hmore.le.trans hcount⟩
  | resume k writeOk =>
    obtain ⟨sub, update, version, -, -, rfl⟩ := step_resume.mp hs
    exact ⟨seen, hseen', hreflects, hmore.le.trans hcount⟩

theorem messagesTo_beginning {pre seen all : List ServerEvent} (hpre : pre <+: all)
    (hseen : seen <+: all) (hcount : messageCount pre ≤ messageCount seen) (i : ℕ) :
    messagesTo i pre <+: messagesTo i seen := by
  rcases List.prefix_or_prefix_of_prefix hpre hseen with h | ⟨rest, rfl⟩
  · exact h.filterMap _
  · have hnone : rest.countP ServerEvent.isDelivery = 0 := by
      simp only [messageCount, List.countP_append] at hcount
      omega
    have hrest : messagesTo i rest = [] := by
      refine List.filterMap_eq_nil_iff.mpr fun e he => ?_
      refine messageTo_eq_none_of_not_isDelivery ?_ i
      simpa using List.countP_eq_zero.mp hnone e he
    have happend : messagesTo i (seen ++ rest) = messagesTo i seen ++ messagesTo i rest :=
      List.filterMap_append
    rw [happend, hrest, List.append_nil]

theorem received_run {post : List ServerEvent} {sub : Subscriber D} {u : BookUpdate D} {v : UInt64}
    (h : s.Ticketed) (hsub : s.subscribers[j]? = some sub) (hreceived : sub.phase = .received u v)
    (hno : ∀ writeOk, .resume j writeOk ∉ post)
    (hrun : run (Server.step jsonParse) s post = some s') : s'.subscribers[j]? = some sub := by
  induction post generalizing s with
  | nil => exact (Option.some.inj hrun) ▸ hsub
  | cons e post ih =>
    obtain ⟨t, hs, hrest⟩ := run_cons_eq_some.mp hrun
    refine ih (ticketed_step h hs) ?_ (fun ok hmem => hno ok (List.mem_cons_of_mem _ hmem)) hrest
    have hlt : j < t.subscribers.length :=
      (List.getElem?_eq_some_iff.mp hsub).1.trans_le (subscribers_length_le hs)
    have hget := List.getElem?_eq_getElem hlt
    obtain ⟨hge, -⟩ | ⟨sub', hsub', hstep⟩ := step_subscriber hs hget
    · exact absurd (List.getElem?_eq_some_iff.mp hsub).1 hge.not_gt
    · obtain rfl : sub = sub' := Option.some.inj (hsub.symm.trans hsub')
      generalize t.subscribers[j] = next at hget hstep
      cases hstep with
      | idle => exact hget
      | polled phase hpolling => cases hreceived.symm.trans hpolling
      | fulfilled now he hhead =>
        have hidle : ¬ s.Waits j := fun hwaits => by
          rw [Server.waits_iff hsub, hreceived] at hwaits
          cases hwaits
        have hzero := List.count_eq_zero.mp (h.others j hidle)
        exact absurd (List.mem_of_mem_head? hhead) hzero
      | consumed u' v' writeOk he => exact absurd (he ▸ List.mem_cons_self) (hno writeOk)

theorem countP_posts (events : List ServerEvent) :
    (events.flatMap ServerEvent.posts).countP Task.isUpdate = messageCount events := by
  induction events with
  | nil => rfl
  | cons e events ih =>
    rw [List.flatMap_cons, List.countP_append, ih, messageCount, messageCount, List.countP_cons,
      Nat.add_comm]
    congr 1
    cases e with
    | poll k cancelled => cases cancelled <;> rfl
    | _ => rfl

/-- A snapshot has the version that counts the messages handled before the subscriber asked for it,
whatever has been handled since, and shows a book in which all of them are reflected. -/
theorem snapshot_is_fresh {pre mid : List ServerEvent} {sub : Subscriber D} {u : BookUpdate D}
    {v : UInt64}
    (hpre : run (Server.step jsonParse) (Server.initial exchanges : Server D) pre = some s)
    (hmid : run (Server.step jsonParse) s (.poll j false :: mid) = some s')
    (hno : ∀ writeOk, .resume j writeOk ∉ mid) (hsub : s'.subscribers[j]? = some sub)
    (hreceived : sub.phase = .received u v) :
    v = UInt64.ofNat (messageCount pre) ∧
      ∃ seen b, (∀ i, messagesTo i pre <+: messagesTo i seen) ∧
        seen <+: pre ++ .poll j false :: mid ∧ Reflects jsonParse exchanges seen b ∧
          Shows b u := by
  obtain ⟨s₁, hpoll, hrest⟩ := run_cons_eq_some.mp hmid
  have hstrand : s₁.strand = s.strand ++ [.snapshot j] := (strand_fifo jsonParse).keep hpoll rfl
  have hlast : s₁.strand[s.strand.length]? = some (.snapshot j) := by simp [hstrand]
  have hreach : ∀ {es t}, run (Server.step jsonParse) s₁ es = some t →
      run (Server.step jsonParse) (Server.initial exchanges : Server D)
        (pre ++ .poll j false :: es) = some t := fun hes =>
    run_append_eq_some.mpr ⟨s, hpre, run_cons_eq_some.mpr ⟨s₁, hpoll, hes⟩⟩
  have hidle : ¬ s'.Waits j := fun hwaits => by
    rw [Server.waits_iff hsub, hreceived] at hwaits
    cases hwaits
  rcases Nat.lt_or_ge s.strand.length (mid.countP ServerEvent.isRunStrand) with hlt | hle
  swap
  · have hstays := List.mem_of_getElem? ((strand_fifo jsonParse).getElem?_run hlast hrest hle)
    exact absurd hstays (List.count_eq_zero.mp ((ticketed_run (hreach hrest)).others j hidle))
  obtain ⟨before, e, post, t, t', rfl, he, hbefore, ht, hhead, hs, hpost⟩ :=
    (strand_fifo jsonParse).served hlast hrest hlt
  cases e with
  | runStrand now =>
    have hevents := hreach ht
    obtain ⟨sub', -, -, hserved⟩ := serve_snapshot (ticketed_run hevents) hhead hs
    have hlater := received_run (ticketed_step (ticketed_run hevents) hs) hserved rfl
      (fun ok hmem => hno ok (by simp [hmem])) hpost
    obtain rfl := Option.some.inj (hlater.symm.trans hsub)
    obtain ⟨rfl, rfl⟩ := Phase.received.inj hreceived
    have hpending : pendingUpdates t = messageCount before := by
      have hqueue := ((strand_fifo jsonParse).queue_run ht).2
      rw [hbefore, hstrand, List.append_assoc, List.drop_left' rfl] at hqueue
      rw [pendingUpdates, hqueue, List.countP_append, countP_posts]
      simp [Task.isUpdate]
    have hcount : messageCount (pre ++ .poll j false :: before) =
        messageCount pre + messageCount before := by
      simp [messageCount, ServerEvent.isDelivery]
    constructor
    · have hversion := (accounted_run hevents).version_eq
      rw [hpending, hcount, UInt64.ofNat_add] at hversion
      exact UInt64.add_left_inj _ |>.mp hversion
    · obtain ⟨seen, hseen, hreflects, hle⟩ := reflects_run hevents
      rw [hpending, hcount] at hle
      have hall : pre ++ .poll j false :: before <+:
          pre ++ .poll j false :: (before ++ .runStrand now :: post) := by simp
      refine ⟨seen, t.consolidated, fun i => ?_, hseen.trans hall, hreflects, now, rfl⟩
      exact messagesTo_beginning (List.prefix_append pre _) hseen (by omega) i
  | _ => cases he

theorem installs_run {h : StreamHistory D}
    (hrun : run (recordedStep jsonParse) (Server.initial exchanges, .start) events = some (s, h)) :
    h.installs.length + pendingUpdates s = messageCount events := by
  refine history_invariant (I := fun es (p : Server D × StreamHistory D) =>
    p.2.installs.length + pendingUpdates p.1 = messageCount es) rfl ?_ hrun
  rintro es ⟨t, k⟩ e ⟨t', k'⟩ - ih hstep
  obtain ⟨hs, rfl⟩ := withHistory_eq_some.mp hstep
  simp only at ih
  rw [messageCount_concat, ← ih]
  cases e with
  | deliver i msg =>
    obtain ⟨c, books, -, -, rfl⟩ := step_deliver.mp hs
    simp [observeUpdates, runsUpdate, pendingUpdates, Task.isUpdate, ServerEvent.isDelivery,
      Nat.add_assoc]
  | runStrand now =>
    obtain ⟨i, rest, hstrand, rfl⟩ | ⟨i, rest, hstrand, rfl⟩ := step_runStrand.mp hs
    · have hone : (Task.update i :: rest).countP Task.isUpdate = rest.countP Task.isUpdate + 1 :=
        List.countP_cons_of_pos rfl
      simp [observeUpdates, runsUpdate, pendingUpdates, hstrand, Task.isUpdate,
        ServerEvent.isDelivery]
      omega
    · simp [observeUpdates, runsUpdate, pendingUpdates, hstrand, Task.isUpdate,
        ServerEvent.isDelivery]
  | subscribe =>
    obtain rfl := step_subscribe.mp hs
    simp [observeUpdates, runsUpdate, pendingUpdates, ServerEvent.isDelivery]
  | poll k cancelled =>
    obtain ⟨sub, -, -, rfl⟩ := step_poll.mp hs
    cases cancelled <;>
      simp [observeUpdates, runsUpdate, pendingUpdates, Task.isUpdate, ServerEvent.isDelivery]
  | resume k writeOk =>
    obtain ⟨sub, update, version, -, -, rfl⟩ := step_resume.mp hs
    simp [observeUpdates, runsUpdate, pendingUpdates, ServerEvent.isDelivery]

/-- When a round of the loop of `SubscribeBook` ends, the last update sent has the version that
counts the messages handled before the round. -/
theorem round_is_answered {pre mid : List ServerEvent} {sub : Subscriber D}
    (hrun : run (Server.step jsonParse) (Server.initial exchanges : Server D)
      (pre ++ .poll j false :: (mid ++ [.resume j true])) = some s)
    (hno : ∀ writeOk, .resume j writeOk ∉ mid)
    (hok : WritesSucceed jsonParse (Server.initial exchanges : Server D) j
      (pre ++ .poll j false :: (mid ++ [.resume j true])))
    (hbound : messageCount (pre ++ .poll j false :: (mid ++ [.resume j true])) < 2 ^ 64)
    (hsub : s.subscribers[j]? = some sub) :
    sub.lastSeenVersion.toNat = messageCount pre ∧
      (sub.written.getLast?.map fun w => w.1.toNat).getD 0 = messageCount pre := by
  obtain ⟨t, hpre, hrest⟩ := run_append_eq_some.mp hrun
  rw [← List.cons_append] at hrest
  obtain ⟨t', hmid, hresume⟩ := run_concat_eq_some.mp hrest
  obtain ⟨before, u, v, hbefore, hreceived, rfl⟩ := step_resume.mp hresume
  obtain ⟨hv, -⟩ := snapshot_is_fresh hpre hmid hno hbefore hreceived
  have hlt : j < t'.subscribers.length := (List.getElem?_eq_some_iff.mp hbefore).1
  rw [List.getElem?_set_self hlt, Option.some.injEq] at hsub
  subst hsub
  have hcount : messageCount (pre ++ .poll j false :: mid) < 2 ^ 64 := by
    refine lt_of_le_of_lt ?_ hbound
    have hall : pre ++ .poll j false :: mid <+:
        pre ++ .poll j false :: (mid ++ [.resume j true]) := by
      simp
    exact hall.sublist.countP_le
  have hreach : run (Server.step jsonParse) (Server.initial exchanges : Server D)
      (pre ++ .poll j false :: mid) = some t' := run_append_eq_some.mpr ⟨t, hpre, hmid⟩
  obtain ⟨h, hrec⟩ := exists_history observeUpdates StreamHistory.start hreach
  have hinstalls := installs_run hrec
  have hsound := (recorded_run hrec (by omega)).sound j before hbefore
  have hseen : (before.consume u v true).lastSeenVersion = v := by
    by_cases hnew : before.lastSeenVersion < v
    · simp [Subscriber.consume, hnew]
    · have hle := (hsound.inHand u v hreceived).1
      have hge : ¬ before.lastSeenVersion.toNat < v.toNat := fun hlt =>
        hnew (UInt64.lt_iff_toNat_lt.mpr hlt)
      have hsame : before.lastSeenVersion = v := UInt64.toNat_inj.mp (by omega)
      simpa [Subscriber.consume, hnew] using hsame
  have hprefix : messageCount pre < 2 ^ 64 :=
    (List.prefix_append pre _).sublist.countP_le.trans_lt hcount
  have hnumber : v.toNat = messageCount pre := by
    rw [hv]
    exact UInt64.toNat_ofNat_of_lt' hprefix
  refine ⟨by rw [hseen, hnumber], ?_⟩
  have hall := allWritten_run hrun hok (by rw [List.getElem?_set_self hlt])
  rw [Subscriber.AllWritten, hseen] at hall
  cases hlast : (before.consume u v true).written.getLast? with
  | none =>
    rw [hlast] at hall
    rw [← hnumber, hall]
    rfl
  | some w =>
    rw [hlast] at hall
    rw [← hnumber, hall]
    rfl

theorem round_is_answered_example :
    ∃ (s : Server ℚ) (sub : Subscriber ℚ), s.subscribers[0]? = some sub ∧
      sub.lastSeenVersion.toNat = 2 ∧
      run (Server.step decodeOneBid) (Server.initial [.binance])
        ([ServerEvent.subscribe, .deliver 0 oneBidText, .poll 0 false, .runStrand 0, .runStrand 1,
          .resume 0 true, .deliver 0 oneBidText] ++ .poll 0 false ::
            ([.runStrand 2, .runStrand 3] ++ [.resume 0 true])) = some s := by
  obtain ⟨s, hrun, hlen⟩ := exists_of_run_any
    (P := fun s : Server ℚ => 0 < s.subscribers.length)
    (show (run (Server.step decodeOneBid) (Server.initial [.binance])
      ([ServerEvent.subscribe, .deliver 0 oneBidText, .poll 0 false, .runStrand 0, .runStrand 1,
        .resume 0 true, .deliver 0 oneBidText] ++ .poll 0 false ::
          ([.runStrand 2, .runStrand 3] ++ [.resume 0 true]))).any _ = true by decide +kernel)
  have hsub := List.getElem?_eq_getElem hlen
  have hanswer := round_is_answered hrun (by decide) (writesSucceed_of_not_mem (by decide))
    (by decide) hsub
  exact ⟨s, _, hsub, hanswer.1, hrun⟩

end Reached

end AsioAggregator
