import AsioAggregator.NoLostUpdate

/-!
# The streams of the subscribers

The history of a run records, for each update task that ran, the events before it and the local
books that it consolidated. What a subscriber holds or has written is always the consolidation of
one entry of this record, namely the one that its version counts.
-/

namespace AsioAggregator

open Runs

variable {D : Type} [LinearOrder D]

/-- What the update task of one version saw. -/
structure Install (D : Type) [LinearOrder D] where
  past : List ServerEvent
  connectors : List (Feed D)

structure StreamHistory (D : Type) [LinearOrder D] where
  past : List ServerEvent
  installs : List (Install D)

def StreamHistory.start : StreamHistory D := ⟨[], []⟩

def runsUpdate (s : Server D) : ServerEvent → Bool
  | .runStrand _ => s.strand.head?.any Task.isUpdate
  | _ => false

def observeUpdates (h : StreamHistory D) (s : Server D) (e : ServerEvent) (_ : Server D) :
    StreamHistory D where
  past := h.past ++ [e]
  installs := if runsUpdate s e then h.installs ++ [⟨h.past, s.connectors⟩] else h.installs

theorem installs_prefix_observeUpdates (h : StreamHistory D) (s s' : Server D) (e : ServerEvent) :
    h.installs <+: (observeUpdates h s e s').installs := by
  simp only [observeUpdates]
  split_ifs
  · exact List.prefix_append _ _
  · exact List.prefix_rfl

section Sound
variable [Zero D] [Add D]

def installedBook (installs : List (Install D)) : ℕ → Books D
  | 0 => Books.empty
  | v + 1 => (installs[v]?.map fun inst => consolidate inst.connectors).getD Books.empty

theorem installedBook_append {installs : List (Install D)} {v : ℕ} (x : Install D)
    (hv : v ≤ installs.length) : installedBook (installs ++ [x]) v = installedBook installs v := by
  cases v with
  | zero => rfl
  | succ v => rw [installedBook, List.getElem?_append_left hv, installedBook]

theorem installedBook_append_length (installs : List (Install D)) (x : Install D) :
    installedBook (installs ++ [x]) (installs.length + 1) = consolidate x.connectors := by
  simp [installedBook]

/-- The update shows this book, at some reading of the clock. -/
def Shows (b : Books D) (u : BookUpdate D) : Prop := ∃ now, u = buildBookUpdate now b

/-- A subscriber that has written, and holds, only what the update tasks installed. -/
structure Subscriber.Sound (installs : List (Install D)) (sub : Subscriber D) : Prop where
  seen_le : sub.lastSeenVersion.toNat ≤ installs.length
  increasing : sub.written.Pairwise fun w w' => w.1.toNat < w'.1.toNat
  exact : ∀ w ∈ sub.written, 0 < w.1.toNat ∧ w.1.toNat ≤ sub.lastSeenVersion.toNat ∧
    Shows (installedBook installs w.1.toNat) w.2
  inHand : ∀ u v, sub.phase = .received u v → sub.lastSeenVersion.toNat ≤ v.toNat ∧
    v.toNat ≤ installs.length ∧ Shows (installedBook installs v.toNat) u

namespace Subscriber.Sound
variable {installs : List (Install D)} {sub : Subscriber D}

theorem new : Sound installs (Subscriber.new : Subscriber D) where
  seen_le := Nat.zero_le _
  increasing := List.Pairwise.nil
  exact w hw := by cases hw
  inHand u v h := by cases h

theorem append (h : Sound installs sub) (x : Install D) : Sound (installs ++ [x]) sub where
  seen_le := by
    rw [List.length_append]
    exact h.seen_le.trans (Nat.le_add_right _ _)
  increasing := h.increasing
  exact w hw := by
    obtain ⟨hpos, hle, hshows⟩ := h.exact w hw
    rw [installedBook_append x (hle.trans h.seen_le)]
    exact ⟨hpos, hle, hshows⟩
  inHand u v hp := by
    obtain ⟨hseen, hle, hshows⟩ := h.inHand u v hp
    rw [installedBook_append x hle, List.length_append]
    exact ⟨hseen, hle.trans (Nat.le_add_right _ _), hshows⟩

theorem setPhase (h : Sound installs sub) {phase : Phase D}
    (hphase : ∀ u v, phase ≠ .received u v) : Sound installs { sub with phase := phase } where
  seen_le := h.seen_le
  increasing := h.increasing
  exact := h.exact
  inHand u v hp := absurd hp (hphase u v)

theorem fulfil (h : Sound installs sub) {v : UInt64} (hv : v.toNat = installs.length) (now : ℤ) :
    Sound installs { sub with
      phase := .received (buildBookUpdate now (installedBook installs installs.length)) v } where
  seen_le := h.seen_le
  increasing := h.increasing
  exact := h.exact
  inHand u w hp := by
    simp only [Phase.received.injEq] at hp
    obtain ⟨rfl, rfl⟩ := hp
    rw [hv]
    exact ⟨h.seen_le, le_rfl, now, rfl⟩

theorem consume (h : Sound installs sub) {u : BookUpdate D} {v : UInt64}
    (hp : sub.phase = .received u v) (writeOk : Bool) :
    Sound installs (sub.consume u v writeOk) := by
  obtain ⟨hseen, hle, hshows⟩ := h.inHand u v hp
  unfold Subscriber.consume
  by_cases hlt : sub.lastSeenVersion < v
  · have hlt' : sub.lastSeenVersion.toNat < v.toNat := UInt64.lt_iff_toNat_lt.mp hlt
    have hold : ∀ w ∈ sub.written, 0 < w.1.toNat ∧ w.1.toNat ≤ v.toNat ∧
        Shows (installedBook installs w.1.toNat) w.2 := by
      intro w hw
      obtain ⟨hpos, hw', hs⟩ := h.exact w hw
      exact ⟨hpos, hw'.trans hseen, hs⟩
    rw [if_pos hlt]
    cases writeOk with
    | false => exact ⟨hle, h.increasing, hold, fun u' v' hp' => by cases hp'⟩
    | true =>
      refine ⟨hle, ?_, ?_, fun u' v' hp' => by cases hp'⟩
      · refine List.pairwise_append.mpr ⟨h.increasing, List.pairwise_singleton _ _, ?_⟩
        intro w hw w' hw'
        obtain rfl := List.mem_singleton.mp hw'
        exact (h.exact w hw).2.1.trans_lt hlt'
      · intro w hw
        rcases List.mem_append.mp hw with hw | hw
        · exact hold w hw
        · obtain rfl := List.mem_singleton.mp hw
          exact ⟨(Nat.zero_le _).trans_lt hlt', le_rfl, hshows⟩
  · rw [if_neg hlt]
    exact h.setPhase fun u' v' hp' => by cases hp'

end Subscriber.Sound
end Sound

section Streams
variable [Zero D] [Add D] [OfNumeral D] {jsonParse : String → Except StdException Json}
variable {exchanges : List Exchange} {events : List ServerEvent}
variable {s s' : Server D} {h h' : StreamHistory D}

/-- What a step may do to the subscriber `j`. -/
inductive SubscriberStep (s : Server D) (e : ServerEvent) (j : ℕ) (sub : Subscriber D) :
    Subscriber D → Prop
  | idle : SubscriberStep s e j sub sub
  | polled (phase : Phase D) (hold : sub.phase = .polling)
      (hnew : ∀ u v, phase ≠ .received u v) : SubscriberStep s e j sub { sub with phase := phase }
  | fulfilled (now : ℤ) (he : e = .runStrand now) (hhead : s.strand.head? = some (.snapshot j)) :
      SubscriberStep s e j sub
        { sub with phase := .received (buildBookUpdate now s.consolidated) s.version }
  | consumed (u : BookUpdate D) (v : UInt64) (writeOk : Bool) (he : e = .resume j writeOk)
      (hold : sub.phase = .received u v) : SubscriberStep s e j sub (sub.consume u v writeOk)

theorem getElem?_set_cases {α : Type} {xs : List α} {i k : ℕ} {new x : α}
    (hx : (xs.set i new)[k]? = some x) : xs[k]? = some x ∨ i = k ∧ x = new := by
  rw [List.getElem?_set] at hx
  split_ifs at hx with hik hlt
  · exact Or.inr ⟨hik, (Option.some.inj hx).symm⟩
  · exact Or.inl hx

theorem step_subscriber {e : ServerEvent} {j : ℕ} {sub' : Subscriber D}
    (hs : s.step jsonParse e = some s') (hsub' : s'.subscribers[j]? = some sub') :
    s.subscribers.length ≤ j ∧ sub' = Subscriber.new ∨
      ∃ sub, s.subscribers[j]? = some sub ∧ SubscriberStep s e j sub sub' := by
  cases e with
  | deliver i msg =>
    obtain ⟨c, books, -, -, rfl⟩ := step_deliver.mp hs
    exact Or.inr ⟨sub', hsub', .idle⟩
  | runStrand now =>
    obtain ⟨i, rest, -, rfl⟩ | ⟨k, rest, hstrand, rfl⟩ := step_runStrand.mp hs
    · exact Or.inr ⟨sub', hsub', .idle⟩
    · simp only [List.getElem?_modify, Option.map_eq_map, Option.map_eq_some_iff] at hsub'
      obtain ⟨sub, hsub, rfl⟩ := hsub'
      refine Or.inr ⟨sub, hsub, ?_⟩
      by_cases hk : k = j
      · subst hk
        simp only [if_true]
        exact .fulfilled now rfl (by rw [hstrand]; rfl)
      · simp only [hk, if_false]
        exact .idle
  | subscribe =>
    obtain rfl := step_subscribe.mp hs
    by_cases hj : j < s.subscribers.length
    · simp only [List.getElem?_append_left hj] at hsub'
      exact Or.inr ⟨sub', hsub', .idle⟩
    · refine Or.inl ⟨not_lt.mp hj, ?_⟩
      rw [List.getElem?_append_right (not_lt.mp hj)] at hsub'
      exact List.mem_singleton.mp (List.mem_of_getElem? hsub')
  | poll k cancelled =>
    obtain ⟨sub, hsub, hp, rfl⟩ := step_poll.mp hs
    have hcases : s.subscribers[j]? = some sub' ∨ k = j ∧
        ∃ phase, (∀ u v, phase ≠ Phase.received u v) ∧ sub' = { sub with phase := phase } := by
      cases cancelled with
      | false =>
        refine (getElem?_set_cases hsub').imp_right fun h => ⟨h.1, .waiting, ?_, h.2⟩
        exact fun u v hp => by cases hp
      | true =>
        refine (getElem?_set_cases hsub').imp_right fun h => ⟨h.1, .returned, ?_, h.2⟩
        exact fun u v hp => by cases hp
    obtain hsame | ⟨rfl, phase, hphase, rfl⟩ := hcases
    · exact Or.inr ⟨sub', hsame, .idle⟩
    · exact Or.inr ⟨sub, hsub, .polled phase hp hphase⟩
  | resume k writeOk =>
    obtain ⟨sub, u, v, hsub, hp, rfl⟩ := step_resume.mp hs
    obtain hsame | ⟨rfl, rfl⟩ := getElem?_set_cases hsub'
    · exact Or.inr ⟨sub', hsame, .idle⟩
    · exact Or.inr ⟨sub, hsub, .consumed u v writeOk rfl hp⟩

variable (jsonParse) in
/-- What the history says about a reachable state. -/
structure Recorded (h : StreamHistory D) (s : Server D) : Prop where
  version_eq : s.version.toNat = h.installs.length
  consolidated_eq : s.consolidated = installedBook h.installs h.installs.length
  past_extends : ∀ inst ∈ h.installs, inst.past <+: h.past
  ordered : h.installs.Pairwise fun inst inst' => inst.past <+: inst'.past
  replayed : ∀ inst ∈ h.installs, ∀ i c, inst.connectors[i]? = some c →
    replay jsonParse c.exchange (messagesTo i inst.past) = some c.localBooks
  sound : ∀ (j : ℕ) (sub : Subscriber D), s.subscribers[j]? = some sub → sub.Sound h.installs

namespace Recorded

theorem initial :
    Recorded jsonParse (StreamHistory.start : StreamHistory D) (Server.initial exchanges) where
  version_eq := rfl
  consolidated_eq := rfl
  past_extends inst hinst := by cases hinst
  ordered := List.Pairwise.nil
  replayed inst hinst := by cases hinst
  sound j sub hsub := by simp [Server.initial] at hsub

theorem sound_step {e : ServerEvent} (hr : Recorded jsonParse h s)
    (hs : s.step jsonParse e = some s') {j : ℕ} {sub' : Subscriber D}
    (hsub' : s'.subscribers[j]? = some sub') : sub'.Sound h.installs := by
  obtain ⟨-, rfl⟩ | ⟨sub, hsub, hstep⟩ := step_subscriber hs hsub'
  · exact Subscriber.Sound.new
  have hsound := hr.sound j sub hsub
  cases hstep with
  | idle => exact hsound
  | polled phase _ hnew => exact hsound.setPhase hnew
  | fulfilled now =>
    rw [hr.consolidated_eq]
    exact hsound.fulfil hr.version_eq now
  | consumed u v writeOk _ hold => exact hsound.consume hold writeOk

theorem of_frame {e : ServerEvent} (hr : Recorded jsonParse h s)
    (hs : s.step jsonParse e = some s') (hcons : s'.consolidated = s.consolidated)
    (hver : s'.version = s.version) : Recorded jsonParse ⟨h.past ++ [e], h.installs⟩ s' where
  version_eq := by rw [hver, hr.version_eq]
  consolidated_eq := by rw [hcons, hr.consolidated_eq]
  past_extends inst hinst := (hr.past_extends inst hinst).trans (List.prefix_append _ _)
  ordered := hr.ordered
  replayed := hr.replayed
  sound _ _ hsub' := hr.sound_step hs hsub'

theorem update (hr : Recorded jsonParse h s) (hacc : Accounted jsonParse exchanges h.past s)
    (hbound : h.installs.length + 1 < 2 ^ 64) (now : ℤ) (rest : List Task) :
    Recorded jsonParse ⟨h.past ++ [.runStrand now], h.installs ++ [⟨h.past, s.connectors⟩]⟩
      { s with consolidated := consolidate s.connectors, version := s.version + 1, strand := rest }
      where
  version_eq := by
    rw [List.length_append, UInt64.toNat_add, hr.version_eq]
    exact Nat.mod_eq_of_lt hbound
  consolidated_eq := by
    rw [List.length_append]
    exact (installedBook_append_length h.installs ⟨h.past, s.connectors⟩).symm
  past_extends inst hinst := by
    rcases List.mem_append.mp hinst with hinst | hinst
    · exact (hr.past_extends inst hinst).trans (List.prefix_append _ _)
    · obtain rfl := List.mem_singleton.mp hinst
      exact List.prefix_append _ _
  ordered := by
    refine List.pairwise_append.mpr ⟨hr.ordered, List.pairwise_singleton _ _, ?_⟩
    intro inst hinst inst' hinst'
    obtain rfl := List.mem_singleton.mp hinst'
    exact hr.past_extends inst hinst
  replayed inst hinst i c hc := by
    rcases List.mem_append.mp hinst with hinst | hinst
    · exact hr.replayed inst hinst i c hc
    · obtain rfl := List.mem_singleton.mp hinst
      exact (hacc.replayed i c hc).2
  sound j sub hsub := (hr.sound j sub hsub).append _

theorem step {e : ServerEvent} (hr : Recorded jsonParse h s)
    (hacc : Accounted jsonParse exchanges h.past s) (hs : s.step jsonParse e = some s')
    (hbound : (observeUpdates h s e s').installs.length < 2 ^ 64) :
    Recorded jsonParse (observeUpdates h s e s') s' := by
  cases e with
  | deliver i msg =>
    obtain ⟨c, books, -, -, rfl⟩ := step_deliver.mp hs
    exact hr.of_frame hs rfl rfl
  | runStrand now =>
    obtain ⟨i, rest, hstrand, rfl⟩ | ⟨j, rest, hstrand, rfl⟩ := step_runStrand.mp hs
    · simp only [observeUpdates, runsUpdate, hstrand, List.head?_cons, Option.any_some,
        Task.isUpdate, if_true] at hbound ⊢
      exact hr.update hacc (by simpa using hbound) now rest
    · simp only [observeUpdates, runsUpdate, hstrand, List.head?_cons, Option.any_some,
        Task.isUpdate, Bool.false_eq_true, if_false]
      exact hr.of_frame hs rfl rfl
  | subscribe =>
    obtain rfl := step_subscribe.mp hs
    exact hr.of_frame hs rfl rfl
  | poll j cancelled =>
    obtain ⟨sub, -, -, rfl⟩ := step_poll.mp hs
    cases cancelled <;> exact hr.of_frame hs rfl rfl
  | resume j writeOk =>
    obtain ⟨sub, u, v, -, -, rfl⟩ := step_resume.mp hs
    exact hr.of_frame hs rfl rfl

end Recorded

abbrev recordedStep (jsonParse : String → Except StdException Json) :
    Server D × StreamHistory D → ServerEvent → Option (Server D × StreamHistory D) :=
  withHistory (Server.step jsonParse) observeUpdates

theorem recorded_run
    (hrun : run (recordedStep jsonParse) (Server.initial exchanges, .start) events = some (s, h))
    (hbound : h.installs.length < 2 ^ 64) : Recorded jsonParse h s := by
  have hinv := history_invariant
    (I := fun es (p : Server D × StreamHistory D) => p.2.past = es ∧
      (p.2.installs.length < 2 ^ 64 → Recorded jsonParse p.2 p.1))
    ⟨rfl, fun _ => Recorded.initial⟩ ?_ hrun
  · exact hinv.2 hbound
  rintro es ⟨t, k⟩ e ⟨t', k'⟩ hreach ⟨hpast, hrec⟩ hstep
  obtain ⟨hs, rfl⟩ := withHistory_eq_some.mp hstep
  simp only at hpast
  subst hpast
  refine ⟨rfl, fun hlt => ?_⟩
  have hold := (installs_prefix_observeUpdates k t t' e).length_le.trans_lt hlt
  exact (hrec hold).step (accounted_run (run_of_withHistory hreach)) hs hlt

theorem installs_prefix_run {events' : List ServerEvent}
    (hrun : run (recordedStep jsonParse) (s, h) events' = some (s', h')) :
    h.installs <+: h'.installs := by
  refine invariant (I := fun p : Server D × StreamHistory D => h.installs <+: p.2.installs)
    List.prefix_rfl ?_ hrun
  rintro ⟨t, k⟩ e ⟨t', k'⟩ hpre hstep
  obtain ⟨-, rfl⟩ := withHistory_eq_some.mp hstep
  exact hpre.trans (installs_prefix_observeUpdates k t t' e)

theorem posted_run
    (hrun : run (Server.step jsonParse) (Server.initial exchanges : Server D) events = some s) :
    ∀ j, .snapshot j ∈ s.strand → j < s.subscribers.length := by
  refine invariant
    (I := fun s : Server D => ∀ j, .snapshot j ∈ s.strand → j < s.subscribers.length) ?_ ?_ hrun
  · intro j hj
    simp [Server.initial] at hj
  intro t e t' hI hs j hj
  cases e with
  | deliver i msg =>
    obtain ⟨c, books, -, -, rfl⟩ := step_deliver.mp hs
    exact hI j (by simpa using hj)
  | runStrand now =>
    obtain ⟨i, rest, hstrand, rfl⟩ | ⟨k, rest, hstrand, rfl⟩ := step_runStrand.mp hs
    · exact hI j (hstrand ▸ List.mem_cons_of_mem _ hj)
    · simp only [List.length_modify]
      exact hI j (hstrand ▸ List.mem_cons_of_mem _ hj)
  | subscribe =>
    obtain rfl := step_subscribe.mp hs
    rw [List.length_append]
    exact (hI j hj).trans_le (Nat.le_add_right _ _)
  | poll k cancelled =>
    obtain ⟨sub, hsub, -, rfl⟩ := step_poll.mp hs
    have hk : k < t.subscribers.length := (List.getElem?_eq_some_iff.mp hsub).1
    cases cancelled with
    | false =>
      simp only [Bool.false_eq_true, if_false, List.mem_append, List.mem_singleton,
        Task.snapshot.injEq, List.length_set] at hj ⊢
      rcases hj with hj | rfl
      · exact hI j hj
      · exact hk
    | true =>
      simp only [if_true, List.length_set] at hj ⊢
      exact hI j hj
  | resume k writeOk =>
    obtain ⟨sub, u, v, -, -, rfl⟩ := step_resume.mp hs
    rw [List.length_set]
    exact hI j hj

def FailsWrite (j : ℕ) (s : Server D) (e : ServerEvent) : Prop :=
  e = .resume j false ∧ ∃ sub u v, s.subscribers[j]? = some sub ∧ sub.phase = .received u v ∧
    sub.lastSeenVersion < v

def WritesSucceed (jsonParse : String → Except StdException Json) (s₀ : Server D) (j : ℕ)
    (events : List ServerEvent) : Prop :=
  EveryStep (Server.step jsonParse) s₀ events fun s e _ => ¬ FailsWrite j s e

def Subscriber.AllWritten (sub : Subscriber D) : Prop :=
  sub.lastSeenVersion = (sub.written.getLast?.map Prod.fst).getD 0

theorem writesSucceed_of_not_mem {s₀ : Server D} {j : ℕ} (h : .resume j false ∉ events) :
    WritesSucceed jsonParse s₀ j events := by
  rintro pre e post t t' rfl - - ⟨rfl, -⟩
  exact h (by simp)

theorem allWritten_step {e : ServerEvent} {j : ℕ}
    (hI : ∀ sub : Subscriber D, s.subscribers[j]? = some sub → sub.AllWritten)
    (hs : s.step jsonParse e = some s') (hok : ¬ FailsWrite j s e) :
    ∀ sub : Subscriber D, s'.subscribers[j]? = some sub → sub.AllWritten := by
  intro sub' hsub'
  obtain ⟨-, rfl⟩ | ⟨sub, hsub, hstep⟩ := step_subscriber hs hsub'
  · rfl
  have hall := hI sub hsub
  cases hstep with
  | idle => exact hall
  | polled => exact hall
  | fulfilled => exact hall
  | consumed u v writeOk he hold =>
    unfold Subscriber.consume
    by_cases hlt : sub.lastSeenVersion < v
    · cases writeOk with
      | false => exact absurd ⟨he, sub, u, v, hsub, hold, hlt⟩ hok
      | true => simp [Subscriber.AllWritten, hlt]
    · rw [if_neg hlt]
      exact hall

theorem allWritten_run {j : ℕ} {sub : Subscriber D}
    (hrun : run (Server.step jsonParse) (Server.initial exchanges) events = some s)
    (hok : WritesSucceed jsonParse (Server.initial exchanges : Server D) j events)
    (hsub : s.subscribers[j]? = some sub) : sub.AllWritten := by
  have hevery := everyState_of_everyStep
    (I := fun s : Server D => ∀ sub, s.subscribers[j]? = some sub → sub.AllWritten) ?_
    (fun _ _ _ _ _ hI hs hC => allWritten_step hI hs hC) hok
  · exact hevery.last hrun sub hsub
  · intro sub hsub
    simp [Server.initial] at hsub

/-- The book of version `n` is in hand, or has been seen. -/
def Subscriber.CaughtUp (n : ℕ) (sub : Subscriber D) : Prop :=
  (∃ u v, sub.phase = .received u v ∧ v.toNat = n) ∨
    (∀ u v, sub.phase ≠ .received u v) ∧ sub.lastSeenVersion.toNat = n

theorem caughtUp_step {e : ServerEvent} {j : ℕ} {sub sub' : Subscriber D}
    (hr : Recorded jsonParse h s) (hsub : s.subscribers[j]? = some sub)
    (hcaught : sub.CaughtUp h.installs.length) (hstep : SubscriberStep s e j sub sub') :
    sub'.CaughtUp h.installs.length := by
  cases hstep with
  | idle => exact hcaught
  | polled phase hold hnew =>
    obtain ⟨u, v, hp, -⟩ | ⟨-, hseen⟩ := hcaught
    · cases hold.symm.trans hp
    · exact Or.inr ⟨hnew, hseen⟩
  | fulfilled now => exact Or.inl ⟨_, _, rfl, hr.version_eq⟩
  | consumed u v writeOk he hold =>
    obtain ⟨u', v', hp, hv⟩ | ⟨hnot, -⟩ := hcaught
    swap
    · exact absurd hold (hnot u v)
    cases hold.symm.trans hp
    obtain ⟨hseen, -, -⟩ := (hr.sound j sub hsub).inHand u v hold
    refine Or.inr ?_
    unfold Subscriber.consume
    by_cases hlt : sub.lastSeenVersion < v
    · rw [if_pos hlt]
      cases writeOk <;> exact ⟨fun u v hp => (by cases hp), hv⟩
    · rw [if_neg hlt]
      have hle : v.toNat ≤ sub.lastSeenVersion.toNat :=
        not_lt.mp fun hlt' => hlt (UInt64.lt_iff_toNat_lt.mpr hlt')
      exact ⟨fun u v hp => (by cases hp), (hseen.antisymm hle).trans hv⟩

theorem subscribers_length_le {e : ServerEvent} (hs : s.step jsonParse e = some s') :
    s.subscribers.length ≤ s'.subscribers.length := by
  cases e with
  | deliver i msg =>
    obtain ⟨c, books, -, -, rfl⟩ := step_deliver.mp hs
    exact le_rfl
  | runStrand now =>
    obtain ⟨i, rest, -, rfl⟩ | ⟨j, rest, -, rfl⟩ := step_runStrand.mp hs
    · exact le_rfl
    · exact (List.length_modify _ _ _).ge
  | subscribe =>
    obtain rfl := step_subscribe.mp hs
    rw [List.length_append]
    exact Nat.le_add_right _ _
  | poll j cancelled =>
    obtain ⟨sub, -, -, rfl⟩ := step_poll.mp hs
    cases cancelled <;> exact List.length_set.ge
  | resume j writeOk =>
    obtain ⟨sub, u, v, -, -, rfl⟩ := step_resume.mp hs
    exact List.length_set.ge

/-- Once a snapshot ran after the last update task, its subscriber has the last book. -/
theorem caughtUp_run {pre post : List ServerEvent} {now : ℤ} {j : ℕ} {t : Server D}
    {k : StreamHistory D}
    (hpre : run (recordedStep jsonParse) (Server.initial exchanges, .start) pre = some (t, k))
    (hhead : t.strand.head? = some (.snapshot j))
    (hpost : run (recordedStep jsonParse) (t, k) (.runStrand now :: post) = some (s, h))
    (hlast : h.installs = k.installs) (hbound : h.installs.length < 2 ^ 64) {sub : Subscriber D}
    (hsub : s.subscribers[j]? = some sub) : sub.CaughtUp h.installs.length := by
  rw [hlast] at hbound ⊢
  have hposted : j < t.subscribers.length :=
    posted_run (run_of_withHistory hpre) j (List.mem_of_mem_head? hhead)
  obtain ⟨⟨t', k'⟩, hfirst, hpost⟩ := run_cons_eq_some.mp hpost
  have hextend : ∀ {es p}, run (recordedStep jsonParse) (t', k') es = some p →
      run (recordedStep jsonParse) (Server.initial exchanges, .start)
        ((pre ++ [.runStrand now]) ++ es) = some p :=
    fun hes => run_append_eq_some.mpr ⟨_, run_concat_eq_some.mpr ⟨_, hpre, hfirst⟩, hes⟩
  have hgrown : k.installs <+: k'.installs := by
    obtain ⟨-, rfl⟩ := withHistory_eq_some.mp hfirst
    exact installs_prefix_observeUpdates k t t' _
  have hinv := history_invariant
    (I := fun _ (p : Server D × StreamHistory D) => j < p.1.subscribers.length ∧
      (p.2.installs = k.installs → ∀ sub, p.1.subscribers[j]? = some sub →
        sub.CaughtUp k.installs.length)) ?_ ?_ hpost
  · exact hinv.2 hlast sub hsub
  · obtain ⟨hs, rfl⟩ := withHistory_eq_some.mp hfirst
    refine ⟨hposted.trans_le (subscribers_length_le hs), fun _ sub hsub => ?_⟩
    obtain ⟨i, rest, hstrand, rfl⟩ | ⟨i, rest, hstrand, rfl⟩ := step_runStrand.mp hs
    · simp [hstrand] at hhead
    obtain rfl : i = j := by simpa [hstrand] using hhead
    simp only [List.getElem?_modify, Option.map_eq_map, Option.map_eq_some_iff, if_true] at hsub
    obtain ⟨old, -, rfl⟩ := hsub
    exact Or.inl ⟨_, _, rfl, (recorded_run hpre hbound).version_eq⟩
  · rintro es ⟨u, l⟩ e ⟨u', l'⟩ hreach ⟨hlen, hcaught⟩ hstep
    obtain ⟨hs, rfl⟩ := withHistory_eq_some.mp hstep
    refine ⟨hlen.trans_le (subscribers_length_le hs), fun heq sub' hsub' => ?_⟩
    have hl : l.installs = k.installs := by
      have hfrom := hgrown.trans (installs_prefix_run hreach)
      have hto := (installs_prefix_observeUpdates l u u' e).length_le
      exact (hfrom.eq_of_length_le (heq ▸ hto)).symm
    have hrec := recorded_run (hextend hreach) (hl ▸ hbound)
    obtain ⟨hge, -⟩ | ⟨sub, hsub, hstep⟩ := step_subscriber hs hsub'
    · exact absurd hlen hge.not_gt
    · exact hl ▸ caughtUp_step hrec hsub (hl ▸ hcaught hl sub hsub) hstep

/-- The stream written to a subscriber: newer and newer versions, each with the consolidation of
what its update task saw, in which no exchange falls back. -/
structure Subscriber.Consistent (installs : List (Install D)) (sub : Subscriber D) : Prop where
  increasing : sub.written.Pairwise fun w w' => w.1.toNat < w'.1.toNat
  exact : ∀ w ∈ sub.written, 0 < w.1.toNat ∧ ∃ inst, installs[w.1.toNat - 1]? = some inst ∧
    Shows (consolidate inst.connectors) w.2
  grows : sub.written.Pairwise fun w w' => ∀ inst inst',
    installs[w.1.toNat - 1]? = some inst → installs[w'.1.toNat - 1]? = some inst' →
      ∀ i, messagesTo i inst.past <+: messagesTo i inst'.past

theorem Recorded.consistent (hr : Recorded jsonParse h s) {j : ℕ} {sub : Subscriber D}
    (hsub : s.subscribers[j]? = some sub) : sub.Consistent h.installs := by
  have hsound := hr.sound j sub hsub
  have hexact : ∀ w ∈ sub.written, 0 < w.1.toNat ∧ ∃ inst,
      h.installs[w.1.toNat - 1]? = some inst ∧ Shows (consolidate inst.connectors) w.2 := by
    intro w hw
    obtain ⟨hpos, hle, hshows⟩ := hsound.exact w hw
    obtain ⟨n, hn⟩ : ∃ n, w.1.toNat = n + 1 := ⟨w.1.toNat - 1, by omega⟩
    have hlt : n < h.installs.length := by
      have := hsound.seen_le
      omega
    have hinst : h.installs[n]? = some h.installs[n] := List.getElem?_eq_getElem hlt
    rw [hn, installedBook, hinst] at hshows
    exact ⟨hpos, h.installs[n], by rw [hn]; exact hinst, hshows⟩
  refine ⟨hsound.increasing, hexact, ?_⟩
  refine hsound.increasing.imp_of_mem fun {w w'} hw hw' hlt inst inst' hinst hinst' i => ?_
  have hpos := (hexact w hw).1
  obtain ⟨hn, rfl⟩ := List.getElem?_eq_some_iff.mp hinst
  obtain ⟨hn', rfl⟩ := List.getElem?_eq_some_iff.mp hinst'
  have hordered := List.pairwise_iff_getElem.mp hr.ordered _ _ hn hn' (by omega)
  exact hordered.filterMap _

/-- What a subscriber that has caught up has written last. -/
theorem Recorded.last_written (hr : Recorded jsonParse h s) {j : ℕ} {sub : Subscriber D}
    (hsub : s.subscribers[j]? = some sub) (hall : sub.AllWritten)
    (hcaught : sub.CaughtUp h.installs.length) (hsome : h.installs ≠ [])
    (hphase : ∀ u v, sub.phase ≠ .received u v) :
    ∃ v u, sub.written.getLast? = some (v, u) ∧ v.toNat = h.installs.length ∧
      Shows s.consolidated u := by
  obtain ⟨u, v, hp, -⟩ | ⟨-, hseen⟩ := hcaught
  · exact absurd hp (hphase u v)
  unfold Subscriber.AllWritten at hall
  cases hlast : sub.written.getLast? with
  | none =>
    rw [hlast] at hall
    rw [hall] at hseen
    exact absurd (List.length_eq_zero_iff.mp hseen.symm) hsome
  | some w =>
    obtain ⟨v, u⟩ := w
    rw [hlast] at hall
    have hv : sub.lastSeenVersion = v := hall
    obtain ⟨-, -, hshows⟩ := (hr.sound j sub hsub).exact _ (List.mem_of_getLast? hlast)
    rw [← hv, hseen, ← hr.consolidated_eq] at hshows
    exact ⟨v, u, rfl, hv ▸ hseen, hshows⟩

/-- The streams of all subscribers are consistent, the books that they show are the replays of the
messages handled when the update task ran, and a snapshot after the last update task brings the
last book to its subscriber unless a write fails. Snapshots change nothing of the aggregator. -/
theorem subscriber_streams_consistent
    (hrun : run (recordedStep jsonParse) (Server.initial exchanges, .start) events = some (s, h))
    (hbound : h.installs.length < 2 ^ 64) :
    (∀ (j : ℕ) (sub : Subscriber D), s.subscribers[j]? = some sub → sub.Consistent h.installs) ∧
      (∀ inst ∈ h.installs, ∀ i c, inst.connectors[i]? = some c →
        replay jsonParse c.exchange (messagesTo i inst.past) = some c.localBooks) ∧
      (∀ pre now post t k j sub, events = pre ++ .runStrand now :: post →
        run (recordedStep jsonParse) (Server.initial exchanges, .start) pre = some (t, k) →
        t.strand.head? = some (.snapshot j) → h.installs = k.installs → h.installs ≠ [] →
        WritesSucceed jsonParse (Server.initial exchanges : Server D) j events →
        s.subscribers[j]? = some sub → (∀ u v, sub.phase ≠ .received u v) →
        ∃ v u, sub.written.getLast? = some (v, u) ∧ v.toNat = h.installs.length ∧
          Shows s.consolidated u) ∧
      (∀ t t' : Server D, ∀ now j, t.strand.head? = some (.snapshot j) →
        t.step jsonParse (.runStrand now) = some t' →
        t'.connectors = t.connectors ∧ t'.consolidated = t.consolidated ∧
          t'.version = t.version) := by
  have hr := recorded_run hrun hbound
  refine ⟨fun j sub hsub => hr.consistent hsub, hr.replayed, ?_, ?_⟩
  · intro pre now post t k j sub hevents hpre hhead hlast hsome hok hsub hphase
    subst hevents
    obtain ⟨⟨t', k'⟩, hpre', hpost⟩ := run_append_eq_some.mp hrun
    cases hpre.symm.trans hpre'
    have hcaught := caughtUp_run hpre hhead hpost hlast hbound hsub
    exact hr.last_written hsub (allWritten_run (run_of_withHistory hrun) hok hsub) hcaught hsome
      hphase
  · intro t t' now j hhead hs
    obtain ⟨i, rest, hstrand, rfl⟩ | ⟨i, rest, -, rfl⟩ := step_runStrand.mp hs
    · simp [hstrand] at hhead
    · exact ⟨rfl, rfl, rfl⟩

theorem subscriber_streams_consistent_example :
    ∃ (s : Server ℚ) (h : StreamHistory ℚ), run (recordedStep decodeOneBid)
      (Server.initial [.binance, .okx], .start)
      ([.deliver 0 oneBidText, .subscribe, .deliver 1 subscribedText, .runStrand 0, .poll 0 false,
        .runStrand 0] ++ .runStrand 7 :: [.resume 0 true]) = some (s, h) ∧
      ∃ sub : Subscriber ℚ, s.subscribers[0]? = some sub ∧ sub.Consistent h.installs ∧
        ∃ v u, sub.written.getLast? = some (v, u) ∧ v.toNat = 2 ∧ Shows s.consolidated u := by
  obtain ⟨⟨t, k⟩, hpre, hhead, hk⟩ := exists_of_run_any
    (P := fun p : Server ℚ × StreamHistory ℚ =>
      p.1.strand.head? = some (.snapshot 0) ∧ p.2.installs.length = 2)
    (show (run (recordedStep decodeOneBid) (Server.initial [.binance, .okx], .start)
      [.deliver 0 oneBidText, .subscribe, .deliver 1 subscribedText, .runStrand 0, .poll 0 false,
        .runStrand 0]).any _ = true by decide +kernel)
  obtain ⟨⟨s, h⟩, hpost, hphase, hh⟩ := exists_of_run_any
    (P := fun p : Server ℚ × StreamHistory ℚ =>
      (p.1.subscribers[0]?.map Subscriber.phase = some .polling) ∧ p.2.installs.length = 2)
    (show (run (recordedStep decodeOneBid) (Server.initial [.binance, .okx], .start)
      ([.deliver 0 oneBidText, .subscribe, .deliver 1 subscribedText, .runStrand 0, .poll 0 false,
        .runStrand 0] ++ .runStrand 7 :: [.resume 0 true])).any _ = true by decide +kernel)
  obtain ⟨sub, hsub, hpolling⟩ := Option.map_eq_some_iff.mp hphase
  simp only at hk hh
  have hlast : h.installs = k.installs := by
    obtain ⟨p, hp, hrest⟩ := run_append_eq_some.mp hpost
    cases hpre.symm.trans hp
    exact ((installs_prefix_run hrest).eq_of_length_le (by omega)).symm
  obtain ⟨hstreams, -, hfinal, -⟩ := subscriber_streams_consistent hpost (by omega)
  obtain ⟨v, u, hw, hv, hu⟩ := hfinal _ _ _ _ _ _ _ rfl hpre hhead hlast
    (by rw [← List.length_pos_iff]; omega) (writesSucceed_of_not_mem (by decide)) hsub
    (fun u v hp => by rw [hpolling] at hp; cases hp)
  exact ⟨s, h, hpost, sub, hsub, hstreams 0 sub hsub, v, u, hw, hh ▸ hv, hu⟩

end Streams
end AsioAggregator
