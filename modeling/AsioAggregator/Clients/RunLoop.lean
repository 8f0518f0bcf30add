import AsioAggregator.Backoff
import AsioAggregator.Clients.PriceBands
import AsioAggregator.Clients.VolumeBands

/-!
# The reconnect loop of the clients

All three clients subscribe, print what they read, and when the stream ends sleep before they
subscribe again. The retry count is reset at the end of the body of the read loop, which a one-sided
update leaves early, and it is turned into a delay before the cap is applied.
-/

namespace AsioAggregator

variable {D : Type}

inductive Client where
  | bbo
  | priceBands
  | volumeBands
deriving DecidableEq, Repr

/-- A stream up to its end: the updates read from it, and the jitter of the sleep after it. -/
structure Stream (D : Type) where
  updates : List (BookUpdate D)
  jitter : Jitter

def BookUpdate.twoSided (update : BookUpdate D) : Bool :=
  !update.bids.isEmpty && !update.asks.isEmpty

section Loop
variable [Field D] [LinearOrder D]

def printUpdate (client : Client) (update : BookUpdate D) : Option Unit :=
  match client with
  | .bbo => (bboScreen update).map fun _ => ()
  | .priceBands => (priceBands update).map fun _ => ()
  | .volumeBands => some ()

/-- The body of the read loop; `continue` leaves it before the retry count is reset. -/
def readUpdate (client : Client) (retryCount : ℕ) (update : BookUpdate D) : Option ℕ :=
  if update.bids.isEmpty || update.asks.isEmpty then some retryCount
  else (printUpdate client update).map fun _ => 0

/-- One round of the outer loop: the new retry count and the delay slept. -/
def runStream (client : Client) (retryCount : ℕ) (stream : Stream D) : Option (ℕ × ℤ) := do
  let retryCount ← stream.updates.foldlM (readUpdate client) retryCount
  let retryCount := retryCount + 1
  let backoffMs ← reconnectDelay retryCount stream.jitter
  return (retryCount, backoffMs)

/-- The delays slept after these streams, unless an undefined conversion or access comes first. -/
def runClient (client : Client) : ℕ → List (Stream D) → Option (List ℤ)
  | _, [] => some []
  | retryCount, stream :: rest => do
    let (retryCount, backoffMs) ← runStream client retryCount stream
    let delays ← runClient client retryCount rest
    return backoffMs :: delays

end Loop

/-- How many streams ended since the last one with the property, which counts as well. The list
starts with the newest stream. -/
def endedSince (P : Stream D → Bool) : List (Stream D) → ℕ
  | [] => 0
  | stream :: earlier => if P stream then 1 else endedSince P earlier + 1

def Stream.delivered (stream : Stream D) : Bool := !stream.updates.isEmpty

def Stream.deliveredTwoSided (stream : Stream D) : Bool := stream.updates.any BookUpdate.twoSided

def cappedDelay (count : ℕ) (jitter : Jitter) : ℤ :=
  ⌊(cappedBackoffMs count : ℚ) * jitter.value⌋

def cappedDelays : List (Stream D) → List (Stream D) → List ℤ
  | _, [] => []
  | earlier, stream :: rest =>
    cappedDelay (endedSince Stream.delivered (stream :: earlier)) stream.jitter ::
      cappedDelays (stream :: earlier) rest

def Printable (client : Client) (update : BookUpdate D) : Prop :=
  client = .bbo → maxLevel < update.asks.length

/-- The last of these streams, the first of the list, ends with the delay it should have: few enough
streams ended since the last one that delivered a two-sided update, that number is right or too
large to matter, and the BBO client has all the asks it prints. -/
def EndsWell (client : Client) : List (Stream D) → Prop
  | [] => True
  | stream :: earlier =>
    endedSince Stream.deliveredTwoSided (stream :: earlier) ≤ 22 ∧
      (endedSince Stream.delivered (stream :: earlier) =
          endedSince Stream.deliveredTwoSided (stream :: earlier) ∨
        6 ≤ endedSince Stream.delivered (stream :: earlier)) ∧
      ∀ update ∈ stream.updates, update.twoSided → Printable client update

theorem reconnectDelay_eq_some {retryCount : ℕ} {jitter : Jitter} {d : ℤ} :
    reconnectDelay retryCount jitter = some d ↔
      retryCount ≤ 22 ∧ d = cappedDelay retryCount jitter := by
  by_cases h : retryCount ≤ 22
  · obtain ⟨d', hd', -, -, heq⟩ := reconnectDelay_eq h jitter
    rw [hd', cappedDelay, cappedBackoffMs, ← heq]
    simp [h, eq_comm]
  · rw [reconnectDelay_eq_none (by omega)]
    simp [h]

theorem cappedDelay_bounds (count : ℕ) (jitter : Jitter) :
    800 ≤ cappedDelay count jitter ∧ cappedDelay count jitter ≤ 36000 := by
  obtain ⟨hlow, hhigh⟩ := cappedBackoffMs_bounds count
  obtain ⟨hmin, hmax⟩ := jittered_bounds hlow hhigh jitter
  constructor
  · exact Int.le_floor.mpr (by exact_mod_cast hmin)
  · exact Int.floor_le_iff.mpr (by push_cast; linarith)

theorem cappedDelays_bounds (earlier streams : List (Stream D)) :
    ∀ d ∈ cappedDelays earlier streams, 800 ≤ d ∧ d ≤ 36000 := by
  induction streams generalizing earlier with
  | nil => simp [cappedDelays]
  | cons stream rest ih => exact List.forall_mem_cons.mpr ⟨cappedDelay_bounds _ _, ih _⟩

theorem floor_jittered_lt {b b' : ℤ} (h : b + 1000 ≤ b') (jitter : Jitter) :
    ⌊(b : ℚ) * jitter.value⌋ < ⌊(b' : ℚ) * jitter.value⌋ := by
  have h' : (b : ℚ) + 1000 ≤ b' := by exact_mod_cast h
  have hstep : (b : ℚ) * jitter.value + 1 ≤ b' * jitter.value := by nlinarith [jitter.lower]
  have hfloor := Int.floor_le ((b : ℚ) * jitter.value)
  have hle : ⌊(b : ℚ) * jitter.value⌋ + 1 ≤ ⌊(b' : ℚ) * jitter.value⌋ :=
    Int.le_floor.mpr (by push_cast; linarith)
  omega

/-- Only counts from six on are all the same, since the cap has been reached. -/
theorem cappedDelay_eq_iff {c r : ℕ} (hc : 1 ≤ c) (hcr : c ≤ r) (jitter : Jitter) :
    cappedDelay r jitter = cappedDelay c jitter ↔ c = r ∨ 6 ≤ c := by
  have hmono : ∀ m n : ℕ, m ≤ n → (2 : ℤ) ^ m ≤ 2 ^ n := fun m n h =>
    pow_le_pow_right₀ (by norm_num) h
  constructor
  · intro heq
    by_contra hnot
    push Not at hnot
    have hnext : cappedBackoffMs c + 1000 ≤ cappedBackoffMs r := by
      have hpow := hmono c (r - 1) (by omega)
      have hsmall := hnot.2
      unfold cappedBackoffMs
      interval_cases c <;> norm_num at hpow ⊢ <;> omega
    exact (floor_jittered_lt hnext jitter).ne heq.symm
  · rintro (rfl | hlarge)
    · rfl
    · have hcap : ∀ n, 6 ≤ n → cappedBackoffMs n = 30000 := by
        intro n hn
        have hpow := hmono 5 (n - 1) (by omega)
        unfold cappedBackoffMs
        omega
      rw [cappedDelay, cappedDelay, hcap c hlarge, hcap r (hlarge.trans hcr)]

section Ends
variable {P Q : Stream D → Bool}

theorem endedSince_cons_pos (stream : Stream D) (earlier : List (Stream D)) :
    1 ≤ endedSince P (stream :: earlier) := by
  unfold endedSince
  split_ifs <;> omega

theorem endedSince_le (h : ∀ stream, Q stream → P stream) (streams : List (Stream D)) :
    endedSince P streams ≤ endedSince Q streams := by
  induction streams with
  | nil => rfl
  | cons stream earlier ih =>
    by_cases hQ : Q stream
    · simp [endedSince, hQ, h stream hQ]
    · by_cases hP : P stream
      · simp [endedSince, hQ, hP]
      · simpa [endedSince, hQ, hP] using ih

theorem delivered_of_deliveredTwoSided {stream : Stream D} (h : stream.deliveredTwoSided) :
    stream.delivered := by
  obtain ⟨update, hmem, -⟩ := List.any_eq_true.mp h
  have hne : stream.updates ≠ [] := List.ne_nil_of_mem hmem
  simpa [Stream.delivered] using hne

theorem twoSided_iff {update : BookUpdate D} :
    update.twoSided ↔ update.bids ≠ [] ∧ update.asks ≠ [] := by
  simp [BookUpdate.twoSided]

end Ends

section Rounds
variable [Field D] [LinearOrder D] {client : Client}

theorem isSome_printUpdate {update : BookUpdate D} (h : update.twoSided) :
    (printUpdate client update).isSome ↔ Printable client update := by
  obtain ⟨hbids, hasks⟩ := twoSided_iff.mp h
  cases client with
  | bbo => simpa [printUpdate, Printable] using isSome_bboScreen hbids
  | priceBands =>
    have hbid := List.getElem?_eq_getElem (List.length_pos_iff.mpr hbids)
    have hask := List.getElem?_eq_getElem (List.length_pos_iff.mpr hasks)
    simp [printUpdate, Printable, priceBands, hbid, hask]
  | volumeBands => simp [printUpdate, Printable]

theorem readUpdate_eq_some {update : BookUpdate D} {r r' : ℕ} :
    readUpdate client r update = some r' ↔
      (update.twoSided → Printable client update) ∧ r' = if update.twoSided then 0 else r := by
  have hguard : (update.bids.isEmpty || update.asks.isEmpty) = !update.twoSided := by
    simp [BookUpdate.twoSided]
  rw [readUpdate, hguard]
  cases h : update.twoSided with
  | false => simp [eq_comm]
  | true =>
    have hprint : (printUpdate client update).isSome ↔ Printable client update :=
      isSome_printUpdate h
    cases hp : printUpdate client update with
    | none => simp [← hprint, hp]
    | some u => simp [← hprint, hp, eq_comm]

theorem foldlM_readUpdate {updates : List (BookUpdate D)} {r r' : ℕ} :
    updates.foldlM (readUpdate client) r = some r' ↔
      (∀ update ∈ updates, update.twoSided → Printable client update) ∧
        r' = if updates.any BookUpdate.twoSided then 0 else r := by
  induction updates generalizing r with
  | nil => simpa using eq_comm
  | cons update updates ih =>
    simp only [List.foldlM_cons, Option.bind_eq_bind, Option.bind_eq_some_iff, readUpdate_eq_some,
      ih, List.forall_mem_cons, List.any_cons]
    constructor
    · rintro ⟨r₁, ⟨hfirst, rfl⟩, hrest, rfl⟩
      refine ⟨⟨hfirst, hrest⟩, ?_⟩
      by_cases htwo : update.twoSided <;> simp [htwo]
    · rintro ⟨⟨hfirst, hrest⟩, rfl⟩
      refine ⟨_, ⟨hfirst, rfl⟩, hrest, ?_⟩
      by_cases htwo : update.twoSided <;> simp [htwo]

/-- The counter of the client counts the streams that ended since the last two-sided update. -/
theorem runStream_eq_some {stream : Stream D} {earlier : List (Stream D)} {r : ℕ} {d : ℤ} :
    runStream client (endedSince Stream.deliveredTwoSided earlier) stream = some (r, d) ↔
      (∀ update ∈ stream.updates, update.twoSided → Printable client update) ∧
      r = endedSince Stream.deliveredTwoSided (stream :: earlier) ∧ r ≤ 22 ∧
      d = cappedDelay r stream.jitter := by
  have hcount : (if stream.updates.any BookUpdate.twoSided then 0
      else endedSince Stream.deliveredTwoSided earlier) + 1 =
        endedSince Stream.deliveredTwoSided (stream :: earlier) := by
    by_cases htwo : stream.updates.any BookUpdate.twoSided <;>
      simp [endedSince, Stream.deliveredTwoSided, htwo]
  simp only [runStream, Option.bind_eq_bind, Option.bind_eq_some_iff, foldlM_readUpdate,
    reconnectDelay_eq_some, Option.pure_def, Option.some.injEq, Prod.mk.injEq]
  constructor
  · rintro ⟨_, ⟨hprint, rfl⟩, _, ⟨hle, rfl⟩, rfl, rfl⟩
    exact ⟨hprint, hcount, hle, rfl⟩
  · rintro ⟨hprint, rfl, hle, rfl⟩
    exact ⟨_, ⟨hprint, rfl⟩, _, ⟨hcount ▸ hle, rfl⟩, hcount, by rw [hcount]⟩

/-- One round: the newest stream ends with the delay it should have. -/
theorem runStream_cappedDelay {stream : Stream D} {earlier : List (Stream D)} :
    (∃ r, runStream client (endedSince Stream.deliveredTwoSided earlier) stream =
      some (r, cappedDelay (endedSince Stream.delivered (stream :: earlier)) stream.jitter)) ↔
      EndsWell client (stream :: earlier) := by
  have hle := endedSince_le (P := Stream.delivered (D := D)) (Q := Stream.deliveredTwoSided)
    (fun _ => delivered_of_deliveredTwoSided) (stream :: earlier)
  have heq := cappedDelay_eq_iff (endedSince_cons_pos stream earlier) hle stream.jitter
  simp only [runStream_eq_some, EndsWell, ← heq]
  constructor
  · rintro ⟨r, hprint, rfl, hcount, hdelay⟩
    exact ⟨hcount, hdelay.symm, hprint⟩
  · rintro ⟨hcount, hdelay, hprint⟩
    exact ⟨_, hprint, rfl, hcount, hdelay.symm⟩

theorem runClient_cappedDelays (client : Client) (streams earlier : List (Stream D)) :
    runClient client (endedSince Stream.deliveredTwoSided earlier) streams =
        some (cappedDelays earlier streams) ↔
      ∀ pre stream post, streams = pre ++ stream :: post →
        EndsWell client (stream :: (pre.reverse ++ earlier)) := by
  induction streams generalizing earlier with
  | nil => simp [runClient, cappedDelays]
  | cons stream rest ih =>
    have hsplit : (∀ pre s post, stream :: rest = pre ++ s :: post →
        EndsWell client (s :: (pre.reverse ++ earlier))) ↔
          EndsWell client (stream :: earlier) ∧ ∀ pre s post, rest = pre ++ s :: post →
            EndsWell client (s :: (pre.reverse ++ stream :: earlier)) := by
      constructor
      · intro h
        refine ⟨h [] stream rest rfl, fun pre s post heq => ?_⟩
        have hs := h (stream :: pre) s post (by rw [heq]; rfl)
        rwa [List.reverse_cons, List.append_assoc] at hs
      · rintro ⟨hfirst, hrest⟩ pre s post heq
        cases pre with
        | nil =>
          obtain ⟨rfl, rfl⟩ := List.cons.inj heq
          exact hfirst
        | cons s' pre =>
          obtain ⟨rfl, hrest'⟩ := List.cons.inj heq
          rw [List.reverse_cons, List.append_assoc]
          exact hrest pre s post hrest'
    rw [hsplit, ← runStream_cappedDelay, ← ih (stream :: earlier)]
    simp only [runClient, cappedDelays, Option.bind_eq_bind, Option.bind_eq_some_iff,
      Option.pure_def, Option.some.injEq, Prod.exists, List.cons.injEq]
    constructor
    · rintro ⟨r, d, hstream, delays, hrest, rfl, rfl⟩
      obtain ⟨-, hr, -⟩ := runStream_eq_some.mp hstream
      exact ⟨⟨r, hstream⟩, hr ▸ hrest⟩
    · rintro ⟨⟨r, hstream⟩, hrest⟩
      obtain ⟨-, hr, -⟩ := runStream_eq_some.mp hstream
      exact ⟨r, _, hstream, _, hr ▸ hrest, rfl, rfl⟩

/-- The client gets through these streams, and every delay is the capped doubling for the number of
streams that ended since the last message, with its jitter. -/
def DelaysAsCapped (client : Client) (streams : List (Stream D)) : Prop :=
  ∃ delays, runClient client 0 streams = some delays ∧ delays = cappedDelays [] streams ∧
    ∀ d ∈ delays, 800 ≤ d ∧ d ≤ 36000

/-- The client sleeps as long as it should after all streams exactly where each of them ends well.
An endless sequence of streams is covered by its finite beginnings. -/
theorem client_delays_iff (client : Client) (streams : List (Stream D)) :
    DelaysAsCapped client streams ↔ ∀ pre stream post, streams = pre ++ stream :: post →
      EndsWell client (stream :: pre.reverse) := by
  have hiff := runClient_cappedDelays client streams []
  simp only [List.append_nil] at hiff
  rw [← hiff]
  constructor
  · rintro ⟨delays, hrun, rfl, -⟩
    exact hrun
  · intro hrun
    exact ⟨_, hrun, rfl, cappedDelays_bounds [] streams⟩

end Rounds

section Example

def silentStream : Stream ℚ := ⟨[], Jitter.unit⟩

def oneSidedStream : Stream ℚ := ⟨[⟨0, [⟨70400, 1⟩], []⟩], Jitter.unit⟩

/-- A server that stays away for 23 attempts, and a message that does not reset the count. -/
theorem delays_not_capped :
    ¬ DelaysAsCapped .volumeBands (List.replicate 23 silentStream) ∧
      ¬ DelaysAsCapped .volumeBands [silentStream, oneSidedStream] := by
  constructor
  · rintro ⟨delays, hrun, -⟩
    have hnone : runClient .volumeBands 0 (List.replicate 23 silentStream) = none := by
      decide +kernel
    cases hnone.symm.trans hrun
  · rintro ⟨delays, hrun, rfl, -⟩
    exact absurd hrun (by decide +kernel)

end Example
end AsioAggregator
