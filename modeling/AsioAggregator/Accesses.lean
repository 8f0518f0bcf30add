import AsioAggregator.Atomicity

/-!
# Accesses that the JSON library leaves undefined

The loops visit levels by `const` references, and a `const` access to an absent key or past the end
of an array is undefined and throws nothing that a catch block could swallow. Which messages lead
to such an access is a matter of their shape alone: `overreads` says it for every exchange.
-/

namespace AsioAggregator

variable (D : Type) [OfNumeral D]

def reads (text : String) : Bool := (stod text : Except Fault D).isOk

def isLevel : Json → Bool
  | .array (.string price :: .string qty :: _) => reads D price && reads D qty
  | _ => false

/-- A level that ends before its price, or before its quantity where the price can be read. -/
def isShort : Json → Bool
  | .array [] => true
  | .array [.string price] => reads D price
  | _ => false

def meetsShort (levels : List Json) : Bool := (levels.dropWhile (isLevel D)).head?.any (isShort D)

def levelsAt (data : Json) (key : String) : List Json := ((data.member? key).getD .null).elements

/-- One side leads to an undefined access: a level of it is too short, or it is missing where its
key is not looked for before. -/
def sideOverreads (unguarded : Bool) (data : Json) (key : String) : Bool :=
  (unguarded && !data.contains key) || meetsShort D (levelsAt data key)

def dataOverreads (unguarded : Bool) (bidKey askKey : String) (data : Json) : Bool :=
  sideOverreads D unguarded data bidKey ||
    ((levelsAt data bidKey).all (isLevel D) && sideOverreads D unguarded data askKey)

def firstData (j : Json) : Option Json :=
  match j.member? "data" with
  | some (.array (.object members :: _)) => some (.object members)
  | _ => none

def objectData (j : Json) : Option Json := (j.member? "data").filter Json.isObject

/-- The values on which the parser of the exchange makes an undefined access. Only the snapshots of
Bybit subscript a `const` object without looking for the key first. -/
def overreads : Exchange → Json → Bool
  | .binance, j => j.contains "lastUpdateId" && dataOverreads D false "bids" "asks" j
  | .okx, j =>
    !j.memberIs "event" "subscribe" && (firstData j).any (dataOverreads D false "bids" "asks")
  | .bitget, j =>
    !j.memberIs "op" "subscribe" && j.memberIs "action" "snapshot" &&
      (firstData j).any (dataOverreads D false "bids" "asks")
  | .bybit, j =>
    !j.memberIs "op" "subscribe" && !j.memberIs "op" "pong" &&
      j.memberIs "topic" "orderbook.50.BTCUSDT" &&
      (j.memberIs "type" "snapshot" && (objectData j).any (dataOverreads D true "b" "a") ||
        !j.memberIs "type" "snapshot" && j.memberIs "type" "delta" &&
          (objectData j).any (dataOverreads D false "b" "a"))

/-- The conversion of a numeral accesses no JSON value. -/
def ConvertsOnly : Prop :=
  ∀ n, (OfNumeral.ofNumeral n : Except Fault D) ≠ .error .undefinedAccess

theorem convertsOnly_rat : ConvertsOnly ℚ := by
  intro n
  cases n <;> simp [OfNumeral.ofNumeral]

section Levels
variable {D} {level : Json}

theorem stod_ne_undefinedAccess (hD : ConvertsOnly D) (text : String) :
    (stod text : Except Fault D) ≠ .error .undefinedAccess := by
  unfold stod
  cases strtod text with
  | none => simp
  | some n => exact hD n

theorem reads_iff {text : String} : reads D text ↔ ∃ d : D, stod text = .ok d := by
  unfold reads
  cases (stod text : Except Fault D) <;> simp [Except.isOk, Except.toBool]

inductive ReadsAs (level : Json) : Except Fault (D × D) → Prop where
  | read (l : D × D) (hlevel : isLevel D level = true) (hshort : isShort D level = false) :
      ReadsAs level (.ok l)
  | overread (hlevel : isLevel D level = false) (hshort : isShort D level = true) :
      ReadsAs level (.error .undefinedAccess)
  | thrown (f : Fault) (hf : f ≠ .undefinedAccess) (hlevel : isLevel D level = false)
      (hshort : isShort D level = false) : ReadsAs level (.error f)

theorem readsAs_of_price_fault (hD : ConvertsOnly D) {price : String} {f : Fault}
    (hp : (stod price : Except Fault D) = .error f) (items : List Json) :
    ReadsAs (D := D) (.array (.string price :: items))
      (readLevel (.array (.string price :: items))) := by
  have hreads : reads D price = false := by simp [reads, hp, Except.isOk, Except.toBool]
  have hf : f ≠ .undefinedAccess := fun hf => stod_ne_undefinedAccess hD price (hf ▸ hp)
  have hread : (readLevel (.array (.string price :: items)) : Except Fault (D × D)) = .error f := by
    simp [readLevel, Json.constIndex, Json.getString, bind, Except.bind, hp]
  rw [hread]
  refine .thrown f hf ?_ ?_
  · rcases items with _ | ⟨_ | _ | _ | _ | _ | _, items⟩ <;> simp [isLevel, hreads]
  · cases items <;> simp [isShort, hreads]

theorem readsAs_of_price (hD : ConvertsOnly D) {price : String} {p : D}
    (hp : stod price = .ok p) (items : List Json) :
    ReadsAs (D := D) (.array (.string price :: items))
      (readLevel (.array (.string price :: items))) := by
  have hreads : reads D price = true := reads_iff.mpr ⟨p, hp⟩
  have hread : (readLevel (.array (.string price :: items)) : Except Fault (D × D)) =
      (Json.array (.string price :: items)).constIndex 1 >>= fun j => j.getString >>= fun qty =>
        stod qty >>= fun q => .ok (p, q) := by
    simp [readLevel, Json.constIndex, Json.getString, bind, Except.bind, hp]
    rfl
  rw [hread]
  rcases items with _ | ⟨qty, items⟩
  · exact .overread rfl hreads
  cases qty with
  | string qty =>
    cases hq : (stod qty : Except Fault D) with
    | error f =>
      have hf : f ≠ .undefinedAccess := fun hf => stod_ne_undefinedAccess hD qty (hf ▸ hq)
      simp only [Json.constIndex, Json.getString, bind, Except.bind, List.getElem?_cons_succ,
        List.getElem?_cons_zero, hq]
      exact .thrown f hf (by simp [isLevel, reads, hq, Except.isOk, Except.toBool]) rfl
    | ok q =>
      simp only [Json.constIndex, Json.getString, bind, Except.bind, List.getElem?_cons_succ,
        List.getElem?_cons_zero, hq]
      exact .read (p, q) (Bool.and_eq_true_iff.mpr ⟨hreads, reads_iff.mpr ⟨q, hq⟩⟩) rfl
  | _ => exact .thrown Json.notAString (by decide) rfl rfl

theorem readLevel_readsAs (hD : ConvertsOnly D) (level : Json) :
    ReadsAs (D := D) level (readLevel level) := by
  cases level with
  | array items =>
    rcases items with _ | ⟨price, items⟩
    · exact .overread rfl rfl
    cases price with
    | string price =>
      cases hp : (stod price : Except Fault D) with
      | error f => exact readsAs_of_price_fault hD hp items
      | ok p => exact readsAs_of_price hD hp items
    | _ => exact .thrown Json.notAString (by decide) rfl rfl
  | _ => exact .thrown Json.badSubscript (by decide) rfl rfl

theorem firstFault_cases (hD : ConvertsOnly D) (levels : List Json) :
    (firstFault D levels = none ↔ levels.all (isLevel D)) ∧
      (firstFault D levels = some .undefinedAccess ↔ meetsShort D levels) := by
  induction levels with
  | nil => simp [firstFault, meetsShort]
  | cons level rest ih =>
    have hread := readLevel_readsAs hD level
    generalize hr : (readLevel level : Except Fault (D × D)) = r at hread
    cases hread with
    | read l hlevel hshort => simpa [firstFault, meetsShort, hr, hlevel] using ih
    | overread hlevel hshort => simp [firstFault, meetsShort, hr, hlevel, hshort]
    | thrown f hf hlevel hshort => simp [firstFault, meetsShort, hr, hlevel, hshort, hf]

end Levels
section Sides
variable {D} {unguarded : Bool} {data : Json} {key bidKey askKey : String}

structure EndsAs (side : Side D) (unguarded : Bool) (data : Json) (key : String) : Prop where
  overreads : side.fault = some .undefinedAccess ↔ sideOverreads D unguarded data key
  complete : ¬ sideOverreads D unguarded data key →
    (side.fault = none ↔ (levelsAt data key).all (isLevel D))

theorem endsAs_readSide (hD : ConvertsOnly D) {j : Json}
    (hj : j = (data.member? key).getD .null) (hkey : unguarded → data.contains key) :
    EndsAs (readSide (.ok j) : Side D) unguarded data key := by
  have hlevels : j.elements = levelsAt data key := by rw [hj, levelsAt]
  have hguard : (unguarded && !data.contains key) = false := by
    cases unguarded <;> simp_all
  have hcases := firstFault_cases hD (levelsAt data key)
  refine ⟨?_, fun _ => ?_⟩
  · simp only [readSide, hlevels, sideOverreads, hguard, Bool.false_or]
    exact hcases.2
  · simp only [readSide, hlevels]
    exact hcases.1

theorem Content.fault_eq_undefinedAccess {c : Content D}
    (hbids : EndsAs c.bids unguarded data bidKey) (hasks : EndsAs c.asks unguarded data askKey) :
    c.fault = some .undefinedAccess ↔ dataOverreads D unguarded bidKey askKey data := by
  have hor : c.fault = some .undefinedAccess ↔ c.bids.fault = some .undefinedAccess ∨
      c.bids.fault = none ∧ c.asks.fault = some .undefinedAccess := by
    unfold Content.fault
    cases c.bids.fault <;> simp
  rw [hor, hbids.overreads, hasks.overreads, dataOverreads, Bool.or_eq_true_iff,
    Bool.and_eq_true_iff]
  by_cases hover : sideOverreads D unguarded data bidKey
  · simp [hover]
  · rw [hbids.complete hover]

theorem endsAs_subscript (hD : ConvertsOnly D) {members : List (String × Json)} (key : String) :
    EndsAs (readSide ((Json.object members).subscript key) : Side D) false (.object members) key :=
  endsAs_readSide hD rfl (by simp)

theorem endsAs_constSubscript (hD : ConvertsOnly D) {members : List (String × Json)}
    (key : String) :
    EndsAs (readSide ((Json.object members).constSubscript key) : Side D) true (.object members)
      key := by
  cases hkey : members.lookup key with
  | none =>
    have hover : sideOverreads D true (.object members) key := by
      simp [sideOverreads, Json.contains, Json.member?, hkey]
    refine ⟨?_, fun hnot => absurd hover hnot⟩
    simp [readSide, Json.constSubscript, hkey, hover]
  | some j =>
    have hmember : (Json.object members).member? key = some j := hkey
    rw [Json.constSubscript_of_member? hmember]
    exact endsAs_readSide hD (by rw [hmember, Option.getD_some])
      fun _ => Json.contains_of_member? hmember

theorem endsAs_deltaSide (hD : ConvertsOnly D) {members : List (String × Json)} (key : String) :
    EndsAs (deltaSide (.object members) key : Side D) false (.object members) key := by
  cases hkey : members.lookup key with
  | none =>
    have hlevels : levelsAt (.object members) key = [] := by
      simp [levelsAt, Json.member?, hkey, Json.elements]
    refine ⟨?_, fun _ => ?_⟩
    · simp [deltaSide, Json.contains, Json.member?, hkey, Side.absent, sideOverreads, hlevels,
        meetsShort]
    · simp [deltaSide, Json.contains, Json.member?, hkey, Side.absent, hlevels]
  | some j =>
    have hmember : (Json.object members).member? key = some j := hkey
    rw [deltaSide_of_member? hmember]
    exact endsAs_readSide hD (by rw [hmember, Option.getD_some]) (by simp)

end Sides

section Messages
variable {D}

theorem firstDataReading_fault (hD : ConvertsOnly D) (members : List (String × Json)) :
    (firstDataReading (.object members) : Reading D).fault = some .undefinedAccess ↔
      (firstData (.object members)).any (dataOverreads D false "bids" "asks") := by
  unfold firstDataReading firstData
  simp only [Json.subscript, Json.member?]
  cases members.lookup "data" with
  | none => exact iff_of_false (by rintro ⟨⟩) (by rintro ⟨⟩)
  | some data =>
    cases data with
    | array items =>
      cases items with
      | nil => exact iff_of_false (by rintro ⟨⟩) (by rintro ⟨⟩)
      | cons first items =>
        cases first with
        | object members' =>
          exact Content.fault_eq_undefinedAccess (endsAs_subscript hD "bids")
            (endsAs_subscript hD "asks")
        | _ => exact iff_of_false (by rintro ⟨⟩) (by rintro ⟨⟩)
    | _ => exact iff_of_false (by rintro ⟨⟩) (by rintro ⟨⟩)

variable [LinearOrder D] [Zero D] (jsonParse : String → Except StdException Json)

theorem bybitContent_fault (hD : ConvertsOnly D) (j : Json) (data : Option Json) :
    (bybitContent j (data.getD .null) : Reading D).fault = some .undefinedAccess ↔
      j.memberIs "type" "snapshot" &&
          (data.filter Json.isObject).any (dataOverreads D true "b" "a") ||
        !j.memberIs "type" "snapshot" && j.memberIs "type" "delta" &&
          (data.filter Json.isObject).any (dataOverreads D false "b" "a") := by
  rcases data with _ | data
  · simp [bybitContent, Json.isObject]
  cases data with
  | object members =>
    by_cases hsnap : j.memberIs "type" "snapshot"
    · simpa [bybitContent, Json.isObject, hsnap, Option.filter] using
        Content.fault_eq_undefinedAccess (endsAs_constSubscript hD "b")
          (endsAs_constSubscript hD "a")
    by_cases hdelta : j.memberIs "type" "delta"
    · simpa [bybitContent, Json.isObject, hsnap, hdelta, Option.filter] using
        Content.fault_eq_undefinedAccess (endsAs_deltaSide hD "b") (endsAs_deltaSide hD "a")
    · simp [bybitContent, Json.isObject, hsnap, hdelta]
  | _ => simp [bybitContent, Json.isObject, Reading.fault, Option.filter]

/-- The parser of the exchange makes an undefined access on the values that overread. -/
theorem reading_fault (hD : ConvertsOnly D) {msg : String} {j : Json} (hj : jsonParse msg = .ok j)
    (ex : Exchange) :
    (reading jsonParse ex msg : Reading D).fault = some .undefinedAccess ↔ overreads D ex j := by
  have hparse := parseJson_of_ok jsonParse hj
  cases ex with
  | binance =>
    simp only [reading, binanceReading, hparse, overreads]
    by_cases hid : j.contains "lastUpdateId"
    · obtain ⟨members, rfl⟩ := Json.object_of_contains hid
      simp only [hid, if_true, Bool.true_and]
      exact Content.fault_eq_undefinedAccess (endsAs_subscript hD "bids")
        (endsAs_subscript hD "asks")
    · simp [hid]
  | okx =>
    simp only [reading, okxReading, hparse, overreads]
    by_cases hevent : j.memberIs "event" "subscribe"
    · simp [hevent]
    by_cases hdata : j.contains "data"
    · obtain ⟨members, rfl⟩ := Json.object_of_contains hdata
      simpa [hevent, hdata] using firstDataReading_fault hD members
    · have hnone : firstData j = none := by
        unfold Json.contains at hdata
        simp only [Option.not_isSome_iff_eq_none.mp hdata, firstData]
      simp [hevent, hdata, hnone]
  | bitget =>
    simp only [reading, bitgetReading, hparse, overreads]
    by_cases hop : j.memberIs "op" "subscribe"
    · simp [hop]
    by_cases haction : j.memberIs "action" "snapshot"
    · obtain ⟨members, rfl⟩ := Json.object_of_memberIs haction
      simpa [hop, haction] using firstDataReading_fault hD members
    · simp [hop, haction]
  | bybit =>
    simp only [reading, bybitReading, hparse, overreads]
    by_cases hsub : j.memberIs "op" "subscribe"
    · simp [hsub]
    by_cases hpong : j.memberIs "op" "pong"
    · simp [hsub, hpong]
    by_cases htopic : j.memberIs "topic" "orderbook.50.BTCUSDT"
    swap
    · simp [hsub, hpong, htopic]
    obtain ⟨members, rfl⟩ := Json.object_of_memberIs htopic
    simp only [hsub, hpong, htopic, Json.subscript, objectData, Json.member?]
    exact bybitContent_fault hD (.object members) (members.lookup "data")

/-- The parser finishes or throws, and makes no access that the JSON library leaves undefined. -/
def StaysDefined (D : Type) [LinearOrder D] [Zero D] [OfNumeral D]
    (jsonParse : String → Except StdException Json) (ex : Exchange) (msg : String) : Prop :=
  ∀ b b' : Books D, (parseBody jsonParse ex msg).run b ≠ .error .undefinedAccess b'

theorem staysDefined_iff_fault {ex : Exchange} {msg : String} :
    StaysDefined D jsonParse ex msg ↔
      (reading (D := D) jsonParse ex msg).fault ≠ some .undefinedAccess := by
  have hbooks : Nonempty (Books D) := ⟨Books.empty⟩
  simp only [StaysDefined, parseBody_run]
  have hend : ∀ (fault : Option Fault) (b b' : Books D),
      ended (endedBy fault) b = .error .undefinedAccess b' ↔
        fault = some .undefinedAccess ∧ b' = b := by
    intro fault b b'
    cases fault <;> simp [endedBy, ended, eq_comm]
  cases (reading jsonParse ex msg : Reading D) with
  | skipped fault => simp [Reading.run, hend]
  | content c => simp [Reading.run, hend]

/-- A parser stays defined exactly on the texts that are no JSON, and on the values that do not
overread. -/
theorem staysDefined_iff_not_overreads (hD : ConvertsOnly D) (ex : Exchange) (msg : String) :
    StaysDefined D jsonParse ex msg ↔ ∀ j, jsonParse msg = .ok j → ¬ overreads D ex j := by
  rw [staysDefined_iff_fault]
  cases hj : jsonParse msg with
  | error e =>
    have hfault : (reading jsonParse ex msg : Reading D).fault = some (.exception e) := by
      have hparse : parseJson jsonParse msg = .error (.exception e) := by
        rw [parseJson, hj]
        rfl
      cases ex <;>
        simp only [reading, binanceReading, okxReading, bitgetReading, bybitReading, hparse,
          Reading.fault_skipped]
    simp [hfault]
  | ok j => simp [reading_fault jsonParse hD hj ex]

end Messages

section Example

def bidlessText : String :=
  "\x7b\"topic\":\"orderbook.50.BTCUSDT\",\"type\":\"snapshot\"," ++
    "\"data\":\x7b\"a\":[[\"70410.00\",\"2.0\"]]\x7d\x7d"

def partialText : String := "\x7b\"lastUpdateId\":123,\"bids\":[[\"70400\"]],\"asks\":[]\x7d"

def decodeOverreading : String → Except StdException Json :=
  decodeTable
    [(bidlessText, .object [("data", .object [("a", .array [.level "70410.00" "2.0"])]),
      ("topic", .string "orderbook.50.BTCUSDT"), ("type", .string "snapshot")]),
    (partialText, .object [("asks", .array []), ("bids", .array [.array [.string "70400"]]),
      ("lastUpdateId", .number 123)])]

theorem not_staysDefined :
    ¬ StaysDefined ℚ decodeOverreading .bybit bidlessText ∧
      ¬ StaysDefined ℚ decodeOverreading .binance partialText := by
  rw [staysDefined_iff_fault, staysDefined_iff_fault]
  decide +kernel

theorem staysDefined_iff_not_overreads_example : StaysDefined ℚ decodeTorn .binance tornText := by
  refine (staysDefined_iff_not_overreads _ convertsOnly_rat .binance tornText).mpr ?_
  intro j hj
  have hmessage : decodeTorn tornText = .ok tornMessage := decodeTable_cons_self
  obtain rfl := Except.ok.inj (hmessage.symm.trans hj)
  decide +kernel

end Example
end AsioAggregator
