import AsioAggregator.Process

/-!
# The start of the server

`start` reads the configuration, constructs a connector for each exchange that it knows, and starts
them all when it has got through to the end. An exception on the way there leaves the connectors of
the entries before constructed, but starts none. A missing member is no exception: the entries are
`const`, so that the access is undefined.
-/

namespace AsioAggregator

open Runs

structure Endpoint where
  name : String
  host : String
  port : String
  path : String
deriving DecidableEq

/-- The connector for a name. There is none for Bitget. -/
def connectorFor (name : String) : Option Exchange :=
  if name = "Binance" then some .binance
  else if name = "OKX" then some .okx
  else if name = "Bybit" then some .bybit
  else none

def readEndpoint (c : Json) : Except Fault Endpoint := do
  let name ← (← c.constSubscript "name").getString
  let host ← (← c.constSubscript "host").getString
  let port ← (← c.constSubscript "port").getString
  let path ← (← c.constSubscript "path").getString
  return ⟨name, host, port, path⟩

def createConnector (connectors : List (Exchange × Endpoint)) (c : Json) :
    Except Fault (List (Exchange × Endpoint)) := do
  let endpoint ← readEndpoint c
  match connectorFor endpoint.name with
  | some exchange => return connectors ++ [(exchange, endpoint)]
  | none => return connectors

inductive StartError where
  | runtimeError (what : String)
  | fault (f : Fault)
deriving DecidableEq

/-- `start` up to the loop that starts the connectors: which ones it starts. What an exception
leaves in `connectors_` is dropped here. `jsonRead` is what `>>` reads from an open file. -/
def createConnectors (jsonRead : String → Except StdException Json) (file : Option String)
    (configFilePath : String) : Except StartError (List (Exchange × Endpoint)) :=
  match file with
  | none => .error (.runtimeError ("Cannot open connectors.json" ++ configFilePath))
  | some text =>
    match jsonRead text with
    | .error e => .error (.fault (.exception e))
    | .ok config => (config.elements.foldlM createConnector []).mapError .fault

def configFile (argv : List String) : String := (argv[1]?).getD "connectors.json"

/-- `main` up to `ioc.run()`. -/
def startProcess {D : Type} [LinearOrder D] (jsonRead : String → Except StdException Json)
    (files : String → Option String) (argv : List String) : Except StartError (Process D) :=
  (createConnectors jsonRead (files (configFile argv)) (configFile argv)).map fun connectors =>
    Process.initial (connectors.map Prod.fst)

structure Json.Describes (c : Json) (endpoint : Endpoint) : Prop where
  name : c.member? "name" = some (.string endpoint.name)
  host : c.member? "host" = some (.string endpoint.host)
  port : c.member? "port" = some (.string endpoint.port)
  path : c.member? "path" = some (.string endpoint.path)

def connectorsFor (endpoints : List Endpoint) : List (Exchange × Endpoint) :=
  endpoints.filterMap fun endpoint =>
    (connectorFor endpoint.name).map fun exchange => (exchange, endpoint)

section Loop
variable {c : Json} {key text : String} {endpoint : Endpoint} {f : Fault}
variable {entries : List Json} {connectors created : List (Exchange × Endpoint)}

theorem except_bind_eq_ok {ε α β : Type} {x : Except ε α} {g : α → Except ε β} {b : β} :
    (x >>= g) = .ok b ↔ ∃ a, x = .ok a ∧ g a = .ok b := by
  cases x <;> simp [bind, Except.bind]

theorem constSubscript_eq_ok {value : Json} :
    c.constSubscript key = .ok value ↔ c.member? key = some value := by
  refine ⟨fun h => ?_, Json.constSubscript_of_member?⟩
  cases c with
  | object members =>
    cases hlookup : members.lookup key with
    | none => simp [Json.constSubscript, hlookup] at h
    | some v =>
      simp only [Json.constSubscript, hlookup, Except.ok.injEq] at h
      rw [Json.member?, hlookup, h]
  | _ => simp [Json.constSubscript, Json.badSubscript] at h

theorem getString_eq_ok : c.getString = .ok text ↔ c = .string text := by
  cases c <;> simp [Json.getString, Json.notAString]

theorem readEndpoint_eq_ok : readEndpoint c = .ok endpoint ↔ c.Describes endpoint := by
  simp only [readEndpoint, except_bind_eq_ok, constSubscript_eq_ok, getString_eq_ok, pure,
    Except.pure, Except.ok.injEq]
  constructor
  · rintro ⟨_, hname, name, rfl, _, hhost, host, rfl, _, hport, port, rfl, _, hpath, path, rfl, rfl⟩
    exact ⟨hname, hhost, hport, hpath⟩
  · rintro ⟨hname, hhost, hport, hpath⟩
    exact ⟨_, hname, _, rfl, _, hhost, _, rfl, _, hport, _, rfl, _, hpath, _, rfl, rfl⟩

theorem createConnector_of_describes (h : c.Describes endpoint) :
    createConnector connectors c = .ok (connectors ++ connectorsFor [endpoint]) := by
  have hread := readEndpoint_eq_ok.mpr h
  cases hknown : connectorFor endpoint.name <;>
    simp [createConnector, hread, bind, Except.bind, pure, Except.pure, hknown, connectorsFor]

theorem createConnector_of_fault (h : readEndpoint c = .error f) :
    createConnector connectors c = .error f := by
  simp [createConnector, h, bind, Except.bind]

theorem foldlM_createConnector {endpoints : List Endpoint}
    (h : List.Forall₂ Json.Describes entries endpoints) (rest : List Json) :
    (entries ++ rest).foldlM createConnector connectors =
      rest.foldlM createConnector (connectors ++ connectorsFor endpoints) := by
  induction h generalizing connectors with
  | nil => simp [connectorsFor]
  | @cons c endpoint entries endpoints hc _ ih =>
    have hsplit : connectorsFor (endpoint :: endpoints) =
        connectorsFor [endpoint] ++ connectorsFor endpoints := by
      simp only [connectorsFor, ← List.filterMap_append, List.singleton_append]
    rw [List.cons_append, List.foldlM_cons, createConnector_of_describes hc, hsplit,
      ← List.append_assoc]
    exact ih

theorem foldlM_of_describes {endpoints : List Endpoint}
    (h : List.Forall₂ Json.Describes entries endpoints) :
    entries.foldlM createConnector [] = .ok (connectorsFor endpoints) := by
  have hall : (entries ++ []).foldlM createConnector [] = _ := foldlM_createConnector h []
  rwa [List.append_nil] at hall

theorem foldlM_of_fault {endpoints : List Endpoint} {after : List Json}
    (h : List.Forall₂ Json.Describes entries endpoints) (hf : readEndpoint c = .error f) :
    (entries ++ c :: after).foldlM createConnector [] = .error f := by
  rw [foldlM_createConnector h, List.foldlM_cons, createConnector_of_fault hf]
  rfl

/-- Every entry describes an endpoint, or one of them is the first that does not. -/
theorem describes_or_fault (entries : List Json) :
    (∃ endpoints, List.Forall₂ Json.Describes entries endpoints) ∨
      ∃ before endpoints c after f, entries = before ++ c :: after ∧
        List.Forall₂ Json.Describes before endpoints ∧ readEndpoint c = .error f := by
  induction entries with
  | nil => exact Or.inl ⟨[], .nil⟩
  | cons c rest ih =>
    cases hc : readEndpoint c with
    | error f => exact Or.inr ⟨[], [], c, rest, f, rfl, .nil, hc⟩
    | ok endpoint =>
      have hdescribes := readEndpoint_eq_ok.mp hc
      rcases ih with ⟨endpoints, hall⟩ | ⟨before, endpoints, c', after, f, rfl, hall, hf⟩
      · exact Or.inl ⟨endpoint :: endpoints, .cons hdescribes hall⟩
      · exact Or.inr ⟨c :: before, endpoint :: endpoints, c', after, f, rfl,
          .cons hdescribes hall, hf⟩

end Loop

section Start
variable {jsonRead : String → Except StdException Json} {file : Option String} {text : String}
variable {configFilePath : String} {config : Json} {created : List (Exchange × Endpoint)}

theorem createConnectors_of_read (hread : jsonRead text = .ok config) :
    createConnectors jsonRead (some text) configFilePath =
      (config.elements.foldlM createConnector []).mapError .fault := by
  simp only [createConnectors, hread]

theorem createConnectors_eq_ok :
    createConnectors jsonRead file configFilePath = .ok created ↔
      ∃ text config endpoints, file = some text ∧ jsonRead text = .ok config ∧
        List.Forall₂ Json.Describes config.elements endpoints ∧
          created = connectorsFor endpoints := by
  constructor
  · intro h
    cases file with
    | none => cases h
    | some text =>
      cases hread : jsonRead text with
      | error e => simp [createConnectors, hread] at h
      | ok config =>
        rw [createConnectors_of_read hread] at h
        obtain ⟨endpoints, hall⟩ | ⟨before, endpoints, c, after, f, helements, hall, hf⟩ :=
          describes_or_fault config.elements
        · rw [foldlM_of_describes hall] at h
          exact ⟨text, config, endpoints, rfl, hread, hall, (Except.ok.inj h).symm⟩
        · rw [helements, foldlM_of_fault hall hf] at h
          cases h
  · rintro ⟨text, config, endpoints, rfl, hread, hall, rfl⟩
    rw [createConnectors_of_read hread, foldlM_of_describes hall]
    rfl

theorem createConnectors_eq_fault {f : Fault} :
    createConnectors jsonRead file configFilePath = .error (.fault f) ↔
      ∃ text, file = some text ∧ ((∃ e, jsonRead text = .error e ∧ f = .exception e) ∨
        ∃ config before endpoints c after, jsonRead text = .ok config ∧
          config.elements = before ++ c :: after ∧
            List.Forall₂ Json.Describes before endpoints ∧ readEndpoint c = .error f) := by
  constructor
  · intro h
    cases file with
    | none => cases h
    | some text =>
      refine ⟨text, rfl, ?_⟩
      cases hread : jsonRead text with
      | error e =>
        simp only [createConnectors, hread, Except.error.injEq, StartError.fault.injEq] at h
        exact Or.inl ⟨e, rfl, h.symm⟩
      | ok config =>
        rw [createConnectors_of_read hread] at h
        obtain ⟨endpoints, hall⟩ | ⟨before, endpoints, c, after, f', helements, hall, hf⟩ :=
          describes_or_fault config.elements
        · rw [foldlM_of_describes hall] at h
          cases h
        · rw [helements, foldlM_of_fault hall hf] at h
          obtain rfl : f' = f := StartError.fault.inj (Except.error.inj h)
          exact Or.inr ⟨config, before, endpoints, c, after, rfl, helements, hall, hf⟩
  · rintro ⟨text, rfl, ⟨e, he, rfl⟩ | ⟨config, before, endpoints, c, after, hread, helements, hall,
      hf⟩⟩
    · simp only [createConnectors, he]
    · rw [createConnectors_of_read hread, helements, foldlM_of_fault hall hf]
      rfl

end Start

/-- The start succeeds just where every entry has the four texts, and then there is a connector for
each known name, in order; else the first entry without them decides how it ends. -/
theorem create_connectors_iff (jsonRead : String → Except StdException Json) (file : Option String)
    (configFilePath : String) :
    (∀ created, createConnectors jsonRead file configFilePath = .ok created ↔
      ∃ text config endpoints, file = some text ∧ jsonRead text = .ok config ∧
        List.Forall₂ Json.Describes config.elements endpoints ∧
          created = connectorsFor endpoints) ∧
    (∀ f, createConnectors jsonRead file configFilePath = .error (.fault f) ↔
      ∃ text, file = some text ∧ ((∃ e, jsonRead text = .error e ∧ f = .exception e) ∨
        ∃ config before endpoints c after, jsonRead text = .ok config ∧
          config.elements = before ++ c :: after ∧
            List.Forall₂ Json.Describes before endpoints ∧ readEndpoint c = .error f)) ∧
    ∀ what, createConnectors jsonRead file configFilePath = .error (.runtimeError what) ↔
      file = none ∧ what = "Cannot open connectors.json" ++ configFilePath := by
  refine ⟨fun _ => createConnectors_eq_ok, fun _ => createConnectors_eq_fault, fun what => ?_⟩
  cases file with
  | none => simp [createConnectors, eq_comm]
  | some text =>
    cases hread : jsonRead text with
    | error e => simp [createConnectors, hread]
    | ok config =>
      rw [createConnectors_of_read hread]
      cases config.elements.foldlM createConnector [] <;> simp [Except.mapError]

/-- The chain of comparisons of `name_` in the handler of the ping timer. Without a match no ping
is configured. -/
def pingByName (name : String) : Option Operation :=
  if name = "Binance" then some .ping
  else if name = "OKX" ∨ name = "Bybit" then some .jsonPing
  else if name = "Bitget" then some .jsonPing
  else none

theorem mem_connectorsFor {endpoints : List Endpoint} {x : Exchange × Endpoint}
    (h : x ∈ connectorsFor endpoints) :
    x.2 ∈ endpoints ∧ connectorFor x.2.name = some x.1 := by
  obtain ⟨endpoint, hmem, hx⟩ := List.mem_filterMap.mp h
  obtain ⟨exchange, hknown, rfl⟩ := Option.map_eq_some_iff.mp hx
  exact ⟨hmem, hknown⟩

theorem pingByName_of_connectorFor {name : String} {exchange : Exchange}
    (h : connectorFor name = some exchange) :
    exchange ≠ .bitget ∧ pingByName name = some (pingOperation exchange) := by
  unfold connectorFor at h
  split_ifs at h with hbinance hokx hbybit
  · obtain rfl := Option.some.inj h
    exact ⟨nofun, by simp [pingByName, hbinance, pingOperation]⟩
  · obtain rfl := Option.some.inj h
    exact ⟨nofun, by simp [pingByName, hokx, pingOperation]⟩
  · obtain rfl := Option.some.inj h
    exact ⟨nofun, by simp [pingByName, hbybit, pingOperation]⟩

section Running
variable {D : Type} [LinearOrder D] [Zero D] [Add D] [OfNumeral D]
variable {jsonParse : String → Except StdException Json} {p p' : Process D} {e : ProcessEvent}
variable {events : List ProcessEvent}

theorem map_exchange_step (hs : p.step jsonParse e = some p') :
    p'.connectors.map Connector.exchange = p.connectors.map Connector.exchange := by
  cases Process.transition_of_step hs with
  | @connector i ce c c' s hmain hc hstep hserver =>
    refine List.ext_getElem? fun k => ?_
    rw [List.map_set, exchange_step hstep, List.getElem?_set, List.getElem?_map]
    split_ifs with hk hlt
    · rw [← hk, hc]
      rfl
    · have hlt' : k < p.connectors.length := hk ▸ (List.getElem?_eq_some_iff.mp hc).1
      simp [hk, hlt'] at hlt
    · rfl
  | _ => rfl

theorem map_exchange_run {exchanges : List Exchange}
    (hrun : run (Process.step jsonParse) (Process.initial exchanges : Process D) events = some p) :
    p.connectors.map Connector.exchange = exchanges := by
  refine invariant (I := fun t : Process D => t.connectors.map Connector.exchange = exchanges) ?_
    (fun _ _ _ h hs => (map_exchange_step hs).trans h) hrun
  rw [Process.initial, List.map_map]
  exact List.map_id _

/-- A process that has been started has at every moment just the connectors of its configuration, in
their order, as feeds of the aggregator, too. Each of them pings as its name demands. -/
theorem configured_process {jsonRead : String → Except StdException Json}
    {files : String → Option String} {argv : List String}
    (hstart : startProcess jsonRead files argv = .ok p)
    (hrun : run (Process.step jsonParse) p events = some p') :
    ∃ text config endpoints, files (configFile argv) = some text ∧ jsonRead text = .ok config ∧
      List.Forall₂ Json.Describes config.elements endpoints ∧
      p'.connectors.map Connector.exchange = (connectorsFor endpoints).map Prod.fst ∧
      p'.server.connectors.map Feed.exchange = (connectorsFor endpoints).map Prod.fst ∧
      ∀ x ∈ connectorsFor endpoints, x.1 ≠ .bitget ∧ x.2 ∈ endpoints ∧
        pingByName x.2.name = some (pingOperation x.1) := by
  obtain ⟨created, hcreated, rfl⟩ :
      ∃ created, createConnectors jsonRead (files (configFile argv)) (configFile argv) =
        .ok created ∧ Process.initial (created.map Prod.fst) = p := by
    unfold startProcess at hstart
    cases hcreated : createConnectors jsonRead (files (configFile argv)) (configFile argv) with
    | error e => simp [hcreated, Except.map] at hstart
    | ok created => exact ⟨created, rfl, Except.ok.inj (hcreated ▸ hstart)⟩
  obtain ⟨text, config, endpoints, hfile, hread, hall, rfl⟩ := createConnectors_eq_ok.mp hcreated
  refine ⟨text, config, endpoints, hfile, hread, hall, map_exchange_run hrun, ?_, fun x hx => ?_⟩
  · obtain ⟨serverEvents, hcomposed⟩ := Process.composed_run hrun
    have hacc := accounted_run hcomposed.server
    refine List.ext_getElem? fun i => ?_
    rw [List.getElem?_map]
    cases hc : p'.server.connectors[i]? with
    | none =>
      have hge := List.getElem?_eq_none_iff.mp hc
      rw [hacc.length_eq] at hge
      exact (List.getElem?_eq_none hge).symm
    | some c => exact (hacc.replayed i c hc).1.symm
  · obtain ⟨hmem, hknown⟩ := mem_connectorsFor hx
    obtain ⟨hne, hping⟩ := pingByName_of_connectorFor hknown
    exact ⟨hne, hmem, hping⟩

end Running

section Example

def configText : String :=
  "[\x7b\"name\":\"Kraken\",\"host\":\"ws.kraken.com\"," ++
    "\"port\":\"443\",\"path\":\"/v2\"\x7d," ++
    "\x7b\"name\":\"Bybit\",\"host\":\"stream.bybit.com\"," ++
    "\"port\":\"443\",\"path\":\"/v5/public/spot\"\x7d]"

def decodeConfig : String → Except StdException Json :=
  decodeTable
    [(configText, .array
      [.object [("host", .string "ws.kraken.com"), ("name", .string "Kraken"),
        ("path", .string "/v2"), ("port", .string "443")],
      .object [("host", .string "stream.bybit.com"), ("name", .string "Bybit"),
        ("path", .string "/v5/public/spot"), ("port", .string "443")]])]

def exampleFiles (path : String) : Option String :=
  if path = "exchanges.json" then some configText else none

theorem configured_process_example :
    ∃ p : Process ℚ, startProcess decodeConfig exampleFiles ["server", "exchanges.json"] =
        .ok (Process.initial [.bybit] : Process ℚ) ∧
      run (Process.step (decodeTable [])) (Process.initial [.bybit]) [.enterRun] = some p ∧
      ∃ endpoints, p.connectors.map Connector.exchange =
        (connectorsFor endpoints).map Prod.fst := by
  have hread : createConnectors decodeConfig (exampleFiles (configFile ["server",
      "exchanges.json"])) (configFile ["server", "exchanges.json"]) =
        .ok [(.bybit, ⟨"Bybit", "stream.bybit.com", "443", "/v5/public/spot"⟩)] := by
    decide +kernel
  have hstart : startProcess (D := ℚ) decodeConfig exampleFiles ["server", "exchanges.json"] =
      .ok (Process.initial [.bybit]) := by
    rw [startProcess, hread]
    rfl
  obtain ⟨p, hrun, -⟩ := exists_of_run_any (P := fun p : Process ℚ => p.main = .idle)
    (show (run (Process.step (decodeTable [])) (Process.initial [.bybit])
      [.enterRun]).any _ = true by decide +kernel)
  obtain ⟨-, -, endpoints, -, -, -, hconnectors, -⟩ := configured_process hstart hrun
  exact ⟨p, hstart, hrun, endpoints, hconnectors⟩

end Example
end AsioAggregator
