import AsioAggregator.Lifecycle
import AsioAggregator.NoLostUpdate

/-!
# Connectors as the aggregator sees them

The aggregator is handed messages for its feeds, and a connector reads them from its connections.
Both come to the same local books: those of a connector are the replay of the messages that its
reads have handed over, whatever else has happened to it.
-/

namespace AsioAggregator

open Runs

variable {D : Type} [LinearOrder D]

def observeMessages (msgs : List String) (c : Connector D) (e : ConnectorEvent)
    (_ : Connector D) : List String :=
  msgs ++ (c.delivers e).toList.map Prod.snd

variable [Zero D] [OfNumeral D] {jsonParse : String → Except StdException Json}
variable {c c' : Connector D} {e : ConnectorEvent} {exchange : Exchange} {msgs : List String}
variable {events : List ConnectorEvent}

theorem View.handle_exchange {v v' : View D} {a : ℕ} {o : Outcome} {op : Operation}
    (h : v.handle jsonParse a o op = some v') : v'.exchange = v.exchange := by
  obtain ⟨ec, -, hfail⟩ | ⟨-, -, rfl⟩ | ⟨-, -, b, -, rfl⟩ := View.handle_cases h
  · exact (View.fail_frame hfail).1
  · rfl
  · rfl

theorem exchange_step (hs : c.step jsonParse e = some c') : c'.exchange = c.exchange := by
  cases e with
  | expire k => exact congrArg View.exchange (Connector.step_expire hs)
  | complete k o =>
    obtain ⟨p, -, -, hv⟩ := Connector.step_complete hs
    exact View.handle_exchange hv

theorem localBooks_step (hs : c.step jsonParse e = some c') :
    c.delivers e = none ∧ c'.localBooks = c.localBooks ∨
      ∃ a msg, c.delivers e = some (a, msg) ∧
        parseMessage jsonParse c.exchange msg c.localBooks = some c'.localBooks := by
  cases e with
  | expire k => exact Or.inl ⟨rfl, congrArg View.localBooks (Connector.step_expire hs)⟩
  | complete k o =>
    obtain ⟨p, hp, -, hv⟩ := Connector.step_complete hs
    simp only [Connector.delivers, hp, Option.bind_some]
    obtain ⟨ec, hf, hfail⟩ | ⟨-, hr, hstart⟩ | ⟨hf, -, b, hb, hnext⟩ := View.handle_cases hv
    · have hnone : ¬ (failure o p.operation = none ∧ handsOver o p.operation) := by simp [hf]
      exact Or.inl ⟨if_neg hnone, (View.fail_frame hfail).2.1⟩
    · obtain ⟨⟨d, hd⟩, -⟩ := restarts_eq_true_iff.mp hr
      have hnone : ¬ (failure o p.operation = none ∧ handsOver o p.operation) := by
        simp [hd, handsOver]
      exact Or.inl ⟨if_neg hnone, congrArg View.localBooks hstart⟩
    · have hbooks : c'.localBooks = b := congrArg View.localBooks hnext
      cases hh : handsOver o p.operation with
      | false =>
        rw [View.received_of_idle p.operation hh] at hb
        refine Or.inl ⟨if_neg fun h => Bool.false_ne_true h.2, ?_⟩
        exact hbooks.trans (Option.some.inj hb).symm
      | true =>
        rw [View.received_of_message p.operation hh] at hb
        exact Or.inr ⟨p.attempt, o.msg, if_pos ⟨hf, rfl⟩, hbooks ▸ hb⟩

/-- The local books are the replay of the messages delivered. -/
theorem replay_run
    (hrun : run (withHistory (Connector.step jsonParse) observeMessages)
      ((Connector.initial exchange : Connector D), []) events = some (c, msgs)) :
    c.exchange = exchange ∧ replay jsonParse exchange msgs = some c.localBooks := by
  refine invariant (I := fun x : Connector D × List String => x.1.exchange = exchange ∧
    replay jsonParse exchange x.2 = some x.1.localBooks) ⟨rfl, rfl⟩ ?_ hrun
  rintro ⟨t, ms⟩ e ⟨t', ms'⟩ ⟨hexchange, hreplay⟩ hstep
  obtain ⟨hs, rfl⟩ := withHistory_eq_some.mp hstep
  refine ⟨(exchange_step hs).trans hexchange, ?_⟩
  simp only at hreplay hexchange
  rcases localBooks_step hs with ⟨hnone, hbooks⟩ | ⟨a, msg, hmsg, hparse⟩
  · simp only [observeMessages, hnone, Option.toList_none, List.map_nil, List.append_nil, hreplay,
      hbooks]
  · simp only [observeMessages, hmsg, Option.toList_some, List.map_singleton, replay_concat,
      hreplay, Option.bind_some]
    rw [← hexchange]
    exact hparse

theorem feed_of_connector [Add D] {exchanges : List Exchange} {serverEvents : List ServerEvent}
    {s : Server D} {i : ℕ} (hi : exchanges[i]? = some exchange)
    (hserver : run (Server.step jsonParse) (Server.initial exchanges) serverEvents = some s)
    (hconnector : run (withHistory (Connector.step jsonParse) observeMessages)
      ((Connector.initial exchange : Connector D), []) events =
        some (c, messagesTo i serverEvents)) :
    s.connectors[i]? = some ⟨exchange, c.localBooks⟩ := by
  have hacc := accounted_run hserver
  have hlt : i < s.connectors.length := by
    rw [hacc.length_eq]
    exact (List.getElem?_eq_some_iff.mp hi).1
  obtain ⟨hexchange, hreplay⟩ := hacc.replayed i _ (List.getElem?_eq_getElem hlt)
  have hsame : exchange = s.connectors[i].exchange := Option.some.inj (hi.symm.trans hexchange)
  have hbooks : c.localBooks = s.connectors[i].localBooks := by
    rw [← hsame, (replay_run hconnector).2] at hreplay
    exact Option.some.inj hreplay
  rw [List.getElem?_eq_getElem hlt, hsame, hbooks]

end AsioAggregator
