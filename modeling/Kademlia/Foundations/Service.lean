import Mathlib.Data.List.Basic
import Mathlib.Logic.Function.Basic

/-!
Services that many clients call at once.

A client asks, is served, and takes the answer; meanwhile the others do so too. What it
is served with may depend on what is there at that time (`reply`). Whatever the order of
these events, a client gets what was made of its own call, and that was made once.
-/

namespace Kademlia.Foundations.Service

variable {Client Call Reply Result : Type}

inductive State (Call Result : Type)
  | idle
  | asked (call : Call)
  | answered (result : Result)

inductive Event (Call Reply Result : Type)
  | ask (call : Call)
  | serve (reply : Reply)
  | answer (result : Result)
  | refuse

/-- What is made of a call; nothing for calls that are never served. -/
abbrev Outcome (Call Reply Result : Type) := Call → Reply → Option Result

variable (result : Outcome Call Reply Result)

inductive Step : State Call Result → Event Call Reply Result → State Call Result → Prop
  | ask (call : Call) : Step .idle (.ask call) (.asked call)
  | serve {call : Call} {reply : Reply} {value : Result} (h : result call reply = some value) :
      Step (.asked call) (.serve reply) (.answered value)
  | answer (value : Result) : Step (.answered value) (.answer value) .idle
  | refuse : Step .idle .refuse .idle

inductive Run : State Call Result → List (Event Call Reply Result) → State Call Result → Prop
  | nil (s : State Call Result) : Run s [] s
  | cons {s t u : State Call Result} {event : Event Call Reply Result}
      {events : List (Event Call Reply Result)} (h : Step result s event t)
      (hrest : Run t events u) : Run s (event :: events) u

/-- A step of the service: nothing happens, or something happens to one client. -/
inductive Move [DecidableEq Client] : (Client → State Call Result) →
    Option (Client × Event Call Reply Result) → (Client → State Call Result) → Prop
  | rest (a : Client → State Call Result) : Move a none a
  | act {a : Client → State Call Result} {client : Client} {event : Event Call Reply Result}
      {s : State Call Result} (h : Step result (a client) event s) :
      Move a (some (client, event)) (Function.update a client s)

inductive Moves [DecidableEq Client] : (Client → State Call Result) →
    List (Option (Client × Event Call Reply Result)) → (Client → State Call Result) → Prop
  | nil (a : Client → State Call Result) : Moves a [] a
  | cons {a b c : Client → State Call Result} {event : Option (Client × Event Call Reply Result)}
      {events : List (Option (Client × Event Call Reply Result))} (h : Move result a event b)
      (hrest : Moves b events c) : Moves a (event :: events) c

/-- What happens to one client in a run of the service. -/
def eventsOf [DecidableEq Client] (client : Client)
    (events : List (Option (Client × Event Call Reply Result))) :
    List (Event Call Reply Result) :=
  events.filterMap fun event => (event.filter fun e => e.1 = client).map Prod.snd

variable {result}

/-- To a client, a run of the service is a run of its own. -/
theorem Moves.run [DecidableEq Client] {a b : Client → State Call Result}
    {events : List (Option (Client × Event Call Reply Result))} (h : Moves result a events b)
    (client : Client) : Run result (a client) (eventsOf client events) (b client) := by
  induction h with
  | nil a => exact .nil _
  | cons hmove _ ih =>
      cases hmove with
      | rest => exact ih
      | @act other event s hstep =>
          by_cases hother : other = client
          · subst hother
            rw [Function.update_self] at ih
            rw [eventsOf, List.filterMap_cons_some (b := event) (by simp)]
            exact .cons hstep ih
          · rw [Function.update_of_ne (Ne.symm hother)] at ih
            rw [eventsOf, List.filterMap_cons_none (by simp [hother])]
            exact ih

/-! ### Answers -/

/-- What the last events of a client were, by where it is. -/
def Recent (result : Outcome Call Reply Result) (history : List (Event Call Reply Result)) :
    State Call Result → Prop
  | .idle => True
  | .asked call => ∃ before, history = before ++ [.ask call]
  | .answered value => ∃ before call reply,
      history = before ++ [.ask call, .serve reply] ∧ result call reply = some value

theorem Step.recent {s t : State Call Result} {event : Event Call Reply Result}
    {history : List (Event Call Reply Result)} (h : Step result s event t)
    (hs : Recent result history s) : Recent result (history ++ [event]) t := by
  cases h with
  | ask call => exact ⟨history, rfl⟩
  | @serve call reply value hvalue =>
      obtain ⟨before, rfl⟩ := hs
      exact ⟨before, call, reply, by simp, hvalue⟩
  | answer value => trivial
  | refuse => trivial

theorem Run.answer_recent {s u : State Call Result}
    {events history : List (Event Call Reply Result)}
    (h : Run result s events u) (hs : Recent result history s)
    {before after : List (Event Call Reply Result)} {value : Result}
    (hevents : events = before ++ .answer value :: after) :
    Recent result (history ++ before) (.answered value) := by
  induction h generalizing history before with
  | nil => simp at hevents
  | cons hstep _ ih =>
      cases before with
      | nil =>
          obtain ⟨rfl, -⟩ := List.cons.inj hevents
          cases hstep
          simpa using hs
      | cons event before =>
          obtain ⟨rfl, hrest⟩ := List.cons.inj hevents
          simpa using ih (hstep.recent hs) hrest

/-- A client that was idle gets what was made of its last call, right after that was made. -/
theorem Run.answer {u : State Call Result} {before after : List (Event Call Reply Result)}
    {value : Result} (h : Run result .idle (before ++ .answer value :: after) u) :
    ∃ earlier call reply, before = earlier ++ [.ask call, .serve reply] ∧
      result call reply = some value := by
  have hidle : Recent result ([] : List (Event Call Reply Result)) .idle := trivial
  exact h.answer_recent hidle rfl

end Kademlia.Foundations.Service
