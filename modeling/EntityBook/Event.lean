import EntityBook.Text.Diagnostic
import EntityBook.Value.Entity

/-! # Change events

  A bus hands every event to its handlers in the order of their subscription.
  While it is suspended, events are queued; the resume that matches the first
  suspend delivers them as one batch.

  What a handler does with an event is its own affair. The bus keeps what it
  delivered and to whom, latest last.
-/

namespace EntityBook

/-- A change to a book's contents. -/
inductive ChangeEvent where
  /-- The entity is live from now on. -/
  | created (entity : Entity)
  /-- The entity was changed. -/
  | modified (entity : Entity)
  /-- The entity is live no more. -/
  | destroyed (entity : Entity)
  /-- Events raised while the bus was suspended, in order. -/
  | batch (events : List ChangeEvent)

namespace ChangeEvent

/-- The number of events that are no batches. -/
def size : ChangeEvent → Nat
  | batch es => sizes es
  | _ => 1
where
  /-- The number of such events in a list. -/
  sizes : List ChangeEvent → Nat
    | [] => 0
    | e :: rest => e.size + sizes rest

/-- The events that are no batches, in order. -/
def flatten : ChangeEvent → List ChangeEvent
  | batch es => flattenAll es
  | e => [e]
where
  /-- Those of a list of events. -/
  flattenAll : List ChangeEvent → List ChangeEvent
    | [] => []
    | e :: rest => e.flatten ++ flattenAll rest

end ChangeEvent

/-- The number under which a handler was subscribed. -/
abbrev HandlerId := Nat

/-- An event and the handlers that received it. -/
structure Delivery where
  /-- The handlers, in the order of the calls. -/
  receivers : List HandlerId
  /-- The event. -/
  event : ChangeEvent

/-- The subscribed handlers and the events held back for them. -/
structure EventBus where
  /-- The handlers in the order of their subscription. -/
  handlers : List HandlerId := []
  /-- The number for the next handler. -/
  nextId : HandlerId := 0
  /-- The number of suspends that are not matched yet. It is not bounded: the overflow of a
      counter of 32 bits is left out. -/
  depth : Nat := 0
  /-- The events held back, in order. -/
  queued : List ChangeEvent := []
  /-- What was delivered, latest last. -/
  delivered : List Delivery := []

namespace EventBus

/-- A bus without handlers. -/
def empty : EventBus := {}

instance : Inhabited EventBus := ⟨empty⟩

/-- Subscribes a handler; answers its number. -/
def subscribe (b : EventBus) : HandlerId × EventBus :=
  (b.nextId, { b with handlers := b.handlers ++ [b.nextId], nextId := b.nextId + 1 })

/-- Removes a handler; answers whether it was subscribed. -/
def unsubscribe (b : EventBus) (id : HandlerId) : Bool × EventBus :=
  (b.handlers.contains id, { b with handlers := b.handlers.filter fun h => h != id })

/-- Calls every handler with an event. -/
def deliver (b : EventBus) (e : ChangeEvent) : EventBus :=
  { b with delivered := b.delivered ++ [⟨b.handlers, e⟩] }

/-- Holds events back until the matching resume. -/
def suspend (b : EventBus) : EventBus := { b with depth := b.depth + 1 }

/-- Undoes one suspend. When none is left, the queued events are delivered as one
    batch. Without a suspend to undo nothing happens. -/
def resume (b : EventBus) : EventBus :=
  match b.depth with
  | 0 => b
  | 1 =>
    if b.queued.isEmpty then { b with depth := 0 }
    else ({ b with depth := 0, queued := [] }).deliver (.batch b.queued)
  | n + 2 => { b with depth := n + 1 }

/-- Whether events are held back. -/
def isSuspended (b : EventBus) : Bool := 0 < b.depth

/-- Raises an event. -/
def emit (b : EventBus) (e : ChangeEvent) : EventBus :=
  if b.isSuspended then { b with queued := b.queued ++ [e] } else b.deliver e

/-- How diagnostics show a bus. -/
def debug (b : EventBus) : String :=
  Text.showRecord "EventBus" [("handlers", Text.natText b.handlers.length),
    ("suspended", Text.natText b.depth), ("queued", Text.natText b.queued.length)]

end EventBus

end EntityBook
