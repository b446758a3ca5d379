import IPPD.Foundation.System

/-!
# First-in first-out channels

The purpose of a producer/consumer buffer, on its own: what was sent is what
was received followed by what is still pending, in the order of sending.
-/

namespace IPPD
namespace Foundation

structure Channel (item : Type u) where
  sent : List item
  received : List item
  pending : List item
  conserved : sent = received ++ pending

namespace Channel

variable {item : Type u}

inductive Event (item : Type u) where
  | send (x : item)
  | receive

def empty : Channel item where
  sent := []
  received := []
  pending := []
  conserved := rfl

def send (c : Channel item) (x : item) : Channel item where
  sent := c.sent ++ [x]
  received := c.received
  pending := c.pending ++ [x]
  conserved := by rw [c.conserved, List.append_assoc]

/-- Receive the oldest pending item; a receive from an empty channel is not
enabled. -/
def receive? (c : Channel item) : Option (Channel item) :=
  match h : c.pending with
  | [] => none
  | x :: rest =>
      some
        { sent := c.sent
          received := c.received ++ [x]
          pending := rest
          conserved := by
            rw [c.conserved, h, List.append_assoc]
            rfl }

def system (item : Type u) : System (Channel item) (Event item) where
  Init c := c = empty
  step
    | c, Event.send x => some (c.send x)
    | c, Event.receive => c.receive?

theorem receive?_of_pending {c : Channel item} {x : item} {rest : List item}
    (h : c.pending = x :: rest) :
    exists d : Channel item, c.receive? = some d ∧ d.sent = c.sent ∧
      d.received = c.received ++ [x] ∧ d.pending = rest := by
  rcases c with ⟨sent, received, pending, conserved⟩
  change pending = x :: rest at h
  subst h
  exact ⟨_, rfl, rfl, rfl, rfl⟩

end Channel
end Foundation
end IPPD
