import Mathlib.Data.List.Basic

/-!
# Bounded first-in first-out queues

The abstract queue: a capacity and the items, oldest first. `push` needs room, `pop` an item.
-/

set_option autoImplicit false

namespace Backend

variable {T : Type*}

/-- A bounded queue, oldest item first. -/
structure Fifo (T : Type*) where
  cap : ℕ
  items : List T

namespace Fifo

/-- Append an item; `none` when the queue is full. -/
def push (q : Fifo T) (x : T) : Option (Fifo T) :=
  if q.items.length < q.cap then some { q with items := q.items ++ [x] } else none

/-- Take the oldest item; `none` when the queue is empty. -/
def pop (q : Fifo T) : Option (T × Fifo T) :=
  match q.items with
  | [] => none
  | x :: l => some (x, { q with items := l })

theorem push_eq_some {q : Fifo T} {x : T} {q' : Fifo T} :
    q.push x = some q' ↔ q.items.length < q.cap ∧ q' = { q with items := q.items ++ [x] } := by
  unfold push
  split_ifs with h
  · simp [h, eq_comm]
  · simp [h]

theorem pop_eq_some {q : Fifo T} {x : T} {q' : Fifo T} :
    q.pop = some (x, q') ↔ q.items = x :: q'.items ∧ q'.cap = q.cap := by
  obtain ⟨c, l⟩ := q
  obtain ⟨c', l'⟩ := q'
  cases l with
  | nil => simp [pop]
  | cons y l =>
    simp only [pop, Option.some.injEq, Prod.mk.injEq, mk.injEq, List.cons.injEq]
    constructor
    · rintro ⟨rfl, rfl, rfl⟩; exact ⟨⟨rfl, rfl⟩, rfl⟩
    · rintro ⟨⟨rfl, rfl⟩, rfl⟩; exact ⟨rfl, rfl, rfl⟩

end Fifo

end Backend
