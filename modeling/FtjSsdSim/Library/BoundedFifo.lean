import Mathlib

/-!
# Bounded queues

The queue a ring buffer stands for: its items in the order they will leave, and how many have left
before them.  A push into a queue of `C` items is refused, and so is a pop from an empty one.

* `push_full`, `push_room`, `pop_empty`, `pop_cons` — what a call does, by what the queue holds;
* `push_length_le`, `pop_length_le` — the queue never holds more than `C` items.
-/

namespace FtjSsdSim.Library

structure Fifo (T : Type*) where
  taken : ℕ
  items : List T

namespace Fifo

variable {T : Type*}

/-- The queue nothing was pushed to. -/
def empty (T : Type*) : Fifo T := ⟨0, []⟩

/-- The number of items pushed so far. -/
def pushed (f : Fifo T) : ℕ := f.taken + f.items.length

/-- The queue after a push, if it takes it. -/
def push (C : ℕ) (f : Fifo T) (v : T) : Option (Fifo T) :=
  if f.items.length = C then none else some { f with items := f.items ++ [v] }

/-- The item that leaves and the queue behind it. -/
def pop (f : Fifo T) : Option (T × Fifo T) :=
  match f.items with
  | [] => none
  | v :: items => some (v, ⟨f.taken + 1, items⟩)

variable {C : ℕ} {f : Fifo T}

theorem push_full (h : f.items.length = C) (v : T) : f.push C v = none := if_pos h

theorem push_room (h : f.items.length ≠ C) (v : T) :
    f.push C v = some { f with items := f.items ++ [v] } := if_neg h

theorem pop_empty (h : f.items = []) : f.pop = none := by rw [pop, h]

theorem pop_cons {v : T} {items : List T} (h : f.items = v :: items) :
    f.pop = some (v, ⟨f.taken + 1, items⟩) := by rw [pop, h]

theorem push_length_le {f' : Fifo T} {v : T} (hle : f.items.length ≤ C) (h : f.push C v = some f') :
    f'.items.length ≤ C := by
  by_cases hfull : f.items.length = C
  · rw [push_full hfull] at h
    cases h
  · rw [push_room hfull] at h
    obtain rfl := Option.some.inj h
    rw [List.length_append, List.length_singleton]
    omega

theorem pop_length_le {f' : Fifo T} {v : T} (hle : f.items.length ≤ C) (h : f.pop = some (v, f')) :
    f'.items.length ≤ C := by
  cases hi : f.items with
  | nil =>
    rw [pop_empty hi] at h
    cases h
  | cons w items =>
    rw [pop_cons hi] at h
    obtain ⟨rfl, rfl⟩ := Prod.mk.inj (Option.some.inj h)
    rw [hi, List.length_cons] at hle
    exact Nat.le_of_succ_le hle

end Fifo

end FtjSsdSim.Library
