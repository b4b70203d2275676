import Mathlib.Data.List.Basic

/-!
# Queues that can be rewound

A queue keeps some of what was taken from its front, so that it can be put back. It is held in a list
and a position, in front of which is what was taken. What is put in at the front takes the room of
that, as far as there is any.
-/

/-- What was taken and is still there, and what was not taken yet. -/
@[ext] structure RewindQueue (α : Type*) where
  past : List α
  unread : List α

namespace RewindQueue

variable {α : Type*} (q : RewindQueue α) (l d : List α) (k n : ℕ)

def push : RewindQueue α := ⟨q.past, q.unread ++ d⟩

/-- A queue of which all was taken keeps nothing. -/
def consume : RewindQueue α :=
  if q.unread.length ≤ n then ⟨[], []⟩ else ⟨q.past ++ q.unread.take n, q.unread.drop n⟩

def rewind : RewindQueue α :=
  ⟨q.past.take (q.past.length - n), q.past.drop (q.past.length - n) ++ q.unread⟩

def forget : RewindQueue α := ⟨[], q.unread⟩

def insert : RewindQueue α := ⟨q.past, d ++ q.unread⟩

/-- In the room of what was taken last. -/
def overwrite : RewindQueue α := ⟨q.past.take (q.past.length - d.length), d ++ q.unread⟩

/-- The queue in a list with a position. -/
def split : RewindQueue α := ⟨l.take k, l.drop k⟩

variable {l d k n}

theorem length_unread_consume (q : RewindQueue α) (n : ℕ) :
    (q.consume n).unread.length = q.unread.length - n := by
  rw [consume]
  split
  · rename_i h
    exact (Nat.sub_eq_zero_of_le h).symm
  · exact List.length_drop

theorem length_past_split (h : k ≤ l.length) : (split l k).past.length = k := by
  rw [split, List.length_take, Nat.min_eq_left h]

theorem length_unread_split (l : List α) (k : ℕ) : (split l k).unread.length = l.length - k :=
  List.length_drop

theorem split_push (h : k ≤ l.length) : (split l k).push d = split (l ++ d) k := by
  rw [push, split, split, List.take_append_of_le_length h, List.drop_append_of_le_length h]

theorem split_consume_of_lt (h : k + n < l.length) : (split l k).consume n = split l (k + n) := by
  have hlt : ¬ (l.drop k).length ≤ n := by
    rw [List.length_drop]
    omega
  rw [consume, split, if_neg hlt, split, List.take_add, List.drop_drop]

theorem split_consume_of_le (h : l.length ≤ k + n) : (split l k).consume n = split [] 0 := by
  have hle : (l.drop k).length ≤ n := by
    rw [List.length_drop]
    omega
  rw [consume, split, if_pos hle]
  rfl

theorem split_rewind (hn : n ≤ k) (h : k ≤ l.length) : (split l k).rewind n = split l (k - n) := by
  have hk : (l.take k).length - n = k - n := by rw [List.length_take, Nat.min_eq_left h]
  have hdrop : l.drop k = (l.drop (k - n)).drop n := by rw [List.drop_drop, Nat.sub_add_cancel hn]
  rw [rewind, split, split]
  dsimp only
  rw [hk, List.take_take, Nat.min_eq_left (Nat.sub_le k n), List.drop_take, Nat.sub_sub_self hn,
    hdrop, List.take_append_drop]

theorem split_insert (h : k ≤ l.length) :
    (split l k).insert d = split (l.take k ++ (d ++ l.drop k)) k := by
  have hlen : (l.take k).length = k := by rw [List.length_take, Nat.min_eq_left h]
  rw [insert, split, split, List.take_left' hlen, List.drop_left' hlen]

theorem split_overwrite (hd : d.length ≤ k) (h : k ≤ l.length) :
    (split l k).overwrite d =
      split (l.take (k - d.length) ++ (d ++ l.drop k)) (k - d.length) := by
  have hlen : (l.take (k - d.length)).length = k - d.length := by
    rw [List.length_take]
    omega
  have hk : (l.take k).length - d.length = k - d.length := by
    rw [List.length_take, Nat.min_eq_left h]
  rw [overwrite, split, split, List.take_left' hlen, List.drop_left' hlen]
  dsimp only
  rw [hk, List.take_take, Nat.min_eq_left (Nat.sub_le _ _)]

end RewindQueue
