import Mathlib.Data.List.Basic

/-!
# Streams in segments

A byte stream arrives in segments of any size, and a receive returns what has arrived of the
number of bytes it asks for: at least one byte while the stream lasts, and none behind its end.
No two receives start at the same place of the stream before its end, so how much has arrived is
a function of how much is still unread, and any such function is allowed.
-/

namespace Segments

variable {α : Type} (arrived : ℕ → ℕ)

/-- How many elements a receive of `n` takes. -/
def taken (stream : List α) (n : ℕ) : ℕ := min n (max 1 (arrived stream.length))

/-- What a receive of `n` returns. -/
def receive (stream : List α) (n : ℕ) : List α := stream.take (taken arrived stream n)

/-- What a receive of `n` leaves unread. -/
def unread (stream : List α) (n : ℕ) : List α := stream.drop (taken arrived stream n)

section

variable (stream : List α) (n : ℕ)

/-- A receive splits the stream. -/
theorem receive_append_unread : receive arrived stream n ++ unread arrived stream n = stream :=
  List.take_append_drop _ _

/-- A receive returns no more than it asks for. -/
theorem receive_length_le : (receive arrived stream n).length ≤ n := by
  rw [receive, List.length_take, taken]
  omega

/-- What is received is no longer unread. -/
theorem unread_length :
    (receive arrived stream n).length + (unread arrived stream n).length = stream.length := by
  rw [← List.length_append, receive_append_unread]

/-- What is received stands at the start of the stream. -/
theorem receive_eq_take :
    receive arrived stream n = stream.take (receive arrived stream n).length := by
  rw [receive, List.length_take, ← List.take_eq_take_min]

/-- What is unread stands behind it. -/
theorem unread_eq_drop :
    unread arrived stream n = stream.drop (receive arrived stream n).length := by
  rw [unread, receive, List.length_take]
  rcases Nat.le_total (taken arrived stream n) stream.length with h | h
  · rw [Nat.min_eq_left h]
  · rw [Nat.min_eq_right h, List.drop_of_length_le h, List.drop_length]

/-- A longer start of the stream begins with what is received. -/
theorem receive_append_take : receive arrived stream n ++ (unread arrived stream n).take
    (n - (receive arrived stream n).length) = stream.take n := by
  conv_rhs => rw [← receive_append_unread arrived stream n]
  rw [List.take_append, List.take_of_length_le (receive_length_le arrived stream n)]

/-- A later rest of the stream is one of what is unread. -/
theorem unread_drop : (unread arrived stream n).drop (n - (receive arrived stream n).length) =
    stream.drop n := by
  conv_rhs => rw [← receive_append_unread arrived stream n]
  rw [List.drop_append, List.drop_of_length_le (receive_length_le arrived stream n),
    List.nil_append]

end

variable {arrived} {stream : List α} {n : ℕ}

/-- A receive returns something while the stream lasts. -/
theorem receive_length_pos (hn : 0 < n) (hstream : stream ≠ []) :
    0 < (receive arrived stream n).length := by
  have hlength := List.length_pos_of_ne_nil hstream
  rw [receive, List.length_take, taken]
  omega

/-- A receive returns all it asks for when that has arrived. -/
theorem receive_length_of_arrived (h : n ≤ arrived stream.length) (hn : n ≤ stream.length) :
    (receive arrived stream n).length = n := by
  rw [receive, List.length_take, taken]
  omega

/-- A receive returns less than it asks for when less has arrived. -/
theorem receive_length_lt (h : arrived stream.length < n) (hn : 1 < n) :
    (receive arrived stream n).length < n := by
  rw [receive, List.length_take, taken]
  omega

end Segments
