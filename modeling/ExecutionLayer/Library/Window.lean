import Mathlib.Data.List.DropRight
import Mathlib.Tactic.Common

/-!
# The last entries of a stream

A bounded buffer that drops its oldest entries keeps the last `n` entries of
what came in, `List.rtake`.  The rule that matters is `rtake_append`: of two
parts of a stream, the last entries are those of the later part, preceded by
as many of the earlier part as there is room for.  From it follows that the
order in which a buffer is trimmed and extended does not matter
(`rtake_rtake_append`), and that entries which are put in front of a full
buffer are the first to go.
-/

namespace Window

universe u

variable {α : Type u}

theorem length_rtake (n : Nat) (l : List α) :
    (l.rtake n).length = min n l.length := by
  rw [List.rtake, List.length_drop]
  omega

theorem rtake_of_length_le
    {n : Nat} {l : List α} (h : l.length ≤ n) :
    l.rtake n = l := by
  rw [List.rtake, Nat.sub_eq_zero_of_le h, List.drop_zero]

theorem rtake_suffix (n : Nat) (l : List α) :
    l.rtake n <:+ l :=
  List.drop_suffix _ l

/-- The last entries of a stream in two parts. -/
theorem rtake_append (n : Nat) (l m : List α) :
    (l ++ m).rtake n = l.rtake (n - m.length) ++ m.rtake n := by
  rw [List.rtake, List.rtake, List.rtake, List.length_append]
  by_cases h : n ≤ m.length
  · have hskip : l.length + m.length - n = l.length + (m.length - n) := by
      omega
    rw [hskip, List.drop_append, Nat.sub_eq_zero_of_le h, Nat.sub_zero]
    simp
  · have hm : m.length - n = 0 := by
      omega
    have hskip : l.length + m.length - n = l.length - (n - m.length) := by
      omega
    rw [hm, hskip, List.drop_zero, List.drop_append_of_le_length]
    omega

/-- The last entries of the last entries. -/
theorem rtake_rtake (k n : Nat) (l : List α) :
    (l.rtake n).rtake k = l.rtake (min k n) := by
  rw [List.rtake, length_rtake, List.rtake, List.rtake, List.drop_drop]
  congr 1
  omega

/-- It does not matter whether the buffer was trimmed before. -/
theorem rtake_rtake_append (n : Nat) (l m : List α) :
    (l.rtake n ++ m).rtake n = (l ++ m).rtake n := by
  rw [rtake_append, rtake_append, rtake_rtake,
    Nat.min_eq_left (Nat.sub_le n m.length)]

/-- In front of a buffer, trimming the buffer first changes nothing. -/
theorem rtake_append_rtake (n : Nat) (l m : List α) :
    (l ++ m.rtake n).rtake n = (l ++ m).rtake n := by
  have hroom : n - min n m.length = n - m.length := by
    omega
  rw [rtake_append, rtake_append, rtake_rtake, Nat.min_self, length_rtake,
    hroom]

/-- In front of a full buffer there is no room. -/
theorem rtake_append_of_full
    {n : Nat} (l : List α) {m : List α} (h : m.length = n) :
    (l ++ m).rtake n = m := by
  rw [rtake_append, h, Nat.sub_self, List.rtake_zero, List.nil_append,
    rtake_of_length_le h.le]

/-- The entry that came in last is kept. -/
theorem getLast?_rtake {n : Nat} (hn : 0 < n) (l : List α) :
    (l.rtake n).getLast? = l.getLast? := by
  induction l using List.reverseRecOn with
  | nil =>
      rw [List.rtake_nil]
  | append_singleton l a ih =>
      have hone : [a].rtake n = [a] := rtake_of_length_le hn
      rw [rtake_append, hone, List.getLast?_concat, List.getLast?_concat]

/-- An entry that comes in last stands behind the entry that was last. -/
theorem rtake_concat_of_lt
    {n : Nat} (hn : 1 < n) {l : List α} {a : α}
    (ha : l.getLast? = some a) (b : α) :
    ∃ front, (l ++ [b]).rtake n = front ++ [a, b] := by
  obtain ⟨init, rfl⟩ := List.getLast?_eq_some_iff.mp ha
  have hsplit : init ++ [a] ++ [b] = init ++ [a, b] := by
    simp
  refine ⟨init.rtake (n - 2), ?_⟩
  rw [hsplit, rtake_append, rtake_of_length_le (l := [a, b])]
  · rfl
  · exact hn

end Window
