import Mathlib.Data.List.TakeWhile
import Mathlib.Tactic.Common

/-!
# Texts as C sees them

A text is a sequence of characters and is stored as the bytes of its UTF-8
encoding.  A pointer to it says no more of it than what stands before the
first NUL (`cut`), which is all of a text that has none (`cut_eq_self_iff`),
and a formatted text keeps the bytes that its buffer has room for
(`snprintf`), whether or not they end with a character.
-/

namespace CText

/-- The character that ends a C string. -/
def nul : Char :=
  Char.ofNat 0

/-- What a `const char*` to the text says of it. -/
def cut (s : String) : String :=
  String.ofList (s.toList.takeWhile (· ≠ nul))

/-- A C string says all of the text. -/
def NoNul (s : String) : Prop :=
  nul ∉ s.toList

instance (s : String) : Decidable (NoNul s) := by
  unfold NoNul
  infer_instance

/-- The bytes of a text. -/
def bytes (s : String) : List UInt8 :=
  s.toList.flatMap String.utf8EncodeChar

/-- What is written into a buffer of `n` bytes, the NUL at its end apart. -/
def snprintf (n : Nat) (formatted : List UInt8) : List UInt8 :=
  formatted.take (n - 1)

/-- The second character does not fit. -/
example : snprintf 4 (bytes "éé") = [195, 169, 195] := by
  decide

theorem cut_eq_self_iff (s : String) : cut s = s ↔ NoNul s := by
  unfold cut NoNul
  rw [← String.toList_inj, String.toList_ofList, List.takeWhile_eq_self_iff]
  simp only [ne_eq, decide_not, Bool.not_eq_true', decide_eq_false_iff_not]
  constructor
  · exact fun h hmem => h nul hmem rfl
  · exact fun h c hc heq => h (heq ▸ hc)

end CText
