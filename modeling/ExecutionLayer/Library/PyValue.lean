import Mathlib.Algebra.Order.Ring.Rat
import Mathlib.Data.List.Basic
import Mathlib.Tactic.Common

/-!
# Values of Python

What a JSON library of Python makes of a text, and the operations on it that
raise or not as the value's type has it; nothing stands for an exception.
Unlike a JSON number, a float may be infinite or not a number: such literals
are read, and `float` makes such values of texts.

Finite floats are rationals, and texts are sequences of characters.
-/

namespace PyLib

/-- A float. -/
inductive PyFloat where
  | finite (x : ℚ)
  | inf (negative : Bool)
  | nan
deriving DecidableEq, Repr

namespace PyFloat

/-- The number, if it is one that JSON can write. -/
def rat : PyFloat → Option ℚ
  | finite x => some x
  | _ => none

/-- `x > 0` -/
def positive : PyFloat → Bool
  | finite x => 0 < x
  | inf negative => !negative
  | nan => false

end PyFloat

/-- A value that was loaded. -/
inductive PyValue where
  | none
  | bool (b : Bool)
  | int (n : Int)
  | float (x : PyFloat)
  | str (s : String)
  | list (items : List PyValue)
  | dict (items : List (String × PyValue))

namespace PyValue

/-- `d.get(key)`, or nothing if the key is not there. -/
def find (items : List (String × PyValue)) (key : String) : Option PyValue :=
  items.lookup key

/-- The text of a string. -/
def text : PyValue → Option String
  | str s => some s
  | _ => .none

/-- `v == text` -/
def isText (s : String) (v : Option PyValue) : Bool :=
  v.bind text = some s

/-- `bool(v)` -/
def truthy : PyValue → Bool
  | none => false
  | bool b => b
  | int n => n ≠ 0
  | float x => x ≠ .finite 0
  | str s => s ≠ ""
  | list items => !items.isEmpty
  | dict items => !items.isEmpty

/-- The entries over which a loop iterates. -/
def entries : PyValue → Option (List PyValue)
  | list items => some items
  | dict items => some (items.map fun e => str e.1)
  | str s => some (s.toList.map fun c => str c.toString)
  | _ => .none

/-- `v[i]`; a dictionary has no integers among its keys. -/
def cellAt (v : PyValue) (i : Nat) : Option PyValue :=
  match v with
  | list items => items[i]?
  | str s => s.toList[i]?.map fun c => str c.toString
  | _ => .none

/-- What `float` makes of a number. -/
def number : PyValue → Option PyFloat
  | int n => some (.finite n)
  | float x => some x
  | _ => .none

/-- What `int` makes of an integer. -/
def integer : PyValue → Option Int
  | int n => some n
  | _ => .none

end PyValue

/-- What is made of rows each of which may raise or be passed over. -/
theorem mem_filterMap_mapM_iff
    {α β : Type} {f : β → Option (Option α)} {rows : List β}
    {out : List (Option α)} (h : rows.mapM f = some out) {x : α} :
    x ∈ out.filterMap id ↔ ∃ row ∈ rows, f row = some (some x) := by
  induction rows generalizing out with
  | nil =>
      cases h
      simp
  | cons row rows ih =>
      simp only [List.mapM_cons, Option.bind_eq_bind,
        Option.bind_eq_some_iff] at h
      obtain ⟨made, hrow, rest, hrest, h⟩ := h
      cases h
      rw [List.filterMap_cons, List.exists_mem_cons_iff, hrow,
        ← ih hrest]
      cases made with
      | none =>
          simp
      | some y =>
          simp [eq_comm]

end PyLib
