import ExecutionLayer.Library.MachineInt
import Mathlib.Algebra.Order.Ring.Rat
import Mathlib.Data.List.Basic
import Mathlib.Tactic.Common

/-!
# JSON values with throwing accessors

A parsed JSON document and the accessors of a typed JSON library.  An
accessor of type `T` returns a value when the stored value converts to `T`
and throws a type error otherwise; numbers convert to each other, and nothing
else does.

`Fits` lists the kinds that a row of cells must have for a fixed sequence of
accessors, and the `accepts` lemmas say that an accessor succeeds exactly on
the values of its kind.

`SameMembers` compares values as a parser sees them: an object is a map, and
the order in which its members were written is not part of it.
-/

namespace JsonLib

open MachineInt

/-- A JSON value.  The three number types are those of a parser that keeps
integers apart from floating-point numbers. -/
inductive Json where
  | null
  | boolean (b : Bool)
  | numberInteger (n : Int)
  | numberUnsigned (n : Nat)
  | numberFloat (x : ℚ)
  | string (s : String)
  | array (cells : List Json)
  | object (members : List (String × Json))

/-- The exception of an accessor that meets an incompatible value. -/
inductive TypeError where
  | mustBeString
  | mustBeNumber
deriving DecidableEq, Repr

namespace Json

/-- `get<std::string>()` -/
def getString : Json → Except TypeError String
  | .string s => .ok s
  | _ => .error .mustBeString

/-- `get<double>()` -/
def getDouble : Json → Except TypeError ℚ
  | .numberInteger n => .ok n
  | .numberUnsigned n => .ok n
  | .numberFloat x => .ok x
  | _ => .error .mustBeNumber

/-- The cast of a double to 64 bits: the fraction is cut off.  What does not
fit is undefined in C++; here it is the value of the x86-64 instruction. -/
def castInt64 (x : ℚ) : Int :=
  let n := x.num.tdiv x.den
  if FitsInt64 n then n else -2 ^ 63

/-- `get<std::int64_t>()` -/
def getInt64 : Json → Except TypeError Int
  | .numberInteger n => .ok (wrapInt64 n)
  | .numberUnsigned n => .ok (wrapInt64 n)
  | .numberFloat x => .ok (castInt64 x)
  | _ => .error .mustBeNumber

/-- What `find(key)` points to. -/
def find (members : List (String × Json)) (key : String) : Option Json :=
  members.lookup key

/-- `value(key, default)` with a string default. -/
def valueString (members : List (String × Json)) (key default : String) :
    Except TypeError String :=
  match find members key with
  | none => .ok default
  | some v => v.getString

/-- `value(key, default)` with a floating-point default. -/
def valueDouble (members : List (String × Json)) (key : String)
    (default : ℚ) : Except TypeError ℚ :=
  match find members key with
  | none => .ok default
  | some v => v.getDouble

/-- The strings of a list of values, others skipped. -/
def strings (cells : List Json) : List String :=
  cells.filterMap fun
    | .string s => some s
    | _ => none

/-- The number of a value that has one. -/
def number (v : Json) : Option ℚ :=
  v.getDouble.toOption

/-- The number of a value that has one, as a 64-bit integer. -/
def integer (v : Json) : Option Int :=
  v.getInt64.toOption

/-- The kinds of values that accessors ask for. -/
inductive Kind where
  | string
  | number
deriving DecidableEq, Repr

/-- The value has the kind. -/
def HasKind : Kind → Json → Prop
  | .string, .string _ => True
  | .number, .numberInteger _ => True
  | .number, .numberUnsigned _ => True
  | .number, .numberFloat _ => True
  | _, _ => False

/-- The first cells have the given kinds. -/
def Fits : List Kind → List Json → Prop
  | [], _ => True
  | _ :: _, [] => False
  | kind :: kinds, cell :: cells => HasKind kind cell ∧ Fits kinds cells

theorem getString_ok_iff (v : Json) :
    (∃ s, v.getString = .ok s) ↔ HasKind .string v := by
  cases v <;> simp [getString, HasKind]

theorem getDouble_ok_iff (v : Json) :
    (∃ x, v.getDouble = .ok x) ↔ HasKind .number v := by
  cases v <;> simp [getDouble, HasKind]

theorem getInt64_ok_iff (v : Json) :
    (∃ n, v.getInt64 = .ok n) ↔ HasKind .number v := by
  cases v <;> simp [getInt64, HasKind]

theorem exists_getString
    {v : Json} (h : HasKind .string v) :
    ∃ s, v = .string s := by
  cases v <;> simp [HasKind] at h ⊢

theorem exists_getDouble
    {v : Json} (h : HasKind .number v) :
    ∃ x, v.getDouble = .ok x ∧ v.number = some x := by
  obtain ⟨x, hx⟩ := (getDouble_ok_iff v).mpr h
  exact ⟨x, hx, by simp [number, hx, Except.toOption]⟩

theorem exists_getInt64
    {v : Json} (h : HasKind .number v) :
    ∃ n, v.getInt64 = .ok n ∧ v.integer = some n := by
  obtain ⟨n, hn⟩ := (getInt64_ok_iff v).mpr h
  exact ⟨n, hn, by simp [integer, hn, Except.toOption]⟩

/-! ### The order of members -/

/-- The same value, the members of objects perhaps in another order.  The
cells of an array are compared as they stand. -/
inductive SameMembers : Json → Json → Prop where
  | refl (v : Json) : SameMembers v v
  | object {ms ns : List (String × Json)}
      (hms : (ms.map Prod.fst).Nodup) (hns : (ns.map Prod.fst).Nodup)
      (h : ∀ key, Option.Rel SameMembers (find ms key) (find ns key)) :
      SameMembers (.object ms) (.object ns)

/-- Anything but an object has no members to reorder. -/
theorem SameMembers.eq_of_no_object
    {v w : Json} (h : SameMembers v w)
    (hv : ∀ members, v ≠ .object members) :
    w = v := by
  cases h with
  | refl =>
      rfl
  | object hms hns h =>
      exact absurd rfl (hv _)

/-- The members of one object are found in the other. -/
def FoundIn (ms ns : List (String × Json)) : Prop :=
  ∀ key v, find ms key = some v →
    ∃ v', find ns key = some v' ∧ SameMembers v v'

theorem SameMembers.exists_members
    {ms : List (String × Json)} {w : Json}
    (h : SameMembers (.object ms) w) :
    ∃ ns, w = .object ns ∧ FoundIn ms ns := by
  cases h with
  | refl =>
      exact ⟨ms, rfl, fun key v hv => ⟨v, hv, .refl v⟩⟩
  | @object _ ns hms hns h =>
      refine ⟨ns, rfl, ?_⟩
      intro key v hv
      have hrel := h key
      rw [hv] at hrel
      cases hns' : find ns key with
      | none =>
          rw [hns'] at hrel
          cases hrel
      | some v' =>
          rw [hns'] at hrel
          cases hrel with
          | some hvv' =>
              exact ⟨v', rfl, hvv'⟩

/-- A member that is no object is found as it is. -/
theorem FoundIn.find_eq
    {ms ns : List (String × Json)} (h : FoundIn ms ns)
    (key : String) {v : Json} (hfind : find ms key = some v)
    (hv : ∀ members, v ≠ .object members) :
    find ns key = some v := by
  obtain ⟨v', hns, hsame⟩ := h key v hfind
  rw [hns, hsame.eq_of_no_object hv]

end Json

/-- A sequence of accessors succeeds when each of them does. -/
theorem bind_ok_iff
    {ε α β : Type} {x : Except ε α} {f : α → Except ε β}
    {P : Prop} {Q : Prop}
    (hx : (∃ a, x = .ok a) ↔ P)
    (hf : ∀ a, (∃ b, f a = .ok b) ↔ Q) :
    (∃ b, (x >>= f) = .ok b) ↔ P ∧ Q := by
  cases x with
  | error e =>
      have hP : ¬ P := by
        rw [← hx]
        rintro ⟨a, h⟩
        cases h
      constructor
      · rintro ⟨b, h⟩
        cases h
      · rintro ⟨h, _⟩
        exact absurd h hP
  | ok a =>
      have hP : P := hx.mp ⟨a, rfl⟩
      constructor
      · intro h
        exact ⟨hP, (hf a).mp h⟩
      · rintro ⟨_, hQ⟩
        exact (hf a).mpr hQ

end JsonLib
