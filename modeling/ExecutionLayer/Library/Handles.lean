import Mathlib.Data.Finset.Basic
import Mathlib.Data.Finset.SDiff
import Mathlib.Tactic.Common

/-!
# Handles that are used again

A system names what it hands out, such as processes and open files, by
numbers, and a number that was given back may be handed to somebody else at
once.  Whoever uses a number after giving it back may therefore use what
belongs to others.

A table records who holds which number, and which numbers of others our side
has used.  `Holds` says that our side holds exactly what it accounts for and
has never used anything else; every operation on a handle that is accounted
for keeps it, whatever others acquire and release in between.
-/

namespace Handles

universe u

variable {H : Type u} [DecidableEq H]

/-- The handles in use, and those of others that our side has used. -/
structure Table (H : Type u) [DecidableEq H] where
  ours : Finset H := ∅
  others : Finset H := ∅
  trespassed : Finset H := ∅

/-- What others do. -/
inductive Foreign (H : Type u) where
  | acquire (h : H)
  | release (h : H)
deriving DecidableEq

namespace Table

/-- A handle that is free to be handed out. -/
def Fresh (t : Table H) (h : H) : Prop :=
  h ∉ t.ours ∧ h ∉ t.others

instance (t : Table H) (h : H) : Decidable (t.Fresh h) := by
  unfold Fresh
  infer_instance

def acquire (t : Table H) (h : H) : Table H :=
  { t with ours := insert h t.ours }

/-- An operation on a handle, whoever holds it. -/
def use (t : Table H) (h : H) : Table H :=
  if h ∈ t.others then { t with trespassed := insert h t.trespassed }
  else t

/-- Our side gives a handle back. -/
def release (t : Table H) (h : H) : Table H :=
  { t.use h with ours := t.ours.erase h }

/-- The system takes a handle back. -/
def revoke (t : Table H) (h : H) : Table H :=
  { t with ours := t.ours.erase h }

/-- Others are handed what is free, and give back what they hold. -/
def foreign (t : Table H) : Foreign H → Option (Table H)
  | .acquire h =>
      if t.Fresh h then some { t with others := insert h t.others }
      else none
  | .release h => some { t with others := t.others.erase h }

/-- Our side holds these handles, and has used none of others'. -/
structure Holds (t : Table H) (held : Finset H) : Prop where
  ours : t.ours = held
  disjoint : ∀ h ∈ t.ours, h ∉ t.others
  clean : t.trespassed = ∅

theorem holds_empty : (({} : Table H)).Holds ∅ :=
  ⟨rfl, fun h hh => absurd hh (Finset.notMem_empty h), rfl⟩

theorem Holds.acquire
    {t : Table H} {held : Finset H} (ht : t.Holds held) {h : H}
    (hfresh : t.Fresh h) :
    (t.acquire h).Holds (insert h held) where
  ours := by
    rw [Table.acquire, ht.ours]
  disjoint := by
    intro k hk
    rcases Finset.mem_insert.mp hk with rfl | hk
    · exact hfresh.2
    · exact ht.disjoint k hk
  clean := ht.clean

/-- Using a handle that is held touches nobody else. -/
theorem Holds.use_eq
    {t : Table H} {held : Finset H} (ht : t.Holds held) {h : H}
    (hmem : h ∈ held) :
    t.use h = t := by
  rw [Table.use, if_neg]
  exact ht.disjoint h (ht.ours ▸ hmem)

theorem Holds.revoke
    {t : Table H} {held : Finset H} (ht : t.Holds held) (h : H) :
    (t.revoke h).Holds (held.erase h) where
  ours := by
    rw [Table.revoke, ht.ours]
  disjoint := fun k hk => ht.disjoint k (Finset.mem_of_mem_erase hk)
  clean := ht.clean

theorem Holds.release
    {t : Table H} {held : Finset H} (ht : t.Holds held) {h : H}
    (hmem : h ∈ held) :
    (t.release h).Holds (held.erase h) := by
  have hrelease : t.release h = t.revoke h := by
    rw [Table.release, ht.use_eq hmem, Table.revoke]
  rw [hrelease]
  exact ht.revoke h

/-- Others never get what our side holds. -/
theorem Holds.foreign
    {t t' : Table H} {held : Finset H} (ht : t.Holds held) {f : Foreign H}
    (hstep : t.foreign f = some t') :
    t'.Holds held := by
  cases f with
  | acquire h =>
      rw [Table.foreign] at hstep
      split_ifs at hstep with hfresh
      cases hstep
      refine ⟨ht.ours, fun k hk => ?_, ht.clean⟩
      rw [Finset.mem_insert, not_or]
      refine ⟨?_, ht.disjoint k hk⟩
      rintro rfl
      exact hfresh.1 hk
  | release h =>
      cases hstep
      refine ⟨ht.ours, fun k hk hmem => ?_, ht.clean⟩
      exact ht.disjoint k hk (Finset.mem_of_mem_erase hmem)

end Table

end Handles
