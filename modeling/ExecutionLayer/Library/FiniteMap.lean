import Mathlib.Data.Finmap
import Mathlib.Algebra.BigOperators.Group.Multiset.Basic
import Mathlib.Algebra.Order.BigOperators.Group.Multiset
import Mathlib.Algebra.Order.Ring.Rat
import Mathlib.Tactic.Common
import Mathlib.Tactic.Abel

/-!
# Finite maps: defaults, sums and mapped values

A finite map that is updated one key at a time carries sums over its entries
(a book value, a total of balances).  `FiniteMap.total g m` is the sum of
`g key value` over the entries of `m`.  The rule that matters is
`total_insert`: writing one key changes the total by the new contribution
minus the old one, and a key that was absent had contributed nothing.

`mapValues` applies a function to every stored value and keeps the keys.  The
last section has the few rules about maps that are kept as lists of entries.
-/

namespace FiniteMap

universe u v w

variable {κ : Type u} [DecidableEq κ]
variable {β : Type v}
variable {M : Type w} [AddCommGroup M]

/-- The value stored at a key, or a default. -/
def lookupD (m : Finmap fun _ : κ => β) (k : κ) (d : β) : β :=
  (m.lookup k).getD d

@[simp] theorem lookupD_insert_self
    (m : Finmap fun _ : κ => β) (k : κ) (b d : β) :
    lookupD (m.insert k b) k d = b := by
  simp [lookupD]

theorem lookupD_insert_of_ne
    (m : Finmap fun _ : κ => β) {k k' : κ} (b d : β)
    (h : k' ≠ k) :
    lookupD (m.insert k b) k' d = lookupD m k' d := by
  simp [lookupD, Finmap.lookup_insert_of_ne _ h]

/-- Sum of `g key value` over the entries of a map. -/
def total (g : κ → β → M) (m : Finmap fun _ : κ => β) : M :=
  (m.entries.map fun e => g e.1 e.2).sum

omit [DecidableEq κ] in
@[simp] theorem total_empty (g : κ → β → M) :
    total g (∅ : Finmap fun _ : κ => β) = 0 := by
  rfl

theorem total_insert_of_notMem
    (g : κ → β → M) {m : Finmap fun _ : κ => β} {k : κ}
    (b : β) (h : k ∉ m) :
    total g (m.insert k b) = g k b + total g m := by
  rw [total, total, Finmap.entries_insert_of_notMem h,
    Multiset.map_cons, Multiset.sum_cons]

theorem insert_erase_insert
    (m : Finmap fun _ : κ => β) (k : κ) (b : β) :
    (m.erase k).insert k b = m.insert k b := by
  refine Finmap.ext_lookup fun k' => ?_
  by_cases h : k' = k
  · subst h
    simp
  · rw [Finmap.lookup_insert_of_ne _ h, Finmap.lookup_insert_of_ne _ h,
      Finmap.lookup_erase_ne h]

theorem erase_of_lookup_eq_none
    {m : Finmap fun _ : κ => β} {k : κ} (h : m.lookup k = none) :
    m.erase k = m := by
  refine Finmap.ext_lookup fun k' => ?_
  by_cases heq : k' = k
  · subst heq
    rw [Finmap.lookup_erase, h]
  · rw [Finmap.lookup_erase_ne heq]

/-- The sum splits into one entry and the rest of the map. -/
theorem total_eq_add_erase
    (g : κ → β → M) {m : Finmap fun _ : κ => β} {k : κ} {b : β}
    (h : m.lookup k = some b) :
    total g m = g k b + total g (m.erase k) := by
  have hm : m.insert k b = m := by
    refine Finmap.ext_lookup fun k' => ?_
    by_cases hk : k' = k
    · subst hk
      simp [h]
    · rw [Finmap.lookup_insert_of_ne _ hk]
  calc
    total g m = total g ((m.erase k).insert k b) := by
      rw [insert_erase_insert, hm]
    _ = g k b + total g (m.erase k) :=
      total_insert_of_notMem g b Finmap.notMem_erase_self

/-- Writing one key moves the sum by the new contribution minus the old one.
A default whose contribution is zero stands for an absent key. -/
theorem total_insert
    (g : κ → β → M) (m : Finmap fun _ : κ => β) (k : κ)
    (b d : β) (hd : g k d = 0) :
    total g (m.insert k b) =
      total g m + (g k b - g k (lookupD m k d)) := by
  have hnew :
      total g (m.insert k b) = g k b + total g (m.erase k) := by
    rw [← insert_erase_insert]
    exact total_insert_of_notMem g b Finmap.notMem_erase_self
  rw [hnew]
  cases hk : m.lookup k with
  | none =>
      simp [lookupD, hk, hd, erase_of_lookup_eq_none hk, add_comm]
  | some c =>
      rw [total_eq_add_erase g hk]
      simp only [lookupD, hk, Option.getD_some]
      abel

/-- What a key contributes: nothing when it is absent. -/
def contribution (g : κ → β → M) (m : Finmap fun _ : κ => β) (k : κ) : M :=
  (m.lookup k).elim 0 (g k)

/-- A list of distinct keys that covers the map adds up to its sum. -/
theorem sum_contribution
    (g : κ → β → M) {m : Finmap fun _ : κ => β} {l : List κ}
    (hl : l.Nodup) (hcover : ∀ k ∈ m, k ∈ l) :
    (l.map (contribution g m)).sum = total g m := by
  induction l generalizing m with
  | nil =>
      have hempty : m = ∅ := by
        refine Finmap.ext_lookup fun k => ?_
        rw [Finmap.lookup_empty, Finmap.lookup_eq_none]
        intro hk
        exact absurd (hcover k hk) List.not_mem_nil
      rw [hempty, total_empty, List.map_nil, List.sum_nil]
  | cons k l ih =>
      obtain ⟨hk, hl⟩ := List.nodup_cons.mp hl
      have hrest : ∀ k' ∈ m.erase k, k' ∈ l := by
        intro k' hk'
        obtain ⟨hne, hmem⟩ := Finmap.mem_erase.mp hk'
        exact (List.mem_cons.mp (hcover k' hmem)).resolve_left hne
      have hsame : l.map (contribution g (m.erase k)) =
          l.map (contribution g m) := by
        refine List.map_congr_left fun k' hk' => ?_
        have hne : k' ≠ k := fun heq => hk (heq ▸ hk')
        rw [contribution, contribution, Finmap.lookup_erase_ne hne]
      rw [List.map_cons, List.sum_cons, ← hsame, ih hl hrest, contribution]
      cases hlook : m.lookup k with
      | none =>
          rw [erase_of_lookup_eq_none hlook, Option.elim_none, zero_add]
      | some b =>
          rw [total_eq_add_erase g hlook, Option.elim_some]

section MapValues

variable {γ : Type w}

omit [DecidableEq κ] in
theorem nodupKeys_map
    (g : β → γ) (m : Finmap fun _ : κ => β) :
    (m.entries.map fun e => (⟨e.1, g e.2⟩ : Sigma fun _ : κ => γ)).NodupKeys
    := by
  rcases m with ⟨⟨l⟩, hl⟩
  exact List.NodupKeys.map₂ (fun _ => g) l hl

/-- The map with `g` applied to every stored value. -/
def mapValues (g : β → γ) (m : Finmap fun _ : κ => β) :
    Finmap fun _ : κ => γ where
  entries := m.entries.map fun e => ⟨e.1, g e.2⟩
  nodupKeys := nodupKeys_map g m

@[simp] theorem lookup_mapValues
    (g : β → γ) (m : Finmap fun _ : κ => β) (k : κ) :
    (mapValues g m).lookup k = (m.lookup k).map g := by
  rcases m with ⟨⟨l⟩, hl⟩
  exact List.dlookup_map₂ (f := fun _ => g) k

theorem mem_mapValues
    (g : β → γ) (m : Finmap fun _ : κ => β) (k : κ) :
    k ∈ mapValues g m ↔ k ∈ m := by
  simp [← Finmap.lookup_isSome]

end MapValues

omit [DecidableEq κ] in
/-- Sums of pointwise differences. -/
theorem total_sub
    (f g : κ → β → M) (m : Finmap fun _ : κ => β) :
    total (fun k b => f k b - g k b) m = total f m - total g m := by
  simp [total, Multiset.sum_map_sub]

/-- Two sums agree when the contributions of the stored entries do. -/
theorem total_congr
    {f g : κ → β → M} {m : Finmap fun _ : κ => β}
    (h : ∀ k b, m.lookup k = some b → f k b = g k b) :
    total f m = total g m := by
  unfold total
  congr 1
  refine Multiset.map_congr rfl ?_
  intro e he
  exact h e.1 e.2 (Finmap.lookup_eq_some_iff.mpr he)

omit [DecidableEq κ] in
/-- Sums of pointwise sums. -/
theorem total_add
    (f g : κ → β → M) (m : Finmap fun _ : κ => β) :
    total (fun k b => f k b + g k b) m = total f m + total g m := by
  simp [total, Multiset.sum_map_add]

/-- A sum of contributions without a sign has none. -/
theorem total_nonneg
    [PartialOrder M] [IsOrderedAddMonoid M]
    {g : κ → β → M} {m : Finmap fun _ : κ => β}
    (h : ∀ k b, m.lookup k = some b → 0 ≤ g k b) :
    0 ≤ total g m := by
  refine Multiset.sum_nonneg fun x hx => ?_
  obtain ⟨e, he, rfl⟩ := Multiset.mem_map.mp hx
  exact h e.1 e.2 (Finmap.lookup_eq_some_iff.mpr he)

/-! ### Association lists -/

section AssocList

variable {ι : Type u} [BEq ι] [LawfulBEq ι]

theorem lookup_cons_self
    (k : ι) (b : β) (d : List (ι × β)) :
    ((k, b) :: d).lookup k = some b := by
  rw [List.lookup_cons, beq_self_eq_true]

theorem lookup_cons_of_ne
    {k k' : ι} (h : k ≠ k') (b : β) (d : List (ι × β)) :
    ((k', b) :: d).lookup k = d.lookup k := by
  have hne : (k == k') = false := by simpa using h
  rw [List.lookup_cons, hne]

theorem lookup_eq_none_of_notMem
    {k : ι} {d : List (ι × β)} (h : k ∉ d.map Prod.fst) :
    d.lookup k = none := by
  rw [List.lookup_eq_none_iff]
  intro e he
  rw [bne_iff_ne]
  intro hk
  exact h (hk ▸ List.mem_map_of_mem he)

end AssocList

end FiniteMap
