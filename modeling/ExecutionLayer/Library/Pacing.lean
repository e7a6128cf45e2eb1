import Mathlib.Algebra.Order.Group.Defs
import Mathlib.Data.List.Basic
import Mathlib.Tactic.Common

/-!
# Events behind deadlines

A periodic activity starts each of its events at a moment of its own choice
behind a deadline, and moves the deadline on by at least an interval, and past
the event.  Two events may then be much closer together than the interval: the
first one may be late and the second one on time.

What holds is that only one event is caught up with.  The events that follow
an event stand above an arithmetic progression that begins at it
(`Paced`), and so a half-open window of `n` intervals has at most `n + 1` of
them (`Paced.length_filter_le`).

Where the deadline is set from the event itself, no event is caught up with:
events are at least an interval apart (`Spaced`), and a window of `n`
intervals has at most `n` of them (`Spaced.length_filter_le`).
-/

namespace Pacing

universe u

variable {M : Type u} [AddCommGroup M] [LinearOrder M] (I : M)

/-- The moments stand above the progression that begins at `t`. -/
def Above : M → List M → Prop
  | _, [] => True
  | t, a :: l => t ≤ a ∧ Above (t + I) l

/-- Each event is followed by events above the progression that begins at
it. -/
def Paced : List M → Prop
  | [] => True
  | t :: ts => Above I t ts ∧ Paced ts

/-- The deadline stands above the progressions of all events. -/
def Admits : List M → M → Prop
  | [], _ => True
  | t :: ts, d => t + ts.length • I ≤ d ∧ Admits ts d

section Above

variable {I}

theorem Above.le_getElem
    {t : M} {l : List M} (h : Above I t l) {k : Nat} (hk : k < l.length) :
    t + k • I ≤ l[k] := by
  induction l generalizing t k with
  | nil =>
      exact absurd hk (Nat.not_lt_zero k)
  | cons a l ih =>
      cases k with
      | zero =>
          rw [zero_nsmul, add_zero]
          exact h.1
      | succ k =>
          rw [succ_nsmul', ← add_assoc]
          exact ih h.2 (Nat.lt_of_succ_lt_succ hk)

theorem Above.concat
    {t c : M} {l : List M} (h : Above I t l)
    (hc : t + l.length • I ≤ c) :
    Above I t (l ++ [c]) := by
  induction l generalizing t with
  | nil =>
      rw [List.length_nil, zero_nsmul, add_zero] at hc
      exact ⟨hc, trivial⟩
  | cons a l ih =>
      refine ⟨h.1, ih h.2 ?_⟩
      rw [List.length_cons, succ_nsmul', ← add_assoc] at hc
      exact hc

variable [IsOrderedAddMonoid M]

theorem Above.mono
    {s t : M} (hst : s ≤ t) {l : List M} (h : Above I t l) :
    Above I s l := by
  induction l generalizing s t with
  | nil =>
      trivial
  | cons a l ih =>
      exact ⟨hst.trans h.1, ih (add_le_add_left hst I) h.2⟩

/-- Fewer moments stand above it all the more. -/
theorem Above.sublist
    (hI : 0 ≤ I) {t : M} {l l' : List M} (hsub : l'.Sublist l)
    (h : Above I t l) :
    Above I t l' := by
  induction hsub generalizing t with
  | slnil =>
      trivial
  | cons a _ ih =>
      exact (ih h.2).mono (le_add_of_nonneg_right hI)
  | cons_cons a _ ih =>
      exact ⟨h.1, ih h.2⟩

end Above

section Events

variable {I}

theorem Admits.mono
    {ts : List M} {d d' : M} (hd : d ≤ d') (h : Admits I ts d) :
    Admits I ts d' := by
  induction ts with
  | nil =>
      trivial
  | cons t ts ih =>
      exact ⟨h.1.trans hd, ih h.2⟩

/-- An event behind the deadline. -/
theorem Paced.concat
    {ts : List M} {d c : M} (h : Paced I ts) (hd : Admits I ts d)
    (hc : d ≤ c) :
    Paced I (ts ++ [c]) := by
  induction ts with
  | nil =>
      exact ⟨trivial, trivial⟩
  | cons t ts ih =>
      exact ⟨h.1.concat (hd.1.trans hc), ih h.2 hd.2⟩

variable [IsOrderedAddMonoid M]

theorem Paced.sublist
    (hI : 0 ≤ I) {ts ts' : List M} (hsub : ts'.Sublist ts)
    (h : Paced I ts) :
    Paced I ts' := by
  induction hsub with
  | slnil =>
      trivial
  | cons a _ ih =>
      exact ih h.2
  | cons_cons a hsub ih =>
      exact ⟨h.1.sublist hI hsub, ih h.2⟩

/-- The deadline after it. -/
theorem Admits.concat
    {ts : List M} {d d' c : M} (h : Admits I ts d) (hd : d + I ≤ d')
    (hc : c ≤ d') :
    Admits I (ts ++ [c]) d' := by
  induction ts with
  | nil =>
      refine ⟨?_, trivial⟩
      rw [List.length_nil, zero_nsmul, add_zero]
      exact hc
  | cons t ts ih =>
      refine ⟨?_, ih h.2⟩
      change t + (ts ++ [c]).length • I ≤ d'
      rw [List.length_append, List.length_singleton, succ_nsmul,
        ← add_assoc]
      exact (add_le_add_left h.1 I).trans hd

/-- **A window of `n` intervals has at most `n + 1` events.** -/
theorem Paced.length_filter_le
    (hI : 0 ≤ I) {ts : List M} (h : Paced I ts) (w : M) (n : Nat) :
    (ts.filter fun t => w ≤ t ∧ t < w + n • I).length ≤ n + 1 := by
  have hin : ∀ t ∈ ts.filter fun t => w ≤ t ∧ t < w + n • I,
      w ≤ t ∧ t < w + n • I := by
    intro t ht
    exact of_decide_eq_true (List.mem_filter.mp ht).2
  have hpaced : Paced I (ts.filter fun t => w ≤ t ∧ t < w + n • I) :=
    h.sublist hI List.filter_sublist
  generalize (ts.filter fun t => w ≤ t ∧ t < w + n • I) = inside
    at hin hpaced ⊢
  cases inside with
  | nil =>
      exact Nat.zero_le _
  | cons t inside =>
      rw [List.length_cons]
      refine Nat.succ_le_succ (not_lt.mp fun hn => ?_)
      have hlow := hpaced.1.le_getElem hn
      have hhigh := (hin _ (List.mem_cons_of_mem t
        (List.getElem_mem hn))).2
      have hfirst := (hin t List.mem_cons_self).1
      exact absurd ((add_le_add_left hfirst _).trans hlow) hhigh.not_ge

end Events

/-- Any two events are at least an interval apart. -/
def Spaced (ts : List M) : Prop :=
  ts.Pairwise fun t u => t + I ≤ u

section Spaced

variable {I}

theorem Spaced.concat
    {ts : List M} {c : M} (h : Spaced I ts) (hc : ∀ t ∈ ts, t + I ≤ c) :
    Spaced I (ts ++ [c]) := by
  refine List.pairwise_append.mpr ⟨h, List.pairwise_singleton _ _, ?_⟩
  intro t ht u hu
  rw [List.mem_singleton.mp hu]
  exact hc t ht

variable [IsOrderedAddMonoid M]

/-- Events inside of a window of `n` intervals. -/
theorem Spaced.length_le
    {ts : List M} (h : Spaced I ts) {w : M} {n : Nat}
    (hin : ∀ t ∈ ts, w ≤ t ∧ t < w + n • I) :
    ts.length ≤ n := by
  induction ts generalizing w n with
  | nil =>
      exact Nat.zero_le _
  | cons t ts ih =>
      obtain ⟨hfirst, hrest⟩ := List.pairwise_cons.mp h
      obtain ⟨hlow, hhigh⟩ := hin t List.mem_cons_self
      cases n with
      | zero =>
          rw [zero_nsmul, add_zero] at hhigh
          exact absurd hlow hhigh.not_ge
      | succ n =>
          -- The others lie in the window of one interval less.
          refine Nat.succ_le_succ (ih hrest (w := w + I) ?_)
          intro u hu
          have hwindow := (hin u (List.mem_cons_of_mem t hu)).2
          rw [succ_nsmul', ← add_assoc] at hwindow
          exact ⟨(add_le_add_left hlow I).trans (hfirst u hu), hwindow⟩

/-- **A window of `n` intervals has at most `n` events.** -/
theorem Spaced.length_filter_le
    {ts : List M} (h : Spaced I ts) (w : M) (n : Nat) :
    (ts.filter fun t => w ≤ t ∧ t < w + n • I).length ≤ n := by
  have hinside : Spaced I (ts.filter fun t => w ≤ t ∧ t < w + n • I) :=
    h.sublist List.filter_sublist
  refine hinside.length_le (w := w) ?_
  intro t ht
  exact of_decide_eq_true (List.mem_filter.mp ht).2

end Spaced

end Pacing
