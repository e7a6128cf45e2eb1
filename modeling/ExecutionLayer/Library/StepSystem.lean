import Mathlib.Algebra.BigOperators.Group.List.Basic
import Mathlib.Algebra.Order.Monoid.Unbundled.Basic
import Mathlib.Algebra.Order.Monoid.Defs
import Mathlib.Data.List.Basic
import Mathlib.Data.Option.Basic
import Mathlib.Tactic.Abel
import Mathlib.Tactic.Common

/-!
# Runs of deterministic step systems

A system is a function that takes a state and a label to the next state.
All nondeterminism sits in the labels: a scheduler, a user or a failing
network is a list of labels, and a statement about every interleaving is a
statement about every list.

Two kinds of systems are treated.  A total system answers every label.  A
partial system refuses the labels that are not enabled in a state, and a run
exists only when every label of the list was enabled.

The rules are the ones every development about such systems needs: runs
compose, an inductive invariant holds along a run, a condition on the single
steps may be assumed of the whole run, labels that commute may be taken in
another order, amounts that the steps contribute add up along a run, a queue
is served within a number of turns, what is left bounds the turns that are
taken, and a simulation carries a run of one system to a run of another.
-/

namespace StepSystem

universe u v w z

section Total

variable {σ : Type u} {α : Type v}
variable (step : σ → α → σ)

/-- The state a list of labels leads to. -/
def run (s : σ) (as : List α) : σ :=
  as.foldl step s

@[simp] theorem run_nil (s : σ) :
    run step s [] = s := by
  rfl

@[simp] theorem run_cons (s : σ) (a : α) (as : List α) :
    run step s (a :: as) = run step (step s a) as := by
  rfl

theorem run_append (s : σ) (as bs : List α) :
    run step s (as ++ bs) = run step (run step s as) bs := by
  simp [run, List.foldl_append]

/-- Every step of the run satisfies `C` in the state it is taken from. -/
def AllSteps (C : σ → α → Prop) : σ → List α → Prop
  | _, [] => True
  | s, a :: as => C s a ∧ AllSteps C (step s a) as

/-- A condition on the labels alone. -/
theorem allSteps_of_forall
    {C : σ → α → Prop} {as : List α}
    (h : ∀ a ∈ as, ∀ s, C s a) (s : σ) :
    AllSteps step C s as := by
  induction as generalizing s with
  | nil =>
      trivial
  | cons a as ih =>
      exact ⟨h a List.mem_cons_self s,
        ih (fun b hb => h b (List.mem_cons_of_mem a hb)) _⟩

theorem allSteps_and (C D : σ → α → Prop) (s : σ) (as : List α) :
    AllSteps step (fun s a => C s a ∧ D s a) s as ↔
      AllSteps step C s as ∧ AllSteps step D s as := by
  induction as generalizing s with
  | nil =>
      simp [AllSteps]
  | cons a as ih =>
      simp only [AllSteps, ih]
      constructor
      · rintro ⟨⟨hc, hd⟩, hcs, hds⟩
        exact ⟨⟨hc, hcs⟩, hd, hds⟩
      · rintro ⟨⟨hc, hcs⟩, hd, hds⟩
        exact ⟨⟨hc, hd⟩, hcs, hds⟩

/-- Two conditions that agree on the steps of a run hold of it together. -/
theorem AllSteps.congr
    {C D E : σ → α → Prop}
    (hDE : ∀ s a, C s a → (D s a ↔ E s a))
    {s : σ} {as : List α}
    (hC : AllSteps step C s as) :
    AllSteps step D s as ↔ AllSteps step E s as := by
  induction as generalizing s with
  | nil =>
      rfl
  | cons a as ih =>
      exact and_congr (hDE s a hC.1) (ih hC.2)

/-- What every step preserves under a condition, a run that meets the
condition preserves. -/
theorem run_invariant_of_allSteps
    {I : σ → Prop} {C : σ → α → Prop}
    (hstep : ∀ s a, I s → C s a → I (step s a))
    {s : σ} {as : List α}
    (hs : I s)
    (hC : AllSteps step C s as) :
    I (run step s as) := by
  induction as generalizing s with
  | nil =>
      exact hs
  | cons a as ih =>
      exact ih (hstep s a hs hC.1) hC.2

/-- What every step preserves, every run preserves. -/
theorem run_invariant
    {I : σ → Prop}
    (hstep : ∀ s a, I s → I (step s a))
    {s : σ}
    (hs : I s)
    (as : List α) :
    I (run step s as) := by
  induction as generalizing s with
  | nil =>
      exact hs
  | cons a as ih =>
      exact ih (hstep s a hs)

/-- The single steps of a run are those that follow its parts. -/
theorem allSteps_iff_parts
    (C : σ → α → Prop) (s : σ) (as : List α) :
    AllSteps step C s as ↔
      ∀ before a, before ++ [a] <+: as → C (run step s before) a := by
  induction as generalizing s with
  | nil =>
      simp [AllSteps]
  | cons a as ih =>
      rw [AllSteps, ih]
      constructor
      · rintro ⟨hhead, htail⟩ before b hpre
        cases before with
        | nil =>
            rw [List.nil_append, List.cons_prefix_cons] at hpre
            rw [hpre.1]
            exact hhead
        | cons c before =>
            rw [List.cons_append, List.cons_prefix_cons] at hpre
            rw [hpre.1]
            exact htail before b hpre.2
      · intro h
        refine ⟨h [] a (by simp), fun before b hpre => ?_⟩
        refine h (a :: before) b ?_
        rw [List.cons_append, List.cons_prefix_cons]
        exact ⟨rfl, hpre⟩

/-- The steps of a part of a run are steps of the run. -/
theorem AllSteps.part
    {C : σ → α → Prop} {s : σ} {as bs : List α}
    (h : AllSteps step C s bs) (hpre : as <+: bs) :
    AllSteps step C s as := by
  rw [allSteps_iff_parts] at h ⊢
  intro before a hbefore
  exact h before a (hbefore.trans hpre)

/-- What holds after every part of a run, and after one more step. -/
theorem forall_prefix_concat
    {P : List α → Prop} (as : List α) (a : α) :
    (∀ before, before <+: as ++ [a] → P before) ↔
      (∀ before, before <+: as → P before) ∧ P (as ++ [a]) := by
  constructor
  · intro h
    refine ⟨fun before hpre => ?_, h _ List.prefix_rfl⟩
    exact h before (hpre.trans (List.prefix_append as [a]))
  · rintro ⟨hpre, hlast⟩ before hbefore
    rcases List.prefix_concat_iff.mp hbefore with rfl | hshort
    · exact hlast
    · exact hpre before hshort

/-- What holds of every step of a run that is one step longer. -/
theorem forall_step_concat
    {P : List α → α → Prop} (as : List α) (a : α) :
    (∀ before b, before ++ [b] <+: as ++ [a] → P before b) ↔
      (∀ before b, before ++ [b] <+: as → P before b) ∧ P as a := by
  constructor
  · intro h
    refine ⟨fun before b hpre => ?_, h _ _ List.prefix_rfl⟩
    exact h before b (hpre.trans (List.prefix_append as [a]))
  · rintro ⟨hpre, hlast⟩ before b hbefore
    rcases List.prefix_concat_iff.mp hbefore with heq | hshort
    · obtain ⟨rfl, rfl⟩ := List.append_singleton_inj.mp heq
      exact hlast
    · exact hpre before b hshort

section Commuting

variable {p : α → Prop} [DecidablePred p]

/-- Labels of one kind may be taken ahead of labels of the other kind, when
the two kinds commute. -/
theorem run_filter
    (hcomm : ∀ s a b, p a → ¬ p b →
      step (step s b) a = step (step s a) b)
    (s : σ) (as : List α) :
    run step s as =
      run step (run step s (as.filter p)) (as.filter fun a => ¬ p a) := by
  have hswap : ∀ (bs : List α) (s : σ) (b : α),
      ¬ p b → (∀ a ∈ bs, p a) →
        run step (step s b) bs = step (run step s bs) b := by
    intro bs
    induction bs with
    | nil =>
        intro s b _ _
        rfl
    | cons a bs ih =>
        intro s b hb hbs
        rw [run_cons, run_cons, hcomm s a b (hbs a List.mem_cons_self) hb]
        exact ih _ b hb fun a' ha' => hbs a' (List.mem_cons_of_mem a ha')
  induction as generalizing s with
  | nil =>
      rfl
  | cons a as ih =>
      by_cases ha : p a
      · rw [run_cons, ih, List.filter_cons_of_pos (by simpa using ha),
          List.filter_cons_of_neg (by simpa using ha), run_cons]
      · rw [run_cons, ih, List.filter_cons_of_neg (by simpa using ha),
          List.filter_cons_of_pos (by simpa using ha), run_cons]
        rw [hswap _ s a ha fun b hb => by
          simpa using (List.mem_filter.mp hb).2]

/-- Two runs with the same labels of each kind, in the same order within the
kind, end in the same state. -/
theorem run_eq_of_filter_eq
    (hcomm : ∀ s a b, p a → ¬ p b →
      step (step s b) a = step (step s a) b)
    {as bs : List α}
    (hpos : as.filter p = bs.filter p)
    (hneg : (as.filter fun a => ¬ p a) = bs.filter fun a => ¬ p a)
    (s : σ) :
    run step s as = run step s bs := by
  rw [run_filter step hcomm s as, run_filter step hcomm s bs, hpos, hneg]

end Commuting

section Outputs

variable {β : Type w} (out : σ → α → List β)

/-- What the steps of a run put out, in order. -/
def outputs : σ → List α → List β
  | _, [] => []
  | s, a :: as => out s a ++ outputs (step s a) as

theorem outputs_concat (s : σ) (as : List α) (a : α) :
    outputs step out s (as ++ [a]) =
      outputs step out s as ++ out (run step s as) a := by
  induction as generalizing s with
  | nil =>
      rw [List.nil_append, outputs, outputs, outputs, List.append_nil,
        List.nil_append, run_nil]
  | cons b as ih =>
      rw [List.cons_append, outputs, outputs, ih, List.append_assoc,
        run_cons]

end Outputs

section Amounts

variable {M : Type w}

/-- What the steps of a run add up to. -/
def accumulate [AddZeroClass M] (gain : σ → α → M) : σ → List α → M
  | _, [] => 0
  | s, a :: as => gain s a + accumulate gain (step s a) as

/-- An amount that only depends on the labels is the sum over the list. -/
theorem accumulate_of_labels
    [AddZeroClass M] (gain : α → M) (s : σ) (as : List α) :
    accumulate step (fun _ a => gain a) s as = (as.map gain).sum := by
  induction as generalizing s with
  | nil =>
      rfl
  | cons a as ih =>
      simp [accumulate, ih]

/-- A potential whose change in one step is a difference of two amounts
balances them along the run. -/
theorem accumulate_balance
    [AddCommGroup M]
    (potential : σ → M) (gain loss : σ → α → M) {C : σ → α → Prop}
    (hstep : ∀ s a, C s a →
      gain s a = loss s a + (potential (step s a) - potential s))
    {s : σ} {as : List α}
    (hC : AllSteps step C s as) :
    accumulate step gain s as =
      accumulate step loss s as +
        (potential (run step s as) - potential s) := by
  induction as generalizing s with
  | nil =>
      simp [accumulate]
  | cons a as ih =>
      simp only [accumulate, run_cons, hstep s a hC.1, ih hC.2]
      abel

/-- Amounts without a sign add up to nothing exactly when every step adds
nothing. -/
theorem accumulate_eq_zero_iff
    [AddCommMonoid M] [PartialOrder M] [IsOrderedAddMonoid M]
    {gain : σ → α → M} {C : σ → α → Prop}
    (hstep : ∀ s a, C s a → 0 ≤ gain s a)
    {s : σ} {as : List α}
    (hC : AllSteps step C s as) :
    accumulate step gain s as = 0 ↔
      AllSteps step (fun s a => gain s a = 0) s as := by
  suffices h : 0 ≤ accumulate step gain s as ∧
      (accumulate step gain s as = 0 ↔
        AllSteps step (fun s a => gain s a = 0) s as) from h.2
  induction as generalizing s with
  | nil =>
      simp [accumulate, AllSteps]
  | cons a as ih =>
      obtain ⟨hrest, hiff⟩ := ih hC.2
      have hone := hstep s a hC.1
      refine ⟨add_nonneg hone hrest, ?_⟩
      rw [accumulate, AllSteps, add_eq_zero_iff_of_nonneg hone hrest, hiff]

end Amounts

/-- Forward simulation: when every step of `step` is matched by a list of
abstract labels that all satisfy `P`, so is every run. -/
theorem exists_run_of_simulation
    {τ : Type w} {β : Type z}
    (abstractStep : τ → β → τ)
    (view : σ → τ)
    (P : β → Prop)
    (hsim : ∀ s a, ∃ bs : List β,
      (∀ b ∈ bs, P b) ∧
        view (step s a) = run abstractStep (view s) bs)
    (s : σ) (as : List α) :
    ∃ bs : List β,
      (∀ b ∈ bs, P b) ∧
        view (run step s as) = run abstractStep (view s) bs := by
  induction as generalizing s with
  | nil =>
      exact ⟨[], by simp, rfl⟩
  | cons a as ih =>
      obtain ⟨bs, hbs, hstep⟩ := hsim s a
      obtain ⟨cs, hcs, hrun⟩ := ih (step s a)
      refine ⟨bs ++ cs, ?_, ?_⟩
      · intro b hb
        rcases List.mem_append.mp hb with hb | hb
        · exact hbs b hb
        · exact hcs b hb
      · rw [run_cons, hrun, hstep, run_append]

end Total

section Partial

variable {σ : Type u} {α : Type v}
variable (step : σ → α → Option σ)

/-- The state a list of labels leads to, if every label was enabled. -/
def exec : σ → List α → Option σ
  | s, [] => some s
  | s, a :: as => (step s a).bind fun t => exec t as

@[simp] theorem exec_nil (s : σ) :
    exec step s [] = some s := by
  rfl

theorem exec_cons_eq_some
    {s t : σ} {a : α} {as : List α} :
    exec step s (a :: as) = some t ↔
      ∃ s', step s a = some s' ∧ exec step s' as = some t := by
  simp [exec, Option.bind_eq_some_iff]

theorem exec_append
    (s : σ) (as bs : List α) :
    exec step s (as ++ bs) =
      (exec step s as).bind fun t => exec step t bs := by
  induction as generalizing s with
  | nil =>
      rfl
  | cons a as ih =>
      simp only [List.cons_append, exec, ih, Option.bind_assoc]

/-- Every step of the run satisfies `C` in the state it is taken from.  A
refused label ends the run. -/
def EverySteps (C : σ → α → Prop) : σ → List α → Prop
  | _, [] => True
  | s, a :: as =>
      C s a ∧ ∀ t, step s a = some t → EverySteps C t as

/-- A condition that can be evaluated can be evaluated along a run. -/
def EverySteps.decide
    (C : σ → α → Prop) [∀ s a, Decidable (C s a)] :
    (s : σ) → (as : List α) → Decidable (EverySteps step C s as)
  | _, [] => .isTrue trivial
  | s, a :: as =>
      match h : step s a with
      | none =>
          decidable_of_iff (C s a)
            ⟨fun hc => ⟨hc, fun t ht => by simp [h] at ht⟩, fun hc => hc.1⟩
      | some t =>
          have := EverySteps.decide C t as
          decidable_of_iff (C s a ∧ EverySteps step C t as)
            ⟨fun hc => ⟨hc.1, fun t' ht' =>
                Option.some.inj (h.symm.trans ht') ▸ hc.2⟩,
              fun hc => ⟨hc.1, hc.2 t h⟩⟩

instance (C : σ → α → Prop) [∀ s a, Decidable (C s a)]
    (s : σ) (as : List α) : Decidable (EverySteps step C s as) :=
  EverySteps.decide step C s as

/-- A condition on the labels alone. -/
theorem everySteps_of_forall
    {C : σ → α → Prop} {as : List α}
    (h : ∀ a ∈ as, ∀ s, C s a) (s : σ) :
    EverySteps step C s as := by
  induction as generalizing s with
  | nil =>
      trivial
  | cons a as ih =>
      exact ⟨h a List.mem_cons_self s, fun t _ =>
        ih (fun b hb => h b (List.mem_cons_of_mem a hb)) t⟩

/-- The invariant rule for partial systems, under a condition on the steps. -/
theorem exec_invariant
    {I : σ → Prop} {C : σ → α → Prop}
    (hstep : ∀ s a t, I s → C s a → step s a = some t → I t)
    {s t : σ} {as : List α}
    (hs : I s)
    (hC : EverySteps step C s as)
    (hrun : exec step s as = some t) :
    I t := by
  induction as generalizing s with
  | nil =>
      simp only [exec_nil, Option.some.injEq] at hrun
      subst hrun
      exact hs
  | cons a as ih =>
      obtain ⟨r, hr, ht⟩ := (exec_cons_eq_some step).mp hrun
      exact ih (hstep s a r hs hC.1 hr) (hC.2 r hr) ht

/-- What every step preserves, every run preserves. -/
theorem exec_invariant_of_step
    {I : σ → Prop}
    (hstep : ∀ s a t, I s → step s a = some t → I t)
    {s t : σ} {as : List α}
    (hs : I s)
    (hrun : exec step s as = some t) :
    I t := by
  induction as generalizing s with
  | nil =>
      simp only [exec_nil, Option.some.injEq] at hrun
      subst hrun
      exact hs
  | cons a as ih =>
      obtain ⟨r, hr, ht⟩ := (exec_cons_eq_some step).mp hrun
      exact ih (hstep s a r hs hr) ht

section Service

/-! A queue is served by one of several threads.  `waiting` counts what is
queued, `arrives` what a step adds to it, and `need s m` bounds the turns of
the serving thread until the first `m` of what waits in `s` are served. -/

variable {waiting : σ → Nat} {need : σ → Nat → Nat}
variable {arrives : α → Nat} {turn : α → Bool} {I : σ → Prop}

/-- When no step puts the need up and each turn brings it down by one, the
turns it counts are enough, whatever the steps in between are. -/
theorem served_within
    (hstep : ∀ s a t, I s → step s a = some t → I t)
    (hserve : ∀ s a t, I s → step s a = some t →
      ∃ done, waiting t + done = waiting s + arrives a ∧
        ∀ m ≤ waiting s,
          need t (m - done) ≤ need s m - (turn a).toNat)
    (hneed : ∀ s m, I s → need s m = 0 → m = 0)
    {s t : σ} {as : List α} {m : Nat}
    (hs : I s) (hm : m ≤ waiting s) (hturns : need s m ≤ as.countP turn)
    (hrun : exec step s as = some t) :
    waiting t + m ≤ waiting s + (as.map arrives).sum := by
  induction as generalizing s m with
  | nil =>
      simp only [exec_nil, Option.some.injEq] at hrun
      subst hrun
      have hzero : m = 0 := hneed s m hs (Nat.le_zero.mp hturns)
      simp [hzero]
  | cons a as ih =>
      obtain ⟨r, hr, hrest⟩ := (exec_cons_eq_some step).mp hrun
      obtain ⟨done, hcount, hdown⟩ := hserve s a r hs hr
      have hcounted : (a :: as).countP turn =
          as.countP turn + (turn a).toNat := by
        rw [List.countP_cons]
        cases turn a <;> rfl
      have hless := hdown m hm
      have hlater := ih (hstep s a r hs hr)
        (show m - done ≤ waiting r by omega) (by omega) hrest
      rw [List.map_cons, List.sum_cons]
      omega

end Service

section Turns

variable (kind : σ → α → Bool)

/-- How many steps of a run are of a kind, which may depend on the state that
they are taken from. -/
def turns : σ → List α → Nat
  | _, [] => 0
  | s, a :: as =>
      (if kind s a then 1 else 0) +
        match step s a with
        | none => 0
        | some t => turns t as

theorem turns_cons
    {s t : σ} {a : α} (hstep : step s a = some t) (as : List α) :
    turns step kind s (a :: as) =
      (if kind s a then 1 else 0) + turns step kind t as := by
  rw [turns, hstep]

/-- A kind that only depends on the labels is counted in the list. -/
theorem turns_of_labels
    {kind : α → Bool} {s t : σ} {as : List α}
    (hrun : exec step s as = some t) :
    turns step (fun _ => kind) s as = as.countP kind := by
  induction as generalizing s with
  | nil =>
      rfl
  | cons a as ih =>
      obtain ⟨r, hr, hrest⟩ := (exec_cons_eq_some step).mp hrun
      rw [turns_cons step _ hr, ih hrest, List.countP_cons, Nat.add_comm]

/-- What is left bounds the steps of a kind, when each of them takes one off
and no step adds more than it is allowed to. -/
theorem turns_le
    {I : σ → Prop} {C : σ → α → Prop}
    (left : σ → Nat) (gain : α → Nat)
    (hstep : ∀ s a t, I s → C s a → step s a = some t →
      I t ∧ (if kind s a then 1 else 0) + left t ≤ left s + gain a)
    {s t : σ} {as : List α}
    (hs : I s)
    (hC : EverySteps step C s as)
    (hrun : exec step s as = some t) :
    I t ∧ turns step kind s as + left t ≤ left s + (as.map gain).sum := by
  induction as generalizing s with
  | nil =>
      simp only [exec_nil, Option.some.injEq] at hrun
      subst hrun
      exact ⟨hs, (Nat.zero_add _).le⟩
  | cons a as ih =>
      obtain ⟨r, hr, hrest⟩ := (exec_cons_eq_some step).mp hrun
      obtain ⟨hnext, hone⟩ := hstep s a r hs hC.1 hr
      obtain ⟨hlast, hmany⟩ := ih hnext (hC.2 r hr) hrest
      refine ⟨hlast, ?_⟩
      rw [turns_cons step _ hr, List.map_cons, List.sum_cons]
      omega

/-- The same of a kind of labels. -/
theorem countP_le
    (kind : α → Bool) {I : σ → Prop} {p : α → Prop}
    (left : σ → Nat) (gain : α → Nat)
    (hstep : ∀ s a t, I s → p a → step s a = some t →
      I t ∧ (if kind a then 1 else 0) + left t ≤ left s + gain a)
    {s t : σ} {as : List α}
    (hs : I s)
    (hp : ∀ a ∈ as, p a)
    (hrun : exec step s as = some t) :
    I t ∧ as.countP kind + left t ≤ left s + (as.map gain).sum := by
  rw [← turns_of_labels step hrun]
  exact turns_le step (fun _ => kind) left gain hstep hs
    (everySteps_of_forall step (fun a ha _ => hp a ha) s) hrun

end Turns

end Partial

end StepSystem
