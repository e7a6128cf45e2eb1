import Mathlib.Data.List.Basic
import Mathlib.Tactic.Common

/-!
# Frames of a byte stream

A stream socket keeps the order of what is written to it and nothing else:
the reader gets the symbols in chunks that have nothing to do with the
writes.  A writer that ends every frame with a separator, and a reader that
keeps what stands behind the last separator for the next chunk, agree on the
frames whatever the chunks are (`feed_eq_of_join`), as long as no frame
contains the separator.
-/

namespace Framing

universe u

variable {α : Type u} [DecidableEq α] (sep : α)

/-- Put a symbol in front of the first frame, or of the rest. -/
def consHead (a : α) :
    List (List α) × List α → List (List α) × List α
  | ([], rest) => ([], a :: rest)
  | (l :: ls, rest) => ((a :: l) :: ls, rest)

/-- The complete frames of a buffer, and what is left behind them. -/
def frames : List α → List (List α) × List α
  | [] => ([], [])
  | a :: as =>
      if a = sep then ([] :: (frames as).1, (frames as).2)
      else consHead a (frames as)

/-- A stream of frames, each ended by the separator. -/
def join (ls : List (List α)) : List α :=
  ls.flatMap fun l => l ++ [sep]

/-- A reader that is given a buffer and the chunks that arrive. -/
def feed : List α → List (List α) → List (List α) × List α
  | buf, [] => ([], buf)
  | buf, chunk :: chunks =>
      let now := frames sep (buf ++ chunk)
      let later := feed now.2 chunks
      (now.1 ++ later.1, later.2)

theorem frames_of_notMem
    {as : List α} (h : sep ∉ as) :
    frames sep as = ([], as) := by
  induction as with
  | nil =>
      rfl
  | cons a as ih =>
      obtain ⟨hne, has⟩ := not_or.mp (List.mem_cons.not.mp h)
      rw [frames, if_neg (Ne.symm hne), ih has]
      rfl

/-- What is left holds no separator. -/
theorem notMem_frames_rest (as : List α) :
    sep ∉ (frames sep as).2 := by
  induction as with
  | nil =>
      simp [frames]
  | cons a as ih =>
      rw [frames]
      split_ifs with ha
      · exact ih
      · cases hr : frames sep as with
        | mk ls rest =>
            rw [hr] at ih
            cases ls with
            | nil =>
                simp only [consHead, List.mem_cons, not_or]
                exact ⟨Ne.symm ha, ih⟩
            | cons l ls =>
                exact ih

/-- Reading a buffer in two parts, the rest of the first part in front of the
second. -/
theorem frames_append (as bs : List α) :
    frames sep (as ++ bs) =
      ((frames sep as).1 ++ (frames sep ((frames sep as).2 ++ bs)).1,
        (frames sep ((frames sep as).2 ++ bs)).2) := by
  induction as with
  | nil =>
      simp [frames]
  | cons a as ih =>
      rw [List.cons_append, frames, frames]
      by_cases ha : a = sep
      · simp [ha, ih]
      · rw [if_neg ha, if_neg ha, ih]
        cases hr : frames sep as with
        | mk ls rest =>
            cases ls with
            | nil =>
                simp [consHead, frames, ha]
            | cons l ls =>
                simp [consHead]

/-- A frame that holds no separator is read as it is. -/
theorem frames_frame
    {l : List α} (h : sep ∉ l) (bs : List α) :
    frames sep (l ++ sep :: bs) =
      (l :: (frames sep bs).1, (frames sep bs).2) := by
  induction l with
  | nil =>
      simp [frames]
  | cons a l ih =>
      obtain ⟨hne, hl⟩ := not_or.mp (List.mem_cons.not.mp h)
      rw [List.cons_append, frames, if_neg (Ne.symm hne), ih hl]
      rfl

theorem frames_join
    {ls : List (List α)} (h : ∀ l ∈ ls, sep ∉ l) :
    frames sep (join sep ls) = (ls, []) := by
  induction ls with
  | nil =>
      rfl
  | cons l ls ih =>
      have hrest := ih fun l' hl' => h l' (List.mem_cons_of_mem l hl')
      have hcons : join sep (l :: ls) = l ++ sep :: join sep ls := by
        simp [join]
      rw [hcons, frames_frame sep (h l List.mem_cons_self), hrest]

omit [DecidableEq α] in
/-- A part of a frame that holds the separator is the whole frame. -/
theorem eq_frame_of_sep_mem
    {l part : List α} (hpart : part <+: l ++ [sep]) (hl : sep ∉ l)
    (hmem : sep ∈ part) :
    part = l ++ [sep] := by
  rcases List.prefix_concat_iff.mp hpart with hwhole | hpart
  · exact hwhole
  · exact absurd (hpart.subset hmem) hl

/-- The frames and the rest make up the buffer. -/
theorem join_frames (as : List α) :
    join sep (frames sep as).1 ++ (frames sep as).2 = as := by
  induction as with
  | nil =>
      rfl
  | cons a as ih =>
      rw [frames]
      split_ifs with ha
      · rw [ha]
        exact congrArg (sep :: ·) ih
      · cases hr : frames sep as with
        | mk ls rest =>
            rw [hr] at ih
            cases ls with
            | nil =>
                exact congrArg (a :: ·) ih
            | cons l ls =>
                exact congrArg (a :: ·) ih

/-- No frame holds a separator. -/
theorem notMem_frames (as : List α) :
    ∀ l ∈ (frames sep as).1, sep ∉ l := by
  induction as with
  | nil =>
      exact fun l hl => absurd hl List.not_mem_nil
  | cons a as ih =>
      rw [frames]
      split_ifs with ha
      · intro l hl
        rcases List.mem_cons.mp hl with rfl | hl
        · exact List.not_mem_nil
        · exact ih l hl
      · cases hr : frames sep as with
        | mk ls rest =>
            rw [hr] at ih
            cases ls with
            | nil =>
                exact fun l hl => absurd hl List.not_mem_nil
            | cons l ls =>
                intro l' hl'
                rcases List.mem_cons.mp hl' with rfl | hl'
                · rw [List.mem_cons, not_or]
                  exact ⟨Ne.symm ha, ih l List.mem_cons_self⟩
                · exact ih l' (List.mem_cons_of_mem l hl')

/-- The only way to cut a stream into frames and a rest. -/
theorem frames_eq_iff
    {as rest : List α} {ls : List (List α)} :
    frames sep as = (ls, rest) ↔
      as = join sep ls ++ rest ∧ (∀ l ∈ ls, sep ∉ l) ∧ sep ∉ rest := by
  constructor
  · intro h
    have hjoin := join_frames sep as
    have hframes := notMem_frames sep as
    have hrest := notMem_frames_rest sep as
    rw [h] at hjoin hframes hrest
    exact ⟨hjoin.symm, hframes, hrest⟩
  · rintro ⟨rfl, hls, hrest⟩
    rw [frames_append, frames_join sep hls, List.nil_append,
      frames_of_notMem sep hrest, List.append_nil]

/-! ### Looking for the separator -/

/-- The index of the first separator from `start` on. -/
def findFrom (as : List α) (start : Nat) : Option Nat :=
  ((as.drop start).idxOf? sep).map (start + ·)

/-- The `count` symbols from `start` on. -/
def slice (as : List α) (start count : Nat) : List α :=
  (as.drop start).take count

theorem findFrom_none
    {as : List α} {start : Nat} (h : findFrom sep as start = none) :
    frames sep (as.drop start) = ([], as.drop start) := by
  rw [findFrom, Option.map_eq_none_iff, List.idxOf?_eq_none_iff] at h
  exact frames_of_notMem sep h

theorem findFrom_bounds
    {as : List α} {start i : Nat} (h : findFrom sep as start = some i) :
    start ≤ i ∧ i < as.length := by
  obtain ⟨k, hk, rfl⟩ := Option.map_eq_some_iff.mp h
  obtain ⟨hlt, _⟩ := List.idxOf?_eq_some_iff.mp hk
  rw [List.length_drop] at hlt
  omega

/-- What stands before the separator is the next frame. -/
theorem findFrom_some
    {as : List α} {start i : Nat} (h : findFrom sep as start = some i) :
    frames sep (as.drop start) =
      (slice as start (i - start) :: (frames sep (as.drop (i + 1))).1,
        (frames sep (as.drop (i + 1))).2) := by
  obtain ⟨k, hk, rfl⟩ := Option.map_eq_some_iff.mp h
  obtain ⟨hlt, hsep, hfirst⟩ := List.idxOf?_eq_some_iff.mp hk
  have hsplit : as.drop start =
      (as.drop start).take k ++ sep :: as.drop (start + k + 1) := by
    have htail : (as.drop start).drop k =
        sep :: as.drop (start + k + 1) := by
      rw [List.drop_eq_getElem_cons hlt, hsep, List.drop_drop]
      rfl
    rw [← htail, List.take_append_drop]
  have hno : sep ∉ (as.drop start).take k := by
    intro hmem
    obtain ⟨j, hj, hget⟩ := List.getElem_of_mem hmem
    rw [List.getElem_take] at hget
    rw [List.length_take] at hj
    exact hfirst j (by omega) hget
  have hcount : start + k - start = k := by omega
  rw [slice, hcount, ← frames_frame sep hno, ← hsplit]

/-- The chunks do not matter. -/
theorem feed_eq_frames
    (buf : List α) (chunks : List (List α)) (hbuf : sep ∉ buf) :
    feed sep buf chunks = frames sep (buf ++ chunks.flatten) := by
  induction chunks generalizing buf with
  | nil =>
      rw [List.flatten_nil, List.append_nil, frames_of_notMem sep hbuf]
      rfl
  | cons chunk chunks ih =>
      have hrest := notMem_frames_rest sep (buf ++ chunk)
      rw [feed, ih _ hrest, List.flatten_cons, ← List.append_assoc,
        frames_append sep (buf ++ chunk)]

/-- **The reader gets the frames that the writer wrote.** -/
theorem feed_eq_of_join
    {ls : List (List α)} {chunks : List (List α)}
    (h : ∀ l ∈ ls, sep ∉ l)
    (hchunks : chunks.flatten = join sep ls) :
    feed sep [] chunks = (ls, []) := by
  rw [feed_eq_frames sep [] chunks List.not_mem_nil, List.nil_append,
    hchunks, frames_join sep h]

end Framing
