import Mathlib.Data.List.Basic
import Mathlib.Tactic

/-!
# Interleavings of independent components

Events that each belong to one component, where events of different components commute. A
run then depends only on the sequence of events of each component, not on how the
sequences are interleaved.

## Main definitions

* `Commutes` — events of different components commute.
* `Local` — an event changes the view of its own component only.
* `projection` — the events of one component, in order.

## Main results

* `Commutes.foldl_eq` — equal projections, equal runs.
* `Local.foldl` — the view of a component after a run comes from its own events.
-/

namespace Mdfh.Library.Interleave

variable {σ α κ τ : Type*} (key : α → κ)

def Commutes (act : σ → α → σ) : Prop :=
  ∀ s a b, key a ≠ key b → act (act s a) b = act (act s b) a

/-- An event acts on the view of its own component and leaves the other views alone. -/
structure Local (act : σ → α → σ) (view : κ → σ → τ) (own : τ → α → τ) : Prop where
  own : ∀ s a, view (key a) (act s a) = own (view (key a) s) a
  other : ∀ s a k, key a ≠ k → view k (act s a) = view k s

variable {key} {act : σ → α → σ} {view : κ → σ → τ} {own : τ → α → τ}

/-- An event moves in front of events of other components. -/
theorem Commutes.foldl_move (h : Commutes key act) {pre : List α} {a : α}
    (hpre : ∀ b ∈ pre, key b ≠ key a) (post : List α) (s : σ) :
    (pre ++ a :: post).foldl act s = (pre ++ post).foldl act (act s a) := by
  induction pre generalizing s with
  | nil => rfl
  | cons b pre ih =>
    obtain ⟨hb, hpre⟩ := List.forall_mem_cons.mp hpre
    rw [List.cons_append, List.foldl_cons, ih hpre, h s b a hb, List.cons_append, List.foldl_cons]

variable [DecidableEq κ]

variable (key) in
/-- The events of one component, in order. -/
def projection (k : κ) (xs : List α) : List α := xs.filter (key · = k)

/-- The first event of a list is the first of its component in any list with the same
projections. -/
theorem exists_move {a : α} {xs ys : List α}
    (h : ∀ k, projection key k (a :: xs) = projection key k ys) :
    ∃ pre post, ys = pre ++ a :: post ∧ (∀ b ∈ pre, key b ≠ key a) ∧
      ∀ k, projection key k xs = projection key k (pre ++ post) := by
  have hown := h (key a)
  simp only [projection, List.filter_cons, decide_true, if_true] at hown
  obtain ⟨pre, post, rfl, hpre, -, -⟩ := List.filter_eq_cons_iff.mp hown.symm
  have hpre' : ∀ b ∈ pre, key b ≠ key a := by simpa using hpre
  refine ⟨pre, post, rfl, hpre', ?_⟩
  intro k
  have hk := h k
  simp only [projection, List.filter_append, List.filter_cons] at hk ⊢
  by_cases hka : key a = k
  · have hnil : pre.filter (key · = k) = [] := by
      rw [List.filter_eq_nil_iff]
      intro b hb
      simpa [← hka] using hpre' b hb
    simpa [hka, hnil] using hk
  · simpa [hka] using hk

/-- Runs over lists with the same projections end in the same state. -/
theorem Commutes.foldl_eq (h : Commutes key act) {xs ys : List α}
    (hproj : ∀ k, projection key k xs = projection key k ys) (s : σ) :
    xs.foldl act s = ys.foldl act s := by
  induction xs generalizing ys s with
  | nil =>
    have hnil : ys = [] := by
      refine List.eq_nil_iff_forall_not_mem.mpr ?_
      intro a ha
      have hown := hproj (key a)
      rw [projection, projection, List.filter_nil, eq_comm, List.filter_eq_nil_iff] at hown
      exact hown a ha (decide_eq_true rfl)
    rw [hnil]
  | cons a xs ih =>
    obtain ⟨pre, post, rfl, hpre, hrest⟩ := exists_move hproj
    rw [h.foldl_move hpre, List.foldl_cons, ih hrest]

/-- The view of a component after a run is that of a run over its own events. -/
theorem Local.foldl (h : Local key act view own) (k : κ) (xs : List α) (s : σ) :
    view k (xs.foldl act s) = (projection key k xs).foldl own (view k s) := by
  induction xs generalizing s with
  | nil => rfl
  | cons a xs ih =>
    rw [List.foldl_cons, ih]
    by_cases hk : key a = k
    · subst hk
      simp [h.own, projection]
    · simp [hk, h.other s a k hk, projection]

end Mdfh.Library.Interleave
