import Mathlib.Data.Option.Basic
import Mathlib.Data.List.Basic
import Mathlib.Order.WellFounded

/-!
# Transition systems

A system with a step function: an action either is not enabled or leads to one next
state. Runs are lists of actions, so a schedule is data and a run can be computed.

## Main definitions

* `System`, `System.run`, `System.Reachable`.
* `System.trace` — what is observed along a run.
* `System.CanAdvance` — an advance within reach of some of the actions, taken alone.
* `System.Inevitable` — what some of the actions, taken alone, cannot put off for ever.
* `System.InfiniteRun` — states and actions without end.
* `runChecked` — a fold that stops at the first step whose check fails.

## Main results

* `Reachable.invariant` — what holds at the start and is preserved by every step holds in
  every reachable state.
* `trace_invariant` — the same with the observations made so far.
* `run_countP_le` — how often a measure can be lowered.
* `Inevitable.of_measure` — progress by a decreasing measure.
* `InfiniteRun.starves` — a thread that alone lowers a measure is passed over for ever.
* `runChecked_eq_some_iff` — a check of what a step has touched stands for a global one.
-/

namespace Mdfh.Library

structure System (σ α : Type*) where
  start : σ
  step : σ → α → Option σ

namespace System

variable {σ α : Type*} (S : System σ α)

/-- The state after a list of actions, if each was enabled. -/
def run (s : σ) : List α → Option σ
  | [] => some s
  | a :: as => (S.step s a).bind fun s' => run s' as

def Reachable (s : σ) : Prop := ∃ actions, S.run S.start actions = some s

variable {S} {s s' : σ}

theorem run_invariant {I : σ → Prop} (hstep : ∀ s a s', I s → S.step s a = some s' → I s')
    (actions : List α) (hs : I s) (hrun : S.run s actions = some s') : I s' := by
  induction actions generalizing s with
  | nil => exact Option.some.inj hrun ▸ hs
  | cons a as ih =>
    obtain ⟨t, ht, hrest⟩ := Option.bind_eq_some_iff.mp hrun
    exact ih (hstep s a t hs ht) hrest

/-- What actions of one kind preserve. -/
theorem run_invariant_of_forall {I : σ → Prop} {P : α → Prop}
    (hstep : ∀ s a s', P a → I s → S.step s a = some s' → I s') (actions : List α)
    (hactions : ∀ a ∈ actions, P a) (hs : I s) (hrun : S.run s actions = some s') : I s' := by
  induction actions generalizing s with
  | nil => exact Option.some.inj hrun ▸ hs
  | cons a as ih =>
    obtain ⟨t, ht, hrest⟩ := Option.bind_eq_some_iff.mp hrun
    obtain ⟨ha, has⟩ := List.forall_mem_cons.mp hactions
    exact ih has (hstep s a t ha hs ht) hrest

theorem Reachable.invariant {I : σ → Prop} (h : S.Reachable s) (hstart : I S.start)
    (hstep : ∀ s a s', I s → S.step s a = some s' → I s') : I s := by
  obtain ⟨actions, hrun⟩ := h
  exact run_invariant hstep actions hstart hrun

/-! ## Observations -/

variable (S) in
/-- What `obs` sees of each action of a run, in order. -/
def trace {β : Type*} (obs : σ → α → List β) (s : σ) : List α → List β
  | [] => []
  | a :: as =>
    match S.step s a with
    | none => []
    | some s' => obs s a ++ trace obs s' as

theorem trace_invariant {β : Type*} {obs : σ → α → List β} {I : σ → List β → Prop}
    (hstep : ∀ s log a s', I s log → S.step s a = some s' → I s' (log ++ obs s a))
    (actions : List α) {log : List β} (hs : I s log) (hrun : S.run s actions = some s') :
    I s' (log ++ S.trace obs s actions) := by
  induction actions generalizing s log with
  | nil =>
    obtain rfl := Option.some.inj hrun
    rwa [trace, List.append_nil]
  | cons a as ih =>
    obtain ⟨t, ht, hrest⟩ := Option.bind_eq_some_iff.mp hrun
    have htrace : S.trace obs s (a :: as) = obs s a ++ S.trace obs t as := by
      simp only [trace, ht]
    rw [htrace, ← List.append_assoc]
    exact ih (hstep s log a t hs ht) hrest

/-! ## Bounded runs -/

/-- A run has no more of the actions that lower a measure than the measure has room for. -/
theorem run_countP_le {I : σ → Prop} (μ : σ → Nat) (p : α → Bool)
    (hstep : ∀ s a s', I s → S.step s a = some s' →
      I s' ∧ μ s' ≤ μ s ∧ (p a = true → μ s' < μ s))
    (actions : List α) (hs : I s) (hrun : S.run s actions = some s') :
    actions.countP p + μ s' ≤ μ s := by
  induction actions generalizing s with
  | nil =>
    obtain rfl := Option.some.inj hrun
    simp
  | cons a as ih =>
    obtain ⟨t, ht, hrest⟩ := Option.bind_eq_some_iff.mp hrun
    obtain ⟨hI, hle, hlt⟩ := hstep s a t hs ht
    have hrun := ih hI hrest
    rw [List.countP_cons]
    split_ifs with hp
    · have hlt := hlt hp
      omega
    · omega

/-! ## Progress -/

variable (S) in
/-- Some run of its own actions, and no others, ends with one that makes an advance. -/
def CanAdvance (own : α → Prop) (advance : σ → α → σ → Prop) (s : σ) : Prop :=
  ∃ actions s' a s'', (∀ b ∈ actions, own b) ∧ S.run s actions = some s' ∧
    own a ∧ S.step s' a = some s'' ∧ advance s' a s''

theorem not_canAdvance {own : α → Prop} {advance : σ → α → σ → Prop} {I : σ → Prop}
    (hstep : ∀ s a s', I s → own a → S.step s a = some s' → I s' ∧ ¬advance s a s') (hs : I s) :
    ¬S.CanAdvance own advance s := by
  rintro ⟨actions, s', a, s'', hown, hrun, ha, htaken, hadvance⟩
  induction actions generalizing s with
  | nil =>
    obtain rfl := Option.some.inj hrun
    exact (hstep s a s'' hs ha htaken).2 hadvance
  | cons b bs ih =>
    obtain ⟨t, ht, hrest⟩ := Option.bind_eq_some_iff.mp hrun
    obtain ⟨hb, hbs⟩ := List.forall_mem_cons.mp hown
    exact ih (hstep s b t hs hb ht).1 hbs hrest

variable (S) in
/-- Whichever of its own actions are taken, and no others, one that makes an advance comes
after finitely many of them; until then one is always enabled. -/
inductive Inevitable (own : α → Prop) (advance : σ → α → σ → Prop) : σ → Prop
  | intro {s : σ} : (∃ a s', own a ∧ S.step s a = some s') →
      (∀ a s', own a → S.step s a = some s' → ¬advance s a s' → Inevitable own advance s') →
      Inevitable own advance s

theorem Inevitable.of_measure {own : α → Prop} {advance : σ → α → σ → Prop} {I : σ → Prop}
    (μ : σ → Nat) (henabled : ∀ s, I s → ∃ a s', own a ∧ S.step s a = some s')
    (hstep : ∀ s a s', I s → own a → S.step s a = some s' → ¬advance s a s' →
      I s' ∧ μ s' < μ s) (hs : I s) : S.Inevitable own advance s := by
  induction hμ : μ s using Nat.strongRecOn generalizing s with
  | ind n ih =>
    refine .intro (henabled s hs) ?_
    intro a s' hown htaken hnot
    obtain ⟨hI, hlt⟩ := hstep s a s' hs hown htaken hnot
    exact ih (μ s') (hμ ▸ hlt) hI rfl

/-! ## Runs without end -/

theorem Reachable.step (h : S.Reachable s) {a : α} (hstep : S.step s a = some s') :
    S.Reachable s' := by
  obtain ⟨actions, hrun⟩ := h
  refine ⟨actions ++ [a], ?_⟩
  generalize S.start = s₀ at hrun ⊢
  induction actions generalizing s₀ with
  | nil =>
    obtain rfl := Option.some.inj hrun
    simp [run, hstep]
  | cons b bs ih =>
    obtain ⟨t, ht, hrest⟩ := Option.bind_eq_some_iff.mp hrun
    simp only [List.cons_append, run, ht, Option.bind_some]
    exact ih t hrest

variable (S) in
/-- The states of a run without end, and the action taken in each. -/
structure InfiniteRun (st : Nat → σ) (act : Nat → α) : Prop where
  start : st 0 = S.start
  step : ∀ n, S.step (st n) (act n) = some (st (n + 1))

namespace InfiniteRun

variable {st : Nat → σ} {act : Nat → α}

theorem reachable (h : S.InfiniteRun st act) (n : Nat) : S.Reachable (st n) := by
  induction n with
  | zero => exact ⟨[], congrArg some h.start.symm⟩
  | succ n ih => exact ih.step (h.step n)

/-- In every state one thread is helpful: its steps lower the measure, and the others'
lower it or leave it, and the helpful thread, as it is. Then a run without end never
schedules one of the threads again, which is helpful from then on. -/
theorem starves {τ W : Type*} [Preorder W] [WellFoundedLT W] (h : S.InfiniteRun st act)
    (thread : α → τ) (helpful : σ → τ) (μ : σ → W)
    (hstep : ∀ s a s', S.Reachable s → S.step s a = some s' →
      μ s' < μ s ∨ (thread a ≠ helpful s ∧ μ s' ≤ μ s ∧ helpful s' = helpful s)) :
    ∃ n₀, ∀ n ≥ n₀, helpful (st n) = helpful (st n₀) ∧ thread (act n) ≠ helpful (st n₀) := by
  have hnext (n : Nat) := hstep (st n) (act n) (st (n + 1)) (h.reachable n) (h.step n)
  -- From a place where the measure is least, no step lowers it.
  obtain ⟨_, ⟨n₀, rfl⟩, hleast⟩ :=
    WellFounded.has_min (wellFounded_lt (α := W)) (Set.range fun n => μ (st n)) ⟨_, 0, rfl⟩
  have hle (n : Nat) (hn : n₀ ≤ n) : μ (st n) ≤ μ (st n₀) ∧ helpful (st n) = helpful (st n₀) := by
    induction n, hn using Nat.le_induction with
    | base => exact ⟨le_refl _, rfl⟩
    | succ n hn ih =>
      rcases hnext n with hlt | ⟨-, hle, hsame⟩
      · exact absurd (hlt.trans_le ih.1) (hleast _ ⟨n + 1, rfl⟩)
      · exact ⟨hle.trans ih.1, hsame.trans ih.2⟩
  refine ⟨n₀, fun n hn => ⟨(hle n hn).2, ?_⟩⟩
  rcases hnext n with hlt | ⟨hother, -⟩
  · exact absurd (hlt.trans_le (hle n hn).1) (hleast _ ⟨n + 1, rfl⟩)
  · rwa [(hle n hn).2] at hother

end InfiniteRun

end System

/-! ## Checked runs -/

section
variable {σ α : Type*} {f : σ → α → σ} {check : σ → α → Bool} {P : σ → Prop} {s t : σ}

/-- The steps of a fold, each followed by a check of the state behind it. -/
def runChecked (f : σ → α → σ) (check : σ → α → Bool) (s : σ) : List α → Option σ
  | [] => some s
  | a :: as => if check (f s a) a then runChecked f check (f s a) as else none

/-- If the check finds everything that a step from a good state can have spoilt, a run is
complete exactly when all its states are good. -/
theorem runChecked_eq_some_iff (hlocal : ∀ s a, P s → (check (f s a) a = true ↔ P (f s a)))
    (hs : P s) {as : List α} :
    runChecked f check s as = some t ↔
      t = as.foldl f s ∧ ∀ k ≤ as.length, P ((as.take k).foldl f s) := by
  induction as generalizing s with
  | nil => simp [runChecked, hs, eq_comm]
  | cons a as ih =>
    rw [runChecked]
    split_ifs with hcheck
    · rw [ih ((hlocal s a hs).mp hcheck), List.foldl_cons]
      refine and_congr_right fun _ => ⟨fun hall k hk => ?_, fun hall k hk => ?_⟩
      · cases k with
        | zero => exact hs
        | succ k => exact hall k (Nat.le_of_succ_le_succ hk)
      · exact hall (k + 1) (Nat.succ_le_succ hk)
    · refine iff_of_false (by simp) ?_
      rintro ⟨-, hall⟩
      exact hcheck ((hlocal s a hs).mpr (hall 1 (Nat.succ_le_succ (Nat.zero_le _))))

end

end Mdfh.Library
