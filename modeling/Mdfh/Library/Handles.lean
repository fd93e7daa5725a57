import Mathlib.Data.Finset.Basic
import Mathlib.Logic.Function.Basic

/-!
# Ownership of handles

Handles that a system hands out and takes back, each held by one owner or given away. An
owner may take a fresh handle, drop its own, pass it on or give it away; a handle that was
given away may be closed or taken by an owner again.

## Main definitions

* `Owned` — every open handle has one owner, or was given away.

## Main results

* `Owned.take`, `Owned.drop`, `Owned.give`, `Owned.adopt`, `Owned.close`, `Owned.move`.
-/

namespace Mdfh.Library

variable {ι η : Type*}

/-- `held` is the handle of each owner, and `loose` are the handles given away. -/
structure Owned (opened : Finset η) (held : ι → Option η) (loose : Finset η) : Prop where
  live : ∀ i h, held i = some h → h ∈ opened ∧ h ∉ loose
  distinct : ∀ i j h, held i = some h → held j = some h → i = j
  covered : ∀ h ∈ opened, h ∈ loose ∨ ∃ i, held i = some h
  loose : loose ⊆ opened

namespace Owned

variable {opened loose : Finset η} {held : ι → Option η} {i j : ι} {h : η}

theorem empty : Owned (∅ : Finset η) (fun _ : ι => none) ∅ :=
  ⟨by simp, by simp, by simp, Finset.Subset.refl _⟩

/-- Nobody holds anything, so nothing is open but what was given away. -/
theorem opened_eq (ho : Owned opened held loose) (hnone : ∀ i, held i = none) : opened = loose := by
  refine Finset.Subset.antisymm (fun h hh => ?_) ho.loose
  rcases ho.covered h hh with hl | ⟨i, hi⟩
  · exact hl
  · cases (hnone i).symm.trans hi

theorem close [DecidableEq η] (ho : Owned opened held loose) (hh : h ∈ loose) :
    Owned (opened.erase h) held (loose.erase h) := by
  obtain ⟨hlive, hdistinct, hcovered, hloose⟩ := ho
  refine ⟨?_, hdistinct, ?_, Finset.erase_subset_erase h hloose⟩
  · intro x y hx
    obtain ⟨hy, hl⟩ := hlive x y hx
    have hne : y ≠ h := fun heq => hl (heq ▸ hh)
    exact ⟨Finset.mem_erase.mpr ⟨hne, hy⟩, fun hm => hl (Finset.mem_of_mem_erase hm)⟩
  · intro y hy
    obtain ⟨hne, hy⟩ := Finset.mem_erase.mp hy
    exact (hcovered y hy).imp_left fun hl => Finset.mem_erase.mpr ⟨hne, hl⟩

variable [DecidableEq ι]

/-- A change at one owner takes the handle of no other. -/
theorem exists_update {v : Option η} (hx : ∃ x, held x = some h) (hi : held i ≠ some h) :
    ∃ x, Function.update held i v x = some h := by
  obtain ⟨x, hx⟩ := hx
  have hne : x ≠ i := by
    rintro rfl
    exact hi hx
  exact ⟨x, (Function.update_of_ne hne _ _).trans hx⟩

/-- The owner `i` has nothing any more. -/
theorem lose (ho : Owned opened held loose) (hi : held i = some h) :
    (∀ x y, Function.update held i none x = some y → y ∈ opened ∧ y ∉ loose ∧ y ≠ h) ∧
      (∀ x x' y, Function.update held i none x = some y →
        Function.update held i none x' = some y → x = x') ∧
      ∀ y ∈ opened, y ≠ h → y ∈ loose ∨ ∃ x, Function.update held i none x = some y := by
  obtain ⟨hlive, hdistinct, hcovered, hloose⟩ := ho
  refine ⟨?_, ?_, ?_⟩
  · intro x y hx
    grind [Function.update_apply]
  · intro x x' y hx hx'
    grind [Function.update_apply]
  · intro y hy hne
    refine (hcovered y hy).imp_right fun hx => exists_update hx ?_
    simpa [hi] using Ne.symm hne

variable [DecidableEq η]

theorem take (ho : Owned opened held loose) (hnew : h ∉ opened) (hi : held i = none) :
    Owned (insert h opened) (Function.update held i (some h)) loose := by
  obtain ⟨hlive, hdistinct, hcovered, hloose⟩ := ho
  refine ⟨?_, ?_, ?_, hloose.trans (Finset.subset_insert _ _)⟩
  · intro x y hx
    grind [Function.update_apply]
  · intro x x' y hx hx'
    grind [Function.update_apply]
  · intro y hy
    rcases Finset.mem_insert.mp hy with rfl | hy
    · exact .inr ⟨i, Function.update_self _ _ _⟩
    · exact (hcovered y hy).imp_right fun hx => exists_update hx (by simp [hi])

theorem drop (ho : Owned opened held loose) (hi : held i = some h) :
    Owned (opened.erase h) (Function.update held i none) loose := by
  obtain ⟨hlive, hdistinct, hcovered⟩ := ho.lose hi
  refine ⟨?_, hdistinct, ?_, ?_⟩
  · intro x y hx
    obtain ⟨hy, hl, hne⟩ := hlive x y hx
    exact ⟨Finset.mem_erase.mpr ⟨hne, hy⟩, hl⟩
  · intro y hy
    obtain ⟨hne, hy⟩ := Finset.mem_erase.mp hy
    exact hcovered y hy hne
  · intro y hy
    have hne : y ≠ h := fun heq => (ho.live i h hi).2 (heq ▸ hy)
    exact Finset.mem_erase.mpr ⟨hne, ho.loose hy⟩

theorem give (ho : Owned opened held loose) (hi : held i = some h) :
    Owned opened (Function.update held i none) (insert h loose) := by
  obtain ⟨hlive, hdistinct, hcovered⟩ := ho.lose hi
  refine ⟨?_, hdistinct, ?_, ?_⟩
  · intro x y hx
    obtain ⟨hy, hl, hne⟩ := hlive x y hx
    exact ⟨hy, by simp [hne, hl]⟩
  · intro y hy
    by_cases heq : y = h
    · exact .inl (by simp [heq])
    · exact (hcovered y hy heq).imp_left (Finset.mem_insert_of_mem ·)
  · exact Finset.insert_subset (ho.live i h hi).1 ho.loose

theorem adopt (ho : Owned opened held loose) (hh : h ∈ loose) (hi : held i = none) :
    Owned opened (Function.update held i (some h)) (loose.erase h) := by
  obtain ⟨hlive, hdistinct, hcovered, hloose⟩ := ho
  refine ⟨?_, ?_, ?_, (Finset.erase_subset _ _).trans hloose⟩
  · intro x y hx
    grind [Function.update_apply]
  · intro x x' y hx hx'
    grind [Function.update_apply]
  · intro y hy
    by_cases heq : y = h
    · exact .inr ⟨i, by rw [Function.update_self, heq]⟩
    · rcases hcovered y hy with hl | hx
      · exact .inl (Finset.mem_erase.mpr ⟨heq, hl⟩)
      · exact .inr (exists_update hx (by simp [hi]))

/-- Passing a handle on is giving it away and taking it again. -/
theorem move (ho : Owned opened held loose) (hi : held i = some h)
    (hj : Function.update held i none j = none) :
    Owned opened (Function.update (Function.update held i none) j (some h)) loose := by
  have hmoved := (ho.give hi).adopt (Finset.mem_insert_self h loose) hj
  rwa [Finset.erase_insert (ho.live i h hi).2] at hmoved

end Owned

end Mdfh.Library
