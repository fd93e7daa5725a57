import Mdfh.Library.OrdMap

/-!
# A list with an index of its slots

A list without repetitions together with a map from each element to its position, so that
an element can be removed in constant time by moving the last one into its slot.

## Main definitions

* `Indexes` — the map is the inverse of the list.

## Main results

* `Indexes.push`, `Indexes.swapRemove` — the two updates keep the inverse.
-/

namespace Mdfh.Library

open Std

variable {κ : Type*} {cmp : κ → κ → Ordering} [TransCmp cmp] [LawfulEqCmp cmp] [DecidableEq κ]

def Indexes (index : ExtTreeMap κ Nat cmp) (l : List κ) : Prop :=
  ∀ (k : κ) (i : Nat), index[k]? = some i ↔ l[i]? = some k

namespace Indexes

variable {index : ExtTreeMap κ Nat cmp} {l : List κ} {k last : κ} {i j : Nat}

omit [LawfulEqCmp cmp] [DecidableEq κ] in
theorem mem_iff (h : Indexes index l) : k ∈ l ↔ index[k]?.isSome := by
  rw [List.mem_iff_getElem?, Option.isSome_iff_exists]
  exact exists_congr fun i => (h k i).symm

omit [LawfulEqCmp cmp] [DecidableEq κ] in
theorem unique (h : Indexes index l) (hi : l[i]? = some k) (hj : l[j]? = some k) : i = j :=
  Option.some.inj (((h k i).mpr hi).symm.trans ((h k j).mpr hj))

omit [LawfulEqCmp cmp] [DecidableEq κ] in
theorem nodup (h : Indexes index l) : l.Nodup := by
  rw [List.nodup_iff_getElem?_ne_getElem?]
  intro i j hij hj heq
  have hget := List.getElem?_eq_getElem hj
  exact hij.ne (h.unique (heq.trans hget) hget)

theorem push (h : Indexes index l) (hfresh : k ∉ l) :
    Indexes (index.insertIfNew k l.length) (l ++ [k]) := by
  intro k' i
  have hnone : index[k]? = none := by
    rw [h.mem_iff] at hfresh
    simpa using hfresh
  rw [OrdMap.getElem?_insertIfNew, hnone, List.getElem?_append]
  by_cases hk : k = k'
  · subst hk
    have hno : l[i]? ≠ some k := fun hi => hfresh (List.mem_of_getElem? hi)
    grind
  · have hiff := h k' i
    grind

/-- The last element moves into the slot of the removed one. -/
theorem swapRemove (h : Indexes index l) (hi : l[i]? = some k) (hlast : l.getLast? = some last) :
    Indexes ((index.insert last i).erase k) (l.set i last).dropLast := by
  intro k' j
  have hend : l[l.length - 1]? = some last := by rw [← List.getLast?_eq_getElem?, hlast]
  have hlen : i < l.length := (List.getElem?_eq_some_iff.mp hi).1
  have hget : (l.set i last).dropLast[j]? =
      if j < l.length - 1 then if i = j then some last else l[j]? else none := by
    rw [List.getElem?_dropLast, List.length_set, List.getElem?_set]
    split_ifs <;> rfl
  rw [OrdMap.getElem?_erase, OrdMap.getElem?_insert, hget]
  by_cases hk : k = k'
  · subst hk
    have hslot (hj : l[j]? = some k) : j = i := h.unique hj hi
    have hmoved (heq : last = k) : i = l.length - 1 := h.unique hi (heq ▸ hend)
    grind
  · by_cases hl : last = k'
    · subst hl
      have hslot (hj : l[j]? = some last) : j = l.length - 1 := h.unique hj hend
      have hne : i ≠ l.length - 1 := fun heq => hk (Option.some.inj ((heq ▸ hi).symm.trans hend))
      grind
    · have hiff := h k' j
      have hbound (hj : l[j]? = some k') : j < l.length := (List.getElem?_eq_some_iff.mp hj).1
      grind

end Indexes

end Mdfh.Library
