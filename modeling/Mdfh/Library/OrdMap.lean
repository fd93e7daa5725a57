import Mathlib.Tactic
import Mathlib.Data.List.Basic
import Mathlib.Data.Fintype.Card

/-!
# Ordered maps with lawful comparisons

`Std.ExtTreeMap` under a comparison whose equality is equality of keys: the lookup laws
with `=` in place of the comparison, and the entries at both ends.

## Main definitions

* `first?`, `last?` — the least and the greatest entry.

## Main results

* `first?_eq_some`, `last?_eq_some` — every other key is behind, or before.
* `toList_insert_perm` — a new key adds its entry and nothing else.
* `toList_flip` — the opposite comparison.
-/

namespace Mdfh.Library.OrdMap

open Std

variable {κ ν : Type*} {cmp : κ → κ → Ordering} [TransCmp cmp]

/-- The entry with the least key. -/
def first? (m : ExtTreeMap κ ν cmp) : Option (κ × ν) := m.toList.head?

/-- The entry with the greatest key. -/
def last? (m : ExtTreeMap κ ν cmp) : Option (κ × ν) := m.toList.getLast?

theorem size_of_first?_none {m : ExtTreeMap κ ν cmp} (h : first? m = none) : m.size = 0 := by
  rw [← ExtTreeMap.length_toList, List.head?_eq_none_iff.mp h, List.length_nil]

variable [LawfulEqCmp cmp] [DecidableEq κ] (m : ExtTreeMap κ ν cmp) (k a : κ) (v : ν)

theorem getElem?_insert : (m.insert k v)[a]? = if k = a then some v else m[a]? := by
  rw [ExtTreeMap.getElem?_insert]
  simp only [LawfulEqCmp.compare_eq_iff_eq]

theorem getElem?_erase : (m.erase k)[a]? = if k = a then none else m[a]? := by
  rw [ExtTreeMap.getElem?_erase]
  simp only [LawfulEqCmp.compare_eq_iff_eq]

theorem getElem?_insertIfNew :
    (m.insertIfNew k v)[a]? = if k = a ∧ m[k]? = none then some v else m[a]? := by
  rw [ExtTreeMap.getElem?_insertIfNew]
  simp only [LawfulEqCmp.compare_eq_iff_eq, ExtTreeMap.mem_iff_isSome_getElem?, Bool.not_eq_true,
    Option.isSome_eq_false_iff, Option.isNone_iff_eq_none]

omit [DecidableEq κ] in
theorem mem_keys_iff {m : ExtTreeMap κ ν cmp} {k : κ} : k ∈ m.keys ↔ ∃ v, m[k]? = some v := by
  rw [ExtTreeMap.mem_keys, ExtTreeMap.mem_iff_isSome_getElem?, Option.isSome_iff_exists]

omit [DecidableEq κ] in
theorem first?_eq_none {m : ExtTreeMap κ ν cmp} (h : first? m = none) : m[k]? = none := by
  rw [first?, List.head?_eq_none_iff] at h
  rw [← Option.not_isSome_iff_eq_none, Option.isSome_iff_exists]
  rintro ⟨v, hv⟩
  simpa [h] using ExtTreeMap.mem_toList_iff_getElem?_eq_some.mpr hv

omit [DecidableEq κ] in
theorem last?_eq_none {m : ExtTreeMap κ ν cmp} (h : last? m = none) : m[k]? = none := by
  refine first?_eq_none k ?_
  rw [last?, List.getLast?_eq_none_iff] at h
  rw [first?, h, List.head?_nil]

omit [DecidableEq κ] in
/-- The first entry is in the map, and every other key is behind it. -/
theorem first?_eq_some {m : ExtTreeMap κ ν cmp} {e : κ × ν} (h : first? m = some e) :
    m[e.1]? = some e.2 ∧ ∀ k v, m[k]? = some v → k = e.1 ∨ cmp e.1 k = .lt := by
  obtain ⟨es, hes⟩ := List.head?_eq_some_iff.mp h
  have hsorted := m.ordered_keys_toList
  rw [hes] at hsorted
  refine ⟨ExtTreeMap.mem_toList_iff_getElem?_eq_some.mp (hes ▸ List.mem_cons_self), ?_⟩
  intro k v hk
  have hmem := hes ▸ ExtTreeMap.mem_toList_iff_getElem?_eq_some.mpr hk
  rcases List.mem_cons.mp hmem with heq | hmem
  · exact .inl (congrArg Prod.fst heq)
  · exact .inr ((List.pairwise_cons.mp hsorted).1 _ hmem)

omit [DecidableEq κ] in
/-- The last entry is in the map, and every other key is before it. -/
theorem last?_eq_some {m : ExtTreeMap κ ν cmp} {e : κ × ν} (h : last? m = some e) :
    m[e.1]? = some e.2 ∧ ∀ k v, m[k]? = some v → k = e.1 ∨ cmp k e.1 = .lt := by
  obtain ⟨es, hes⟩ := List.getLast?_eq_some_iff.mp h
  have hsorted := m.ordered_keys_toList
  rw [hes] at hsorted
  refine ⟨ExtTreeMap.mem_toList_iff_getElem?_eq_some.mp (hes ▸ List.mem_concat_self), ?_⟩
  intro k v hk
  have hmem := hes ▸ ExtTreeMap.mem_toList_iff_getElem?_eq_some.mpr hk
  rcases List.mem_append.mp hmem with hmem | hmem
  · exact .inr ((List.pairwise_append.mp hsorted).2.2 _ hmem _ List.mem_cons_self)
  · exact .inl (congrArg Prod.fst (List.mem_singleton.mp hmem))

/-- Erasing before an insertion under the same key makes no difference. -/
theorem insert_erase : (m.erase k).insert k v = m.insert k v := by
  refine ExtTreeMap.ext_getElem? ?_
  intro a
  rw [getElem?_insert, getElem?_insert, getElem?_erase]
  split_ifs <;> rfl

omit [DecidableEq κ] in
theorem nodup_toList : m.toList.Nodup := by
  refine m.distinct_keys_toList.imp ?_
  rintro e e' hne rfl
  exact hne ReflCmp.compare_self

omit [DecidableEq κ] in
/-- A map with as many entries as there are keys has them all. -/
theorem exists_of_size_le {n : Nat} {f : κ → Fin n} (hf : Function.Injective f)
    {m : ExtTreeMap κ ν cmp} (h : n ≤ m.size) (k : κ) : ∃ v, m[k]? = some v := by
  have hnodup : (m.keys.map f).Nodup := m.nodup_keys.map hf
  have hle : n ≤ (m.keys.map f).toFinset.card := by
    rw [List.toFinset_card_of_nodup hnodup, List.length_map, ExtTreeMap.length_keys]
    exact h
  have hall : (m.keys.map f).toFinset = Finset.univ :=
    Finset.card_eq_iff_eq_univ _ |>.mp
      (Nat.le_antisymm (Finset.card_le_univ _) ((Fintype.card_fin n).trans_le hle))
  have hmem : f k ∈ m.keys.map f := List.mem_toFinset.mp (hall ▸ Finset.mem_univ _)
  obtain ⟨k', hk', heq⟩ := List.mem_map.mp hmem
  exact mem_keys_iff.mp (hf heq ▸ hk')

/-- A key that was not there adds its entry. -/
theorem toList_insert_perm (h : m[k]? = none) : (m.insert k v).toList.Perm ((k, v) :: m.toList) := by
  have hfresh : (k, v) ∉ m.toList := by
    simp [ExtTreeMap.mem_toList_iff_getElem?_eq_some, h]
  refine (List.perm_ext_iff_of_nodup (nodup_toList _) ?_).mpr ?_
  · exact List.nodup_cons.mpr ⟨hfresh, nodup_toList m⟩
  · rintro ⟨a, w⟩
    simp only [List.mem_cons, ExtTreeMap.mem_toList_iff_getElem?_eq_some, getElem?_insert,
      Prod.mk.injEq]
    by_cases hka : k = a
    · subst hka
      simp [h, eq_comm]
    · simp [hka, Ne.symm hka]

/-- An insertion leaves the other entries. -/
theorem toList_insert_perm_erase :
    (m.insert k v).toList.Perm ((k, v) :: (m.erase k).toList) := by
  have hnone : (m.erase k)[k]? = none := by simp
  have hperm := toList_insert_perm (m.erase k) k v hnone
  rwa [insert_erase] at hperm

theorem toList_perm_erase (h : m[k]? = some v) :
    m.toList.Perm ((k, v) :: (m.erase k).toList) := by
  have hsame : m.insert k v = m := by
    refine ExtTreeMap.ext_getElem? ?_
    intro a
    rw [getElem?_insert]
    grind
  have hperm := toList_insert_perm_erase m k v
  rwa [hsame] at hperm

theorem erase_eq_self (h : m[k]? = none) : m.erase k = m := by
  refine ExtTreeMap.ext_getElem? ?_
  intro a
  rw [getElem?_erase]
  grind

omit [DecidableEq κ] in
/-- Under the opposite comparison the entries come in the opposite order. -/
theorem toList_flip {m : ExtTreeMap κ ν cmp} {m' : ExtTreeMap κ ν fun a b => cmp b a}
    (h : ∀ k : κ, m[k]? = m'[k]?) : m'.toList = m.toList.reverse := by
  have hasymm : Std.Asymm fun e e' : κ × ν => cmp e'.1 e.1 = .lt :=
    ⟨fun _ _ => OrientedCmp.not_lt_of_lt⟩
  refine List.Pairwise.eq_of_mem_iff (r := fun e e' : κ × ν => cmp e'.1 e.1 = .lt)
    m'.ordered_keys_toList (List.pairwise_reverse.mpr m.ordered_keys_toList) ?_
  intro e
  rw [List.mem_reverse, ExtTreeMap.mem_toList_iff_getElem?_eq_some,
    ExtTreeMap.mem_toList_iff_getElem?_eq_some, h]

end Mdfh.Library.OrdMap
