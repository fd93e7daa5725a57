import Mathlib.Data.List.Basic
import Mathlib.Tactic

/-!
# Keyed lists

Lists whose elements carry a key, read as finite tables: lookup, removal and update by
key. A list may be keyed in more than one way; with unique keys, removing or updating an
element does not depend on the key used to find it.

## Main definitions

* `Keyed.lookup`, `Keyed.remove`, `Keyed.update` — the three table operations.
* `Keyed.Unique` — no key occurs twice.

## Main results

* `Unique.lookup_eq_some_iff` — lookup is membership.
* `Unique.remove_eq`, `Unique.update_eq` — the choice of the key does not matter.
* `sum_remove`, `sum_update` — how a sum over the list changes.
-/

namespace Mdfh.Library.Keyed

variable {α β κ ι : Type*} [DecidableEq κ] [DecidableEq ι] (key : α → κ) (key' : α → ι)

def lookup (k : κ) (l : List α) : Option α := l.find? (key · = k)

def remove (k : κ) (l : List α) : List α := l.filter (key · ≠ k)

def update (k : κ) (f : α → α) (l : List α) : List α := l.map fun a => if key a = k then f a else a

def Unique (l : List α) : Prop := (l.map key).Nodup

variable {key key'} {l : List α} {a b : α} {k j : κ} {f : α → α}

theorem lookup_eq_none_iff : lookup key k l = none ↔ ∀ a ∈ l, key a ≠ k := by
  simp [lookup]

theorem of_lookup_eq_some (h : lookup key k l = some a) : a ∈ l ∧ key a = k := by
  refine ⟨List.mem_of_find?_eq_some h, ?_⟩
  simpa using List.find?_some h

theorem lookup_append_singleton : lookup key k (l ++ [a]) =
    (lookup key k l).or (if key a = k then some a else none) := by
  rw [lookup, List.find?_append, ← lookup]
  congr 1
  by_cases h : key a = k <;> simp [h]

theorem lookup_append_of_fresh (h : lookup key (key a) l = none) : lookup key k (l ++ [a]) =
    if key a = k then some a else lookup key k l := by
  rw [lookup_append_singleton]
  split_ifs with hk
  · rw [← hk, h, Option.none_or]
  · rw [Option.or_none]

theorem lookup_remove : lookup key k (remove key j l) = if j = k then none else lookup key k l := by
  rw [lookup, remove, List.find?_filter]
  split_ifs with h
  · subst h
    simp
  · congr 1
    funext a
    by_cases hk : key a = k
    · simp [hk, Ne.symm h]
    · simp [hk]

theorem lookup_update (hf : ∀ a, key (f a) = key a) :
    lookup key k (update key j f l) = if j = k then (lookup key k l).map f else lookup key k l := by
  have hkey : ((fun a => decide (key a = k)) ∘ fun a => if key a = j then f a else a) =
      fun a => decide (key a = k) := by
    funext a
    by_cases hj : key a = j <;> simp [hj, hf]
  rw [lookup, update, List.find?_map, hkey]
  cases hlookup : List.find? (key · = k) l with
  | none => simp [lookup, hlookup]
  | some a =>
    have hk : key a = k := by simpa using List.find?_some hlookup
    by_cases hj : j = k
    · simp [lookup, hlookup, hk, hj]
    · simp [lookup, hlookup, hk, hj, Ne.symm hj]

theorem mem_remove : a ∈ remove key k l ↔ a ∈ l ∧ key a ≠ k := by
  simp [remove]

theorem remove_eq_self (h : lookup key k l = none) : remove key k l = l := by
  rw [remove, List.filter_eq_self]
  simpa using lookup_eq_none_iff.mp h

theorem update_eq_self (h : lookup key k l = none) : update key k f l = l := by
  refine (List.map_congr_left fun a ha => ?_).trans (List.map_id l)
  exact if_neg (lookup_eq_none_iff.mp h a ha)

theorem filter_remove (p : α → Bool) :
    (remove key k l).filter p = remove key k (l.filter p) := by
  simp only [remove, List.filter_filter, Bool.and_comm]

theorem filter_update (p : α → Bool) (hp : ∀ a, p (f a) = p a) :
    (update key k f l).filter p = update key k f (l.filter p) := by
  have hcomp : (p ∘ fun a => if key a = k then f a else a) = p := by
    funext a
    by_cases h : key a = k <;> simp [h, hp]
  rw [update, List.filter_map, hcomp, update]

theorem remove_update (hf : ∀ a, key (f a) = key a) :
    remove key k (update key k f l) = remove key k l := by
  induction l with
  | nil => rfl
  | cons a l ih =>
    simp only [remove, update, List.map_cons] at ih ⊢
    by_cases h : key a = k <;> simpa [h, hf] using ih

theorem update_update {g : α → α} (hf : ∀ a, key (f a) = key a) :
    update key k g (update key k f l) = update key k (fun a => g (f a)) l := by
  rw [update, update, List.map_map]
  refine List.map_congr_left fun a _ => ?_
  by_cases h : key a = k <;> simp [h, hf]

section
variable {key'' : β → κ} {g : α → β} (hg : ∀ a, key'' (g a) = key a)
include hg

theorem lookup_map : lookup key'' k (l.map g) = (lookup key k l).map g := by
  rw [lookup, List.find?_map, lookup]
  congr 2
  funext a
  simp [hg]

theorem remove_map : remove key'' k (l.map g) = (remove key k l).map g := by
  rw [remove, List.filter_map, remove]
  congr 2
  funext a
  simp [hg]

theorem update_map {f' : β → β} (hf : ∀ a, f' (g a) = g (f a)) :
    update key'' k f' (l.map g) = (update key k f l).map g := by
  rw [update, update, List.map_map, List.map_map]
  refine List.map_congr_left ?_
  intro a _
  simp only [Function.comp_apply, hg]
  split_ifs
  · exact hf a
  · rfl

end

/-- A projection that does not see the change. -/
theorem map_update (g : α → β) (hg : ∀ a, g (f a) = g a) :
    (update key k f l).map g = l.map g := by
  rw [update, List.map_map]
  refine List.map_congr_left ?_
  intro a _
  by_cases h : key a = k <;> simp [h, hg]

namespace Unique

omit [DecidableEq κ] in
theorem eq_of_mem (h : Unique key l) (ha : a ∈ l) (hb : b ∈ l) (hab : key a = key b) : a = b :=
  List.inj_on_of_nodup_map h ha hb hab

theorem lookup_eq_some_iff (h : Unique key l) : lookup key k l = some a ↔ a ∈ l ∧ key a = k := by
  refine ⟨of_lookup_eq_some, fun ⟨ha, hk⟩ => ?_⟩
  cases hlookup : lookup key k l with
  | none => exact absurd hk (lookup_eq_none_iff.mp hlookup a ha)
  | some b =>
    obtain ⟨hb, hkb⟩ := of_lookup_eq_some hlookup
    rw [h.eq_of_mem ha hb (hk.trans hkb.symm)]

theorem lookup_of_mem (h : Unique key l) (ha : a ∈ l) : lookup key (key a) l = some a :=
  h.lookup_eq_some_iff.mpr ⟨ha, rfl⟩

theorem append_singleton (h : Unique key l) (hfresh : lookup key (key a) l = none) :
    Unique key (l ++ [a]) := by
  rw [Unique, List.map_append, List.map_singleton]
  refine List.nodup_append.mpr ⟨h, List.nodup_singleton _, ?_⟩
  rintro k hk _ hk' rfl
  obtain ⟨b, hb, rfl⟩ := List.mem_map.mp hk
  exact lookup_eq_none_iff.mp hfresh b hb (by simpa using hk')

omit [DecidableEq κ] in
theorem filter (h : Unique key l) (p : α → Bool) : Unique key (l.filter p) :=
  List.Nodup.sublist (List.filter_sublist.map key) h

theorem remove (h : Unique key l) (k : κ) : Unique key (remove key k l) := h.filter _

omit [DecidableEq κ] in
theorem update (h : Unique key l) (i : ι) (hf : ∀ a, key (f a) = key a) :
    Unique key (update key' i f l) := by
  rw [Unique, map_update key hf]
  exact h

/-- Removing an element by either of its keys. -/
theorem remove_eq (h : Unique key l) (h' : Unique key' l) (ha : a ∈ l) :
    Keyed.remove key (key a) l = Keyed.remove key' (key' a) l := by
  refine List.filter_congr ?_
  intro b hb
  have hiff : key b = key a ↔ key' b = key' a :=
    ⟨fun hk => congrArg key' (h.eq_of_mem hb ha hk), fun hk => congrArg key (h'.eq_of_mem hb ha hk)⟩
  simp [hiff]

/-- Updating an element by either of its keys. -/
theorem update_eq (h : Unique key l) (h' : Unique key' l) (ha : a ∈ l) :
    Keyed.update key (key a) f l = Keyed.update key' (key' a) f l := by
  refine List.map_congr_left ?_
  intro b hb
  have hiff : key b = key a ↔ key' b = key' a :=
    ⟨fun hk => congrArg key' (h.eq_of_mem hb ha hk), fun hk => congrArg key (h'.eq_of_mem hb ha hk)⟩
  simp [hiff]

theorem perm_cons_remove (h : Unique key l) (ha : a ∈ l) :
    l.Perm (a :: Keyed.remove key (key a) l) := by
  induction l with
  | nil => simp at ha
  | cons b l ih =>
    obtain ⟨hb, hl⟩ := List.nodup_cons.mp h
    have hfresh : ∀ c ∈ l, key c ≠ key b := fun c hc hk => hb (List.mem_map.mpr ⟨c, hc, hk⟩)
    rcases List.mem_cons.mp ha with rfl | ha
    · have hrest : Keyed.remove key (key a) (a :: l) = l := by
        rw [Keyed.remove, List.filter_cons_of_neg (by simp), ← Keyed.remove]
        exact remove_eq_self (lookup_eq_none_iff.mpr hfresh)
      rw [hrest]
    · have hrest : Keyed.remove key (key a) (b :: l) = b :: Keyed.remove key (key a) l :=
        List.filter_cons_of_pos (by simpa using (hfresh a ha).symm)
      rw [hrest]
      exact ((ih hl ha).cons b).trans (.swap a b _)

theorem sum_remove (h : Unique key l) (ha : a ∈ l) (g : α → Nat) :
    (l.map g).sum = g a + ((Keyed.remove key (key a) l).map g).sum := by
  rw [((h.perm_cons_remove ha).map g).sum_eq, List.map_cons, List.sum_cons]

theorem sum_update (h : Unique key l) (ha : a ∈ l) (hf : ∀ a, key (f a) = key a) (g : α → Nat) :
    ((Keyed.update key (key a) f l).map g).sum + g a = (l.map g).sum + g (f a) := by
  have hmem : f a ∈ Keyed.update key (key a) f l := List.mem_map.mpr ⟨a, ha, if_pos rfl⟩
  have hrest : Keyed.remove key (key (f a)) (Keyed.update key (key a) f l) =
      Keyed.remove key (key a) l := by
    rw [hf, remove_update hf]
  rw [(h.update (key a) hf).sum_remove hmem g, h.sum_remove ha g, hrest]
  omega

/-- Up to order, updating an element is removing it and adding the new one. -/
theorem perm_update (h : Unique key l) (ha : a ∈ l) (hf : ∀ a, key (f a) = key a) :
    (Keyed.update key (key a) f l).Perm (Keyed.remove key (key a) l ++ [f a]) := by
  have hmem : f a ∈ Keyed.update key (key a) f l := List.mem_map.mpr ⟨a, ha, if_pos rfl⟩
  have hperm := (h.update (key a) hf).perm_cons_remove hmem
  rw [hf, remove_update hf] at hperm
  exact hperm.trans (List.perm_append_singleton _ _).symm

end Unique

end Mdfh.Library.Keyed
