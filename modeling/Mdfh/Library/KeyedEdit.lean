import Mdfh.Library.Keyed

/-!
# Edits of keyed lists

An edit rewrites or drops the elements under one key and then may append one element under
that key. Edits of different keys commute, but for the order of what they append.

## Main definitions

* `Keyed.rewrite` — change or drop the elements under a key, in place.
* `Keyed.Edit`, `Edit.apply` — a rewriting followed by an append.
* `Keyed.restrict` — the elements under some of the keys.

## Main results

* `Edit.lookup_other` — an edit is not seen under other keys.
* `Edit.exists_common` — two edits of different keys, in both orders.
* `Edit.restrict_apply`, `Edit.restrict_apply_other` — what is seen of an edit under some keys.
-/

namespace Mdfh.Library.Keyed

variable {α κ : Type*} [DecidableEq κ] {key : α → κ} {k j : κ} {l l' : List α} {a b : α}

variable (key) in
def rewrite (k : κ) (f : α → Option α) (l : List α) : List α :=
  l.filterMap fun a => if key a = k then f a else some a

theorem rewrite_append (f : α → Option α) :
    rewrite key k f (l ++ l') = rewrite key k f l ++ rewrite key k f l' := List.filterMap_append

theorem rewrite_other (f : α → Option α) (h : ∀ a ∈ l, key a ≠ k) : rewrite key k f l = l := by
  induction l with
  | nil => rfl
  | cons a l ih => grind [rewrite]

theorem rewrite_some : rewrite key k some l = l := by
  simp [rewrite]

theorem rewrite_none : rewrite key k (fun _ => none) l = remove key k l := by
  induction l with
  | nil => rfl
  | cons a l ih => grind [rewrite, remove]

theorem rewrite_update (f : α → α) : rewrite key k (fun a => some (f a)) l = update key k f l := by
  induction l with
  | nil => rfl
  | cons a l ih => grind [rewrite, update]

/-- A rewriting that keeps keys. -/
def KeepsKey (key : α → κ) (f : α → Option α) : Prop := ∀ a b, f a = some b → key b = key a

theorem rewrite_comm {f g : α → Option α} (hkj : k ≠ j) (hf : KeepsKey key f) (hg : KeepsKey key g) :
    rewrite key k f (rewrite key j g l) = rewrite key j g (rewrite key k f l) := by
  simp only [rewrite, List.filterMap_filterMap]
  refine List.filterMap_congr ?_
  intro a _
  have hfa := hf a
  have hga := hg a
  cases hfe : f a <;> cases hge : g a <;> grind

theorem lookup_rewrite_other {f : α → Option α} (hkj : k ≠ j) (hf : KeepsKey key f) :
    lookup key j (rewrite key k f l) = lookup key j l := by
  induction l with
  | nil => rfl
  | cons a l ih =>
    have hfa := hf a
    grind [rewrite, lookup]

/-- A change of the elements under the key `k`. -/
structure Edit (key : α → κ) (k : κ) where
  change : α → Option α
  appended : Option α := none
  keeps : KeepsKey key change
  key_appended : ∀ a ∈ appended, key a = k

namespace Edit

def apply (e : Edit key k) (l : List α) : List α := rewrite key k e.change l ++ e.appended.toList

def skip : Edit key k where
  change := some
  keeps := fun _ _ h => Option.some.inj h ▸ rfl
  key_appended := by simp

def drop : Edit key k where
  change := fun _ => none
  keeps := nofun
  key_appended := by simp

def set (f : α → α) (hf : ∀ a, key (f a) = key a) : Edit key k where
  change := fun a => some (f a)
  keeps := fun a _ h => Option.some.inj h ▸ hf a
  key_appended := by simp

/-- The same change, followed by an append. -/
def push (e : Edit key k) (a : α) (ha : key a = k) : Edit key k where
  change := e.change
  appended := some a
  keeps := e.keeps
  key_appended := fun _ h => Option.some.inj h ▸ ha

@[simp] theorem apply_skip : (skip : Edit key k).apply l = l := by
  simp [apply, skip, rewrite_some]

@[simp] theorem apply_drop : (drop : Edit key k).apply l = remove key k l := by
  simp [apply, drop, rewrite_none]

@[simp] theorem apply_set (f : α → α) (hf : ∀ a, key (f a) = key a) :
    (set f hf : Edit key k).apply l = update key k f l := by
  simp [apply, set, rewrite_update]

@[simp] theorem apply_push_skip (ha : key a = k) : ((skip : Edit key k).push a ha).apply l = l ++ [a] := by
  simp [apply, push, skip, rewrite_some]

@[simp] theorem apply_push_drop (ha : key a = k) :
    ((drop : Edit key k).push a ha).apply l = remove key k l ++ [a] := by
  simp [apply, push, drop, rewrite_none]

theorem lookup_other (e : Edit key k) (hkj : k ≠ j) : lookup key j (e.apply l) = lookup key j l := by
  have hlookup := lookup_rewrite_other (l := l) hkj e.keeps
  have hkey := e.key_appended
  cases happ : e.appended with
  | none => simpa [apply, happ] using hlookup
  | some a =>
    have hne : key a ≠ j := by rw [hkey a happ]; exact hkj
    rw [apply, happ, Option.toList_some, lookup_append_singleton, hlookup, if_neg hne, Option.or_none]

theorem rewrite_appended (e : Edit key k) (hkj : k ≠ j) (f : α → Option α) :
    rewrite key j f e.appended.toList = e.appended.toList := by
  refine rewrite_other f ?_
  intro a ha
  rw [e.key_appended a (Option.mem_toList.mp ha)]
  exact hkj

/-- Both orders leave the same list behind, with what is appended in the order of the edits. -/
theorem exists_common (e : Edit key k) (e' : Edit key j) (hkj : k ≠ j) (l : List α) :
    ∃ base, e'.apply (e.apply l) = base ++ e.appended.toList ++ e'.appended.toList ∧
      e.apply (e'.apply l) = base ++ e'.appended.toList ++ e.appended.toList := by
  refine ⟨rewrite key j e'.change (rewrite key k e.change l), ?_, ?_⟩
  · simp only [apply, rewrite_append, e.rewrite_appended hkj]
  · simp only [apply, rewrite_append, e'.rewrite_appended hkj.symm,
      rewrite_comm hkj e.keeps e'.keeps]

end Edit

/-! ## Some of the keys -/

variable (key) in
/-- The elements with a key in a set. -/
def restrict (S : κ → Bool) (l : List α) : List α := l.filter fun a => S (key a)

theorem lookup_restrict {S : κ → Bool} (hk : S k = true) : lookup key k (restrict key S l) = lookup key k l := by
  induction l with
  | nil => rfl
  | cons a l ih => grind [restrict, lookup]

theorem restrict_rewrite {S : κ → Bool} {f : α → Option α} (hf : KeepsKey key f) :
    restrict key S (rewrite key k f l) = rewrite key k f (restrict key S l) := by
  induction l with
  | nil => rfl
  | cons a l ih =>
    have hfa := hf a
    cases hfe : f a <;> grind [restrict, rewrite]

theorem restrict_rewrite_other {S : κ → Bool} {f : α → Option α} (hf : KeepsKey key f)
    (hk : S k = false) : restrict key S (rewrite key k f l) = restrict key S l := by
  rw [restrict_rewrite hf]
  refine rewrite_other f ?_
  intro a ha hak
  have hS : S (key a) = true := (List.mem_filter.mp ha).2
  rw [hak, hk] at hS
  cases hS

namespace Edit

/-- An edit of a key in the set, before and after the other elements are left out. -/
theorem restrict_apply (e : Edit key k) {S : κ → Bool} (hk : S k = true) :
    restrict key S (e.apply l) = e.apply (restrict key S l) := by
  have happ : restrict key S e.appended.toList = e.appended.toList := by
    refine List.filter_eq_self.mpr fun a ha => ?_
    rw [e.key_appended a (Option.mem_toList.mp ha), hk]
  rw [apply, apply, ← restrict_rewrite e.keeps]
  nth_rewrite 2 [← happ]
  exact List.filter_append _ _

/-- Other edits are not seen. -/
theorem restrict_apply_other (e : Edit key k) {S : κ → Bool} (hk : S k = false) :
    restrict key S (e.apply l) = restrict key S l := by
  have happ : restrict key S e.appended.toList = [] := by
    refine List.filter_eq_nil_iff.mpr fun a ha => ?_
    rw [e.key_appended a (Option.mem_toList.mp ha), hk]
    exact Bool.false_ne_true
  have hrewrite := restrict_rewrite_other (l := l) e.keeps hk
  rw [apply, restrict, List.filter_append, ← restrict, ← restrict, happ, hrewrite, List.append_nil]

end Edit

end Mdfh.Library.Keyed
