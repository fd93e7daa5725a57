import Mdfh.Library.LittleEndian

/-!
# Fixed layouts of little-endian fields

A table of fields, each with an offset, a width and the number that stands there. When the
fields follow one another without gap or overlap, the bytes of the layout are those of its
fields end to end, and every byte belongs to exactly one field.

## Main definitions

* `Field` — one row of the table; `Field.byteAt` is its byte at a position.
* `Tiles` — the fields cover a range in order.
* `render` — the fields end to end.

## Main results

* `Tiles.existsUnique` — every position is covered by exactly one field.
* `Tiles.getElem?_render` — the byte there is that of the field.
-/

namespace Mdfh.Library.Layout

open LittleEndian

structure Field where
  offset : Nat
  width : Nat
  value : Nat

namespace Field

@[grind] def Covers (f : Field) (k : Nat) : Prop := f.offset ≤ k ∧ k < f.offset + f.width

/-- The byte at a position of the buffer: least significant byte first. -/
def byteAt (f : Field) (k : Nat) : UInt8 := UInt8.ofNat (f.value / 256 ^ (k - f.offset))

/-- The same field in a table that starts `n` bytes later. -/
def shift (n : Nat) (f : Field) : Field := { f with offset := n + f.offset }

end Field

/-- The fields lie one behind the other and cover the range from `lo` to `hi`. -/
def Tiles (lo hi : Nat) : List Field → Prop
  | [] => lo = hi
  | f :: fs => f.offset = lo ∧ Tiles (lo + f.width) hi fs

/-- The bytes of the fields, end to end. -/
def render (fs : List Field) : List UInt8 := fs.flatMap fun f => bytes f.width f.value

@[simp] theorem render_nil : render [] = [] := rfl

@[simp] theorem render_cons (f : Field) (fs : List Field) :
    render (f :: fs) = bytes f.width f.value ++ render fs := rfl

theorem render_append (fs gs : List Field) : render (fs ++ gs) = render fs ++ render gs :=
  List.flatMap_append

/-- The bytes of a layout do not depend on where it starts. -/
theorem render_shift (n : Nat) (fs : List Field) : render (fs.map (.shift n)) = render fs := by
  simp only [render, List.flatMap_map, Field.shift]

theorem getElem?_bytes {n v i : Nat} (h : i < n) :
    (bytes n v)[i]? = some (UInt8.ofNat (v / 256 ^ i)) := by
  induction n generalizing v i with
  | zero => omega
  | succ n ih =>
    cases i with
    | zero => simp [bytes]
    | succ i =>
      rw [bytes, List.getElem?_cons_succ, ih (by omega), Nat.div_div_eq_div_mul, ← pow_succ']

namespace Tiles

variable {lo mid hi n k : Nat} {f : Field} {fs gs : List Field}

theorem append (h : Tiles lo mid fs) (h' : Tiles mid hi gs) : Tiles lo hi (fs ++ gs) := by
  induction fs generalizing lo with
  | nil =>
    obtain rfl : lo = mid := h
    exact h'
  | cons f fs ih => exact ⟨h.1, ih h.2⟩

theorem shift (h : Tiles lo hi fs) (n : Nat) : Tiles (n + lo) (n + hi) (fs.map (.shift n)) := by
  induction fs generalizing lo with
  | nil => exact congrArg (n + ·) h
  | cons f fs ih =>
    refine ⟨congrArg (n + ·) h.1, ?_⟩
    have := ih h.2
    rwa [← Nat.add_assoc] at this

theorem length_render (h : Tiles lo hi fs) : lo + (render fs).length = hi := by
  induction fs generalizing lo with
  | nil => exact h
  | cons f fs ih =>
    have := ih h.2
    rw [render_cons, List.length_append, length_bytes]
    omega

/-- Every field lies inside the range. -/
theorem inside (h : Tiles lo hi fs) (hf : f ∈ fs) : lo ≤ f.offset ∧ f.offset + f.width ≤ hi := by
  induction fs generalizing lo with
  | nil => cases hf
  | cons g fs ih =>
    obtain ⟨hoffset, hrest⟩ := h
    have hlen := hrest.length_render
    rcases List.mem_cons.mp hf with rfl | hf
    · omega
    · have := ih hrest hf
      omega

/-- No gap and no overlap: each position of the range belongs to one field. -/
theorem existsUnique (h : Tiles lo hi fs) (hlo : lo ≤ k) (hhi : k < hi) :
    ∃! f, f ∈ fs ∧ f.Covers k := by
  induction fs generalizing lo with
  | nil =>
    have : lo = hi := h
    omega
  | cons f fs ih =>
    obtain ⟨hoffset, hrest⟩ := h
    by_cases hk : k < lo + f.width
    · refine ⟨f, ⟨List.mem_cons_self, by grind⟩, ?_⟩
      rintro g ⟨hg, hcovers⟩
      rcases List.mem_cons.mp hg with rfl | hg
      · rfl
      · have := hrest.inside hg
        grind
    · obtain ⟨g, ⟨hg, hcovers⟩, hunique⟩ := ih hrest (by omega)
      refine ⟨g, ⟨List.mem_cons_of_mem f hg, hcovers⟩, ?_⟩
      rintro g' ⟨hg', hcovers'⟩
      rcases List.mem_cons.mp hg' with rfl | hg'
      · grind
      · exact hunique g' ⟨hg', hcovers'⟩

theorem getElem?_render (h : Tiles lo hi fs) (hf : f ∈ fs) (hk : f.Covers k) :
    (render fs)[k - lo]? = some (f.byteAt k) := by
  induction fs generalizing lo with
  | nil => cases hf
  | cons g fs ih =>
    obtain ⟨hoffset, hrest⟩ := h
    obtain ⟨hlo, hhi⟩ := hk
    rw [render_cons]
    rcases List.mem_cons.mp hf with rfl | hf
    · rw [List.getElem?_append_left (by rw [length_bytes]; omega), getElem?_bytes (by omega),
        Field.byteAt, hoffset]
    · have hinside := (hrest.inside hf).1
      rw [List.getElem?_append_right (by rw [length_bytes]; omega), length_bytes, Nat.sub_sub]
      exact ih hrest hf

end Tiles

end Mdfh.Library.Layout
