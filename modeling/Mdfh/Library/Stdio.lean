import Mathlib.Algebra.Group.Nat.Defs
import Mathlib.Data.List.Basic
import Mathlib.Logic.Function.Basic

/-!
# Files as byte arrays

The calls of C's standard streams on regular files, where every call succeeds: a stream is a
position in a named byte array. Offsets have the 64-bit type `long`, so a write does not
reach beyond the largest of them.

## Main definitions

* `Disk`, `Stream` — named byte arrays, and a position in one of them.
* `fopen`, `fwrite`, `fread`, `fseek`, `ftell`.

## Main results

* `fwrite_append`, `fwrite_front` — a write at the end, and one over the first bytes.
-/

namespace Mdfh.Library.Stdio

abbrev Path := String

abbrev Disk := Path → Option (List UInt8)

structure Stream where
  path : Path
  pos : Nat := 0
  deriving DecidableEq

inductive Mode where
  | rb | wb

inductive Whence where
  | set | fromEnd

/-- `LONG_MAX`. -/
def maxOffset : Nat := 2 ^ 63 - 1

def contents (d : Disk) (f : Stream) : List UInt8 := (d f.path).getD []

/-- Opening for writing truncates the file or creates it. -/
def fopen (d : Disk) (path : Path) : Mode → Disk × Option Stream
  | .rb => (d, (d path).map fun _ => { path })
  | .wb => (Function.update d path (some []), some { path })

/-- A byte array after a write at `p`. -/
def splice (xs : List UInt8) (p : Nat) (bs : List UInt8) : List UInt8 :=
  xs.take p ++ List.replicate (p - xs.length) 0 ++ bs ++ xs.drop (p + bs.length)

/-- The last component is the number of bytes written. -/
@[irreducible]
def fwrite (d : Disk) (f : Stream) (bs : List UInt8) : Disk × Stream × Nat :=
  if f.pos + bs.length ≤ maxOffset then
    (Function.update d f.path (some (splice (contents d f) f.pos bs)),
      { f with pos := f.pos + bs.length }, bs.length)
  else (d, f, 0)

def fread (d : Disk) (f : Stream) (n : Nat) : Stream × List UInt8 :=
  let bs := ((contents d f).drop f.pos).take n
  ({ f with pos := f.pos + bs.length }, bs)

/-- The second component is the status, zero for success. -/
def fseek (d : Disk) (f : Stream) (offset : Nat) : Whence → Stream × Int
  | .set => ({ f with pos := offset }, 0)
  | .fromEnd => ({ f with pos := (contents d f).length + offset }, 0)

def ftell (f : Stream) : Int := f.pos

variable {d : Disk} {f : Stream} {bs : List UInt8}

theorem splice_length (xs bs : List UInt8) : splice xs xs.length bs = xs ++ bs := by
  simp [splice]

theorem splice_zero (xs bs : List UInt8) : splice xs 0 bs = bs ++ xs.drop bs.length := by
  simp [splice]

theorem fwrite_other {path : Path} (h : f.path ≠ path) : (fwrite d f bs).1 path = d path := by
  unfold fwrite
  split_ifs
  · exact Function.update_of_ne (Ne.symm h) _ _
  · rfl

theorem fwrite_path : (fwrite d f bs).2.1.path = f.path := by
  unfold fwrite
  split_ifs <;> rfl

/-- A write at the end of the file extends it. -/
theorem fwrite_append (hend : f.pos = (contents d f).length)
    (hroom : f.pos + bs.length ≤ maxOffset) :
    fwrite d f bs = (Function.update d f.path (some (contents d f ++ bs)),
      { f with pos := f.pos + bs.length }, bs.length) := by
  rw [fwrite, if_pos hroom, hend, splice_length]

/-- A write at the beginning replaces as many bytes as it has. -/
theorem fwrite_front (hstart : f.pos = 0) (hroom : bs.length ≤ maxOffset) :
    (fwrite d f bs).1 = Function.update d f.path (some (bs ++ (contents d f).drop bs.length)) := by
  rw [fwrite, if_pos (by omega), hstart, splice_zero]

/-- A write that reports all of its bytes had room for them. -/
theorem room_of_fwrite (hpos : bs ≠ []) (hall : (fwrite d f bs).2.2 = bs.length) :
    f.pos + bs.length ≤ maxOffset := by
  by_contra hroom
  rw [fwrite, if_neg hroom] at hall
  exact hpos (List.length_eq_zero_iff.mp hall.symm)

end Mdfh.Library.Stdio
