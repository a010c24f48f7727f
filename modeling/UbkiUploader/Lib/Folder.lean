import Mathlib

/-!
# Folders

A folder maps the names of its files to their bytes. `rename` replaces a file of
the target's name, as POSIX does.
-/

/-- The files of a folder, by name. -/
abbrev Folder (ν : Type) := AList fun _ : ν => ByteArray

namespace Folder

variable {ν : Type} [DecidableEq ν] {d e : Folder ν} {a b n : ν} {bytes : ByteArray}

def read (d : Folder ν) (n : ν) : Option ByteArray := d.lookup n

def write (d : Folder ν) (n : ν) (bytes : ByteArray) : Folder ν := d.insert n bytes

def remove (d : Folder ν) (n : ν) : Folder ν := d.erase n

/-- `rename` inside a folder; no change when there is no such file. -/
def rename (d : Folder ν) (a b : ν) : Folder ν :=
  match d.read a with
  | none => d
  | some bytes => (d.remove a).write b bytes

/-- `rename` from one folder to another. -/
def move (d e : Folder ν) (a b : ν) : Folder ν × Folder ν :=
  match d.read a with
  | none => (d, e)
  | some bytes => (d.remove a, e.write b bytes)

@[simp] theorem read_empty : (∅ : Folder ν).read n = none := AList.lookup_empty n

theorem read_write : (d.write a bytes).read n = if n = a then some bytes else d.read n := by
  split
  · rename_i h
    subst h
    exact AList.lookup_insert d
  · rename_i h
    exact AList.lookup_insert_ne h

theorem read_remove : (d.remove a).read n = if n = a then none else d.read n := by
  split
  · rename_i h
    subst h
    exact AList.lookup_erase n d
  · rename_i h
    exact AList.lookup_erase_ne h

theorem read_isSome_iff : (d.read n).isSome ↔ n ∈ d.keys := AList.lookup_isSome

theorem read_rename (h : d.read a = some bytes) :
    (d.rename a b).read n =
      if n = b then some bytes else if n = a then none else d.read n := by
  simp only [rename, h, read_write, read_remove]

theorem move_fst (h : d.read a = some bytes) : (d.move e a b).1 = d.remove a := by
  simp only [move, h]

theorem move_snd (h : d.read a = some bytes) : (d.move e a b).2 = e.write b bytes := by
  simp only [move, h]

end Folder
