/-
# Files (`fileIO.c`)

The file system is a map from paths to contents. `openForWrite` creates the
file if there is none and does not cut off one that is there; a `rename`
replaces the file at the new path. `readBytes` makes one `read`, which delivers
at most `READ_MAX` bytes, and fails if that is not all.
-/
import Threefizer.Basic
import Threefizer.Lib.Overlay

namespace Threefizer

/-- The contents of the files, none for a path without a file. -/
abbrev FileSystem := Path → Option (List Byte)

namespace FileSystem

/-- The file at `p` gets the content `c`. -/
def set (fs : FileSystem) (p : Path) (c : Option (List Byte)) : FileSystem :=
  fun q => if q = p then c else fs q

/-- `openForWrite`: `O_WRONLY | O_CREAT`. -/
def openForWrite (fs : FileSystem) (fname : Path) : FileSystem :=
  fs.set fname (some ((fs fname).getD []))

/-- A `write` of `data` at `offset` into the open file `fname`. -/
def write (fs : FileSystem) (fname : Path) (offset : ℕ) (data : List Byte) : FileSystem :=
  fs.set fname (some (Overlay.writeAt 0 ((fs fname).getD []) offset data))

/-- `rename`, when the call succeeds. -/
def rename (fs : FileSystem) (src dst : Path) : FileSystem :=
  if src = dst then fs else (fs.set dst (fs src)).set src none

/-- `unlink`. -/
def unlink (fs : FileSystem) (fname : Path) : FileSystem := fs.set fname none

@[simp] theorem set_same (fs : FileSystem) (p : Path) (c : Option (List Byte)) :
    fs.set p c p = c := by simp [set]

@[simp] theorem set_other (fs : FileSystem) {p q : Path} (c : Option (List Byte)) (h : q ≠ p) :
    fs.set p c q = fs q := by simp [set, h]

@[simp] theorem set_set (fs : FileSystem) (p : Path) (c d : Option (List Byte)) :
    (fs.set p c).set p d = fs.set p d := by
  funext q
  simp only [set]
  split <;> rfl

/-- Opening a file that is open already changes nothing. -/
theorem openForWrite_openForWrite (fs : FileSystem) (p : Path) :
    (fs.openForWrite p).openForWrite p = fs.openForWrite p := by
  simp only [openForWrite, set_same, set_set, Option.getD_some]

/-- A renamed file is the file that had the old name. -/
theorem rename_dst (fs : FileSystem) (src dst : Path) : fs.rename src dst dst = fs src := by
  unfold rename
  split
  next h => rw [h]
  next h => rw [set_other _ _ (Ne.symm h), set_same]

theorem rename_other (fs : FileSystem) {src dst q : Path} (hs : q ≠ src) (hd : q ≠ dst) :
    fs.rename src dst q = fs q := by
  unfold rename
  split
  · rfl
  · rw [set_other _ _ hs, set_other _ _ hd]

end FileSystem

/-! ### Reading -/

/-- What one `read` of `count` bytes at `offset` delivers. -/
def readCall (file : List Byte) (offset count : ℕ) : List Byte := (file.drop offset).take (min count READ_MAX)

/-- `readBytes`: the next `data_size` bytes from `offset`, none for a short
read. -/
def readBytes (file : List Byte) (offset data_size : ℕ) : Option (List Byte) :=
  if data_size = 0 then none
  else if (readCall file offset data_size).length < data_size then none
  else some (readCall file offset data_size)

section

variable {file : List Byte} {offset n : ℕ}

theorem length_readCall : (readCall file offset n).length = min (min n READ_MAX) (file.length - offset) := by
  rw [readCall, List.length_take, List.length_drop]

theorem readBytes_eq (h0 : 0 < n) (h : offset + n ≤ file.length) (hn : n ≤ READ_MAX) :
    readBytes file offset n = some ((file.drop offset).take n) := by
  have hall : ¬ (readCall file offset n).length < n := by
    rw [length_readCall]
    omega
  rw [readBytes, if_neg h0.ne', if_neg hall, readCall, Nat.min_eq_left hn]

/-- A block is read at once. -/
theorem readBytes_block {s : SkeinSize} (h : offset + s.bytes ≤ file.length) :
    readBytes file offset s.bytes = some ((file.drop offset).take s.bytes) :=
  readBytes_eq s.bytes_pos h (block_read s)

/-- More than one `read` delivers is never read. -/
theorem readBytes_none (hn : READ_MAX < n) : readBytes file offset n = none := by
  have hshort : (readCall file offset n).length < n := by
    rw [length_readCall]
    omega
  rw [readBytes, if_neg (by omega : n ≠ 0), if_pos hshort]

/-- What is read is the next bytes of the file. -/
theorem readBytes_some {data : List Byte} (h : readBytes file offset n = some data) :
    offset + n ≤ file.length ∧ n ≤ READ_MAX ∧ data = (file.drop offset).take n := by
  unfold readBytes at h
  split at h
  · cases h
  · split at h
    · cases h
    next h0 hall =>
      rw [length_readCall] at hall
      refine ⟨by omega, by omega, ?_⟩
      rw [← Option.some.inj h, readCall, Nat.min_eq_left (by omega)]

end

end Threefizer
