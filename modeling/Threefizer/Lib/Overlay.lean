/-
# Writing a file from its start

A file that is opened without being cut off keeps what lies past the bytes
written to it. `overlay old new` is the file `old` after `new` was written
from its start on; writes one after the other are one write
(`writeAt_overlay`), and nothing of the old file is left exactly if it was not
longer (`overlay_eq_self`).
-/
import Mathlib.Data.List.Basic
import Mathlib.Tactic.Common

namespace Overlay

variable {β : Type*}

/-- A file after `data` was written at `offset`; a gap is filled with `zero`. -/
def writeAt (zero : β) (file : List β) (offset : ℕ) (data : List β) : List β :=
  file.take offset ++ List.replicate (offset - file.length) zero ++
    (data ++ file.drop (offset + data.length))

/-- A write inside the file leaves its length. -/
theorem length_writeAt (zero : β) {file data : List β} {offset : ℕ} (h : offset + data.length ≤ file.length) :
    (writeAt zero file offset data).length = file.length := by
  simp only [writeAt, List.length_append, List.length_take, List.length_replicate, List.length_drop]
  omega

/-- Up to the end of the write. -/
theorem take_writeAt (zero : β) {file data : List β} {offset : ℕ} (h : offset ≤ file.length) :
    (writeAt zero file offset data).take (offset + data.length) = file.take offset ++ data := by
  have htake : (file.take offset).length = offset := by simp [h]
  have hlen : (file.take offset ++ data).length = offset + data.length := by rw [List.length_append, htake]
  rw [writeAt, Nat.sub_eq_zero_of_le h, List.replicate_zero, List.append_nil, ← List.append_assoc, ← hlen,
    List.take_left]

/-- The file `old` after `new` was written from its start on. -/
def overlay (old new : List β) : List β := new ++ old.drop new.length

theorem overlay_nil (old : List β) : overlay old [] = old := by simp [overlay]

/-- One more write where the last one ended. -/
theorem writeAt_overlay (zero : β) (old new data : List β) :
    writeAt zero (overlay old new) new.length data = overlay old (new ++ data) := by
  simp [writeAt, overlay, List.drop_append, List.drop_drop]

/-- Exactly the bytes written are left. -/
theorem overlay_eq_self {old new : List β} : overlay old new = new ↔ old.length ≤ new.length := by
  simp [overlay]

end Overlay
