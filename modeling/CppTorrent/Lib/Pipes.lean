import Mathlib.Data.List.Infix

/-! # Pipes

A pipe carries a sequence from a writer to a reader: nothing is lost, repeated or reordered, and the
reader gets it in portions of any size. The pipe remembers everything that was ever written, and how much
of it has been read (`received`). What is written later does not change what has been received, and what
is read later only adds to it. -/

namespace CppTorrent.Lib.Pipes

/-- What has been written so far, and how many items of it have been read. -/
structure Pipe (α : Type) where
  sent : List α
  taken : ℕ
  taken_le : taken ≤ sent.length

namespace Pipe

variable {α : Type}

/-- A new pipe. -/
def empty : Pipe α := ⟨[], 0, le_rfl⟩

/-- What has been read so far. -/
def received (p : Pipe α) : List α := p.sent.take p.taken

/-- Writes items. -/
def write (p : Pipe α) (items : List α) : Pipe α :=
  ⟨p.sent ++ items, p.taken, p.taken_le.trans (by simp)⟩

/-- The next items, at most `size` of them. -/
def portion (p : Pipe α) (size : ℕ) : List α := (p.sent.drop p.taken).take size

/-- Reads the next items. -/
def read (p : Pipe α) (size : ℕ) : Pipe α :=
  ⟨p.sent, p.taken + (p.portion size).length, by
    have h := p.taken_le
    unfold portion
    rw [List.length_take, List.length_drop]
    omega⟩

@[simp] theorem sent_write (p : Pipe α) (items : List α) : (p.write items).sent = p.sent ++ items := rfl

@[simp] theorem taken_write (p : Pipe α) (items : List α) : (p.write items).taken = p.taken := rfl

@[simp] theorem sent_read (p : Pipe α) (size : ℕ) : (p.read size).sent = p.sent := rfl

@[simp] theorem length_received (p : Pipe α) : p.received.length = p.taken := by
  rw [received, List.length_take, min_eq_left p.taken_le]

/-- What has been received is unchanged by a write. -/
@[simp] theorem received_write (p : Pipe α) (items : List α) : (p.write items).received = p.received :=
  List.take_append_of_le_length p.taken_le

/-- A read receives a portion. -/
theorem received_read (p : Pipe α) (size : ℕ) : (p.read size).received = p.received ++ p.portion size := by
  have hportion : p.portion size = (p.sent.drop p.taken).take (p.portion size).length := by
    unfold portion
    rw [List.length_take, List.take_eq_take_min]
  unfold received read
  dsimp only
  rw [List.take_add]
  exact congrArg _ hportion.symm

theorem received_initial (p : Pipe α) : p.received <+: p.sent := List.take_prefix _ _

end Pipe

end CppTorrent.Lib.Pipes
