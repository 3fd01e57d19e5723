import Mathlib.Data.Nat.Find
import Mathlib.Logic.Function.Basic
import CacheFs.Library.Interaction

/-! The file descriptors of a process, and pipes.

A table says what file each descriptor refers to; `dup` and `pipe` take the lowest unused
ones. A call that fails returns -1, here `none`, and changes nothing: which calls fail is
left to the environment, but `close` and `dup2` fail only on what is no descriptor. What
is written to a pipe can be read from it. A writer waits for room in the pipe, and a reader
while the pipe is empty and can still be written to (`Waits`). -/
namespace Descriptors
open Interaction

/-- What a descriptor can refer to. -/
inductive File where
  | other (n : Nat)
  | readEnd (pipe : Nat)
  | writeEnd (pipe : Nat)
  deriving DecidableEq

/-- A file that can be there when so many pipes were made. -/
def File.Before (n : Nat) : File → Prop
  | other _ => True
  | readEnd pipe | writeEnd pipe => pipe < n

theorem File.Before.mono {m n : Nat} {f : File} (h : f.Before m) (hle : m ≤ n) : f.Before n := by
  cases f with
  | other => trivial
  | readEnd pipe => exact Nat.lt_of_lt_of_le h hle
  | writeEnd pipe => exact Nat.lt_of_lt_of_le h hle

/-! ### Tables -/

/-- What the descriptors refer to: only so many are used. -/
@[ext] structure Table where
  file : Nat → Option File
  finite : ∃ n, ∀ fd, n ≤ fd → file fd = none

namespace Table
variable (t : Table)

def set (fd : Nat) (f : Option File) : Table where
  file := Function.update t.file fd f
  finite := by
    obtain ⟨n, hn⟩ := t.finite
    refine ⟨max n (fd + 1), fun fd' h => ?_⟩
    rw [Function.update_of_ne (by omega)]
    exact hn fd' (by omega)

theorem exists_unused : ∃ fd, t.file fd = none := by
  obtain ⟨n, hn⟩ := t.finite
  exact ⟨n, hn n (Nat.le_refl n)⟩

/-- The lowest descriptor that is not used. -/
def lowest : Nat := Nat.find t.exists_unused

variable {t} {fd fd' : Nat} {f : Option File}

theorem file_set : (t.set fd f).file fd' = if fd' = fd then f else t.file fd' := Function.update_apply ..

@[simp] theorem file_lowest : t.file t.lowest = none := Nat.find_spec t.exists_unused

theorem ne_lowest (h : t.file fd ≠ none) : fd ≠ t.lowest := by
  rintro rfl
  exact h file_lowest

variable (t) in
/-- What a `close` does; -1 is no descriptor. -/
def close (fd : Option Nat) : Table := fd.elim t fun fd => t.set fd none

variable (t) in
/-- What `dup2` does. -/
def dup2 (fd : Option Nat) (fd' : Nat) : Table :=
  fd.elim t fun fd => if (t.file fd).isSome then t.set fd' (t.file fd) else t

@[simp] theorem close_none : t.close none = t := rfl

@[simp] theorem dup2_none : t.dup2 none fd' = t := rfl

theorem file_close {a : Nat} : (t.close (some fd)).file a = if a = fd then none else t.file a := file_set

theorem file_dup2 {a : Nat} :
    (t.dup2 (some fd) fd').file a = if a = fd' ∧ t.file fd ≠ none then t.file fd else t.file a := by
  cases hfd : t.file fd with
  | none => simp [dup2, hfd]
  | some g => simp [dup2, hfd, file_set]

/-- One descriptor takes the place of another. -/
theorem file_replace {a : Nat} (hne : fd ≠ fd') (hfd : t.file fd ≠ none) :
    ((t.close (some fd')).dup2 (some fd) fd').file a = if a = fd' then t.file fd else t.file a := by
  rw [file_dup2, file_close, file_close, if_neg hne]
  simp only [hfd, ne_eq, not_false_eq_true, and_true]
  split
  · rfl
  · rfl

/-- A duplicate is put back, and gone. -/
theorem file_putBack {a : Nat} (hfd : t.file fd ≠ none) :
    ((t.dup2 (some fd) fd').close (some fd)).file a =
      if a = fd then none else if a = fd' then t.file fd else t.file a := by
  rw [file_close, file_dup2]
  simp only [hfd, ne_eq, not_false_eq_true, and_true]

end Table

/-! ### Processes -/

/-- A process: its descriptors, what is in the pipes, and how many were made. -/
structure Process where
  table : Table
  pipes : Nat → List UInt8
  made : Nat
  known : ∀ fd, ∀ f ∈ table.file fd, f.Before made

namespace Process
variable (s : Process)

/-- One descriptor to refer to what another does. -/
def copy (fd fd' : Nat) : Process where
  table := s.table.set fd' (s.table.file fd)
  pipes := s.pipes
  made := s.made
  known := by
    intro a f hf
    rw [Table.file_set] at hf
    split at hf
    · exact s.known fd f hf
    · exact s.known a f hf

def close (fd : Nat) : Process where
  table := s.table.set fd none
  pipes := s.pipes
  made := s.made
  known := by
    intro a f hf
    rw [Table.file_set] at hf
    split at hf
    · exact absurd hf (by simp)
    · exact s.known a f hf

/-- The descriptors of the next pipe. -/
def readFd : Nat := s.table.lowest
def writeFd : Nat := (s.table.set s.readFd (some (.readEnd s.made))).lowest

def pipe : Process where
  table := (s.table.set s.readFd (some (.readEnd s.made))).set s.writeFd (some (.writeEnd s.made))
  pipes := Function.update s.pipes s.made []
  made := s.made + 1
  known := by
    intro a f hf
    rw [Table.file_set, Table.file_set] at hf
    split at hf
    · obtain rfl := Option.some.inj hf
      exact Nat.lt_succ_self s.made
    split at hf
    · obtain rfl := Option.some.inj hf
      exact Nat.lt_succ_self s.made
    · exact (s.known a f hf).mono (Nat.le_succ s.made)

theorem pipe_empty : s.pipe.pipes s.made = [] := by
  show Function.update s.pipes s.made [] s.made = []
  rw [Function.update_self]

def withPipe (k : Nat) (bytes : List UInt8) : Process := {s with pipes := Function.update s.pipes k bytes}

end Process

/-! ### Calls -/

/-- The calls of a process. -/
inductive Call where
  | pipe
  | dup (fd : Nat)
  | close (fd : Option Nat)
  | dup2 (fd : Option Nat) (fd' : Nat)
  | write (fd : Nat) (bytes : List UInt8)
  | read (fd count : Nat)
  /-- Reading until there is no more. -/
  | readAll (fd : Nat)

@[reducible] def Answer : Call → Type
  | .pipe => Option (Nat × Nat)
  | .dup _ => Option Nat
  | .close _ | .dup2 _ _ => Unit
  | .write _ _ => Bool
  | .read _ _ | .readAll _ => Option (List UInt8)

@[reducible] def posix : Interface := ⟨Call, Answer⟩

abbrev Program := Prog posix

def pipe : Program (Option (Nat × Nat)) := Prog.ask (I := posix) .pipe
def dup (fd : Nat) : Program (Option Nat) := Prog.ask (I := posix) (.dup fd)
def close (fd : Option Nat) : Program Unit := Prog.ask (I := posix) (.close fd)
def dup2 (fd : Option Nat) (fd' : Nat) : Program Unit := Prog.ask (I := posix) (.dup2 fd fd')
def write (fd : Nat) (bytes : List UInt8) : Program Bool := Prog.ask (I := posix) (.write fd bytes)
def read (fd count : Nat) : Program (Option (List UInt8)) := Prog.ask (I := posix) (.read fd count)
def readAll (fd : Nat) : Program (Option (List UInt8)) := Prog.ask (I := posix) (.readAll fd)

/-- Which calls succeed, and how much a pipe holds. -/
structure Succeeds where
  pipe : Bool
  dup : Bool
  write : Bool
  read : Bool
  readAll : Bool
  capacity : Nat

/-- All calls succeed, and a pipe has sixteen pages. -/
def Succeeds.all : Succeeds := ⟨true, true, true, true, true, 65536⟩

/-- A call waits for ever when no other process has the pipe: there is no room in it for what is
written, or it is empty, or read to its end, while its write end is open. -/
def Waits : Call → Succeeds → Process → Prop
  | .write fd bytes, e, s =>
    e.write = true ∧ ∃ k, s.table.file fd = some (.writeEnd k) ∧ e.capacity < (s.pipes k).length + bytes.length
  | .read fd count, e, s =>
    e.read = true ∧ count ≠ 0 ∧ ∃ k, s.table.file fd = some (.readEnd k) ∧ s.pipes k = [] ∧
      ∃ fd', s.table.file fd' = some (.writeEnd k)
  | .readAll fd, e, s =>
    e.readAll = true ∧ ∃ k, s.table.file fd = some (.readEnd k) ∧ ∃ fd', s.table.file fd' = some (.writeEnd k)
  | .pipe, _, _ | .dup _, _, _ | .close _, _, _ | .dup2 _ _, _, _ => False

/-- What a call does that does not wait. Of files that are no pipes only that they are there is
known. -/
def handle : Handler posix Process Succeeds
  | .pipe, e, s => if e.pipe then (some (s.readFd, s.writeFd), s.pipe) else (none, s)
  | .dup fd, e, s =>
    if e.dup ∧ (s.table.file fd).isSome then (some s.table.lowest, s.copy fd s.table.lowest) else (none, s)
  | .close fd, _, s => ((), fd.elim s s.close)
  | .dup2 fd fd', _, s => ((), fd.elim s fun fd => if (s.table.file fd).isSome then s.copy fd fd' else s)
  | .write fd bytes, e, s =>
    if e.write then
      match s.table.file fd with
      | some (.writeEnd k) => (true, s.withPipe k (s.pipes k ++ bytes))
      | f => (f.isSome, s)
    else (false, s)
  | .read fd count, e, s =>
    if e.read then
      match s.table.file fd with
      | some (.readEnd k) => (some ((s.pipes k).take count), s.withPipe k ((s.pipes k).drop count))
      | f => (f.map fun _ => [], s)
    else (none, s)
  | .readAll fd, e, s =>
    if e.readAll then
      match s.table.file fd with
      | some (.readEnd k) => (some (s.pipes k), s.withPipe k [])
      | f => (f.map fun _ => [], s)
    else (none, s)

/-! ### What the calls do to the table -/

section Calls
variable {R : Type} {s : Process} {e : Succeeds} {f : Option File}

@[simp] theorem waits_pipe : ¬ Waits .pipe e s := fun h => h

@[simp] theorem waits_dup (fd : Nat) : ¬ Waits (.dup fd) e s := fun h => h

@[simp] theorem waits_close (fd : Option Nat) : ¬ Waits (.close fd) e s := fun h => h

@[simp] theorem waits_dup2 (fd : Option Nat) (fd' : Nat) : ¬ Waits (.dup2 fd fd') e s := fun h => h

/-- A writer waits when there is no room for what it writes. -/
theorem waits_write {fd k : Nat} {bytes : List UInt8} (h : s.table.file fd = some (.writeEnd k)) :
    Waits (.write fd bytes) e s ↔ e.write = true ∧ e.capacity < (s.pipes k).length + bytes.length := by
  simp [Waits, h]

/-- A reader of a pipe that can be written to waits when it is empty. -/
theorem waits_read {fd fd' k count : Nat} (h : s.table.file fd = some (.readEnd k))
    (hopen : s.table.file fd' = some (.writeEnd k)) :
    Waits (.read fd count) e s ↔ e.read = true ∧ count ≠ 0 ∧ s.pipes k = [] := by
  have hwriter : ∃ fd', s.table.file fd' = some (.writeEnd k) := ⟨fd', hopen⟩
  simp [Waits, h, hwriter]

/-- One who reads to the end waits for the last writer. -/
theorem not_waits_readAll {fd : Nat} (h : ∀ k, s.table.file fd = some (.readEnd k) → ∀ fd',
    s.table.file fd' ≠ some (.writeEnd k)) : ¬ Waits (.readAll fd) e s := by
  intro hwaits
  obtain ⟨-, k, hread, fd', hwrite⟩ := hwaits
  exact h k hread fd' hwrite

@[simp] theorem pipe_bind (k : Option (Nat × Nat) → Program R) : (pipe >>= k) = .call .pipe k := rfl

@[simp] theorem dup_bind (fd : Nat) (k : Option Nat → Program R) : (dup fd >>= k) = .call (.dup fd) k := rfl

@[simp] theorem close_bind (fd : Option Nat) (k : Unit → Program R) : (close fd >>= k) = .call (.close fd) k := rfl

@[simp] theorem dup2_bind (fd : Option Nat) (fd' : Nat) (k : Unit → Program R) :
    (dup2 fd fd' >>= k) = .call (.dup2 fd fd') k := rfl

@[simp] theorem write_bind (fd : Nat) (bytes : List UInt8) (k : Bool → Program R) :
    (write fd bytes >>= k) = .call (.write fd bytes) k := rfl

@[simp] theorem read_bind (fd count : Nat) (k : Option (List UInt8) → Program R) :
    (read fd count >>= k) = .call (.read fd count) k := rfl

@[simp] theorem readAll_bind (fd : Nat) (k : Option (List UInt8) → Program R) :
    (readAll fd >>= k) = .call (.readAll fd) k := rfl

theorem handle_pipe (h : e.pipe = true) : handle .pipe e s = (some (s.readFd, s.writeFd), s.pipe) := if_pos h

theorem handle_pipe_fails (h : e.pipe = false) : handle .pipe e s = (none, s) := if_neg (by simp [h])

theorem handle_dup {fd : Nat} (h : e.dup = true) (hfd : s.table.file fd ≠ none) :
    handle (.dup fd) e s = (some s.table.lowest, s.copy fd s.table.lowest) :=
  if_pos ⟨h, Option.isSome_iff_ne_none.mpr hfd⟩

theorem handle_dup_fails {fd : Nat} (h : e.dup = false) : handle (.dup fd) e s = (none, s) := if_neg (by simp [h])

@[simp] theorem copy_table (s : Process) (fd fd' : Nat) : (s.copy fd fd').table = s.table.set fd' (s.table.file fd) := rfl

/-- A duplicate changes nothing that is used. -/
theorem dup_file {fd a : Nat} (h : s.table.file a ≠ none) : (handle (.dup fd) e s).2.table.file a = s.table.file a := by
  simp only [handle]
  split
  · rw [copy_table, Table.file_set, if_neg (Table.ne_lowest h)]
  · rfl

@[simp] theorem close_table (fd : Option Nat) : (handle (.close fd) e s).2.table = s.table.close fd := by
  cases fd <;> rfl

@[simp] theorem dup2_table (fd : Option Nat) (fd' : Nat) :
    (handle (.dup2 fd fd') e s).2.table = s.table.dup2 fd fd' := by
  cases fd with
  | none => rfl
  | some fd =>
    show (if _ then s.copy fd fd' else s).table = if _ then _ else _
    split <;> rfl

@[simp] theorem write_table (fd : Nat) (bytes : List UInt8) : (handle (.write fd bytes) e s).2.table = s.table := by
  simp only [handle]
  split
  · split <;> rfl
  · rfl

@[simp] theorem read_table (fd count : Nat) : (handle (.read fd count) e s).2.table = s.table := by
  simp only [handle]
  split
  · split <;> rfl
  · rfl

@[simp] theorem readAll_table (fd : Nat) : (handle (.readAll fd) e s).2.table = s.table := by
  simp only [handle]
  split
  · split <;> rfl
  · rfl

/-- Writing to a pipe succeeds when it does not fail. -/
theorem handle_write {fd k : Nat} {bytes : List UInt8} (h : s.table.file fd = some (.writeEnd k)) :
    (handle (.write fd bytes) e s).1 = e.write := by
  cases hwrite : e.write <;> simp [handle, h, hwrite]

/-! ### What is in the pipes -/

@[simp] theorem close_pipes (fd : Option Nat) : (handle (.close fd) e s).2.pipes = s.pipes := by
  cases fd <;> rfl

@[simp] theorem dup2_pipes (fd : Option Nat) (fd' : Nat) : (handle (.dup2 fd fd') e s).2.pipes = s.pipes := by
  cases fd with
  | none => rfl
  | some fd =>
    show (if _ then s.copy fd fd' else s).pipes = s.pipes
    split <;> rfl

@[simp] theorem dup_pipes (fd : Nat) : (handle (.dup fd) e s).2.pipes = s.pipes := by
  simp only [handle]
  split <;> rfl

theorem write_pipes {fd k : Nat} {bytes : List UInt8} (h : s.table.file fd = some (.writeEnd k)) (hwrite : e.write = true) :
    (handle (.write fd bytes) e s).2.pipes k = s.pipes k ++ bytes := by
  simp [handle, h, hwrite, Process.withPipe]

theorem handle_read {fd k count : Nat} (h : s.table.file fd = some (.readEnd k)) (hread : e.read = true) :
    (handle (.read fd count) e s).1 = some ((s.pipes k).take count) := by
  simp [handle, h, hread]

theorem handle_read_fails {fd count : Nat} (h : e.read = false) : (handle (.read fd count) e s).1 = none := by
  simp [handle, h]

theorem handle_readAll {fd k : Nat} (h : s.table.file fd = some (.readEnd k)) (hread : e.readAll = true) :
    (handle (.readAll fd) e s).1 = some (s.pipes k) := by
  simp [handle, h, hread]

end Calls

end Descriptors
