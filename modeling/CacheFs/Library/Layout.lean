import Mathlib.Algebra.Ring.Nat
import Mathlib.Data.Fin.Tuple.Basic
import Mathlib.Data.List.TakeWhile

/-! Records as the bytes of a structure.

A layout says how many bytes a record takes, which records there is room for, and how
the bytes are written and read. What has room comes back (`value_bytes`), so a layout
made of others by `pair`, `array` and `iso` owes nothing more. Words are little-endian;
a string ends at its terminator, and what is behind that is not looked at. Such bytes, and
those between the parts, are anything in an `Image`. -/

structure Layout (α : Type) where
  size : Nat
  /-- There is room for the record. -/
  Fits : α → Prop
  bytes : α → List UInt8
  /-- What the bytes are read as, if they are a record. -/
  value : List UInt8 → Option α
  length_bytes : ∀ a, Fits a → (bytes a).length = size
  value_bytes : ∀ a, Fits a → value (bytes a) = some a

namespace Layout
variable {α β : Type}

/-! ### Words and strings -/

def littleEndian : Nat → Nat → List UInt8
  | 0, _ => []
  | n + 1, v => UInt8.ofNat v :: littleEndian n (v / 256)

def number : List UInt8 → Nat
  | [] => 0
  | b :: rest => b.toNat + 256 * number rest

theorem length_littleEndian (n v : Nat) : (littleEndian n v).length = n := by
  induction n generalizing v with
  | zero => rfl
  | succ n ih => simp [littleEndian, ih]

theorem number_littleEndian {n v : Nat} (h : v < 256 ^ n) : number (littleEndian n v) = v := by
  induction n generalizing v with
  | zero => simp_all [littleEndian, number]
  | succ n ih =>
    have hrest : v / 256 < 256 ^ n := Nat.div_lt_of_lt_mul (by rwa [← Nat.pow_succ'])
    rw [littleEndian, number, ih hrest, UInt8.toNat_ofNat']
    exact Nat.mod_add_div v 256

/-- A number of so many bytes. -/
def word (n : Nat) : Layout Nat where
  size := n
  Fits := fun v => v < 256 ^ n
  bytes := littleEndian n
  value := fun bs => some (number bs)
  length_bytes := fun v _ => length_littleEndian n v
  value_bytes := fun _ h => congrArg some (number_littleEndian h)

/-- Bytes that nothing is read from. -/
def pad (n : Nat) : Layout Unit where
  size := n
  Fits := fun _ => True
  bytes := fun _ => List.replicate n 0
  value := fun _ => some ()
  length_bytes := fun _ _ => List.length_replicate
  value_bytes := fun _ _ => rfl

/-- A character of a C string. -/
def Plain (c : Char) : Prop := 0 < c.toNat ∧ c.toNat < 256

instance (c : Char) : Decidable (Plain c) := inferInstanceAs (Decidable (_ ∧ _))

def charByte (c : Char) : UInt8 := UInt8.ofNat c.toNat

theorem charByte_toNat {c : Char} (h : Plain c) : (charByte c).toNat = c.toNat := by
  rw [charByte, UInt8.toNat_ofNat']
  exact Nat.mod_eq_of_lt h.2

theorem charByte_ne_zero {c : Char} (h : Plain c) : charByte c ≠ 0 := by
  intro hzero
  have hnat := charByte_toNat h
  rw [hzero] at hnat
  exact absurd h.1 (by rw [← hnat]; decide)

theorem charByte_char {c : Char} (h : Plain c) : Char.ofNat (charByte c).toNat = c := by
  rw [charByte_toNat h]
  exact Char.ofNat_toNat c

/-- An array of so many characters with a string in it. -/
def chars (n : Nat) : Layout (List Char) where
  size := n
  Fits := fun s => s.length < n ∧ ∀ c ∈ s, Plain c
  bytes := fun s => s.map charByte ++ List.replicate (n - s.length) 0
  value := fun bs => if 0 ∈ bs then some ((bs.takeWhile (· ≠ 0)).map fun b => Char.ofNat b.toNat) else none
  length_bytes := fun s h => by
    simp only [List.length_append, List.length_map, List.length_replicate]
    omega
  value_bytes := fun s h => by
    obtain ⟨room, hroom⟩ : ∃ room, n - s.length = room + 1 := ⟨n - s.length - 1, by omega⟩
    have hterm : (0 : UInt8) ∈ s.map charByte ++ List.replicate (n - s.length) 0 := by simp [hroom]
    have hplain : ∀ b ∈ s.map charByte, decide (b ≠ 0) = true := by
      intro b hb
      obtain ⟨c, hc, rfl⟩ := List.mem_map.mp hb
      simpa using charByte_ne_zero (h.2 c hc)
    rw [if_pos hterm, List.takeWhile_append_of_pos hplain, hroom]
    simp only [List.replicate_succ, ne_eq, not_true_eq_false, decide_false, Bool.false_eq_true, not_false_eq_true,
      List.takeWhile_cons_of_neg, List.append_nil, List.map_map, Option.some.injEq]
    calc s.map ((fun b : UInt8 => Char.ofNat b.toNat) ∘ charByte)
        = s.map id := List.map_congr_left fun c hc => charByte_char (h.2 c hc)
      _ = s := List.map_id s

/-! ### Structures and arrays -/

/-- One after the other. -/
def pair (a : Layout α) (b : Layout β) : Layout (α × β) where
  size := a.size + b.size
  Fits := fun x => a.Fits x.1 ∧ b.Fits x.2
  bytes := fun x => a.bytes x.1 ++ b.bytes x.2
  value := fun bs => do
    let x ← a.value (bs.take a.size)
    let y ← b.value (bs.drop a.size)
    return (x, y)
  length_bytes := fun x h => by rw [List.length_append, a.length_bytes _ h.1, b.length_bytes _ h.2]
  value_bytes := fun x h => by
    have hlen := a.length_bytes x.1 h.1
    have htake : (a.bytes x.1 ++ b.bytes x.2).take a.size = a.bytes x.1 := by rw [← hlen, List.take_left']; rfl
    have hdrop : (a.bytes x.1 ++ b.bytes x.2).drop a.size = b.bytes x.2 := by rw [← hlen, List.drop_left']; rfl
    rw [htake, hdrop, a.value_bytes _ h.1, b.value_bytes _ h.2]
    rfl

/-- A record by its parts. -/
def iso (a : Layout α) (parts : β → α) (whole : α → Option β) (h : ∀ b, whole (parts b) = some b) : Layout β where
  size := a.size
  Fits := fun b => a.Fits (parts b)
  bytes := fun b => a.bytes (parts b)
  value := fun bs => (a.value bs).bind whole
  length_bytes := fun b hb => a.length_bytes _ hb
  value_bytes := fun b hb => by rw [a.value_bytes _ hb, Option.bind_some, h]

/-- So many of a kind, one after the other. -/
def array (a : Layout α) : (n : Nat) → Layout (Fin n → α)
  | 0 => (pad 0).iso (fun _ => ()) (fun _ => some Fin.elim0) fun _ => congrArg some (Subsingleton.elim _ _)
  | n + 1 => (a.pair (a.array n)).iso (fun f => (f 0, Fin.tail f)) (fun x => some (Fin.cons x.1 x.2))
    fun f => congrArg some (Fin.cons_self_tail f)

theorem array_fits {a : Layout α} {n : Nat} {f : Fin n → α} : (a.array n).Fits f ↔ ∀ i, a.Fits (f i) := by
  induction n with
  | zero => exact ⟨fun _ i => i.elim0, fun _ => trivial⟩
  | succ n ih =>
    show a.Fits (f 0) ∧ (a.array n).Fits (Fin.tail f) ↔ _
    rw [ih, Fin.forall_fin_succ]
    rfl

/-! ### Records in memory -/

/-- The bytes are of a record's size and are read as this one. -/
def Read (a : Layout α) (x : α) (bs : List UInt8) : Prop := bs.length = a.size ∧ a.value bs = some x

/-- How records lie in memory, with whatever there is in the bytes that nothing is read from. -/
structure Image (a : Layout α) where
  bytes : α → List UInt8
  read : ∀ x, a.Fits x → a.Read x (bytes x)

/-- With nothing there. -/
def clean (a : Layout α) : a.Image := ⟨a.bytes, fun x h => ⟨a.length_bytes x h, a.value_bytes x h⟩⟩

end Layout
