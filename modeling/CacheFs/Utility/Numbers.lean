import Mathlib.Data.Nat.ModEq
import Mathlib.Tactic.Ring
import CacheFs.Users.Reading
import CacheFs.Users.Records
import CacheFs.Xml.RoundTrip

/-! Numbers as text (`utility.c`).

`atoi_u32` and `atoi_u64` read digits into a word that wraps (`atoi_digits`), so what is
printed of a number is read back (`number_round_trip`). They refuse other characters
(`atoi_malformed`), but neither a text without any nor one that denotes a number too
large for the word: what they return is the number just when the text is neither, or
happens to be read as the error value (`parsing_honest`). -/
namespace CacheFs.Utility
open CacheFs.Namespace (CString)
open CacheFs.Xml (Field bzero readInto string string_readInto)
open CacheFs.Users (atoiU32 snprintf mem_digits)

/-! ### The functions of the program -/

/-- The loop of `atoi_u32` and `atoi_u64`, from the number read so far. -/
def atoi {w : Nat} (i : BitVec w) : List UInt8 → BitVec w
  | [] => i
  | c :: rest =>
    if c.toNat < 48 ∨ 57 < c.toNat then -1 else atoi (10 * i + BitVec.ofNat w (c.toNat - 48)) rest

/-- `atoi_u64`, from the number read so far. -/
def atoiU64 (i : UInt64) (text : List UInt8) : UInt64 := ⟨atoi i.toBitVec text⟩

/-- What `%u` and `%llu` print. -/
def digits (n : Nat) : List UInt8 := (Nat.toDigits 10 n).map fun c => UInt8.ofNat c.toNat

/-- `u32_to_str`. -/
def u32ToStr (i : UInt32) (bufsiz : Nat) : Field bufsiz := readInto (bzero bufsiz) (snprintf bufsiz (digits i.toNat))

/-- `u64_to_str`. -/
def u64ToStr (i : UInt64) (bufsiz : Nat) : Field bufsiz := readInto (bzero bufsiz) (snprintf bufsiz (digits i.toNat))

theorem atoiU32_eq (i : UInt32) (text : List UInt8) : atoiU32 i text = ⟨atoi i.toBitVec text⟩ := by
  induction text generalizing i with
  | nil => rfl
  | cons c text ih =>
    rw [atoiU32, atoi]
    split
    · rfl
    · exact ih _

/-! ### Digits -/

/-- Every character is a decimal digit. -/
def Digits (text : List UInt8) : Prop := ∀ c ∈ text, 48 ≤ c.toNat ∧ c.toNat ≤ 57

instance (text : List UInt8) : Decidable (Digits text) :=
  List.decidableBAll (fun c : UInt8 => 48 ≤ c.toNat ∧ c.toNat ≤ 57) text

/-- The number that digits denote. -/
def value (text : List UInt8) : Nat := Nat.ofDigitChars 10 (text.map fun c => Char.ofNat c.toNat) 0

section Loop
variable {w : Nat} {text : List UInt8}

theorem digits_spec (n : Nat) : Digits (digits n) ∧ value (digits n) = n := by
  refine ⟨fun c hc => mem_digits hc, ?_⟩
  have hread := Users.read_digits n
  rw [List.takeWhile_eq_self_iff.mpr fun b hb => decide_eq_true (mem_digits hb)] at hread
  exact hread

/-- Reading digits on from a number gives that number moved to the left, and theirs. -/
theorem atoi_from (h : Digits text) (i : BitVec w) : (atoi i text).toNat = (10 ^ text.length * i.toNat + value text) % 2 ^ w := by
  induction text generalizing i with
  | nil => simp [atoi, value, Nat.mod_eq_of_lt i.isLt]
  | cons c text ih =>
    have hc := h c List.mem_cons_self
    have hchar : (Char.ofNat c.toNat).toNat = c.toNat := by
      have hvalid : c.toNat.isValidChar := .inl (by omega)
      rw [Char.ofNat, dif_pos hvalid]
      rfl
    have hvalue : value (c :: text) = 10 ^ text.length * (c.toNat - 48) + value text := by
      rw [value, List.map_cons, Nat.ofDigitChars_cons, Nat.ofDigitChars_eq_ofDigitChars_zero, hchar, List.length_map,
        Nat.mul_zero, Nat.zero_add]
      rfl
    rw [atoi, if_neg (by omega), ih (fun d hd => h d (List.mem_cons_of_mem _ hd)), hvalue, List.length_cons]
    -- both sides are the same sum, the left one with parts of it already reduced
    have hten : (10 : BitVec w).toNat = 10 % 2 ^ w := rfl
    rw [BitVec.toNat_add, BitVec.toNat_mul, BitVec.toNat_ofNat, hten]
    have hsum : 10 ^ (text.length + 1) * i.toNat + (10 ^ text.length * (c.toNat - 48) + value text) =
        10 ^ text.length * (10 * i.toNat + (c.toNat - 48)) + value text := by
      rw [Nat.pow_succ]
      ring
    rw [hsum]
    refine Nat.ModEq.add_right _ (Nat.ModEq.mul_left _ ?_)
    have hmul : 10 % 2 ^ w * i.toNat % 2 ^ w ≡ 10 * i.toNat [MOD 2 ^ w] :=
      (Nat.mod_modEq _ _).trans ((Nat.mod_modEq _ _).mul_right _)
    exact (Nat.mod_modEq _ _).trans (hmul.add (Nat.mod_modEq _ _))

/-- **Digits are read modulo the size of the word.** -/
theorem atoi_digits (w : Nat) (h : Digits text) : (atoi (0 : BitVec w) text).toNat = value text % 2 ^ w := by
  rw [atoi_from h]
  simp

/-- Any other character makes it the error value. -/
theorem atoi_malformed (h : ¬ Digits text) (i : BitVec w) : atoi i text = -1 := by
  induction text generalizing i with
  | nil => exact absurd (fun c hc => (List.not_mem_nil hc).elim) h
  | cons c text ih =>
    rw [atoi]
    split
    · rfl
    · rename_i hc
      refine ih (fun htext => h fun d hd => ?_) _
      obtain rfl | hd := List.mem_cons.mp hd
      · omega
      · exact htext d hd

end Loop

/-! ### Round trip -/

section Strings
variable {bufsiz n : Nat}

theorem zero_not_mem_digits (n : Nat) : 0 ∉ digits n := by
  intro h
  exact absurd (mem_digits h).1 (by decide)

/-- A number that fits its buffer is there, terminated. -/
theorem string_printed (hfits : (digits n).length < bufsiz) :
    string (readInto (bzero bufsiz) (snprintf bufsiz (digits n))).bytes = some ⟨digits n, zero_not_mem_digits n⟩ := by
  rw [snprintf, List.take_of_length_le (by omega)]
  exact string_readInto (zero_not_mem_digits n) hfits

theorem digits_length {k : Nat} (hk : 0 < k) (hn : n < 10 ^ k) : (digits n).length ≤ k := by
  rw [digits, List.length_map, Nat.length_toDigits_le_iff (by decide) hk]
  exact hn

/-- **Number text round trip**: what `u32_to_str` and `u64_to_str` print is read back, and any
digits are read modulo the size of the word. -/
theorem number_round_trip :
    (∀ (n : UInt32) (bufsiz : Nat), 11 ≤ bufsiz → ∃ s, string (u32ToStr n bufsiz).bytes = some s ∧ atoiU32 0 s.bytes = n) ∧
    (∀ (n : UInt64) (bufsiz : Nat), 21 ≤ bufsiz → ∃ s, string (u64ToStr n bufsiz).bytes = some s ∧ atoiU64 0 s.bytes = n) ∧
    ∀ text : CString, Digits text.bytes → (atoiU32 0 text.bytes).toNat = value text.bytes % 2 ^ 32 ∧
      (atoiU64 0 text.bytes).toNat = value text.bytes % 2 ^ 64 := by
  have hread32 (text : List UInt8) (h : Digits text) : (atoiU32 0 text).toNat = value text % 2 ^ 32 := by
    rw [atoiU32_eq]
    exact atoi_digits 32 h
  have hread64 (text : List UInt8) (h : Digits text) : (atoiU64 0 text).toNat = value text % 2 ^ 64 := atoi_digits 64 h
  refine ⟨fun n bufsiz hbufsiz => ?_, fun n bufsiz hbufsiz => ?_, fun text h => ⟨hread32 _ h, hread64 _ h⟩⟩
  · have hlt := n.toNat_lt
    have hlen := digits_length (k := 10) (by decide) (show n.toNat < 10 ^ 10 by omega)
    refine ⟨_, string_printed (by omega), UInt32.toNat_inj.mp ?_⟩
    rw [hread32 _ (digits_spec _).1, (digits_spec _).2, Nat.mod_eq_of_lt hlt]
  · have hlt := n.toNat_lt
    have hlen := digits_length (k := 20) (by decide) (show n.toNat < 10 ^ 20 by omega)
    refine ⟨_, string_printed (by omega), UInt64.toNat_inj.mp ?_⟩
    rw [hread64 _ (digits_spec _).1, (digits_spec _).2, Nat.mod_eq_of_lt hlt]

/-- The largest numbers, in the shortest buffers; and leading zeros. -/
theorem number_round_trip_largest :
    (∃ s, string (u32ToStr 4294967295 11).bytes = some s ∧ atoiU32 0 s.bytes = 4294967295) ∧
    (∃ s, string (u64ToStr 18446744073709551615 21).bytes = some s ∧ atoiU64 0 s.bytes = 18446744073709551615) ∧
    (atoiU32 0 [48, 48, 55]).toNat = value [48, 48, 55] % 2 ^ 32 ∧
    (atoiU64 0 [48, 48, 55]).toNat = value [48, 48, 55] % 2 ^ 64 :=
  ⟨number_round_trip.1 _ _ (by decide), number_round_trip.2.1 _ _ (by decide),
    number_round_trip.2.2 ⟨[48, 48, 55], by decide⟩ (by decide)⟩

end Strings

/-! ### Wrong numbers -/

/-- What is returned for a text is the error value of a word of so many bits, or the number
that the text denotes. -/
def Honest (w : Nat) (text : List UInt8) (returned : Nat) : Prop :=
  returned ≠ 2 ^ w - 1 → text ≠ [] ∧ Digits text ∧ value text = returned

section Wrong
variable {w : Nat} {text : List UInt8}

theorem honest_iff (hw : 1 < w) : Honest w text (atoi (0 : BitVec w) text).toNat ↔
    text ≠ [] ∧ (Digits text → value text < 2 ^ w ∨ value text % 2 ^ w = 2 ^ w - 1) := by
  have hsize : 2 ^ 2 ≤ 2 ^ w := Nat.pow_le_pow_right (by decide) hw
  by_cases hdigits : Digits text
  · rw [atoi_digits w hdigits]
    constructor
    · intro h
      by_cases herror : value text % 2 ^ w = 2 ^ w - 1
      · refine ⟨?_, fun _ => .inr herror⟩
        rintro rfl
        have hzero : value [] % 2 ^ w = 0 := Nat.zero_mod _
        omega
      · obtain ⟨hne, -, hvalue⟩ := h herror
        exact ⟨hne, fun _ => .inl (hvalue ▸ Nat.mod_lt _ (by omega))⟩
    · intro h hreturned
      obtain ⟨hne, hsmall⟩ := h
      exact ⟨hne, hdigits, (Nat.mod_eq_of_lt ((hsmall hdigits).resolve_right hreturned)).symm⟩
  · have herror : (-1 : BitVec w).toNat = 2 ^ w - 1 :=
      (congrArg BitVec.toNat BitVec.neg_one_eq_allOnes).trans BitVec.toNat_allOnes
    rw [atoi_malformed hdigits, herror]
    constructor
    · intro _
      refine ⟨?_, fun h => absurd h hdigits⟩
      rintro rfl
      exact hdigits fun c hc => (List.not_mem_nil hc).elim
    · intro _ hreturned
      exact absurd rfl hreturned

/-- **What is returned is the number** just when the text is not empty, and, if it has digits
only, denotes a number that fits the word, or that is read as the error value. -/
theorem parsing_honest (text : CString) :
    (Honest 32 text.bytes (atoiU32 0 text.bytes).toNat ↔ text.bytes ≠ [] ∧
      (Digits text.bytes → value text.bytes < 2 ^ 32 ∨ value text.bytes % 2 ^ 32 = 2 ^ 32 - 1)) ∧
    (Honest 64 text.bytes (atoiU64 0 text.bytes).toNat ↔ text.bytes ≠ [] ∧
      (Digits text.bytes → value text.bytes < 2 ^ 64 ∨ value text.bytes % 2 ^ 64 = 2 ^ 64 - 1)) := by
  rw [atoiU32_eq]
  exact ⟨honest_iff (by decide), honest_iff (by decide)⟩

/-- The empty text is read as 0, and so is 2^64. -/
theorem parsing_dishonest : ∃ text text' : CString, text.bytes = [] ∧ atoiU32 0 text.bytes = 0 ∧
    ¬ Honest 32 text.bytes (atoiU32 0 text.bytes).toNat ∧ value text'.bytes = 2 ^ 64 ∧ atoiU32 0 text'.bytes = 0 ∧
    ¬ Honest 32 text'.bytes (atoiU32 0 text'.bytes).toNat ∧ atoiU64 0 text'.bytes = 0 ∧
    ¬ Honest 64 text'.bytes (atoiU64 0 text'.bytes).toNat := by
  have hdigits : Digits (digits (2 ^ 64)) := (digits_spec _).1
  have hvalue : value (digits (2 ^ 64)) = 2 ^ 64 := (digits_spec _).2
  have hlarge {w : Nat} (hw : 1 < w) (hzero : 2 ^ 64 % 2 ^ w = 0) :
      ¬ Honest w (digits (2 ^ 64)) (atoi (0 : BitVec w) (digits (2 ^ 64))).toNat := by
    have hsize : 2 ^ 2 ≤ 2 ^ w := Nat.pow_le_pow_right (by decide) hw
    rw [honest_iff hw, hvalue, hzero]
    intro h
    obtain hsmall | herror := h.2 hdigits
    · rw [Nat.mod_eq_of_lt hsmall] at hzero
      exact absurd hzero (by decide)
    · omega
  refine ⟨⟨[], List.not_mem_nil⟩, ⟨digits (2 ^ 64), zero_not_mem_digits _⟩, rfl, rfl, ?_, hvalue, ?_, ?_, ?_, ?_⟩
  · rw [atoiU32_eq]
    exact fun h => ((honest_iff (by decide)).mp h).1 rfl
  · rw [atoiU32_eq, ← UInt32.toNat_inj]
    exact (atoi_digits 32 hdigits).trans (by rw [hvalue]; decide)
  · rw [atoiU32_eq]
    exact hlarge (by decide) (by decide)
  · rw [← UInt64.toNat_inj]
    exact (atoi_digits 64 hdigits).trans (by rw [hvalue]; decide)
  · exact hlarge (by decide) (by decide)

end Wrong

end CacheFs.Utility
