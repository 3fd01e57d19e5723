import CacheFs.Xml.SockMsg

/-! The records of `user_info.txt` (`namespace_server.c`).

A user's record is a line: the uid, the gid, the home, the name and the password. What is
said of the file is said of its bytes, as `grep`, `sort` and `awk` see it; `lines_text`
gives its lines back where it is made of records. -/
namespace CacheFs.Users
open CacheFs.Namespace (CString)
open CacheFs.Xml (ascii)

/-- What `%d` prints. -/
def decimal (i : Int) : List UInt8 :=
  let digits := (Nat.toDigits 10 i.natAbs).map fun c => UInt8.ofNat c.toNat
  if i < 0 then 45 :: digits else digits

/-- `%d` of a `u32`, which takes it for an `int`. -/
def printed (uid : UInt32) : Int := uid.toInt32.toInt

/-- A line of `USER_INFO_FMT`. -/
def userInfoLine (uid gid : UInt32) (homeDir userName pw : List UInt8) : List UInt8 :=
  decimal (printed uid) ++ 32 :: (decimal (printed gid) ++ ascii " /" ++ homeDir ++ 32 :: userName ++ 32 :: pw)

/-- `USER_INFO_FMT`. -/
def userInfoFmt (uid gid : UInt32) (homeDir userName pw : List UInt8) : List UInt8 :=
  userInfoLine uid gid homeDir userName pw ++ [10]

/-- A record, which is a line. -/
structure UserInfo where
  uid : UInt32
  gid : UInt32
  homeDir : CString
  userName : CString
  pw : CString
  oneLine : 10 ∉ homeDir.bytes ∧ 10 ∉ userName.bytes ∧ 10 ∉ pw.bytes

def UserInfo.line (r : UserInfo) : List UInt8 :=
  userInfoLine r.uid r.gid r.homeDir.bytes r.userName.bytes r.pw.bytes

/-- The record that `init_ns` appends. -/
def superUser : UserInfo :=
  ⟨0, 0, ⟨ascii "su", by decide⟩, ⟨ascii "su", by decide⟩, ⟨ascii "123", by decide⟩, by decide⟩

/-- The user file that records make. -/
def text (records : List UserInfo) : List UInt8 := records.flatMap fun r => r.line ++ [10]

/-- The lines of a text; what is behind the last newline is one, if there is something. -/
def lines : List UInt8 → List (List UInt8)
  | [] => []
  | c :: rest =>
    if c = 10 then [] :: lines rest
    else match lines rest with
      | [] => [[c]]
      | line :: more => (c :: line) :: more

/-- The first field of a line. -/
def firstField (line : List UInt8) : List UInt8 :=
  (line.dropWhile fun c => c = 32 ∨ c = 9).takeWhile fun c => ¬ (c = 32 ∨ c = 9)

/-- The integer that a text begins with. -/
def readInt : List UInt8 → Int
  | [] => 0
  | c :: rest =>
    let digits text := (text.takeWhile fun c : UInt8 => 48 ≤ c.toNat ∧ c.toNat ≤ 57).map fun c => Char.ofNat c.toNat
    if c = 45 then -(Nat.ofDigitChars 10 (digits rest) 0 : Nat) else Nat.ofDigitChars 10 (digits (c :: rest)) 0

/-! ### Numbers -/

/-- A digit's character is a byte. -/
theorem digit_range {n : Nat} {c : Char} (h : c ∈ Nat.toDigits 10 n) : 48 ≤ c.toNat ∧ c.toNat ≤ 57 :=
  Char.isDigit_iff_toNat.mp (Nat.isDigit_of_mem_toDigits (by decide) (by decide) h)

theorem mem_digits {n : Nat} {b : UInt8} (h : b ∈ (Nat.toDigits 10 n).map fun c => UInt8.ofNat c.toNat) :
    48 ≤ b.toNat ∧ b.toNat ≤ 57 := by
  obtain ⟨c, hc, rfl⟩ := List.mem_map.mp h
  have hbound := digit_range hc
  simp only [UInt8.toNat_ofNat']
  omega

theorem mem_decimal {i : Int} {b : UInt8} (h : b ∈ decimal i) : b = 45 ∨ (48 ≤ b.toNat ∧ b.toNat ≤ 57) := by
  simp only [decimal] at h
  split at h
  · obtain rfl | h := List.mem_cons.mp h
    · exact .inl rfl
    · exact .inr (mem_digits h)
  · exact .inr (mem_digits h)

theorem not_mem_decimal {i : Int} {b : UInt8} (hb : b.toNat < 45) : b ∉ decimal i := by
  intro h
  obtain rfl | h := mem_decimal h
  · exact absurd hb (by decide)
  · omega

theorem decimal_ne_nil (i : Int) : decimal i ≠ [] := by
  simp only [decimal]
  split
  · exact List.cons_ne_nil _ _
  · simp [Nat.toDigits_ne_nil]

/-- The digits that are printed are read back. -/
theorem read_digits (n : Nat) :
    Nat.ofDigitChars 10 ((((Nat.toDigits 10 n).map fun c => UInt8.ofNat c.toNat).takeWhile
      fun c : UInt8 => 48 ≤ c.toNat ∧ c.toNat ≤ 57).map fun c => Char.ofNat c.toNat) 0 = n := by
  have hall : ((Nat.toDigits 10 n).map fun c => UInt8.ofNat c.toNat).takeWhile
      (fun c : UInt8 => 48 ≤ c.toNat ∧ c.toNat ≤ 57) = (Nat.toDigits 10 n).map fun c => UInt8.ofNat c.toNat :=
    List.takeWhile_eq_self_iff.mpr fun b hb => decide_eq_true (mem_digits hb)
  have hchars : ((Nat.toDigits 10 n).map fun c => UInt8.ofNat c.toNat).map (fun c => Char.ofNat c.toNat) =
      Nat.toDigits 10 n := by
    rw [List.map_map]
    refine (List.map_congr_left fun c hc => ?_).trans (List.map_id _)
    have hbound := digit_range hc
    have hbyte : (UInt8.ofNat c.toNat).toNat = c.toNat := by
      simp only [UInt8.toNat_ofNat']
      omega
    rw [Function.comp_apply, hbyte, Char.ofNat_toNat, id]
  rw [hall, hchars, Nat.ofDigitChars_ten_toDigits]

theorem readInt_decimal (i : Int) : readInt (decimal i) = i := by
  have hread := read_digits i.natAbs
  simp only [decimal]
  split
  · rename_i hneg
    simp only [readInt, if_true, hread]
    omega
  · rename_i hpos
    cases hdigits : (Nat.toDigits 10 i.natAbs).map fun c => UInt8.ofNat c.toNat with
    | nil => simp [Nat.toDigits_ne_nil] at hdigits
    | cons c rest =>
      have hc := mem_digits (n := i.natAbs) (b := c) (by rw [hdigits]; exact List.mem_cons_self)
      have hne : c ≠ 45 := by
        rintro rfl
        exact absurd hc.1 (by decide)
      simp only [readInt, if_neg hne]
      rw [← hdigits, hread]
      omega

theorem decimal_inj {i j : Int} (h : decimal i = decimal j) : i = j := by
  rw [← readInt_decimal i, h, readInt_decimal]

theorem printed_range (uid : UInt32) : -2147483648 ≤ printed uid ∧ printed uid < 2147483648 :=
  ⟨uid.toInt32.le_toInt, uid.toInt32.toInt_lt⟩

/-! ### Lines -/

theorem lines_cons {line : List UInt8} (h : 10 ∉ line) (rest : List UInt8) :
    lines (line ++ 10 :: rest) = line :: lines rest := by
  induction line with
  | nil => simp [lines]
  | cons c line ih =>
    obtain ⟨hc, hline⟩ := not_or.mp (List.mem_cons.not.mp h)
    rw [List.cons_append, lines, if_neg (Ne.symm hc), ih hline]

theorem UserInfo.newline_not_mem (r : UserInfo) : 10 ∉ r.line := by
  have hprinted (i : Int) : 10 ∉ decimal i := not_mem_decimal (by decide)
  have hslash : (10 : UInt8) ∉ ascii " /" := by decide
  simp [UserInfo.line, userInfoLine, hprinted, hslash, r.oneLine]

/-- The lines of a file that records make are theirs. -/
theorem lines_text (records : List UserInfo) : lines (text records) = records.map UserInfo.line := by
  induction records with
  | nil => rfl
  | cons r records ih =>
    have htext : text (r :: records) = r.line ++ 10 :: text records := by simp [text]
    rw [htext, lines_cons r.newline_not_mem, ih, List.map_cons]

/-- The first field of a record is its uid. -/
theorem UserInfo.firstField_line (r : UserInfo) : firstField r.line = decimal (printed r.uid) := by
  have hblank (b : UInt8) (hb : b ∈ decimal (printed r.uid)) : ¬ (b = 32 ∨ b = 9) := by
    rintro (rfl | rfl)
    · exact not_mem_decimal (by decide) hb
    · exact not_mem_decimal (by decide) hb
  rw [firstField, UserInfo.line, userInfoLine]
  cases hdecimal : decimal (printed r.uid) with
  | nil => exact absurd hdecimal (decimal_ne_nil _)
  | cons c rest =>
    rw [hdecimal] at hblank
    rw [List.cons_append, List.dropWhile_cons_of_neg (by simpa using hblank c List.mem_cons_self), ← List.cons_append,
      List.takeWhile_append_of_pos fun b hb => by simpa using hblank b hb, List.takeWhile_cons_of_neg (by decide),
      List.append_nil]

theorem UserInfo.readInt_line (r : UserInfo) : readInt (firstField r.line) = printed r.uid := by
  rw [r.firstField_line, readInt_decimal]

theorem UserInfo.zero_not_mem (r : UserInfo) : 0 ∉ r.line := by
  have hprinted (i : Int) : 0 ∉ decimal i := not_mem_decimal (by decide)
  have hslash : (0 : UInt8) ∉ ascii " /" := by decide
  simp [UserInfo.line, userInfoLine, hprinted, hslash, r.homeDir.terminated, r.userName.terminated, r.pw.terminated]

theorem zero_not_mem_text (records : List UserInfo) : 0 ∉ text records := by
  intro hzero
  obtain ⟨r, -, hzero⟩ := List.mem_flatMap.mp hzero
  obtain hzero | hzero := List.mem_append.mp hzero
  · exact r.zero_not_mem hzero
  · exact absurd (List.mem_singleton.mp hzero) (by decide)

/-- The file that records make. -/
def userFile (records : List UserInfo) : CString := ⟨text records, zero_not_mem_text records⟩

theorem text_eq_nil {records : List UserInfo} : text records = [] ↔ records = [] := by
  cases records <;> simp [text]

/-- The name is in its record's line. -/
theorem UserInfo.userName_infix (r : UserInfo) : r.userName.bytes <:+: r.line :=
  ⟨decimal (printed r.uid) ++ 32 :: (decimal (printed r.gid) ++ ascii " /" ++ r.homeDir.bytes ++ [32]),
    32 :: r.pw.bytes, by simp [UserInfo.line, userInfoLine]⟩

end CacheFs.Users
