import CacheFs.Namespace.Files

/-! Reading what a command prints.

`namespace_server.c` reads a pipe with `fgets` into a buffer until nothing comes. A stream
that leaves room in the buffer is read whole (`readLoop_fits`); once the buffer is
full, `fgets` has no room for a byte and gives an empty string for ever
(`readLoop_full`). The newline at the end of what is read makes it no number for
`atoi_u32` (`atoiU32_newline`). -/
namespace CacheFs.Users
open CacheFs.Namespace

/-- `snprintf`, which cuts a text that is too long. -/
def snprintf (bufsiz : Nat) (text : List UInt8) : List UInt8 := text.take (bufsiz - 1)

/-- The next line of a stream up to its newline, or so many bytes of it. -/
def takeLine : Nat → List UInt8 → List UInt8 × List UInt8
  | 0, stream => ([], stream)
  | _ + 1, [] => ([], [])
  | size + 1, c :: stream =>
    if c = 10 then ([c], stream) else (c :: (takeLine size stream).1, (takeLine size stream).2)

/-- `fgets` into so many bytes; `none` is `NULL`. With room for the terminator only it does
not look at the stream. -/
def fgets : Nat → List UInt8 → Option (List UInt8 × List UInt8)
  | 0, _ => none
  | 1, stream => some ([], stream)
  | size + 2, stream => if stream = [] then none else some (takeLine (size + 1) stream)

/-- `while(fgets(buf + i, bufsiz - i, fp) != NULL){i = strlen(buf);}`, for so many rounds. -/
def readLoop (bufsiz : Nat) : Nat → List UInt8 → List UInt8 → Option (List UInt8)
  | 0, _, _ => none
  | rounds + 1, buf, stream =>
    match fgets (bufsiz - buf.length) stream with
    | none => some buf
    | some (chunk, rest) => readLoop bufsiz rounds (buf ++ cString chunk) rest

/-- `atoi_u32`, from the number read so far. -/
def atoiU32 (i : UInt32) : List UInt8 → UInt32
  | [] => i
  | c :: rest =>
    if c.toNat < 48 ∨ 57 < c.toNat then -1 else atoiU32 (10 * i + UInt32.ofNat (c.toNat - 48)) rest

/-- What `snprintf` has left in a buffer. -/
def toCString (buf : List UInt8) : CString := ⟨cString buf, cString_terminated buf⟩

/-! ### The reading loop -/

section Reading
variable {bufsiz size rounds : Nat} {buf stream chunk rest out : List UInt8}

theorem takeLine_append (size : Nat) (stream : List UInt8) :
    (takeLine size stream).1 ++ (takeLine size stream).2 = stream := by
  induction size generalizing stream with
  | zero => rfl
  | succ size ih =>
    cases stream with
    | nil => rfl
    | cons c stream =>
      rw [takeLine]
      split
      · rfl
      · rw [List.cons_append, ih]

theorem takeLine_length (size : Nat) (stream : List UInt8) : (takeLine size stream).1.length ≤ size := by
  induction size generalizing stream with
  | zero => exact le_rfl
  | succ size ih =>
    cases stream with
    | nil => exact Nat.zero_le _
    | cons c stream =>
      rw [takeLine]
      split
      · exact Nat.succ_le_succ (Nat.zero_le _)
      · exact Nat.succ_le_succ (ih stream)

theorem takeLine_pos (size : Nat) (c : UInt8) (stream : List UInt8) :
    0 < (takeLine (size + 1) (c :: stream)).1.length := by
  rw [takeLine]
  split
  · exact Nat.one_pos
  · exact Nat.succ_pos _

/-- `fgets` takes the next bytes of the stream, and none of them only where it has no room. -/
theorem fgets_some (h : fgets size stream = some (chunk, rest)) :
    chunk ++ rest = stream ∧ chunk.length < size ∧ (2 ≤ size → 0 < chunk.length) := by
  match size, h with
  | 1, h =>
    cases h
    exact ⟨rfl, Nat.one_pos, fun h => absurd h (by decide)⟩
  | size + 2, h =>
    cases stream with
    | nil => simp [fgets] at h
    | cons c stream =>
      simp only [fgets, List.cons_ne_nil, if_false, Option.some.injEq] at h
      have hlen := takeLine_length (size + 1) (c :: stream)
      have hpos := takeLine_pos size c stream
      have happend := takeLine_append (size + 1) (c :: stream)
      rw [h] at hlen hpos happend
      exact ⟨happend, Nat.lt_succ_of_le hlen, fun _ => hpos⟩

theorem fgets_none (h : 0 < size) (hnone : fgets size stream = none) : stream = [] := by
  match size, h with
  | 1, _ => cases hnone
  | size + 2, _ =>
    simp only [fgets] at hnone
    split at hnone
    · assumption
    · cases hnone

theorem cString_text (h : 0 ∉ buf) : cString buf = buf :=
  List.takeWhile_eq_self_iff.mpr fun b hb => by simpa using fun hzero : b = 0 => h (hzero ▸ hb)

/-- A stream for which there is room is read whole. -/
theorem readLoop_fits (h0 : 0 ∉ stream) (hfits : buf.length + stream.length + 1 < bufsiz)
    (hrounds : stream.length < rounds) : readLoop bufsiz rounds buf stream = some (buf ++ stream) := by
  induction rounds generalizing buf stream with
  | zero => omega
  | succ rounds ih =>
    rw [readLoop]
    cases hget : fgets (bufsiz - buf.length) stream with
    | none =>
      rw [fgets_none (by omega) hget, List.append_nil]
    | some got =>
      obtain ⟨chunk, rest⟩ := got
      obtain ⟨rfl, -, hpos⟩ := fgets_some hget
      obtain ⟨hchunk, hrest⟩ := not_or.mp (List.mem_append.not.mp h0)
      have := hpos (by omega)
      rw [List.length_append] at hfits hrounds
      simp only [cString_text hchunk]
      rw [ih hrest (by rw [List.length_append]; omega) (by omega), List.append_assoc]

/-- Once the buffer is full the loop goes on for ever. -/
theorem readLoop_full (h0 : 0 ∉ stream) (hbuf : buf.length < bufsiz) (hfull : bufsiz ≤ buf.length + stream.length + 1) :
    readLoop bufsiz rounds buf stream = none := by
  induction rounds generalizing buf stream with
  | zero => rfl
  | succ rounds ih =>
    rw [readLoop]
    cases hget : fgets (bufsiz - buf.length) stream with
    | none =>
      have hnil := fgets_none (by omega) hget
      subst hnil
      have hsize : bufsiz - buf.length = 1 := by
        rw [List.length_nil] at hfull
        omega
      rw [hsize] at hget
      cases hget
    | some got =>
      obtain ⟨chunk, rest⟩ := got
      obtain ⟨rfl, hlen, -⟩ := fgets_some hget
      obtain ⟨hchunk, hrest⟩ := not_or.mp (List.mem_append.not.mp h0)
      rw [List.length_append] at hfull
      simp only [cString_text hchunk]
      exact ih hrest (by rw [List.length_append]; omega) (by rw [List.length_append]; omega)

/-- What the loop has read when it ends is the stream. -/
theorem readLoop_some (h0 : 0 ∉ stream) (hbuf : buf.length < bufsiz) (h : readLoop bufsiz rounds buf stream = some out) :
    out = buf ++ stream ∧ buf.length + stream.length + 1 < bufsiz := by
  have hfits : buf.length + stream.length + 1 < bufsiz := by
    apply Classical.byContradiction
    intro hfull
    rw [readLoop_full h0 hbuf (Nat.le_of_not_lt hfull)] at h
    cases h
  refine ⟨?_, hfits⟩
  induction rounds generalizing buf stream with
  | zero => cases h
  | succ rounds ih =>
    rw [readLoop] at h
    cases hget : fgets (bufsiz - buf.length) stream with
    | none =>
      rw [hget] at h
      cases h
      rw [fgets_none (by omega) hget, List.append_nil]
    | some got =>
      obtain ⟨chunk, rest⟩ := got
      rw [hget] at h
      obtain ⟨rfl, -, -⟩ := fgets_some hget
      obtain ⟨hchunk, hrest⟩ := not_or.mp (List.mem_append.not.mp h0)
      rw [List.length_append] at hfits
      simp only [cString_text hchunk] at h
      rw [ih hrest (by rw [List.length_append]; omega) h (by rw [List.length_append]; omega), List.append_assoc]

end Reading

/-- A text that ends with a newline is no number for `atoi_u32`. -/
theorem atoiU32_newline (i : UInt32) (line : List UInt8) : atoiU32 i (line ++ [10]) = -1 := by
  induction line generalizing i with
  | nil => rfl
  | cons c line ih =>
    rw [List.cons_append, atoiU32]
    split
    · rfl
    · exact ih _

end CacheFs.Users
