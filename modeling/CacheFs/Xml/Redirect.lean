import CacheFs.Library.Descriptors
import CacheFs.Xml.Fields
import CacheFs.Xml.Replies

/-! Conversions through pipes (`xml_msg.c`).

libxml2 writes to the standard output and reads from the standard input, so the
conversions put a pipe in their place and put back a duplicate. They look at what `pipe`
returns but not at what `dup` does: where it fails, the standard stream stays the end of
a pipe (`msgToBuf_table`, `bufToMsg_table`). A pipe that is read from directly needs no
duplicate (`parseFromFd_table`). An encoder holds both ends of its pipe, and waits for
ever when what it writes does not get there (`msgToBuf_answered`). -/
namespace CacheFs.Xml.Redirect
open Interaction Descriptors
open CacheFs.Namespace (CString)

/-! ### The functions of the program -/

/-- `sock_msg_to_buf` and `rpl_msg_to_buf`, with what is pending in the buffer of the standard output
and what is written for the message. -/
def msgToBuf (pending xml : List UInt8) {bufsiz : Nat} (buf : Field bufsiz) : Program (UInt32 × Field bufsiz) := do
  match ← pipe with
  | none => return (1, buf)
  | some (pp0, pp1) =>
    let stdoutFdBackUp ← dup 1
    close (some 1)
    dup2 (some pp1) 1
    let _ ← write 1 (pending ++ xml)
    let available ← read pp0 bufsiz
    close (some pp0)
    close (some pp1)
    dup2 stdoutFdBackUp 1
    close stdoutFdBackUp
    return available.elim (2, bzero bufsiz) fun bytes => (0, readInto (bzero bufsiz) bytes)

/-- `buf_to_sock_msg_parse_from_fd` and `buf_to_rpl_msg_parse_from_fd`, with the string in the
buffer and what is made of a document. -/
def bufToMsgParseFromFd {M : Type} (xmlReadFd : List UInt8 → Doc) (parse : Doc → M → UInt32 × M) (msg : M)
    (buf : CString) : Program (UInt32 × M) := do
  match ← pipe with
  | none => return (1, msg)
  | some (pp0, pp1) =>
    if ← write pp1 buf.bytes then
      close (some pp1)
      let content ← readAll pp0
      let r := parse (content.bind xmlReadFd) msg
      close (some pp0)
      return (if r.1 ≠ 0 then 3 else 0, r.2)
    else
      close (some pp1)
      close (some pp0)
      return (2, msg)

/-- `buf_to_sock_msg` and `buf_to_rpl_msg`, with what `xmlReadFile` returns for what is read from
the standard input. -/
def bufToMsg {M : Type} (xmlReadFile : List UInt8 → Doc) (parse : Doc → M → UInt32 × M) (msg : M)
    (buf : CString) : Program (UInt32 × M) := do
  let stdinFdBackUp ← dup 0
  match ← pipe with
  | none =>
    dup2 stdinFdBackUp 0
    close stdinFdBackUp
    return (1, msg)
  | some (pp0, pp1) =>
    if ← write pp1 buf.bytes then
      close (some 0)
      dup2 (some pp0) 0
      close (some pp1)
      let content ← readAll 0
      let r := parse (content.bind xmlReadFile) msg
      close (some pp0)
      dup2 stdinFdBackUp 0
      close stdinFdBackUp
      return (if r.1 ≠ 0 then 3 else 0, r.2)
    else
      close (some pp1)
      close (some pp0)
      dup2 stdinFdBackUp 0
      close stdinFdBackUp
      return (2, msg)

/-- Messages are in memory, so that every document can be stored. -/
def parseSockDoc (doc : Doc) (mem : Nat → UInt8) : UInt32 × (Nat → UInt8) :=
  let r := storeDoc doc mem
  (r.1, r.2.1)

/-- `sock_msg_to_buf`, with the type and the strings of the message. -/
def sockMsgToBuf (lib : Libxml2) (pending : List UInt8) (type : UInt8) (destIp fileName : CString) {bufsiz : Nat}
    (buf : Field bufsiz) : Program (UInt32 × Field bufsiz) := msgToBuf pending (saved lib type destIp fileName) buf

/-- `rpl_msg_to_buf`. -/
def rplMsgToBuf (lib : Libxml2) (pending : List UInt8) (rplMsg : RplMsg) {bufsiz : Nat} (buf : Field bufsiz) :
    Program (UInt32 × Field bufsiz) := msgToBuf pending (rplMsgToXml lib rplMsg) buf

/-- `buf_to_sock_msg_parse_from_fd`. -/
def bufToSockMsgParseFromFd (xmlReadFd : List UInt8 → Doc) : (Nat → UInt8) → CString →
    Program (UInt32 × (Nat → UInt8)) := bufToMsgParseFromFd xmlReadFd parseSockDoc

/-- `buf_to_rpl_msg_parse_from_fd`. -/
def bufToRplMsgParseFromFd (xmlReadFd : List UInt8 → Doc) : RplMsg → CString → Program (UInt32 × RplMsg) :=
  bufToMsgParseFromFd xmlReadFd parseRplDoc

/-- `buf_to_sock_msg`. -/
def bufToSockMsg (xmlReadFile : List UInt8 → Doc) : (Nat → UInt8) → CString → Program (UInt32 × (Nat → UInt8)) :=
  bufToMsg xmlReadFile parseSockDoc

/-- `buf_to_rpl_msg`. -/
def bufToRplMsg (xmlReadFile : List UInt8 → Doc) : RplMsg → CString → Program (UInt32 × RplMsg) :=
  bufToMsg xmlReadFile parseRplDoc

/-! ### The table afterwards -/

/-- The standard streams are open. -/
structure Started (s : Process) : Prop where
  stdin : s.table.file 0 ≠ none
  stdout : s.table.file 1 ≠ none
  stderr : s.table.file 2 ≠ none

section Tables
variable {s : Process} {e : Succeeds} {M : Type}

/-- The ends of a pipe are two descriptors that were not used. -/
theorem pipe_unused (s : Process) :
    s.table.file s.readFd = none ∧ s.table.file s.writeFd = none ∧ s.writeFd ≠ s.readFd := by
  have hwrite : (s.table.set s.readFd (some (.readEnd s.made))).file s.writeFd = none := Table.file_lowest
  rw [Table.file_set] at hwrite
  split at hwrite
  · exact absurd hwrite (by simp)
  · exact ⟨Table.file_lowest, hwrite, ‹_›⟩

theorem file_pipe (s : Process) (fd : Nat) : s.pipe.table.file fd =
    if fd = s.writeFd then some (.writeEnd s.made) else if fd = s.readFd then some (.readEnd s.made)
    else s.table.file fd := by
  show ((s.table.set s.readFd _).set s.writeFd _).file fd = _
  rw [Table.file_set, Table.file_set]

/-- The ends of the next pipe are nowhere in the table. -/
theorem pipe_fresh (s : Process) (fd : Nat) :
    s.table.file fd ≠ some (.writeEnd s.made) ∧ s.table.file fd ≠ some (.readEnd s.made) :=
  ⟨fun h => Nat.lt_irrefl _ (s.known fd _ h), fun h => Nat.lt_irrefl _ (s.known fd _ h)⟩

theorem pipe_end (s : Process) : s.pipe.table.file s.writeFd = some (.writeEnd s.made) := by
  rw [file_pipe, if_pos rfl]

/-- What replaced the standard output is left there when there is no duplicate to put back. -/
theorem msgToBuf_table (hs : Started s) (pending xml : List UInt8) {bufsiz : Nat} (buf : Field bufsiz) :
    ((msgToBuf pending xml buf).run handle (fun _ => e) s).2.table =
      if e.pipe = true ∧ e.dup = false then s.table.set 1 (some (.writeEnd s.made)) else s.table := by
  have hout := hs.stdout
  obtain ⟨hread, hwrite, hne⟩ := pipe_unused s
  have hfile := file_pipe s
  rw [msgToBuf]
  cases hpipe : e.pipe with
  | false => simp [handle_pipe_fails hpipe]
  | true =>
    simp only [pipe_bind, Prog.run_call, handle_pipe hpipe]
    cases hdup : e.dup with
    | false =>
      simp only [dup_bind, close_bind, dup2_bind, write_bind, read_bind, Prog.run_call, handle_dup_fails hdup,
        Prog.pure_eq, Prog.run_ret, close_table, dup2_table, write_table, read_table, Table.dup2_none, Table.close_none]
      ext1
      funext fd
      grind [Table.file_set, Table.file_close, Table.file_dup2]
    | true =>
      -- the duplicate is a third descriptor that was not used
      have hout' : s.pipe.table.file 1 ≠ none := by grind
      have hlowest : s.pipe.table.file s.pipe.table.lowest = none := Table.file_lowest
      simp only [dup_bind, close_bind, dup2_bind, write_bind, read_bind, Prog.run_call, handle_dup hdup hout',
        Prog.pure_eq, Prog.run_ret, close_table, dup2_table, write_table, read_table, copy_table]
      generalize s.pipe.table.lowest = backUp at hlowest ⊢
      have hfile' (fd : Nat) : (s.pipe.table.set backUp (s.pipe.table.file 1)).file fd =
          if fd = backUp then s.table.file 1 else s.pipe.table.file fd := by grind [Table.file_set]
      generalize s.pipe.table.set backUp (s.pipe.table.file 1) = t at hfile' ⊢
      have hreplaced (fd : Nat) : ((t.close (some 1)).dup2 (some s.writeFd) 1).file fd =
          if fd = 1 then t.file s.writeFd else t.file fd := Table.file_replace (by grind) (by grind)
      generalize (t.close (some 1)).dup2 (some s.writeFd) 1 = t' at hreplaced ⊢
      ext1
      funext fd
      rw [Table.file_putBack (by grind [Table.file_close])]
      grind [Table.file_close]

theorem parseFromFd_table (xmlReadFd : List UInt8 → Doc) (parse : Doc → M → UInt32 × M) (msg : M) (buf : CString) :
    ((bufToMsgParseFromFd xmlReadFd parse msg buf).run handle (fun _ => e) s).2.table = s.table := by
  obtain ⟨hread, hwrite, hne⟩ := pipe_unused s
  have hfile := file_pipe s
  rw [bufToMsgParseFromFd]
  cases hpipe : e.pipe with
  | false => simp [handle_pipe_fails hpipe]
  | true =>
    simp only [pipe_bind, write_bind, Prog.run_call, handle_pipe hpipe, handle_write (pipe_end s)]
    cases e.write with
    | false =>
      simp only [Bool.false_eq_true, if_false, close_bind, Prog.run_call, Prog.pure_eq, Prog.run_ret, close_table, write_table]
      ext1
      funext fd
      grind [Table.file_close]
    | true =>
      simp only [if_true, close_bind, readAll_bind, Prog.run_call, Prog.pure_eq, Prog.run_ret, close_table, readAll_table,
        write_table]
      ext1
      funext fd
      grind [Table.file_close]

/-- What replaced the standard input is left there when there is no duplicate to put back. -/
theorem bufToMsg_table (hs : Started s) (xmlReadFile : List UInt8 → Doc) (parse : Doc → M → UInt32 × M) (msg : M)
    (buf : CString) : ((bufToMsg xmlReadFile parse msg buf).run handle (fun _ => e) s).2.table =
      if e.dup = false ∧ e.pipe = true ∧ e.write = true then s.table.set 0 (some (.readEnd s.made)) else s.table := by
  have hin := hs.stdin
  rw [bufToMsg]
  -- the duplicate of the standard input, if there is one, and what is open beside it
  obtain ⟨backUp, s', hdup, hbackUp⟩ : ∃ backUp s', handle (.dup 0) e s = (backUp, s') ∧
      (e.dup = false ∧ backUp = none ∧ s' = s ∨
        e.dup = true ∧ backUp = some s.table.lowest ∧ s' = s.copy 0 s.table.lowest) := by
    cases hdup : e.dup with
    | false => exact ⟨_, _, handle_dup_fails hdup, .inl ⟨rfl, rfl, rfl⟩⟩
    | true => exact ⟨_, _, handle_dup hdup hin, .inr ⟨rfl, rfl, rfl⟩⟩
  have hlowest : s.table.file s.table.lowest = none := Table.file_lowest
  have hin' : s'.table.file 0 ≠ none := by grind [Table.file_set, copy_table]
  obtain ⟨hread, hwrite, hne⟩ := pipe_unused s'
  have hfile := file_pipe s'
  simp only [dup_bind, pipe_bind, Prog.run_call, hdup]
  cases hpipe : e.pipe with
  | false =>
    simp only [handle_pipe_fails hpipe, dup2_bind, close_bind, Prog.run_call, Prog.pure_eq, Prog.run_ret, close_table,
      dup2_table]
    ext1
    funext fd
    obtain ⟨hfails, rfl, rfl⟩ | ⟨hsucceeds, rfl, rfl⟩ := hbackUp
    · simp [hfails]
    · grind [Table.file_set, Table.file_close, Table.file_dup2, copy_table]
  | true =>
    simp only [handle_pipe hpipe, write_bind, Prog.run_call, handle_write (pipe_end s')]
    cases hput : e.write with
    | false =>
      simp only [Bool.false_eq_true, if_false, close_bind, dup2_bind, Prog.run_call, Prog.pure_eq, Prog.run_ret,
        close_table, dup2_table, write_table]
      ext1
      funext fd
      obtain ⟨hfails, rfl, rfl⟩ | ⟨hsucceeds, rfl, rfl⟩ := hbackUp
      · rw [Table.dup2_none, Table.close_none]
        grind [Table.file_set, Table.file_close, Table.file_dup2, copy_table]
      · grind [Table.file_set, Table.file_close, Table.file_dup2, copy_table]
    | true =>
      simp only [if_true, close_bind, dup2_bind, readAll_bind, Prog.run_call, Prog.pure_eq, Prog.run_ret, close_table,
        dup2_table, readAll_table, write_table]
      have hreplaced (fd : Nat) : ((s'.pipe.table.close (some 0)).dup2 (some s'.readFd) 0).file fd =
          if fd = 0 then s'.pipe.table.file s'.readFd else s'.pipe.table.file fd :=
        Table.file_replace (by grind) (by grind)
      generalize (s'.pipe.table.close (some 0)).dup2 (some s'.readFd) 0 = t at hreplaced ⊢
      ext1
      funext fd
      obtain ⟨hfails, rfl, rfl⟩ | ⟨hsucceeds, rfl, rfl⟩ := hbackUp
      · rw [Table.dup2_none, Table.close_none]
        grind [Table.file_set, Table.file_close]
      · rw [Table.file_putBack (by grind [Table.file_close, Table.file_set, copy_table])]
        grind [Table.file_close, Table.file_set, copy_table]

end Tables

/-! ### What is waited for -/

/-- A text gets through a pipe whose two ends a process has: there is room for it, and something to
read. -/
def Passes (e : Succeeds) (bufsiz : Nat) (text : List UInt8) : Prop :=
  (e.write = true → text.length ≤ e.capacity) ∧ (e.read = true ∧ bufsiz ≠ 0 → e.write = true ∧ text ≠ [])

section Waiting
variable {s : Process} {e : Succeeds} {M : Type}

/-- The process when the next pipe has taken the place of its standard output. -/
def redirected (e : Succeeds) (s : Process) : Process :=
  (handle (.dup2 (some s.writeFd) 1) e (handle (.close (some 1)) e (handle (.dup 1) e s.pipe).2).2).2

/-- It has both ends of the pipe, and nothing is in it. -/
theorem redirected_spec (hs : Started s) : (redirected e s).table.file 1 = some (.writeEnd s.made) ∧
    (redirected e s).table.file s.readFd = some (.readEnd s.made) ∧ (redirected e s).pipes s.made = [] := by
  have hout := hs.stdout
  obtain ⟨hread, hwrite, hne⟩ := pipe_unused s
  have hfile := file_pipe s
  unfold redirected
  have hend : (handle (.dup 1) e s.pipe).2.table.file s.writeFd = some (.writeEnd s.made) := by
    rw [dup_file (by simp [pipe_end]), pipe_end]
  have hreadEnd : (handle (.dup 1) e s.pipe).2.table.file s.readFd = some (.readEnd s.made) := by
    rw [dup_file (by grind), hfile, if_neg hne.symm, if_pos rfl]
  refine ⟨?_, ?_, ?_⟩
  · rw [dup2_table, close_table, Table.file_replace (by grind) (by simp [hend]), if_pos rfl, hend]
  · rw [dup2_table, close_table, Table.file_replace (by grind) (by simp [hend]), if_neg (by grind), hreadEnd]
  · rw [dup2_pipes, close_pipes, dup_pipes, Process.pipe_empty]

theorem msgToBuf_answered (hs : Started s) (pending xml : List UInt8) {bufsiz : Nat} (buf : Field bufsiz) :
    (msgToBuf pending xml buf).Answered Waits handle (fun _ => e) s ↔
      e.pipe = false ∨ Passes e bufsiz (pending ++ xml) := by
  rw [msgToBuf]
  cases hpipe : e.pipe with
  | false => simp [handle_pipe_fails hpipe]
  | true =>
    obtain ⟨hstdout, hreadEnd, hempty⟩ := redirected_spec (e := e) hs
    simp only [pipe_bind, dup_bind, close_bind, dup2_bind, write_bind, read_bind, Prog.answered_call, handle_pipe hpipe,
      Prog.pure_eq, Prog.answered_ret, waits_pipe, waits_dup, waits_close, waits_dup2, not_false_eq_true, true_and, and_true,
      Bool.true_eq_false, false_or]
    rw [← redirected]
    generalize redirected e s = s₁ at hstdout hreadEnd hempty ⊢
    have hwriteEnd' : (handle (.write 1 (pending ++ xml)) e s₁).2.table.file 1 = some (.writeEnd s.made) := by
      rw [write_table, hstdout]
    have hreadEnd' : (handle (.write 1 (pending ++ xml)) e s₁).2.table.file s.readFd = some (.readEnd s.made) := by
      rw [write_table, hreadEnd]
    rw [waits_write hstdout, waits_read hreadEnd' hwriteEnd', hempty, List.length_nil, Nat.zero_add, Passes]
    cases hput : e.write with
    | false =>
      have hstill : (handle (.write 1 (pending ++ xml)) e s₁).2.pipes s.made = [] := by simp [handle, hput, hempty]
      simp [hstill]
    | true =>
      rw [write_pipes hstdout hput, hempty, List.nil_append]
      simp

/-- One who reads a pipe when the only descriptor of its write end is closed does not wait. -/
theorem not_waits_closed {fd w k : Nat} (hread : ∀ k', s.table.file fd = some (.readEnd k') → k' = k)
    (honly : ∀ fd', s.table.file fd' = some (.writeEnd k) → fd' = w) :
    ¬ Waits (.readAll fd) e (handle (.close (some w)) e s).2 := by
  apply not_waits_readAll
  intro k' hk' fd' hfd'
  rw [close_table, Table.file_close] at hk' hfd'
  split at hk'
  · cases hk'
  · obtain rfl := hread k' hk'
    split at hfd'
    · cases hfd'
    · exact absurd (honly fd' hfd') ‹_›

theorem parseFromFd_answered (xmlReadFd : List UInt8 → Doc) (parse : Doc → M → UInt32 × M) (msg : M) (buf : CString) :
    (bufToMsgParseFromFd xmlReadFd parse msg buf).Answered Waits handle (fun _ => e) s ↔
      e.pipe = false ∨ e.write = false ∨ buf.bytes.length ≤ e.capacity := by
  obtain ⟨hread, hwrite, hne⟩ := pipe_unused s
  have hfile := file_pipe s
  rw [bufToMsgParseFromFd]
  cases hpipe : e.pipe with
  | false => simp [handle_pipe_fails hpipe]
  | true =>
    have hroom : ¬ Waits (.write s.writeFd buf.bytes) e s.pipe ↔ e.write = false ∨ buf.bytes.length ≤ e.capacity := by
      rw [waits_write (pipe_end s), Process.pipe_empty]
      cases e.write <;> simp
    simp only [pipe_bind, write_bind, Prog.answered_call, handle_pipe hpipe, handle_write (pipe_end s), hroom,
      waits_pipe, not_false_eq_true, true_and, Bool.true_eq_false, false_or]
    cases hput : e.write with
    | false => simp
    | true =>
      have hclosed : ¬ Waits (.readAll s.readFd) e
          (handle (.close (some s.writeFd)) e (handle (.write s.writeFd buf.bytes) e s.pipe).2).2 := by
        apply not_waits_closed (k := s.made)
        · intro k' hk'
          rw [write_table, hfile, if_neg hne.symm, if_pos rfl] at hk'
          cases hk'
          rfl
        · intro fd' hfd'
          rw [write_table, hfile] at hfd'
          have hfresh := pipe_fresh s fd'
          grind
      simp [hclosed]

theorem bufToMsg_answered (xmlReadFile : List UInt8 → Doc) (parse : Doc → M → UInt32 × M) (msg : M) (buf : CString) :
    (bufToMsg xmlReadFile parse msg buf).Answered Waits handle (fun _ => e) s ↔
      e.pipe = false ∨ e.write = false ∨ buf.bytes.length ≤ e.capacity := by
  rw [bufToMsg]
  simp only [dup_bind, Prog.answered_call, waits_dup, not_false_eq_true, true_and]
  generalize handle (.dup 0) e s = r
  obtain ⟨backUp, s'⟩ := r
  obtain ⟨hread, hwrite, hne⟩ := pipe_unused s'
  have hfile := file_pipe s'
  cases hpipe : e.pipe with
  | false => simp [handle_pipe_fails hpipe]
  | true =>
    have hroom : ¬ Waits (.write s'.writeFd buf.bytes) e s'.pipe ↔ e.write = false ∨ buf.bytes.length ≤ e.capacity := by
      rw [waits_write (pipe_end s'), Process.pipe_empty]
      cases e.write <;> simp
    simp only [pipe_bind, write_bind, Prog.answered_call, handle_pipe hpipe, handle_write (pipe_end s'), hroom,
      waits_pipe, not_false_eq_true, true_and, Bool.true_eq_false, false_or]
    cases hput : e.write with
    | false => simp
    | true =>
      have hclosed : ¬ Waits (.readAll 0) e (handle (.close (some s'.writeFd)) e (handle (.dup2 (some s'.readFd) 0) e
          (handle (.close (some 0)) e (handle (.write s'.writeFd buf.bytes) e s'.pipe).2).2).2).2 := by
        apply not_waits_closed (k := s'.made)
        · intro k' hk'
          rw [dup2_table, close_table, write_table, Table.file_dup2, Table.file_close, Table.file_close, hfile,
            hfile] at hk'
          grind
        · intro fd' hfd'
          rw [dup2_table, close_table, write_table, Table.file_dup2, Table.file_close, Table.file_close, hfile,
            hfile] at hfd'
          have hfresh := pipe_fresh s' fd'
          grind
      simp [hclosed]

end Waiting

/-! ### Descriptors are kept -/

/-- The function returns, with the table that it was called with. -/
def Kept {R : Type} (e : Succeeds) (s : Process) (p : Program R) : Prop :=
  ∃ r s', p.Returns Waits handle (fun _ => e) s r s' ∧ s'.table = s.table

section Kept
variable {s : Process} {e : Succeeds} {M : Type}

theorem set_ne {t : Table} {fd : Nat} {f : File} (h : t.file fd ≠ some f) : t.set fd (some f) ≠ t := by
  intro heq
  rw [← heq, Table.file_set, if_pos rfl] at h
  exact h rfl

theorem msgToBuf_kept (hs : Started s) (pending xml : List UInt8) {bufsiz : Nat} (buf : Field bufsiz) :
    Kept e s (msgToBuf pending xml buf) ↔ e.pipe = false ∨ e.dup = true ∧ Passes e bufsiz (pending ++ xml) := by
  rw [Kept, Prog.exists_returns, msgToBuf_answered hs, msgToBuf_table hs]
  cases hpipe : e.pipe <;> cases hdup : e.dup <;> simp [set_ne (pipe_fresh s 1).1]

theorem bufToMsg_kept (hs : Started s) (xmlReadFile : List UInt8 → Doc) (parse : Doc → M → UInt32 × M) (msg : M)
    (buf : CString) : Kept e s (bufToMsg xmlReadFile parse msg buf) ↔
      e.pipe = false ∨ e.write = false ∨ e.dup = true ∧ buf.bytes.length ≤ e.capacity := by
  rw [Kept, Prog.exists_returns, bufToMsg_answered, bufToMsg_table hs]
  cases hpipe : e.pipe <;> cases hdup : e.dup <;> cases hwrite : e.write <;> simp [set_ne (pipe_fresh s 0).2]

theorem parseFromFd_kept (xmlReadFd : List UInt8 → Doc) (parse : Doc → M → UInt32 × M) (msg : M) (buf : CString) :
    Kept e s (bufToMsgParseFromFd xmlReadFd parse msg buf) ↔
      e.pipe = false ∨ e.write = false ∨ buf.bytes.length ≤ e.capacity := by
  rw [Kept, Prog.exists_returns, parseFromFd_answered, parseFromFd_table]
  simp

/-- **Message conversion leaves the descriptors as they were** just when the calls that it makes are
all answered and, where the standard stream was replaced, its duplicate is there to put back. -/
theorem descriptors_kept (hs : Started s) (e : Succeeds) (lib : Libxml2) (xmlReadFile xmlReadFd : List UInt8 → Doc)
    (pending : List UInt8) (type : UInt8) (destIp fileName : CString) (rplMsg : RplMsg) (mem : Nat → UInt8) (text : CString)
    {bufsiz : Nat} (buf : Field bufsiz) :
    (Kept e s (sockMsgToBuf lib pending type destIp fileName buf) ↔
      e.pipe = false ∨ e.dup = true ∧ Passes e bufsiz (pending ++ saved lib type destIp fileName)) ∧
    (Kept e s (rplMsgToBuf lib pending rplMsg buf) ↔
      e.pipe = false ∨ e.dup = true ∧ Passes e bufsiz (pending ++ rplMsgToXml lib rplMsg)) ∧
    (Kept e s (bufToSockMsg xmlReadFile mem text) ↔
      e.pipe = false ∨ e.write = false ∨ e.dup = true ∧ text.bytes.length ≤ e.capacity) ∧
    (Kept e s (bufToRplMsg xmlReadFile rplMsg text) ↔
      e.pipe = false ∨ e.write = false ∨ e.dup = true ∧ text.bytes.length ≤ e.capacity) ∧
    (Kept e s (bufToSockMsgParseFromFd xmlReadFd mem text) ↔
      e.pipe = false ∨ e.write = false ∨ text.bytes.length ≤ e.capacity) ∧
    (Kept e s (bufToRplMsgParseFromFd xmlReadFd rplMsg text) ↔
      e.pipe = false ∨ e.write = false ∨ text.bytes.length ≤ e.capacity) :=
  ⟨msgToBuf_kept hs _ _ _, msgToBuf_kept hs _ _ _, bufToMsg_kept hs _ _ _ _, bufToMsg_kept hs _ _ _ _,
    parseFromFd_kept _ _ _ _, parseFromFd_kept _ _ _ _⟩

/-- A process with nothing but its standard streams. -/
def console : Process where
  table := ⟨fun fd => if fd < 3 then some (.other fd) else none, 3, fun fd h => if_neg (by omega)⟩
  pipes := fun _ => []
  made := 0
  known := by
    intro fd f hf
    dsimp only at hf
    split at hf
    · obtain rfl := Option.some.inj hf
      trivial
    · exact absurd hf (by simp)

theorem console_started : Started console := ⟨by decide, by decide, by decide⟩

/-- With calls that succeed, and with a document that cannot be read. -/
theorem descriptors_kept_console : Started console ∧
    Kept .all console (sockMsgToBuf linesLib [] 77 ⟨ascii "1", by decide⟩ ⟨ascii "x", by decide⟩ (bzero xmlBufsz)) ∧
    Kept .all console (bufToRplMsg (fun _ => none) ⟨0⟩ ⟨[], by decide⟩) := by
  have h := descriptors_kept console_started .all linesLib (fun _ => none) (fun _ => none) [] 77
    ⟨ascii "1", by decide⟩ ⟨ascii "x", by decide⟩ ⟨0⟩ (fun _ => 0) ⟨[], by decide⟩ (bzero xmlBufsz)
  have hlen : (saved linesLib 77 ⟨ascii "1", by decide⟩ ⟨ascii "x", by decide⟩).length = 129 :=
    saved_length linesLib_documented (by decide) (printable_of_all (by decide)) (printable_of_all (by decide)) (by decide)
      (by decide)
  have hpasses : Passes .all xmlBufsz ([] ++ saved linesLib 77 ⟨ascii "1", by decide⟩ ⟨ascii "x", by decide⟩) := by
    rw [List.nil_append, Passes, hlen]
    refine ⟨fun _ => by decide, fun _ => ⟨rfl, fun hnil => ?_⟩⟩
    rw [hnil] at hlen
    cases hlen
  exact ⟨console_started, h.1.mpr (.inr ⟨rfl, hpasses⟩), h.2.2.2.1.mpr (.inr (.inr ⟨rfl, by decide⟩))⟩

/-- The pipe takes the last two descriptors: the standard output is its end from then on. Or nothing
can be written to the pipe: the encoder waits for ever. -/
theorem descriptors_not_kept :
    ¬ Kept {Succeeds.all with dup := false} console
      (sockMsgToBuf linesLib [] 77 ⟨ascii "127.0.0.1", by decide⟩ ⟨ascii "/x", by decide⟩ (bzero xmlBufsz)) ∧
    ((sockMsgToBuf linesLib [] 77 ⟨ascii "127.0.0.1", by decide⟩ ⟨ascii "/x", by decide⟩ (bzero xmlBufsz)).run handle
      (fun _ => {Succeeds.all with dup := false}) console).2.table.file 1 = some (.writeEnd 0) ∧
    ¬ Kept {Succeeds.all with write := false} console
      (sockMsgToBuf linesLib [] 77 ⟨ascii "127.0.0.1", by decide⟩ ⟨ascii "/x", by decide⟩ (bzero xmlBufsz)) := by
  refine ⟨fun h => ?_, ?_, fun h => ?_⟩
  · have hcalls := (msgToBuf_kept console_started _ _ _).mp h
    simp [Succeeds.all] at hcalls
  · rw [sockMsgToBuf, msgToBuf_table console_started, if_pos ⟨rfl, rfl⟩, Table.file_set, if_pos rfl]
    rfl
  · have hcalls := (msgToBuf_kept console_started _ _ _).mp h
    simp [Succeeds.all, Passes, xmlBufsz] at hcalls

end Kept

/-! ### What is converted -/

section Results
variable {s : Process} {e : Succeeds} {M : Type}

theorem readInto_take {bufsiz : Nat} (buf : Field bufsiz) (bytes : List UInt8) :
    (readInto buf (bytes.take bufsiz)).bytes = (readInto buf bytes).bytes := by
  have hdrop : buf.bytes.drop (min bufsiz bytes.length) = buf.bytes.drop bytes.length := by
    obtain hle | hle := Nat.le_total bytes.length bufsiz
    · rw [Nat.min_eq_right hle]
    · rw [Nat.min_eq_left hle, List.drop_of_length_le buf.size_eq.le, List.drop_of_length_le (by rw [buf.size_eq]; exact hle)]
  simp only [readInto, List.take_take, Nat.min_self, List.length_take, hdrop]

/-- What is written for the message is read into the buffer. -/
theorem msgToBuf_result (hs : Started s) (hput : e.write = true) (pending xml : List UInt8) {bufsiz : Nat}
    (buf : Field bufsiz) : ((msgToBuf pending xml buf).run handle (fun _ => e) s).1 =
      if e.pipe then
        if e.read then (0, readInto (bzero bufsiz) ((pending ++ xml).take bufsiz)) else (2, bzero bufsiz)
      else (1, buf) := by
  rw [msgToBuf]
  cases hpipe : e.pipe with
  | false => simp [handle_pipe_fails hpipe]
  | true =>
    obtain ⟨hstdout, hreadEnd, hempty⟩ := redirected_spec (e := e) hs
    simp only [pipe_bind, dup_bind, close_bind, dup2_bind, write_bind, read_bind, Prog.run_call, handle_pipe hpipe,
      Prog.pure_eq, Prog.run_ret]
    rw [← redirected]
    generalize redirected e s = s₁ at hstdout hreadEnd hempty ⊢
    cases hget : e.read with
    | false => simp [handle_read_fails hget]
    | true =>
      have hreadEnd' : (handle (.write 1 (pending ++ xml)) e s₁).2.table.file s.readFd = some (.readEnd s.made) := by
        rw [write_table, hreadEnd]
      simp [handle_read hreadEnd' hget, write_pipes hstdout hput, hempty]

/-- What is in the buffer is read from the pipe. -/
theorem parseFromFd_result (hall : e.readAll = true) (xmlReadFd : List UInt8 → Doc) (parse : Doc → M → UInt32 × M)
    (msg : M) (buf : CString) : ((bufToMsgParseFromFd xmlReadFd parse msg buf).run handle (fun _ => e) s).1 =
      if e.pipe then
        if e.write then (if (parse (xmlReadFd buf.bytes) msg).1 ≠ 0 then 3 else 0, (parse (xmlReadFd buf.bytes) msg).2)
        else (2, msg)
      else (1, msg) := by
  obtain ⟨hread, hwrite, hne⟩ := pipe_unused s
  have hfile := file_pipe s
  rw [bufToMsgParseFromFd]
  cases hpipe : e.pipe with
  | false => simp [handle_pipe_fails hpipe]
  | true =>
    simp only [pipe_bind, write_bind, Prog.run_call, handle_pipe hpipe, handle_write (pipe_end s)]
    cases hput : e.write with
    | false => simp
    | true =>
      have hreadEnd : (handle (.close (some s.writeFd)) e (handle (.write s.writeFd buf.bytes) e s.pipe).2).2.table.file
          s.readFd = some (.readEnd s.made) := by
        rw [close_table, write_table, Table.file_close]
        grind
      have hcontent : (handle (.close (some s.writeFd)) e (handle (.write s.writeFd buf.bytes) e s.pipe).2).2.pipes s.made =
          buf.bytes := by
        rw [close_pipes, write_pipes (pipe_end s) hput, Process.pipe_empty, List.nil_append]
      simp only [if_true, close_bind, readAll_bind, Prog.run_call, Prog.pure_eq, Prog.run_ret, handle_readAll hreadEnd hall,
        hcontent, Option.bind_some]

/-- A program returns this result. -/
def Gives {R : Type} (e : Succeeds) (s : Process) (p : Program R) (r : R) : Prop :=
  ∃ s', p.Returns Waits handle (fun _ => e) s r s'

theorem gives_iff {R : Type} {p : Program R} {r : R} :
    Gives e s p r ↔ p.Answered Waits handle (fun _ => e) s ∧ (p.run handle (fun _ => e) s).1 = r := by
  constructor
  · intro h
    obtain ⟨s', hanswered, hrun⟩ := h
    exact ⟨hanswered, by rw [hrun]⟩
  · intro h
    exact ⟨_, h.1, Prod.ext h.2 rfl⟩

/-- The program is what `sockMsgToBuf` of the whole encoder says of it, when the document is written
and fits the pipe. -/
theorem sockMsgToBuf_result (hs : Started s) (hput : e.write = true) (lib : Libxml2) (pending : List UInt8) {msg : SockMsg}
    {type : UInt8} {destIp fileName : CString} (hmsg : msg.Holds type destIp fileName)
    (hfits : (pending ++ saved lib type destIp fileName).length ≤ e.capacity)
    (hsome : pending ++ saved lib type destIp fileName ≠ []) {bufsiz : Nat} (buf : Field bufsiz) :
    ∃ r, Gives e s (sockMsgToBuf lib pending type destIp fileName buf) r ∧
      (Xml.sockMsgToBuf lib pending e.pipe e.read msg buf).map (fun r => (r.1, r.2.bytes)) = some (r.1, r.2.bytes) := by
  obtain ⟨rfl, hip, hfn⟩ := hmsg
  refine ⟨_, gives_iff.mpr ⟨(msgToBuf_answered hs _ _ _).mpr (.inr ⟨fun _ => hfits, fun _ => ⟨hput, hsome⟩⟩), rfl⟩, ?_⟩
  rw [sockMsgToBuf, msgToBuf_result hs hput, Xml.sockMsgToBuf, sockMsgToXml_eq hip hfn]
  cases e.pipe with
  | false => rfl
  | true =>
    cases e.read with
    | false => rfl
    | true => simp [readInto_take]

/-- And decoding is what was seen of the memory. -/
theorem bufToSockMsgParseFromFd_result (hall : e.readAll = true) (xmlReadFd : List UInt8 → Doc) (mem : Nat → UInt8)
    {buf : Field xmlBufsz} {text : CString} {behind : List UInt8} (htext : received buf behind = text.bytes)
    (hfits : text.bytes.length ≤ e.capacity) :
    Gives e s (bufToSockMsgParseFromFd xmlReadFd mem text)
      ((bufToMemory xmlReadFd e.pipe e.write buf behind mem).1,
        (bufToMemory xmlReadFd e.pipe e.write buf behind mem).2.1) := by
  refine gives_iff.mpr ⟨(parseFromFd_answered _ _ _ _).mpr (.inr (.inr hfits)), ?_⟩
  rw [bufToSockMsgParseFromFd, parseFromFd_result hall, bufToMemory, htext]
  cases e.pipe with
  | false => rfl
  | true =>
    cases e.write with
    | false => rfl
    | true => rfl

end Results

end CacheFs.Xml.Redirect
