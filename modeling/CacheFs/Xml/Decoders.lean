import CacheFs.Xml.Redirect

/-! The two decoders of a message (`xml_msg.c`).

`buf_to_sock_msg` and `buf_to_rpl_msg` put the pipe in the place of the standard input and
let libxml2 read that; the variants for a descriptor let it read the pipe. Both see the
same document whatever calls fail, unless there is no standard input to begin with: then
the pipe gets its number, the decoder closes it and reads nothing (`decoders_agree`). A
text that does not fit the pipe makes both wait. -/
namespace CacheFs.Xml.Redirect
open Interaction Descriptors
open CacheFs.Namespace (CString)

section Results
variable {s : Process} {e : Succeeds} {M : Type} {read : List UInt8 → Doc} {parse : Doc → M → UInt32 × M} {msg : M}
  {buf : CString}

/-- What a decoder returns for a document, and the message after it. -/
def converted (parse : Doc → M → UInt32 × M) (msg : M) (doc : Doc) : UInt32 × M :=
  (if (parse doc msg).1 ≠ 0 then 3 else 0, (parse doc msg).2)

/-- What a decoder returns when the document is made of what it reads. -/
def decoded (e : Succeeds) (parse : Doc → M → UInt32 × M) (msg : M) (doc : Doc) : UInt32 × M :=
  if e.pipe then if e.write then converted parse msg doc else (2, msg) else (1, msg)

/-- The document that is in the buffer, if it can be read. -/
def document (e : Succeeds) (read : List UInt8 → Doc) (buf : CString) : Doc :=
  if e.readAll then read buf.bytes else none

theorem handle_readAll_fails {fd : Nat} (h : e.readAll = false) : (handle (.readAll fd) e s).1 = none := by
  simp [handle, h]

theorem handle_readAll_unused {fd : Nat} (h : s.table.file fd = none) : (handle (.readAll fd) e s).1 = none := by
  simp [handle, h]

/-- From the pipe it is the document in the buffer. -/
theorem parseFromFd_decoded :
    ((bufToMsgParseFromFd read parse msg buf).run handle (fun _ => e) s).1 =
      decoded e parse msg (document e read buf) := by
  cases hall : e.readAll with
  | true =>
    rw [parseFromFd_result hall, document, if_pos hall]
    rfl
  | false =>
    rw [bufToMsgParseFromFd, decoded]
    cases hpipe : e.pipe with
    | false => simp [handle_pipe_fails hpipe]
    | true =>
      simp only [pipe_bind, write_bind, Prog.run_call, handle_pipe hpipe, handle_write (pipe_end s)]
      cases hput : e.write with
      | false => simp
      | true => simp [handle_readAll_fails hall, document, hall, converted]

/-- The end of a pipe that was put in the place of the standard input. -/
theorem replaced_reads (hin : s.table.file 0 ≠ none) (hput : e.write = true) :
    let s₁ := (handle (.dup2 (some s.readFd) 0) e
      (handle (.close (some 0)) e (handle (.write s.writeFd buf.bytes) e s.pipe).2).2).2
    (handle (.readAll 0) e (handle (.close (some s.writeFd)) e s₁).2).1 =
      if e.readAll then some buf.bytes else none := by
  intro s₁
  obtain ⟨hread, hwrite, hne⟩ := pipe_unused s
  have hfile := file_pipe s
  have hends : s.readFd ≠ 0 ∧ s.writeFd ≠ 0 := ⟨fun h => hin (h ▸ hread), fun h => hin (h ▸ hwrite)⟩
  have hstdin : (handle (.close (some s.writeFd)) e s₁).2.table.file 0 = some (.readEnd s.made) := by
    rw [close_table, Table.file_close, if_neg hends.2.symm, dup2_table, close_table, write_table,
      Table.file_replace hends.1 (by grind), if_pos rfl]
    grind
  have hcontent : (handle (.close (some s.writeFd)) e s₁).2.pipes s.made = buf.bytes := by
    rw [close_pipes, dup2_pipes, close_pipes, write_pipes (pipe_end s) hput, Process.pipe_empty, List.nil_append]
  cases hall : e.readAll with
  | true => rw [handle_readAll hstdin hall, hcontent, if_pos rfl]
  | false => rw [handle_readAll_fails hall, if_neg (by simp)]

/-- Without a standard input the end of the pipe has its number, and is closed. -/
theorem replaced_lost (hin : s.table.file 0 = none) :
    let s₁ := (handle (.dup2 (some s.readFd) 0) e
      (handle (.close (some 0)) e (handle (.write s.writeFd buf.bytes) e s.pipe).2).2).2
    (handle (.readAll 0) e (handle (.close (some s.writeFd)) e s₁).2).1 = none := by
  intro s₁
  have hread : s.readFd = 0 := (Nat.find_eq_zero _).mpr hin
  apply handle_readAll_unused
  rw [close_table, Table.file_close, dup2_table, close_table, write_table, hread, Table.file_dup2, Table.file_close]
  simp

/-- What is read from the standard input. -/
theorem bufToMsg_decoded :
    ((bufToMsg read parse msg buf).run handle (fun _ => e) s).1 =
      decoded e parse msg (if s.table.file 0 = none then none else document e read buf) := by
  rw [bufToMsg, decoded]
  -- the duplicate leaves what is used, and what is not used at 0
  have hdup : (s.table.file 0 = none ↔ (handle (.dup 0) e s).2.table.file 0 = none) := by
    by_cases hin : s.table.file 0 = none
    · simp [handle, hin]
    · rw [dup_file hin]
  simp only [dup_bind, pipe_bind, Prog.run_call]
  generalize handle (.dup 0) e s = r at hdup ⊢
  obtain ⟨backUp, s'⟩ := r
  cases hpipe : e.pipe with
  | false => simp [handle_pipe_fails hpipe]
  | true =>
    simp only [handle_pipe hpipe, write_bind, Prog.run_call, handle_write (pipe_end s')]
    cases hput : e.write with
    | false => simp
    | true =>
      simp only [if_true, close_bind, dup2_bind, readAll_bind, Prog.run_call, Prog.pure_eq, Prog.run_ret]
      by_cases hin : s.table.file 0 = none
      · rw [replaced_lost (hdup.mp hin), if_pos hin]
        rfl
      · rw [replaced_reads (fun h => hin (hdup.mpr h)) hput, if_neg hin, document]
        cases e.readAll <;> rfl

/-- Both decoders return the same just when they see the same document, or see none. -/
theorem decoded_eq_iff {doc : Doc} : decoded e parse msg none = decoded e parse msg doc ↔
    e.pipe = false ∨ e.write = false ∨ converted parse msg none = converted parse msg doc := by
  unfold decoded
  cases e.pipe <;> cases e.write <;> simp

end Results

/-- Two programs return the same, or neither returns. -/
def SameResult {R : Type} (e : Succeeds) (s : Process) (p q : Program R) : Prop := ∀ r, Gives e s p r ↔ Gives e s q r

theorem sameResult_iff {R : Type} {s : Process} {e : Succeeds} {p q : Program R}
    (h : p.Answered Waits handle (fun _ => e) s ↔ q.Answered Waits handle (fun _ => e) s) :
    SameResult e s p q ↔ (q.Answered Waits handle (fun _ => e) s →
      (p.run handle (fun _ => e) s).1 = (q.run handle (fun _ => e) s).1) := by
  simp only [SameResult, gives_iff, h]
  constructor
  · intro hsame hanswered
    exact ((hsame _).mpr ⟨hanswered, rfl⟩).2
  · intro hsame r
    exact and_congr_right fun hanswered => by rw [hsame hanswered]

theorem bufToMsg_same {s : Process} {e : Succeeds} {M : Type} {read : List UInt8 → Doc}
    {parse : Doc → M → UInt32 × M} {msg : M} {buf : CString} :
    SameResult e s (bufToMsg read parse msg buf) (bufToMsgParseFromFd read parse msg buf) ↔
      s.table.file 0 ≠ none ∨ e.pipe = false ∨ e.write = false ∨ e.capacity < buf.bytes.length ∨
        converted parse msg none = converted parse msg (document e read buf) := by
  rw [sameResult_iff (by rw [bufToMsg_answered, parseFromFd_answered]), parseFromFd_answered, bufToMsg_decoded,
    parseFromFd_decoded]
  by_cases hin : s.table.file 0 = none
  · rw [if_pos hin, decoded_eq_iff, ← Nat.not_le]
    simp only [hin, ne_eq, not_true_eq_false, false_or]
    tauto
  · rw [if_neg hin]
    simp [hin]

/-! ### Messages and replies -/

/-- No document is a message. -/
theorem converted_sock {mem : Nat → UInt8} {doc : Doc} :
    converted parseSockDoc mem none = converted parseSockDoc mem doc ↔
      (parseSockDoc doc mem).1 ≠ 0 ∧ (parseSockDoc doc mem).2 = mem := by
  have hnone : converted parseSockDoc mem none = (3, mem) := rfl
  rw [hnone, converted]
  by_cases h : (parseSockDoc doc mem).1 = 0
  · simp [h]
  · simp [h, eq_comm]

/-- A document that is no reply leaves what there is of one. -/
theorem parseRplDoc_kept {doc : Doc} {rplMsg : RplMsg} (h : (parseRplDoc doc rplMsg).1 ≠ 0) :
    (parseRplDoc doc rplMsg).2 = rplMsg := by
  rw [parseRplDoc_eq] at h ⊢
  match doc with
  | none | some none => rfl
  | some (some root) =>
    by_cases hroot : root.name = xmlRplMsgRoot
    · simp only [if_pos hroot] at h ⊢
      cases hfirst : first root.children xmlRplMsgErr with
      | none => rfl
      | some err =>
        rw [hfirst] at h
        exact absurd rfl h
    · simp only [if_neg hroot]

theorem converted_rpl {rplMsg : RplMsg} {doc : Doc} :
    converted parseRplDoc rplMsg none = converted parseRplDoc rplMsg doc ↔ (parseRplDoc doc rplMsg).1 ≠ 0 := by
  have hnone : converted parseRplDoc rplMsg none = (3, rplMsg) := rfl
  rw [hnone, converted]
  by_cases h : (parseRplDoc doc rplMsg).1 = 0
  · simp [h]
  · simp [h, parseRplDoc_kept h]

/-- **Both decoders of a message agree**, when libxml2 makes the same of a file and of a
descriptor, unless there is no standard input, the pipe is made and the text is written to it, and
that is a document that is one, or for a message one that stores anything. The buffer of the
standard input is empty before, and its end was not seen. -/
theorem decoders_agree (s : Process) (e : Succeeds) (read : List UInt8 → Doc) (mem : Nat → UInt8) (rplMsg : RplMsg)
    (text : CString) :
    (SameResult e s (bufToSockMsg read mem text) (bufToSockMsgParseFromFd read mem text) ↔
      s.table.file 0 ≠ none ∨ e.pipe = false ∨ e.write = false ∨ e.capacity < text.bytes.length ∨
        (parseSockDoc (document e read text) mem).1 ≠ 0 ∧ (parseSockDoc (document e read text) mem).2 = mem) ∧
    (SameResult e s (bufToRplMsg read rplMsg text) (bufToRplMsgParseFromFd read rplMsg text) ↔
      s.table.file 0 ≠ none ∨ e.pipe = false ∨ e.write = false ∨ e.capacity < text.bytes.length ∨
        (parseRplDoc (document e read text) rplMsg).1 ≠ 0) := by
  constructor
  · rw [bufToSockMsg, bufToSockMsgParseFromFd, bufToMsg_same, converted_sock]
  · rw [bufToRplMsg, bufToRplMsgParseFromFd, bufToMsg_same, converted_rpl]

end CacheFs.Xml.Redirect
