import CacheFs.Xml.Replies
import CacheFs.Xml.RoundTrip

/-! Whether a reply comes back from its document.

A reply is one byte, and its document always fits the buffer. A zero byte makes an
empty element, which is read as a zero byte again; of the printable ones only `&` is
lost, for it begins a reference. As with a message, nothing may be pending on the
standard output (`reply_round_trip`). -/
namespace CacheFs.Xml
open CacheFs.Namespace (CString)

/-- `RPL_OK`. -/
def rplOk : UInt8 := 71

/-- `RPL_ERR_UNLINK`, `RPL_ERR_TRUNC`, `RPL_ERR_UPDATE_REP`, `RPL_ERR_REMOVE_REP` and
`RPL_ERR_UNDEFINED_MSG_TYPE`. -/
def rplErrs : List UInt8 := ascii "HIJKL"

/-- `rpl_msg_to_buf`, with what is pending on the standard output, and whether `pipe` and `read`
succeed. -/
def rplMsgToBuf (lib : Libxml2) (pending : List UInt8) (pipe read : Bool) (rplMsg : RplMsg) {bufsiz : Nat}
    (buf : Field bufsiz) : UInt32 × Field bufsiz :=
  if !pipe then (1, buf)
  else
    let buf := bzero bufsiz
    if !read then (2, buf) else (0, readInto buf (pending ++ rplMsgToXml lib rplMsg))

/-- `buf_to_rpl_msg_parse_from_fd`, with whether `pipe` and `write` succeed. -/
def bufToRplMsgParseFromFd (lib : Libxml2) (pipe write : Bool) (rplMsg : RplMsg) {bufsiz : Nat} (buf : Field bufsiz) :
    Option (UInt32 × RplMsg) :=
  if !pipe then some (1, rplMsg)
  else do
    let xml ← string buf.bytes
    if !write then return (2, rplMsg)
    let (r, rplMsg) := parseRplDoc (lib.readFd xml.bytes) rplMsg
    return (if r ≠ 0 then 3 else 0, rplMsg)

/-- The reply is encoded into a complete document with a terminator in the buffer, which is
decoded to the same reply. -/
def ReplyRoundTrip (lib : Libxml2) (pending : List UInt8) (rplMsg : RplMsg) : Prop :=
  ∀ (stale : Field xmlBufsz) (old : RplMsg), ∃ buf,
    rplMsgToBuf lib pending true true rplMsg stale = (0, buf) ∧
    (string buf.bytes).map CString.bytes = some (rplMsgToXml lib rplMsg) ∧
    bufToRplMsgParseFromFd lib true true old buf = some (0, rplMsg)

section Reply
variable {lib : Libxml2} {err : UInt8}

/-- A zero byte, or a printable one. -/
def Letter (err : UInt8) : Prop := err = 0 ∨ 32 ≤ err.toNat ∧ err.toNat ≤ 126

instance : Decidable (Letter err) := inferInstanceAs (Decidable (_ ∨ _))

theorem u8ToStr_bytes : (u8ToStr err).bytes = if err = 0 then [] else [err] := by
  by_cases h : err = 0 <;> simp [u8ToStr, h]

theorem u8ToStr_head : (u8ToStr err).bytes.head?.getD 0 = err := by
  rw [u8ToStr_bytes]
  split
  · rename_i h
    exact h.symm
  · rfl

theorem u8ToStr_printable (h : Letter err) : Printable (u8ToStr err) := by
  intro c hc
  rw [u8ToStr_bytes] at hc
  split at hc
  · cases hc
  · rename_i hne
    rw [List.mem_singleton.mp hc]
    exact h.resolve_left hne

theorem ampersand_mem : 38 ∈ (u8ToStr err).bytes ↔ err = 38 := by
  rw [u8ToStr_bytes]
  split
  · rename_i h
    simp [h]
  · simp [eq_comm]

theorem u8ToStr_length_le (err : UInt8) : (u8ToStr err).bytes.length ≤ 1 := by
  rw [u8ToStr_bytes]
  split <;> simp

theorem escape_u8ToStr_length (err : UInt8) : (escape (u8ToStr err).bytes).length ≤ 5 := by
  have hescape := escape_length_le (u8ToStr err).bytes
  have hone := u8ToStr_length_le err
  omega

theorem rplName : ElementName xmlRplMsgRoot ∧ ElementName xmlRplMsgErr := by
  have hall : ∀ name ∈ [xmlRplMsgRoot, xmlRplMsgErr], name ≠ [] ∧ name ≠ ascii "text" ∧
      (name.all fun c => decide (97 ≤ c.toNat ∧ c.toNat ≤ 122 ∨ c = 95)) = true := by decide
  have hname {name : List UInt8} (h : name ∈ [xmlRplMsgRoot, xmlRplMsgErr]) : ElementName name := by
    obtain ⟨hne, htext, hchars⟩ := hall name h
    exact ⟨hne, htext, by simpa only [List.all_eq_true, decide_eq_true_eq] using hchars⟩
  exact ⟨hname (by simp), hname (by simp)⟩

/-- The document of a reply, but for one of `&`. -/
theorem rplMsgToXml_eq (hlib : lib.Documented) (h : Letter err) (hne : err ≠ 38) :
    rplMsgToXml lib ⟨err⟩ = layout lib.emptyTag xmlRplMsgRoot [(xmlRplMsgErr, u8ToStr err)] := by
  refine hlib.saves _ _ rplName.1 (by simp) ?_
  simp [rplName, u8ToStr_printable h, mt ampersand_mem.mp hne]

theorem rplMsgToXml_length (hlib : lib.Documented) (h : Letter err) (hne : err ≠ 38) :
    (rplMsgToXml lib ⟨err⟩).length < xmlBufsz := by
  rw [rplMsgToXml_eq hlib h hne]
  have hroot : (ascii "<?xml version=\"1.0\" encoding=\"UTF-8\"?>\n<" ++ xmlRplMsgRoot ++ ascii ">\n").length = 49 := by
    simp [xmlRplMsgRoot, ascii]
  have hend : (ascii "</" ++ xmlRplMsgRoot ++ ascii ">\n").length = 11 := by
    simp [xmlRplMsgRoot, ascii]
  have hline : (line lib.emptyTag xmlRplMsgErr (u8ToStr err).bytes).length ≤ 19 := by
    rw [line]
    split
    · simp [xmlRplMsgErr, ascii]
    · have := escape_u8ToStr_length err
      simp [xmlRplMsgErr, ascii]
      omega
  simp only [List.length_append] at hroot hend
  simp only [layout, List.flatMap_cons, List.flatMap_nil, List.length_append, List.length_nil, xmlBufsz]
  omega

/-- What the decoder makes of the whole document of a reply. -/
theorem parseRplDoc_saved (hlib : lib.Documented) (h : Letter err) (old : RplMsg) :
    parseRplDoc (lib.readFd (rplMsgToXml lib ⟨err⟩)) old =
      (0, ⟨(lib.nodeGetContent (lib.newChild (u8ToStr err))).bytes.headD 0⟩) := by
  obtain ⟨nodes, hread, helements⟩ := hlib.reads xmlRplMsgRoot [(xmlRplMsgErr, u8ToStr err)] rplName.1
    (by simp [rplName, u8ToStr_printable h])
  have hfirst : first nodes xmlRplMsgErr = some (lib.nodeGetContent (lib.newChild (u8ToStr err))) := by
    rw [first_elements rplName.2.2.1, helements]
    simp [first]
  rw [rplMsgToXml, hread, parseRplDoc_eq]
  simp only [hfirst, if_true]

theorem zero_not_mem_rplMsgToXml (hlib : lib.Documented) (h : Letter err) (hne : err ≠ 38) :
    0 ∉ rplMsgToXml lib ⟨err⟩ := by
  rw [rplMsgToXml_eq hlib h hne]
  have hname : 0 ∉ xmlRplMsgErr := by decide
  exact zero_not_mem_layout (by decide) (by simp [hname])

theorem replyRoundTrip (hlib : lib.Documented) (h : Letter err) (hne : err ≠ 38) : ReplyRoundTrip lib [] ⟨err⟩ := by
  intro stale old
  have hbuf := string_readInto (zero_not_mem_rplMsgToXml hlib h hne) (rplMsgToXml_length hlib h hne)
  refine ⟨_, rfl, by rw [List.nil_append, hbuf]; rfl, ?_⟩
  rw [List.nil_append]
  simp [bufToRplMsgParseFromFd, hbuf, parseRplDoc_saved hlib h, hlib.text _ (mt ampersand_mem.mp hne), u8ToStr_head]

/-- **A reply comes back** just when it is not an `&` and nothing is pending on the standard
output. -/
theorem reply_round_trip (hlib : lib.Documented) (h : Letter err) (pending : CString) :
    ReplyRoundTrip lib pending.bytes ⟨err⟩ ↔ err ≠ 38 ∧ pending.bytes = [] := by
  constructor
  · intro htrip
    obtain ⟨buf, hbuf, hstring, hdecode⟩ := htrip ⟨List.replicate xmlBufsz 0, List.length_replicate⟩ ⟨err + 1⟩
    have hne : err ≠ 38 := by
      rintro rfl
      obtain ⟨s, hs, hbytes⟩ := Option.map_eq_some_iff.mp hstring
      -- the element of `&` has no text
      have hshort := hlib.reference (u8ToStr 38) (ampersand_mem.mpr rfl)
      have hone := u8ToStr_length_le 38
      have hempty : (lib.nodeGetContent (lib.newChild (u8ToStr 38))).bytes = [] :=
        List.eq_nil_of_length_eq_zero (by omega)
      simp [bufToRplMsgParseFromFd, hs, hbytes, parseRplDoc_saved hlib h, hempty] at hdecode
    have hread : readInto (bzero xmlBufsz) (pending.bytes ++ rplMsgToXml lib ⟨err⟩) = buf := congrArg Prod.snd hbuf
    rw [← hread] at hstring
    exact ⟨hne, (string_readInto_append (zero_not_mem_rplMsgToXml hlib h hne) hstring).1⟩
  · intro hcond
    rw [hcond.2]
    exact replyRoundTrip hlib h hcond.1

/-- `RPL_OK` comes back, and an `&` does not. -/
theorem reply_round_trip_ok : ∃ lib : Libxml2, lib.Documented ∧ ReplyRoundTrip lib [] ⟨rplOk⟩ ∧
    ¬ ReplyRoundTrip lib [] ⟨38⟩ :=
  ⟨linesLib, linesLib_documented, (reply_round_trip linesLib_documented (by decide) ⟨[], by decide⟩).mpr ⟨by decide, rfl⟩,
    fun h => ((reply_round_trip linesLib_documented (by decide) ⟨[], by decide⟩).mp h).1 rfl⟩

/-- The codes of `sn_sckt.h` come back. -/
example (hlib : lib.Documented) : ∀ err ∈ rplOk :: rplErrs, ReplyRoundTrip lib [] ⟨err⟩ := by
  have hall : ∀ err ∈ rplOk :: rplErrs, Letter err ∧ err ≠ 38 := forall_of_all (by decide)
  exact fun err herr => replyRoundTrip hlib (hall err herr).1 (hall err herr).2

end Reply

end CacheFs.Xml
