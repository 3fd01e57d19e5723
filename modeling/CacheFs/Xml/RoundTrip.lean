import CacheFs.Xml.Accepts
import CacheFs.Xml.Lines

/-! Whether a message comes back from its document.

A document of 1024 bytes or more fills the buffer and is cut there, with no terminator
behind it; each `<` and `>` of a name takes four of these bytes. Of a name with an `&` in
it something else is saved, an address may be too long for its field, and what was
printed and not yet written out comes before the document. Every other message comes
back (`round_trip`). -/
namespace CacheFs.Xml
open CacheFs.Namespace (CString)

/-- The message is encoded into a complete document with a terminator in the buffer, which is
decoded to the same message. -/
def RoundTrip (lib : Libxml2) (pending : List UInt8) (msg : SockMsg) : Prop :=
  ∀ (stale : Field xmlBufsz) (old : SockMsg), ∃ xml buf msg',
    sockMsgToXml lib msg = some xml ∧ sockMsgToBuf lib pending true true msg stale = some (0, buf) ∧
    (string buf.bytes).map CString.bytes = some xml ∧
    bufToSockMsgParseFromFd lib true true old buf = some (0, msg') ∧
    ∀ t, msg'.value t = msg.value t

/-- A message of this type with these strings. -/
structure SockMsg.Holds (msg : SockMsg) (type : UInt8) (destIp fileName : CString) : Prop where
  type : msg.type = type
  destIp : string msg.destIp.bytes = some destIp
  fileName : string msg.fileName.bytes = some fileName

/-- There is a message with these strings, and each comes back. -/
def ComesBack (lib : Libxml2) (pending : CString) (type : UInt8) (destIp fileName : CString) : Prop :=
  (∃ msg : SockMsg, msg.Holds type destIp fileName) ∧
    ∀ msg : SockMsg, msg.Holds type destIp fileName → RoundTrip lib pending.bytes msg

/-- How long the document of a message with this address and this file name is. -/
def savedLength (emptyTag : Bool) (destIp fileName : List UInt8) : Nat :=
  127 + (escape destIp).length + (escape fileName).length -
    ((if destIp = [] ∧ emptyTag then 9 else 0) + if fileName = [] ∧ emptyTag then 11 else 0)

section Strings
variable {buf : List UInt8} {s : CString}

theorem string_eq_some : string buf = some s ↔ 0 ∈ buf ∧ buf.takeWhile (· ≠ 0) = s.bytes := by
  obtain ⟨bytes, hbytes⟩ := s
  rw [string]
  split
  · rename_i h
    simp [h]
  · rename_i h
    simp [h]

/-- A terminated string is shorter than its array. -/
theorem string_length (h : string buf = some s) : s.bytes.length < buf.length := by
  obtain ⟨hzero, htake⟩ := string_eq_some.mp h
  rw [← htake]
  refine lt_of_le_of_ne (List.takeWhile_prefix _).length_le fun hlen => ?_
  have hall := List.takeWhile_eq_self_iff.mp ((List.takeWhile_prefix _).eq_of_length hlen)
  simpa using hall 0 hzero

theorem forall_of_all {text : List UInt8} {p : UInt8 → Prop} [DecidablePred p]
    (h : (text.all fun c => decide (p c)) = true) : ∀ c ∈ text, p c := by
  simpa only [List.all_eq_true, decide_eq_true_eq] using h

theorem printable_of_all (h : (s.bytes.all fun c => decide (32 ≤ c.toNat ∧ c.toNat ≤ 126)) = true) : Printable s :=
  forall_of_all h

theorem string_append (s : CString) (rest : List UInt8) : string (s.bytes ++ 0 :: rest) = some s := by
  rw [string_eq_some, List.takeWhile_append_of_pos fun c hc => by simpa using ne_of_mem_of_not_mem hc s.terminated]
  simp

end Strings

/-! ### The document -/

section Layout
variable {emptyTag : Bool} {type destIp fileName : CString}

theorem layout_length (htype : type.bytes.length = 1) (hplain : escape type.bytes = type.bytes) :
    (layout emptyTag xmlSockMsgRoot [(xmlSockMsgType, type), (xmlSockMsgDstIp, destIp), (xmlSockMsgFn, fileName)]).length =
      savedLength emptyTag destIp.bytes fileName.bytes := by
  have hne : type.bytes ≠ [] := by
    intro h
    rw [h] at htype
    cases htype
  have hline : (line emptyTag xmlSockMsgType type.bytes).length = 17 := by
    simp [line, hne, hplain, htype, xmlSockMsgType, ascii]
  have hip : (line emptyTag xmlSockMsgDstIp destIp.bytes).length =
      22 + (escape destIp.bytes).length - if destIp.bytes = [] ∧ emptyTag then 9 else 0 := by
    rw [line]
    split
    · rename_i h
      simp [h.1, escape, xmlSockMsgDstIp, ascii]
    · simp [xmlSockMsgDstIp, ascii]
      omega
  have hfn : (line emptyTag xmlSockMsgFn fileName.bytes).length =
      26 + (escape fileName.bytes).length - if fileName.bytes = [] ∧ emptyTag then 11 else 0 := by
    rw [line]
    split
    · rename_i h
      simp [h.1, escape, xmlSockMsgFn, ascii]
    · simp [xmlSockMsgFn, ascii]
      omega
  have hroot : (ascii "<?xml version=\"1.0\" encoding=\"UTF-8\"?>\n<" ++ xmlSockMsgRoot ++ ascii ">\n").length = 50 := by
    simp [xmlSockMsgRoot, ascii]
  have hend : (ascii "</" ++ xmlSockMsgRoot ++ ascii ">\n").length = 12 := by
    simp [xmlSockMsgRoot, ascii]
  simp only [List.length_append] at hroot hend
  simp only [layout, List.flatMap_cons, List.flatMap_nil, List.length_append, hline, hip, hfn, List.length_nil, savedLength]
  split <;> split <;> omega

theorem escape_length_le (text : List UInt8) : (escape text).length ≤ 5 * text.length := by
  induction text with
  | nil => exact Nat.le_refl 0
  | cons c text ih =>
    have hchar : (escapeChar c).length ≤ 5 := by
      unfold escapeChar
      split
      · decide
      split
      · decide
      split
      · decide
      · simp
    rw [escape] at ih ⊢
    rw [List.flatMap_cons, List.length_append, List.length_cons]
    omega

theorem zero_not_mem_escape {s : CString} : 0 ∉ escape s.bytes := by
  intro h
  obtain ⟨c, hc, hmem⟩ := List.mem_flatMap.mp h
  rw [escapeChar] at hmem
  split at hmem
  · exact absurd hmem (by decide)
  split at hmem
  · exact absurd hmem (by decide)
  split at hmem
  · exact absurd hmem (by decide)
  · rw [List.mem_singleton] at hmem
    exact s.terminated (hmem ▸ hc)

theorem zero_not_mem_line {name : List UInt8} (hname : 0 ∉ name) (s : CString) : 0 ∉ line emptyTag name s.bytes := by
  have hliterals : 0 ∉ ascii "  <" ∧ 0 ∉ ascii "/>\n" ∧ 0 ∉ ascii ">" ∧ 0 ∉ ascii "</" ∧ 0 ∉ ascii ">\n" := by decide
  rw [line]
  split <;> simp [hliterals, hname, zero_not_mem_escape]

/-- There is no terminator in the document. -/
theorem zero_not_mem_layout {name : List UInt8} (hname : 0 ∉ name) {children : List (List UInt8 × CString)}
    (hchildren : ∀ c ∈ children, 0 ∉ c.1) : 0 ∉ layout emptyTag name children := by
  have hliterals : 0 ∉ ascii "<?xml version=\"1.0\" encoding=\"UTF-8\"?>\n<" ∧ 0 ∉ ascii ">\n" ∧ 0 ∉ ascii "</" := by decide
  simp only [layout, List.mem_append, hname, hliterals, List.mem_flatMap, false_or, or_false]
  rintro ⟨c, hc, hline⟩
  exact zero_not_mem_line (hchildren c hc) c.2 hline

end Layout

/-! ### Reading it -/

section Read
variable {lib : Libxml2} {msg : SockMsg} {destIp fileName : CString}

/-- What is saved for a message. -/
def saved (lib : Libxml2) (type : UInt8) (destIp fileName : CString) : List UInt8 :=
  lib.saveFormatFileEnc (lib.tree xmlSockMsgRoot
    [(xmlSockMsgType, u8ToStr type), (xmlSockMsgDstIp, destIp), (xmlSockMsgFn, fileName)])

theorem sockMsgToXml_eq (hip : string msg.destIp.bytes = some destIp) (hfn : string msg.fileName.bytes = some fileName) :
    sockMsgToXml lib msg = some (saved lib msg.type destIp fileName) := by
  rw [sockMsgToXml, hip, hfn]
  rfl

/-- A type is one letter that is saved as it is. -/
theorem type_spec {type : UInt8} (htype : type ∈ sockmsgTypes) :
    (u8ToStr type).bytes = [type] ∧ Printable (u8ToStr type) ∧ 38 ∉ (u8ToStr type).bytes ∧ escape [type] = [type] := by
  have hcases : type = 77 ∨ type = 78 ∨ type = 79 ∨ type = 80 := by
    simpa [sockmsgTypes, ascii] using htype
  obtain rfl | rfl | rfl | rfl := hcases <;> refine ⟨by decide, ?_, by decide, by decide⟩ <;>
    · intro c hc
      obtain rfl : c = _ := by simpa [u8ToStr] using hc
      decide

/-- The element names of a message are names of elements. -/
theorem elementName_of_mem {name : List UInt8}
    (h : name ∈ [xmlSockMsgRoot, xmlSockMsgType, xmlSockMsgDstIp, xmlSockMsgFn]) : ElementName name := by
  have hall : ∀ name ∈ [xmlSockMsgRoot, xmlSockMsgType, xmlSockMsgDstIp, xmlSockMsgFn], name ≠ [] ∧ name ≠ ascii "text" ∧
      (name.all fun c => decide (97 ≤ c.toNat ∧ c.toNat ≤ 122 ∨ c = 95)) = true := by decide
  obtain ⟨hne, htext, hchars⟩ := hall name h
  exact ⟨hne, htext, by simpa only [List.all_eq_true, decide_eq_true_eq] using hchars⟩

/-- The first node of an element's name among elements and text nodes. -/
theorem first_elements {nodes : List Node} {name : List UInt8} (hname : name ≠ ascii "text") :
    first nodes name = first (nodes.filter (·.name ≠ ascii "text")) name := by
  rw [first, first, List.find?_filter]
  congr 2
  funext n
  by_cases h : n.name = name <;> simp [h, hname]

section Elements
variable {nodes : List Node} {a b c : CString}

/-- Each field is that of its element. -/
theorem first_of_elements (h : nodes.filter (·.name ≠ ascii "text") =
    [⟨xmlSockMsgType, a⟩, ⟨xmlSockMsgDstIp, b⟩, ⟨xmlSockMsgFn, c⟩]) :
    first nodes xmlSockMsgType = some a ∧ first nodes xmlSockMsgDstIp = some b ∧ first nodes xmlSockMsgFn = some c := by
  have hnames : xmlSockMsgType ≠ ascii "text" ∧ xmlSockMsgDstIp ≠ ascii "text" ∧ xmlSockMsgFn ≠ ascii "text" := by decide
  have hother : xmlSockMsgType ≠ xmlSockMsgDstIp ∧ xmlSockMsgType ≠ xmlSockMsgFn ∧ xmlSockMsgDstIp ≠ xmlSockMsgFn := by
    decide
  rw [first_elements hnames.1, first_elements hnames.2.1, first_elements hnames.2.2, h]
  simp [first, hother]

theorem fits_of_elements (h : nodes.filter (·.name ≠ ascii "text") =
      [⟨xmlSockMsgType, a⟩, ⟨xmlSockMsgDstIp, b⟩, ⟨xmlSockMsgFn, c⟩])
    (hb : b.bytes.length < inetAddrstrlen) (hc : c.bytes.length < filePathLen) :
    Fits (some (some ⟨xmlSockMsgRoot, nodes⟩)) := by
  intro root hroot n hn
  cases hroot
  have hnames : xmlSockMsgDstIp ≠ ascii "text" ∧ xmlSockMsgFn ≠ ascii "text" := by decide
  have hother : xmlSockMsgDstIp ≠ xmlSockMsgType ∧ xmlSockMsgFn ≠ xmlSockMsgType ∧ xmlSockMsgFn ≠ xmlSockMsgDstIp := by
    decide
  have hmem (hname : n.name ≠ ascii "text") := h ▸ List.mem_filter_of_mem hn (decide_eq_true hname)
  simp only [List.mem_cons, List.not_mem_nil, or_false] at hmem
  refine ⟨fun hname => ?_, fun hname => ?_⟩
  · obtain rfl | rfl | rfl := hmem (hname ▸ hnames.1)
    · exact absurd hname hother.1.symm
    · exact hb
    · exact absurd hname hother.2.2
  · obtain rfl | rfl | rfl := hmem (hname ▸ hnames.2)
    · exact absurd hname hother.2.1.symm
    · exact absurd hname hother.2.2.symm
    · exact hc

end Elements

theorem content_le (hlib : lib.Documented) (s : CString) :
    (lib.nodeGetContent (lib.newChild s)).bytes.length ≤ s.bytes.length := by
  by_cases h : 38 ∈ s.bytes
  · exact (hlib.reference s h).le
  · rw [hlib.text s h]

/-- Any document that is made of a message is decoded to what libxml2 has under its elements. -/
theorem decode_saved (hlib : lib.Documented) {type : UInt8} (htype : type ∈ sockmsgTypes) (hip : Printable destIp)
    (hfn : Printable fileName) (hiplen : destIp.bytes.length < inetAddrstrlen)
    (hfnlen : fileName.bytes.length < filePathLen) (old : SockMsg) :
    ∃ msg', xmlToSockMsgParseFromFd lib.readFd (saved lib type destIp fileName) old = some (0, msg') ∧
      msg'.value .type = some [type] ∧
      msg'.value .destIp = some (lib.nodeGetContent (lib.newChild destIp)).bytes ∧
      msg'.value .fileName = some (lib.nodeGetContent (lib.newChild fileName)).bytes := by
  obtain ⟨htypeBytes, htypePrint, htypePlain, -⟩ := type_spec htype
  obtain ⟨nodes, hread, helements⟩ := hlib.reads xmlSockMsgRoot
    [(xmlSockMsgType, u8ToStr type), (xmlSockMsgDstIp, destIp), (xmlSockMsgFn, fileName)]
    (elementName_of_mem (by simp)) (by simp [elementName_of_mem, htypePrint, hip, hfn])
  simp only [List.map_cons, List.map_nil, hlib.text _ htypePlain] at helements
  obtain ⟨hfirstType, hfirstIp, hfirstFn⟩ := first_of_elements helements
  have hdecoded := parseDoc_decoded (fits_of_elements helements ((content_le hlib destIp).trans_lt hiplen)
    ((content_le hlib fileName).trans_lt hfnlen)) old
  have haccepted : Accepted (some (some ⟨xmlSockMsgRoot, nodes⟩)) := by
    refine accepted_iff.mpr ⟨rfl, fun t => ?_⟩
    cases t with
    | type => exact Option.isSome_of_eq_some hfirstType
    | destIp => exact Option.isSome_of_eq_some hfirstIp
    | fileName => exact Option.isSome_of_eq_some hfirstFn
  obtain ⟨msg', _, hresult, ⟨⟩, ⟨s, hs, htype'⟩, ⟨s', hs', hip'⟩, ⟨s'', hs'', hfn'⟩⟩ := hdecoded.accepts haccepted
  cases hfirstType.symm.trans hs
  cases hfirstIp.symm.trans hs'
  cases hfirstFn.symm.trans hs''
  refine ⟨msg', ?_, ?_, hip', hfn'⟩
  · rw [xmlToSockMsgParseFromFd, saved, hread, hresult]
  · simp [SockMsg.value, htype', htypeBytes]

end Read

/-! ### Through the buffer -/

section Buffer
variable {lib : Libxml2} {msg : SockMsg} {destIp fileName : CString} {bufsiz : Nat}

/-- What is read into a cleared buffer with room behind it is terminated there. -/
theorem string_readInto {xml : List UInt8} (hzero : 0 ∉ xml) (hlen : xml.length < bufsiz) :
    string (readInto (bzero bufsiz) xml).bytes = some ⟨xml, hzero⟩ := by
  obtain ⟨room, hroom⟩ := Nat.exists_eq_add_of_lt hlen
  have hbytes : (readInto (bzero bufsiz) xml).bytes =
      xml ++ 0 :: List.replicate room 0 := by
    simp only [readInto, bzero, List.take_of_length_le hlen.le, List.drop_replicate]
    rw [hroom, ← List.replicate_succ]
    congr 2
    omega
  rw [hbytes]
  exact string_append ⟨xml, hzero⟩ _

/-- A message is decoded from a buffer with its whole document. -/
theorem bufToSockMsg_eq {buf : Field bufsiz} {s : CString} (hbuf : string buf.bytes = some s) {old msg' : SockMsg}
    (hdecode : xmlToSockMsgParseFromFd lib.readFd s.bytes old = some (0, msg')) :
    bufToSockMsgParseFromFd lib true true old buf = some (0, msg') := by
  simp [bufToSockMsgParseFromFd, hbuf, hdecode]

theorem SockMsg.value_string (hip : string msg.destIp.bytes = some destIp) (hfn : string msg.fileName.bytes = some fileName) :
    msg.value .type = some [msg.type] ∧ msg.value .destIp = some destIp.bytes ∧ msg.value .fileName = some fileName.bytes := by
  simp [value, hip, hfn]

/-- What is saved for a message without references. -/
theorem saved_eq (hlib : lib.Documented) {type : UInt8} (htype : type ∈ sockmsgTypes) (hip : Printable destIp)
    (hfn : Printable fileName) (hipPlain : 38 ∉ destIp.bytes) (hfnPlain : 38 ∉ fileName.bytes) :
    saved lib type destIp fileName = layout lib.emptyTag xmlSockMsgRoot
      [(xmlSockMsgType, u8ToStr type), (xmlSockMsgDstIp, destIp), (xmlSockMsgFn, fileName)] := by
  obtain ⟨-, htypePrint, htypePlain, -⟩ := type_spec htype
  refine hlib.saves _ _ (elementName_of_mem (by simp)) (by simp) ?_
  simp [elementName_of_mem, htypePrint, htypePlain, hip, hfn, hipPlain, hfnPlain]

theorem saved_length (hlib : lib.Documented) {type : UInt8} (htype : type ∈ sockmsgTypes) (hip : Printable destIp)
    (hfn : Printable fileName) (hipPlain : 38 ∉ destIp.bytes) (hfnPlain : 38 ∉ fileName.bytes) :
    (saved lib type destIp fileName).length = savedLength lib.emptyTag destIp.bytes fileName.bytes := by
  obtain ⟨htypeBytes, -, -, htypeEscape⟩ := type_spec htype
  rw [saved_eq hlib htype hip hfn hipPlain hfnPlain]
  exact layout_length (by rw [htypeBytes]; rfl) (by rw [htypeBytes, htypeEscape])

/-- A cleared buffer has just this document in it when it is what was read and there is room for a
terminator. -/
theorem string_readInto_append {pending : CString} {xml : List UInt8} (hxml : 0 ∉ xml)
    (h : (string (readInto (bzero bufsiz) (pending.bytes ++ xml)).bytes).map CString.bytes = some xml) :
    pending.bytes = [] ∧ xml.length < bufsiz := by
  obtain ⟨s, hs, hbytes⟩ := Option.map_eq_some_iff.mp h
  have hlen : s.bytes.length < bufsiz := (readInto (bzero bufsiz) _).size_eq ▸ string_length hs
  have hzero : 0 ∉ pending.bytes ++ xml := by simp [pending.terminated, hxml]
  rw [hbytes] at hlen
  refine ⟨?_, hlen⟩
  by_cases hfits : (pending.bytes ++ xml).length < bufsiz
  · rw [string_readInto hzero hfits] at hs
    cases hs
    exact List.append_left_eq_self.mp hbytes
  · -- the buffer is full of characters
    have hfull : (readInto (bzero bufsiz) (pending.bytes ++ xml)).bytes = (pending.bytes ++ xml).take bufsiz := by
      simp only [readInto, bzero, List.drop_replicate]
      rw [Nat.sub_eq_zero_of_le (by omega), List.replicate_zero, List.append_nil]
    obtain ⟨hmem, -⟩ := string_eq_some.mp hs
    rw [hfull] at hmem
    exact absurd (List.mem_of_mem_take hmem) hzero

end Buffer

section Message
variable {lib : Libxml2} {pending : CString} {type : UInt8} {destIp fileName : CString}

/-- A message comes back when neither name has an `&` in it, the document is shorter than the buffer,
and nothing comes before it. -/
theorem roundTrip_iff (hlib : lib.Documented) {msg : SockMsg} (hmsg : msg.Holds type destIp fileName)
    (htype : type ∈ sockmsgTypes) (hipPrint : Printable destIp) (hfnPrint : Printable fileName) :
    RoundTrip lib pending.bytes msg ↔ 38 ∉ destIp.bytes ∧ 38 ∉ fileName.bytes ∧
      savedLength lib.emptyTag destIp.bytes fileName.bytes < xmlBufsz ∧ pending.bytes = [] := by
  obtain ⟨rfl, hip, hfn⟩ := hmsg
  have hxml : sockMsgToXml lib msg = some (saved lib msg.type destIp fileName) := sockMsgToXml_eq hip hfn
  have hiplen : destIp.bytes.length < inetAddrstrlen := msg.destIp.size_eq ▸ string_length hip
  have hfnlen : fileName.bytes.length < filePathLen := msg.fileName.size_eq ▸ string_length hfn
  obtain ⟨hvalueType, hvalueIp, hvalueFn⟩ := SockMsg.value_string hip hfn
  have hzero (hipPlain : 38 ∉ destIp.bytes) (hfnPlain : 38 ∉ fileName.bytes) : 0 ∉ saved lib msg.type destIp fileName := by
    rw [saved_eq hlib htype hipPrint hfnPrint hipPlain hfnPlain]
    have hnames : 0 ∉ xmlSockMsgType ∧ 0 ∉ xmlSockMsgDstIp ∧ 0 ∉ xmlSockMsgFn := by decide
    exact zero_not_mem_layout (by decide) (by simp [hnames])
  constructor
  · intro h
    obtain ⟨xml, buf, msg', hxml', hbuf, hstring, hdecode, hvalue⟩ :=
      h ⟨List.replicate xmlBufsz 0, List.length_replicate⟩ msg
    cases hxml.symm.trans hxml'
    obtain ⟨s, hs, hbytes⟩ := Option.map_eq_some_iff.mp hstring
    obtain ⟨msg₁, hdecode₁, -, hip₁, hfn₁⟩ := decode_saved hlib htype hipPrint hfnPrint hiplen hfnlen msg
    rw [← hbytes] at hdecode₁
    cases (bufToSockMsg_eq hs hdecode₁).symm.trans hdecode
    -- a name that came back had no reference in it
    have hback {t : CString} (heq : (lib.nodeGetContent (lib.newChild t)).bytes = t.bytes) : 38 ∉ t.bytes := by
      intro hmem
      exact absurd (heq ▸ hlib.reference t hmem) (lt_irrefl _)
    have hipPlain := hback (Option.some.inj (hip₁.symm.trans ((hvalue .destIp).trans hvalueIp)))
    have hfnPlain := hback (Option.some.inj (hfn₁.symm.trans ((hvalue .fileName).trans hvalueFn)))
    simp only [sockMsgToBuf, hxml, Bool.not_true, Bool.false_eq_true, if_false, Option.bind_eq_bind, Option.bind_some,
      Option.pure_def, Option.some.injEq, Prod.mk.injEq, true_and] at hbuf
    rw [← hbuf] at hstring
    obtain ⟨hpending, hlen⟩ := string_readInto_append (hzero hipPlain hfnPlain) hstring
    rw [saved_length hlib htype hipPrint hfnPrint hipPlain hfnPlain] at hlen
    exact ⟨hipPlain, hfnPlain, hlen, hpending⟩
  · intro h stale old
    obtain ⟨hipPlain, hfnPlain, hlen, hpending⟩ := h
    obtain ⟨msg', hdecode, htype', hip', hfn'⟩ := decode_saved hlib htype hipPrint hfnPrint hiplen hfnlen old
    rw [← saved_length hlib htype hipPrint hfnPrint hipPlain hfnPlain] at hlen
    have hbuf := string_readInto (hzero hipPlain hfnPlain) hlen
    refine ⟨_, _, msg', hxml, by simp [sockMsgToBuf, hxml, hpending], by rw [hbuf]; rfl, bufToSockMsg_eq hbuf hdecode,
      fun t => ?_⟩
    cases t with
    | type => rw [htype', hvalueType]
    | destIp => rw [hip', hlib.text _ hipPlain, hvalueIp]
    | fileName => rw [hfn', hlib.text _ hfnPlain, hvalueFn]

theorem exists_field (size : Nat) {s : CString} (h : s.bytes.length < size) : ∃ f : Field size, string f.bytes = some s := by
  have hsize : (s.bytes ++ 0 :: List.replicate (size - s.bytes.length - 1) 0).length = size := by
    simp only [List.length_append, List.length_cons, List.length_replicate]
    omega
  exact ⟨⟨_, hsize⟩, string_append s _⟩

/-- A message has room for a short address and a short name. -/
theorem exists_holds : (∃ msg : SockMsg, msg.Holds type destIp fileName) ↔
    destIp.bytes.length < inetAddrstrlen ∧ fileName.bytes.length < filePathLen := by
  constructor
  · intro h
    obtain ⟨msg, -, hip, hfn⟩ := h
    exact ⟨msg.destIp.size_eq ▸ string_length hip, msg.fileName.size_eq ▸ string_length hfn⟩
  · intro h
    obtain ⟨ip, hip⟩ := exists_field inetAddrstrlen h.1
    obtain ⟨fn, hfn⟩ := exists_field filePathLen h.2
    exact ⟨⟨type, ip, fn⟩, rfl, hip, hfn⟩

/-- **A message comes back** just when its strings fit their fields, neither has an `&` in it, the
document that is made of them, with each `<` and `>` escaped, is shorter than the buffer, and
nothing is pending on the standard output. -/
theorem round_trip (hlib : lib.Documented) (htype : type ∈ sockmsgTypes) (hipPrint : Printable destIp)
    (hfnPrint : Printable fileName) : ComesBack lib pending type destIp fileName ↔
      destIp.bytes.length < inetAddrstrlen ∧ fileName.bytes.length < filePathLen ∧ 38 ∉ destIp.bytes ∧
        38 ∉ fileName.bytes ∧ savedLength lib.emptyTag destIp.bytes fileName.bytes < xmlBufsz ∧ pending.bytes = [] := by
  constructor
  · intro h
    obtain ⟨hexists, hall⟩ := h
    obtain ⟨hiplen, hfnlen⟩ := exists_holds.mp hexists
    obtain ⟨msg, hmsg⟩ := hexists
    exact ⟨hiplen, hfnlen, (roundTrip_iff hlib hmsg htype hipPrint hfnPrint).mp (hall msg hmsg)⟩
  · intro h
    obtain ⟨hiplen, hfnlen, hrest⟩ := h
    exact ⟨exists_holds.mpr ⟨hiplen, hfnlen⟩,
      fun msg hmsg => (roundTrip_iff hlib hmsg htype hipPrint hfnPrint).mpr hrest⟩

end Message

theorem escape_replicate (n : Nat) : (escape (List.replicate n 60)).length = 4 * n := by
  induction n with
  | zero => rfl
  | succ n ih =>
    have hchar : (escapeChar 60).length = 4 := by decide
    rw [escape] at ih
    rw [List.replicate_succ, escape, List.flatMap_cons, List.length_append, hchar, ih, Nat.mul_succ, Nat.add_comm]

/-- A file named `a&b`, one named by 259 times `<`, and text that was not yet written out. -/
theorem no_round_trip : ∃ lib : Libxml2, lib.Documented ∧
    ∀ pending name : CString, name.bytes = ascii "a&b" ∨ name.bytes = List.replicate 259 60 ∨
        name.bytes = ascii "a" ∧ pending.bytes = ascii "client process -- 7\n" →
      ∃ msg : SockMsg, msg.Holds 77 ⟨ascii "1", by decide⟩ name ∧ ¬ RoundTrip lib pending.bytes msg := by
  refine ⟨linesLib, linesLib_documented, fun pending name hname => ?_⟩
  have hlen : name.bytes.length < filePathLen := by
    obtain hname | hname | ⟨hname, -⟩ := hname
    · rw [hname]
      decide
    · rw [hname, List.length_replicate]
      decide
    · rw [hname]
      decide
  have hprint : Printable name := by
    intro c hc
    obtain hname | hname | ⟨hname, -⟩ := hname
    · exact printable_of_all (s := name) (hname ▸ by decide) c hc
    · rw [hname] at hc
      obtain rfl := List.eq_of_mem_replicate hc
      decide
    · exact printable_of_all (s := name) (hname ▸ by decide) c hc
  have hholds : ∃ msg : SockMsg, msg.Holds 77 ⟨ascii "1", by decide⟩ name := exists_holds.mpr ⟨by decide, hlen⟩
  obtain ⟨msg, hmsg⟩ := hholds
  refine ⟨msg, hmsg, fun h => ?_⟩
  obtain ⟨-, hplain, hshort, hnothing⟩ := (roundTrip_iff linesLib_documented hmsg (by decide)
    (printable_of_all (by decide)) hprint).mp h
  obtain hname | hname | ⟨-, hpending⟩ := hname
  · rw [hname] at hplain
    exact hplain (by decide)
  · rw [hname, savedLength, escape_replicate] at hshort
    revert hshort
    decide
  · rw [hpending] at hnothing
    revert hnothing
    decide

/-- A file named `a b.txt`. -/
theorem round_trip_blank : ∃ lib : Libxml2, lib.Documented ∧
    ComesBack lib ⟨[], by decide⟩ 77 ⟨ascii "10.0.0.1", by decide⟩ ⟨ascii "a b.txt", by decide⟩ :=
  ⟨linesLib, linesLib_documented, (round_trip linesLib_documented (by decide) (printable_of_all (by decide))
    (printable_of_all (by decide))).mpr ⟨by decide, by decide, by decide, by decide, by decide, rfl⟩⟩

end CacheFs.Xml
