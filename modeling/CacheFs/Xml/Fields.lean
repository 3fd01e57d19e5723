import CacheFs.Library.Memory
import CacheFs.Xml.RoundTrip

/-! The fields of a message in memory (`xml_msg.c`).

`SOCK_MSG` is a type, an address and a file name one behind the other, and `strcpy` copies
a content with its terminator, whatever room there is. Each field is stored once, with the
content of the first child of its name (`mem_stores`), so it is seen from these contents
whether every store stays in its field (`decoding_within`). While they do, the memory is
the message that `parseChildren` has (`storeChildren_parses`). -/
namespace CacheFs.Xml
open CacheFs.Namespace (CString)

namespace Tag

/-- Where the field is in `SOCK_MSG`. -/
def offset : Tag → Nat
  | type => 0
  | destIp => 1
  | fileName => 1 + inetAddrstrlen

/-- How many bytes the field has. -/
def size : Tag → Nat
  | type => 1
  | destIp => inetAddrstrlen
  | fileName => filePathLen

/-- What is stored for a content: its first byte, or all of it with the terminator. -/
def copied : Tag → CString → List UInt8
  | type, s => [s.bytes.headD 0]
  | destIp, s | fileName, s => s.bytes ++ [0]

/-- Different fields have no byte in common. -/
theorem disjoint {t u : Tag} (h : t ≠ u) : t.offset + t.size ≤ u.offset ∨ u.offset + u.size ≤ t.offset := by
  cases t <;> cases u <;> first | exact absurd rfl h | decide

theorem copied_fits {t : Tag} {s : CString} : (t.copied s).length ≤ t.size ↔ t.fits s := by
  cases t with
  | type => simp [copied, size, fits]
  | destIp | fileName =>
    simp only [copied, size, fits, List.length_append, List.length_singleton]
    exact Nat.succ_le_iff

end Tag

/-! ### The functions of the program -/

/-- A store of bytes for a field, and the memory before it. Addresses are from the message on. -/
structure Store where
  tag : Tag
  bytes : List UInt8
  before : Nat → UInt8

def Store.after (s : Store) : Nat → UInt8 := Memory.put s.before s.tag.offset s.bytes

/-- Which of the three `if` a node is for. -/
def taken (parseOk : UInt8) (curNode : Node) : Option Tag :=
  if parseOk &&& sockmsgTypeParseOk = 0 ∧ curNode.name = xmlSockMsgType then some .type
  else if parseOk &&& sockmsgDstipParseOk = 0 ∧ curNode.name = xmlSockMsgDstIp then some .destIp
  else if parseOk &&& sockmsgFnParseOk = 0 ∧ curNode.name = xmlSockMsgFn then some .fileName
  else none

/-- The `while` loop of `xml_to_sock_msg_parse_from_fd`: `parse_ok`, the memory, and what was
stored. -/
def storeChildren : List Node → UInt8 → (Nat → UInt8) → UInt8 × (Nat → UInt8) × List Store
  | [], parseOk, mem => (parseOk, mem, [])
  | curNode :: next, parseOk, mem =>
    match taken parseOk curNode with
    | none => storeChildren next parseOk mem
    | some t =>
      let s : Store := ⟨t, t.copied curNode.content, mem⟩
      let parseOk := parseOk ||| t.flag
      if parseOk = sockmsgParseOk then (parseOk, s.after, [s])
      else
        let r := storeChildren next parseOk s.after
        (r.1, r.2.1, s :: r.2.2)

/-- `xml_to_sock_msg_parse_from_fd`, with the document that it reads. -/
def storeDoc (doc : Doc) (mem : Nat → UInt8) : UInt32 × (Nat → UInt8) × List Store :=
  let (ret, parseOk, mem, log) : UInt32 × UInt8 × (Nat → UInt8) × List Store :=
    match doc with
    | none => (1, 0, mem, [])
    | some none => (2, 0, mem, [])
    | some (some root) =>
      if root.name ≠ xmlSockMsgRoot then (3, 0, mem, []) else (0, storeChildren root.children 0 mem)
  (if parseOk ≠ sockmsgParseOk then 4 else ret, mem, log)

/-- What `strlen` finds in a buffer with these bytes behind it. -/
def received (buf : Field xmlBufsz) (behind : List UInt8) : List UInt8 := (buf.bytes ++ behind).takeWhile (· ≠ 0)

/-- `buf_to_sock_msg_parse_from_fd` on a message in memory. -/
def bufToMemory (xmlReadFd : List UInt8 → Doc) (pipe write : Bool) (buf : Field xmlBufsz) (behind : List UInt8)
    (mem : Nat → UInt8) : UInt32 × (Nat → UInt8) × List Store :=
  if !pipe then (1, mem, [])
  else if !write then (2, mem, [])
  else
    let r := storeDoc (xmlReadFd (received buf behind)) mem
    (if r.1 ≠ 0 then 3 else 0, r.2)

/-! ### Stores within their fields -/

/-- No store is longer than its field, and none changes another field that was stored. -/
structure Within (log : List Store) : Prop where
  fits : ∀ s ∈ log, s.bytes.length ≤ s.tag.size
  kept : log.Pairwise fun e s => e.tag ≠ s.tag →
    Memory.read s.after e.tag.offset e.tag.size = Memory.read s.before e.tag.offset e.tag.size

/-- The first child of each name has room in the field. -/
def FirstFits (doc : Doc) : Prop :=
  ∀ root, doc = some (some root) → root.name = xmlSockMsgRoot →
    ∀ t : Tag, ∀ s ∈ first root.children t.name, t.fits s

section Stores
variable {seen : Tag → Bool} {curNode : Node} {next : List Node} {mem : Nat → UInt8} {t : Tag} {parseOk : UInt8}

/-- A store that fits changes no other field. -/
theorem Store.frame {s : Store} (h : s.bytes.length ≤ s.tag.size) (ht : t ≠ s.tag) :
    Memory.read s.after t.offset t.size = Memory.read s.before t.offset t.size := by
  apply Memory.read_put_of_disjoint
  have := Tag.disjoint ht
  omega

theorem within_iff {log : List Store} : Within log ↔ ∀ s ∈ log, s.bytes.length ≤ s.tag.size := by
  constructor
  · exact Within.fits
  · intro h
    exact ⟨h, List.pairwise_of_forall_mem_list fun e _ s hs ht => Store.frame (h s hs) ht⟩

theorem within_nil : Within [] := within_iff.mpr fun _ hs => (List.not_mem_nil hs).elim

theorem taken_flags : taken (flags seen) curNode = some t ↔ seen t = false ∧ curNode.name = t.name := by
  have hnames : xmlSockMsgDstIp ≠ xmlSockMsgType ∧ xmlSockMsgFn ≠ xmlSockMsgType ∧ xmlSockMsgFn ≠ xmlSockMsgDstIp := by
    decide
  have htype : flags seen &&& sockmsgTypeParseOk = 0 ↔ seen .type = false := flags_unseen (t := .type)
  have hip : flags seen &&& sockmsgDstipParseOk = 0 ↔ seen .destIp = false := flags_unseen (t := .destIp)
  have hfn : flags seen &&& sockmsgFnParseOk = 0 ↔ seen .fileName = false := flags_unseen (t := .fileName)
  simp only [taken, htype, hip, hfn]
  cases t <;> simp only [Tag.name] <;> grind

/-- What the loop stores: each field that was not seen, from the first child of its name. -/
theorem mem_stores (children : List Node) (seen : Tag → Bool) (mem : Nat → UInt8) (t : Tag) (b : List UInt8) :
    (t, b) ∈ (storeChildren children (flags seen) mem).2.2.map (fun s => (s.tag, s.bytes)) ↔
      seen t = false ∧ ∃ c ∈ first children t.name, b = t.copied c := by
  induction children generalizing seen mem with
  | nil => simp [storeChildren, first]
  | cons curNode next ih =>
    rw [storeChildren]
    cases htaken : taken (flags seen) curNode with
    | none =>
      rw [ih]
      refine and_congr_right fun ht => ?_
      have hname : curNode.name ≠ t.name := fun h => by simp [taken_flags.mpr ⟨ht, h⟩] at htaken
      rw [first_next hname]
    | some u =>
      obtain ⟨hunseen, hname⟩ := taken_flags.mp htaken
      have hother (ht : t ≠ u) : curNode.name ≠ t.name := fun h => ht (Tag.name_inj (h.symm.trans hname))
      simp only [flags_seeing]
      split
      · -- every other field was seen before, so the loop may leave
        rename_i hall
        have hseen (ht : t ≠ u) : seen t = true := by
          have := flags_all.mp hall t
          rwa [Function.update_of_ne ht] at this
        by_cases ht : t = u
        · subst ht
          simp [hunseen, first_here hname]
        · simp [ht, hseen ht]
      · simp only [List.map_cons, List.mem_cons, ih]
        by_cases ht : t = u
        · subst ht
          simp [hunseen, first_here hname]
        · simp [ht, first_next (hother ht)]

theorem storeChildren_within (children : List Node) (mem : Nat → UInt8) :
    Within (storeChildren children 0 mem).2.2 ↔ ∀ t : Tag, ∀ c ∈ first children t.name, t.fits c := by
  have hstored := mem_stores children (fun _ => false) mem
  have hstart : flags (fun _ => false) = 0 := rfl
  rw [hstart] at hstored
  rw [within_iff]
  constructor
  · intro h t c hc
    obtain ⟨s, hs, hwhat⟩ := List.mem_map.mp ((hstored t (t.copied c)).mpr ⟨rfl, c, hc, rfl⟩)
    obtain ⟨rfl, hbytes⟩ := Prod.mk.inj hwhat
    rw [← Tag.copied_fits, ← hbytes]
    exact h s hs
  · intro h s hs
    obtain ⟨-, c, hc, hbytes⟩ := (hstored s.tag s.bytes).mp (List.mem_map.mpr ⟨s, hs, rfl⟩)
    rw [hbytes, Tag.copied_fits]
    exact h s.tag c hc

end Stores

/-! ### The message in memory -/

/-- The bytes of a field of a message. -/
def SockMsg.bytes (msg : SockMsg) : Tag → List UInt8
  | .type => [msg.type]
  | .destIp => msg.destIp.bytes
  | .fileName => msg.fileName.bytes

/-- The memory has the message. -/
def Holds (mem : Nat → UInt8) (msg : SockMsg) : Prop := ∀ t : Tag, Memory.read mem t.offset t.size = msg.bytes t

section Refinement
variable {curNode : Node} {next : List Node} {mem : Nat → UInt8} {t : Tag} {parseOk : UInt8} {msg msg' : SockMsg}

/-- The loop of the decoder, by the field that a node is for. -/
theorem parseChildren_taken : parseChildren (curNode :: next) parseOk msg =
    match taken parseOk curNode with
    | none => parseChildren next parseOk msg
    | some t => (msg.store t curNode.content).bind fun msg' =>
        if parseOk ||| t.flag = sockmsgParseOk then some (parseOk ||| t.flag, msg')
        else parseChildren next (parseOk ||| t.flag) msg' := by
  rw [parseChildren, taken]
  by_cases htype : parseOk &&& sockmsgTypeParseOk = 0 ∧ curNode.name = xmlSockMsgType
  · rw [if_pos htype, if_pos htype]
    rfl
  rw [if_neg htype, if_neg htype]
  by_cases hip : parseOk &&& sockmsgDstipParseOk = 0 ∧ curNode.name = xmlSockMsgDstIp
  · rw [if_pos hip, if_pos hip]
    show _ = (SockMsg.store msg .destIp curNode.content).bind _
    rw [SockMsg.store, Option.bind_map]
    rfl
  rw [if_neg hip, if_neg hip]
  by_cases hfn : parseOk &&& sockmsgFnParseOk = 0 ∧ curNode.name = xmlSockMsgFn
  · rw [if_pos hfn, if_pos hfn]
    show _ = (SockMsg.store msg .fileName curNode.content).bind _
    rw [SockMsg.store, Option.bind_map]
    rfl
  · rw [if_neg hfn, if_neg hfn]

theorem strcpy_bytes {size : Nat} {f g : Field size} {s : CString} (h : strcpy f s = some g) :
    g.bytes = s.bytes ++ [0] ++ f.bytes.drop (s.bytes ++ [0]).length := by
  unfold strcpy at h
  split at h
  · obtain rfl := Option.some.inj h
    simp
  · exact absurd h (by simp)

/-- A content that fits is stored in the message, with these bytes, and nothing else changes. -/
theorem SockMsg.store_bytes (msg : SockMsg) {s : CString} (h : t.fits s) : ∃ msg', msg.store t s = some msg' ∧
    msg'.bytes t = t.copied s ++ (msg.bytes t).drop (t.copied s).length ∧ ∀ u ≠ t, msg'.bytes u = msg.bytes u := by
  cases t with
  | type =>
    refine ⟨_, rfl, rfl, fun u hu => ?_⟩
    cases u <;> first | rfl | exact absurd rfl hu
  | destIp =>
    obtain ⟨f, hf, -⟩ := strcpy_spec msg.destIp h
    refine ⟨{msg with destIp := f}, by rw [store, hf]; rfl, strcpy_bytes hf, fun u hu => ?_⟩
    cases u <;> first | rfl | exact absurd rfl hu
  | fileName =>
    obtain ⟨f, hf, -⟩ := strcpy_spec msg.fileName h
    refine ⟨{msg with fileName := f}, by rw [store, hf]; rfl, strcpy_bytes hf, fun u hu => ?_⟩
    cases u <;> first | rfl | exact absurd rfl hu

theorem SockMsg.store_overflows (msg : SockMsg) {s : CString} (h : ¬ t.fits s) : msg.store t s = none := by
  cases t with
  | type => exact absurd trivial h
  | destIp =>
    rw [store, strcpy, dif_neg (show ¬ s.bytes.length < inetAddrstrlen from h)]
    rfl
  | fileName =>
    rw [store, strcpy, dif_neg (show ¬ s.bytes.length < filePathLen from h)]
    rfl

theorem Holds.store (h : Holds mem msg) {s : CString} (hfits : t.fits s) :
    ∃ msg', msg.store t s = some msg' ∧ Holds (Store.mk t (t.copied s) mem).after msg' := by
  obtain ⟨msg', hstore, hbytes, hothers⟩ := msg.store_bytes hfits
  refine ⟨msg', hstore, fun u => ?_⟩
  by_cases hu : u = t
  · subst hu
    rw [hbytes, ← h u]
    exact Memory.read_put (Tag.copied_fits.mpr hfits)
  · rw [hothers u hu, ← h u]
    exact Store.frame (Tag.copied_fits.mpr hfits) hu

/-- **Memory and message agree**: where every store fits, both loops have the same flags and the
memory has the message; where one does not, the message has no room for it. -/
theorem storeChildren_parses (children : List Node) (parseOk : UInt8) (h : Holds mem msg) :
    (Within (storeChildren children parseOk mem).2.2 → ∃ msg',
      parseChildren children parseOk msg = some ((storeChildren children parseOk mem).1, msg') ∧
      Holds (storeChildren children parseOk mem).2.1 msg') ∧
    (¬ Within (storeChildren children parseOk mem).2.2 → parseChildren children parseOk msg = none) := by
  simp only [within_iff]
  induction children generalizing parseOk mem msg with
  | nil => exact ⟨fun _ => ⟨msg, rfl, h⟩, fun hlog => absurd (fun s hs => (List.not_mem_nil hs).elim) hlog⟩
  | cons curNode next ih =>
    rw [parseChildren_taken, storeChildren]
    cases taken parseOk curNode with
    | none => exact ih parseOk h
    | some t =>
      by_cases hfits : t.fits curNode.content
      · obtain ⟨msg', hstore, hholds⟩ := h.store hfits
        have hlength := Tag.copied_fits.mpr hfits
        simp only [hstore, Option.bind_some]
        split
        · exact ⟨fun _ => ⟨msg', rfl, hholds⟩, fun hlog => absurd (by simpa using hlength) hlog⟩
        · simpa [hlength] using ih _ hholds
      · have hlength := mt Tag.copied_fits.mp hfits
        simp only [msg.store_overflows hfits, Option.bind_none]
        split
        · exact ⟨fun hlog => absurd (hlog _ List.mem_cons_self) hlength, fun _ => trivial⟩
        · exact ⟨fun hlog => absurd (hlog _ List.mem_cons_self) hlength, fun _ => trivial⟩

end Refinement

/-! ### Whole documents -/

section Documents
variable {xmlReadFd : List UInt8 → Doc} {pipe write : Bool} {buf : Field xmlBufsz} {behind : List UInt8}
  {mem : Nat → UInt8}

theorem storeDoc_within (doc : Doc) (mem : Nat → UInt8) : Within (storeDoc doc mem).2.2 ↔ FirstFits doc := by
  match doc with
  | none => exact iff_of_true within_nil fun root hroot => absurd hroot (by simp)
  | some none => exact iff_of_true within_nil fun root hroot => absurd hroot (by simp)
  | some (some root) =>
    by_cases hroot : root.name = xmlSockMsgRoot
    · have hlog : (storeDoc (some (some root)) mem).2.2 = (storeChildren root.children 0 mem).2.2 := by
        simp [storeDoc, hroot]
      rw [hlog, storeChildren_within]
      constructor
      · rintro h _ ⟨⟩ -
        exact h
      · exact fun h => h root rfl hroot
    · have hlog : (storeDoc (some (some root)) mem).2.2 = [] := by simp [storeDoc, hroot]
      rw [hlog]
      refine iff_of_true within_nil ?_
      rintro _ ⟨⟩ hname
      exact absurd hname hroot

/-- When the calls succeed, what is received is decoded. -/
theorem bufToMemory_stores (xmlReadFd : List UInt8 → Doc) (buf : Field xmlBufsz) (behind : List UInt8) (mem : Nat → UInt8) :
    (bufToMemory xmlReadFd true true buf behind mem).2 = (storeDoc (xmlReadFd (received buf behind)) mem).2 := rfl

/-- **Decoding stays within the message fields** exactly for the documents whose first children
have room in their fields. -/
theorem decoding_within (xmlReadFd : List UInt8 → Doc) (pipe write : Bool) (buf : Field xmlBufsz) (behind : List UInt8)
    (mem : Nat → UInt8) : Within (bufToMemory xmlReadFd pipe write buf behind mem).2.2 ↔
      (pipe = true → write = true → FirstFits (xmlReadFd (received buf behind))) := by
  cases pipe with
  | false => exact iff_of_true within_nil fun h => absurd h (by decide)
  | true =>
    cases write with
    | false => exact iff_of_true within_nil fun _ h => absurd h (by decide)
    | true =>
      rw [bufToMemory_stores, storeDoc_within]
      simp

/-- Behind a terminator nothing is looked at. -/
theorem received_eq {s : CString} (h : string buf.bytes = some s) (behind : List UInt8) : received buf behind = s.bytes := by
  obtain ⟨hzero, htake⟩ := string_eq_some.mp h
  rw [received, List.takeWhile_append, if_neg, htake]
  intro hlen
  have hall := List.takeWhile_eq_self_iff.mp ((List.takeWhile_prefix _).eq_of_length hlen)
  simpa using hall 0 hzero

theorem storeDoc_parses {msg : SockMsg} (doc : Doc) (h : Holds mem msg) (hfits : FirstFits doc) :
    ∃ msg', parseDoc doc msg = some ((storeDoc doc mem).1, msg') ∧ Holds (storeDoc doc mem).2.1 msg' := by
  match doc with
  | none => exact ⟨msg, rfl, h⟩
  | some none => exact ⟨msg, rfl, h⟩
  | some (some root) =>
    by_cases hroot : root.name = xmlSockMsgRoot
    · obtain ⟨msg', hparse, hholds⟩ := (storeChildren_parses root.children 0 h).1
        ((storeChildren_within _ _).mpr (hfits root rfl hroot))
      refine ⟨msg', ?_, ?_⟩
      · simp [parseDoc, storeDoc, hroot, hparse]
      · simpa [storeDoc, hroot] using hholds
    · refine ⟨msg, ?_, ?_⟩
      · simp [parseDoc, storeDoc, hroot]
      · simpa [storeDoc, hroot] using h

/-- Then what is left in memory is the message that is decoded. -/
theorem bufToMemory_decodes (lib : Libxml2) {msg : SockMsg} {s : CString} (hbuf : string buf.bytes = some s)
    (h : Holds mem msg) (hwithin : Within (bufToMemory lib.readFd pipe write buf behind mem).2.2) :
    ∃ msg', bufToSockMsgParseFromFd lib pipe write msg buf =
        some ((bufToMemory lib.readFd pipe write buf behind mem).1, msg') ∧
      Holds (bufToMemory lib.readFd pipe write buf behind mem).2.1 msg' := by
  cases pipe with
  | false => exact ⟨msg, rfl, h⟩
  | true =>
    cases write with
    | false => exact ⟨msg, by simp [bufToSockMsgParseFromFd, bufToMemory, hbuf], h⟩
    | true =>
      rw [bufToMemory_stores, storeDoc_within, received_eq hbuf] at hwithin
      obtain ⟨msg', hparse, hholds⟩ := storeDoc_parses _ h hwithin
      refine ⟨msg', ?_, ?_⟩
      · simp [bufToSockMsgParseFromFd, bufToMemory, hbuf, received_eq, xmlToSockMsgParseFromFd, hparse]
      · simpa [bufToMemory, received_eq hbuf] using hholds

/-- An address of 17 characters behind the file name. -/
theorem decoding_not_within : ∃ xml : List UInt8, xml.length ≤ xmlBufsz ∧ ∀ behind mem,
    ¬ Within (bufToMemory linesLib.readFd true true (readInto (bzero xmlBufsz) xml) behind mem).2.2 := by
  let destIp : CString := ⟨ascii "255.255.255.255.2", by decide⟩
  let children : List (List UInt8 × CString) :=
    [(xmlSockMsgType, ⟨ascii "M", by decide⟩), (xmlSockMsgFn, ⟨ascii "x", by decide⟩), (xmlSockMsgDstIp, destIp)]
  have hnames : ElementName xmlSockMsgRoot ∧ ∀ c ∈ children, ElementName c.1 :=
    ⟨elementName_of_mem (by simp), by simp [children, elementName_of_mem]⟩
  obtain ⟨nodes, hread, helements⟩ := readPieces_layout hnames.1 hnames.2
  have hzero : 0 ∉ layout false xmlSockMsgRoot children := zero_not_mem_layout (by decide) (by decide)
  have hlen : (layout false xmlSockMsgRoot children).length < xmlBufsz := by
    simp [layout, line, children, destIp, escape, escapeChar, xmlSockMsgRoot, xmlSockMsgType, xmlSockMsgFn, xmlSockMsgDstIp,
      ascii, xmlBufsz]
  have hfirst : first nodes xmlSockMsgDstIp = some destIp := by
    rw [first_elements (by decide), helements]
    decide
  refine ⟨layout false xmlSockMsgRoot children, hlen.le, fun behind mem hwithin => ?_⟩
  rw [bufToMemory_stores, storeDoc_within, received_eq (string_readInto hzero hlen)] at hwithin
  have hroom : destIp.bytes.length < inetAddrstrlen := hwithin _ hread rfl .destIp destIp hfirst
  revert hroom
  decide

end Documents

end CacheFs.Xml
