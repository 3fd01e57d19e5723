import CacheFs.Xml.Accepts
import CacheFs.Xml.Encode

/-! Replies of the super node as XML (`xml_msg.c`).

A reply is one letter. It is read like a message, with one flag: what is decoded is the
first child of its name (`parseRplDoc_eq`). -/
namespace CacheFs.Xml

/-- `XML_RPL_MSG_ROOT`. -/
def xmlRplMsgRoot : List UInt8 := ascii "rpl_msg"

/-- `XML_RPL_MSG_ERR`. -/
def xmlRplMsgErr : List UInt8 := ascii "err"

/-- `RPL_ERR_PARSE_OK`. -/
def rplErrParseOk : UInt8 := 1

/-- `RPL_MSG_PARSE_OK`. -/
def rplMsgParseOk : UInt8 := rplErrParseOk

/-- `rpl_msg_to_xml`: what it writes. -/
def rplMsgToXml (lib : Libxml2) (rplMsg : RplMsg) : List UInt8 :=
  lib.saveFormatFileEnc (lib.tree xmlRplMsgRoot [(xmlRplMsgErr, u8ToStr rplMsg.err)])

/-- The `while` loop of `xml_to_rpl_msg`, with `parse_ok` and the reply. -/
def parseRplChildren : List Node → UInt8 → RplMsg → UInt8 × RplMsg
  | [], parseOk, rplMsg => (parseOk, rplMsg)
  | curNode :: next, parseOk, rplMsg =>
    if parseOk &&& rplErrParseOk = 0 ∧ curNode.name = xmlRplMsgErr then
      let rplMsg := {rplMsg with err := curNode.content.bytes.headD 0}
      let parseOk := parseOk ||| rplErrParseOk
      if parseOk = rplMsgParseOk then (parseOk, rplMsg) else parseRplChildren next parseOk rplMsg
    else parseRplChildren next parseOk rplMsg

/-- What `xml_to_rpl_msg` and `xml_to_rpl_msg_parse_from_fd` do with the document that they have
read. -/
def parseRplDoc (doc : Doc) (rplMsg : RplMsg) : UInt32 × RplMsg :=
  let (ret, parseOk, rplMsg) : UInt32 × UInt8 × RplMsg :=
    match doc with
    | none => (1, 0, rplMsg)
    | some none => (2, 0, rplMsg)
    | some (some root) =>
      if root.name ≠ xmlRplMsgRoot then (3, 0, rplMsg) else (0, parseRplChildren root.children 0 rplMsg)
  (if parseOk ≠ rplMsgParseOk then 4 else ret, rplMsg)

section Parse
variable {rplMsg : RplMsg}

/-- The loop stops at the first child of the name. -/
theorem parseRplChildren_eq (children : List Node) (rplMsg : RplMsg) : parseRplChildren children 0 rplMsg =
    match first children xmlRplMsgErr with
    | none => (0, rplMsg)
    | some s => (rplMsgParseOk, ⟨s.bytes.headD 0⟩) := by
  induction children with
  | nil => rfl
  | cons curNode next ih =>
    rw [parseRplChildren]
    by_cases hname : curNode.name = xmlRplMsgErr
    · have hunseen : (0 : UInt8) &&& rplErrParseOk = 0 := by decide
      have hfirst : first (curNode :: next) xmlRplMsgErr = some curNode.content := by simp [first, hname]
      rw [if_pos ⟨hunseen, hname⟩, hfirst]
      rfl
    · rw [if_neg (fun h => hname h.2), ih, first_next hname]

/-- What the decoder accepts: the root `rpl_msg` with a child `err`, whose first byte it takes. -/
theorem parseRplDoc_eq (doc : Doc) (rplMsg : RplMsg) : parseRplDoc doc rplMsg =
    match doc with
    | some (some root) =>
      if root.name = xmlRplMsgRoot then
        match first root.children xmlRplMsgErr with
        | none => (4, rplMsg)
        | some s => (0, ⟨s.bytes.headD 0⟩)
      else (4, rplMsg)
    | _ => (4, rplMsg) := by
  have hnone : (0 : UInt8) ≠ rplMsgParseOk := by decide
  match doc with
  | none | some none => rfl
  | some (some root) =>
    by_cases hroot : root.name = xmlRplMsgRoot
    · simp only [parseRplDoc, hroot, ne_eq, not_true_eq_false, if_false, if_true, parseRplChildren_eq]
      cases first root.children xmlRplMsgErr with
      | none => exact congrArg (·, rplMsg) (if_pos hnone)
      | some s => exact congrArg (·, RplMsg.mk (s.bytes.headD 0)) (if_neg (fun h => h rfl))
    · simp only [parseRplDoc, hroot, ne_eq, not_false_eq_true, if_true, if_false]
      exact congrArg (·, rplMsg) (if_pos hnone)

end Parse

end CacheFs.Xml
