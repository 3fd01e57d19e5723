import Mathlib.Data.List.TakeWhile
import CacheFs.Namespace.Tree

/-! Messages to the super node as XML (`xml_msg.c`).

A message is a type, an address and a file name. libxml2 makes a document of it and
reads one back; it is not part of the program and stands here as a record of the
functions the program calls. Decoding is one loop over the children of the root, which
notes in a byte of flags what it has seen and leaves as soon as it has seen all. -/
namespace CacheFs.Xml
open CacheFs.Namespace (CString)

/-- The bytes of a string literal. -/
def ascii (s : String) : List UInt8 := s.toList.map fun c => UInt8.ofNat c.toNat

/-- `XML_BUFSZ`. -/
def xmlBufsz : Nat := 1024

/-- `INET_ADDRSTRLEN`, as `netinet/in.h` has it: `sn_sckt.h` includes that after `glob.h`, whose 20
it replaces. -/
def inetAddrstrlen : Nat := 16

/-- `FILE_PATH_LEN`. -/
def filePathLen : Nat := 260

/-- `XML_SOCK_MSG_ROOT`. -/
def xmlSockMsgRoot : List UInt8 := ascii "sock_msg"

/-- `XML_SOCK_MSG_TYPE`. -/
def xmlSockMsgType : List UInt8 := ascii "type"

/-- `XML_SOCK_MSG_DST_IP`. -/
def xmlSockMsgDstIp : List UInt8 := ascii "dest_ip"

/-- `XML_SOCK_MSG_FN`. -/
def xmlSockMsgFn : List UInt8 := ascii "file_name"

/-- `SOCKMSG_TYPE_WRITE`, `_REMOVE`, `_OPEN_WITH_OTRUNC` and `_CREAT_ON_EXIST`. -/
def sockmsgTypes : List UInt8 := ascii "MNOP"

/-- `SOCKMSG_TYPE_PARSE_OK`. -/
def sockmsgTypeParseOk : UInt8 := 1

/-- `SOCKMSG_DSTIP_PARSE_OK`. -/
def sockmsgDstipParseOk : UInt8 := 2

/-- `SOCKMSG_FN_PARSE_OK`. -/
def sockmsgFnParseOk : UInt8 := 4

/-- `SOCKMSG_PARSE_OK`. -/
def sockmsgParseOk : UInt8 := sockmsgTypeParseOk ||| sockmsgDstipParseOk ||| sockmsgFnParseOk

/-! ### Messages -/

/-- An array of characters. -/
structure Field (size : Nat) where
  bytes : List UInt8
  size_eq : bytes.length = size

theorem zero_not_mem_takeWhile (buf : List UInt8) : 0 ∉ buf.takeWhile (· ≠ 0) := by
  intro h
  simpa using List.mem_takeWhile_imp h

/-- The string in an array, if it is terminated. -/
def string (buf : List UInt8) : Option CString :=
  if 0 ∈ buf then some ⟨buf.takeWhile (· ≠ 0), zero_not_mem_takeWhile buf⟩ else none

/-- `strcpy`, when the array has room for the string. -/
def strcpy {size : Nat} (f : Field size) (s : CString) : Option (Field size) :=
  if h : s.bytes.length < size then
    some ⟨s.bytes ++ 0 :: f.bytes.drop (s.bytes.length + 1), by simp [f.size_eq]; omega⟩
  else none

/-- `SOCK_MSG`. -/
structure SockMsg where
  type : UInt8
  destIp : Field inetAddrstrlen
  fileName : Field filePathLen

/-- `RPL_MSG`. -/
structure RplMsg where
  err : UInt8
  deriving DecidableEq

/-! ### Documents -/

/-- A node as the decoder reads it: its name, and what `xmlNodeGetContent` returns for it. -/
structure Node where
  name : List UInt8
  content : CString

/-- The root element of a document that was read. -/
structure Root where
  name : List UInt8
  children : List Node

/-- What a reader returns: `NULL`, or a document that may have no root. -/
abbrev Doc := Option (Option Root)

/-- The `while` loop of `xml_to_sock_msg`, with `parse_ok` and the message. -/
def parseChildren : List Node → UInt8 → SockMsg → Option (UInt8 × SockMsg)
  | [], parseOk, msg => some (parseOk, msg)
  | curNode :: next, parseOk, msg =>
    if parseOk &&& sockmsgTypeParseOk = 0 ∧ curNode.name = xmlSockMsgType then
      let msg := {msg with type := curNode.content.bytes.headD 0}
      let parseOk := parseOk ||| sockmsgTypeParseOk
      if parseOk = sockmsgParseOk then some (parseOk, msg) else parseChildren next parseOk msg
    else if parseOk &&& sockmsgDstipParseOk = 0 ∧ curNode.name = xmlSockMsgDstIp then do
      let destIp ← strcpy msg.destIp curNode.content
      let msg := {msg with destIp}
      let parseOk := parseOk ||| sockmsgDstipParseOk
      if parseOk = sockmsgParseOk then some (parseOk, msg) else parseChildren next parseOk msg
    else if parseOk &&& sockmsgFnParseOk = 0 ∧ curNode.name = xmlSockMsgFn then do
      let fileName ← strcpy msg.fileName curNode.content
      let msg := {msg with fileName}
      let parseOk := parseOk ||| sockmsgFnParseOk
      if parseOk = sockmsgParseOk then some (parseOk, msg) else parseChildren next parseOk msg
    else parseChildren next parseOk msg

/-- What `xml_to_sock_msg` and `xml_to_sock_msg_parse_from_fd` do with the document that they
have read. -/
def parseDoc (doc : Doc) (msg : SockMsg) : Option (UInt32 × SockMsg) := do
  let (ret, parseOk, msg) ←
    match doc with
    | none => some (1, 0, msg)
    | some none => some (2, 0, msg)
    | some (some root) =>
      if root.name ≠ xmlSockMsgRoot then some (3, 0, msg)
      else (parseChildren root.children 0 msg).map fun r => (0, r)
  return (if parseOk ≠ sockmsgParseOk then 4 else ret, msg)

/-- `xml_to_sock_msg`, with what `xmlReadFile` returns for a file. -/
def xmlToSockMsg (xmlReadFile : List UInt8 → Doc) (xmlFile : Option (List UInt8)) (msg : SockMsg) :
    Option (UInt32 × SockMsg) :=
  parseDoc (xmlReadFile (xmlFile.getD (ascii "-"))) msg

/-- `xml_to_sock_msg_parse_from_fd`, with what `xmlReadFd` returns for what can be read from
the descriptor. -/
def xmlToSockMsgParseFromFd (xmlReadFd : List UInt8 → Doc) (fd : List UInt8) (msg : SockMsg) :
    Option (UInt32 × SockMsg) :=
  parseDoc (xmlReadFd fd) msg

end CacheFs.Xml
