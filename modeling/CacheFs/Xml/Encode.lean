import CacheFs.Xml.SockMsg

/-! Encoding a message, and through pipes into a buffer and back.

libxml2 stands here as a record of what the program calls of it (`Libxml2`), with what
is documented of these functions (`Libxml2.Documented`): `xmlNewChild` reads its
content as XML, where `&` begins a reference; a document is saved with each child on a
line of its own and with `<`, `>` and `&` escaped in its text; reading is the inverse of
saving. -/
namespace CacheFs.Xml
open CacheFs.Namespace (CString)

/-! ### libxml2 -/

/-- An element under the root. -/
structure Element (Nodes : Type) where
  name : List UInt8
  nodes : Nodes

/-- A document that is made: the name of its root, and the elements under it. -/
structure Tree (Nodes : Type) where
  name : List UInt8
  children : List (Element Nodes)

/-- What the program calls of libxml2: what `xmlNewChild` puts under an element for its content
argument, `xmlNodeGetContent` of that, `xmlSaveFormatFileEnc` and `xmlReadFd`. -/
structure Libxml2 where
  Nodes : Type
  newChild : CString → Nodes
  nodeGetContent : Nodes → CString
  saveFormatFileEnc : Tree Nodes → List UInt8
  readFd : List UInt8 → Doc
  /-- Whether an element without text is saved as one tag, which versions differ in. -/
  emptyTag : Bool

/-- Printable ASCII. -/
def Printable (s : CString) : Prop := ∀ c ∈ s.bytes, 32 ≤ c.toNat ∧ c.toNat ≤ 126

/-- A name of an element, other than that of text nodes. -/
def ElementName (name : List UInt8) : Prop :=
  name ≠ [] ∧ name ≠ ascii "text" ∧ ∀ c ∈ name, 97 ≤ c.toNat ∧ c.toNat ≤ 122 ∨ c = 95

/-- A character of a text as it is saved. -/
def escapeChar (c : UInt8) : List UInt8 :=
  if c = 60 then ascii "&lt;" else if c = 62 then ascii "&gt;" else if c = 38 then ascii "&amp;" else [c]

def escape (text : List UInt8) : List UInt8 := text.flatMap escapeChar

/-- The line of a child. -/
def line (emptyTag : Bool) (name text : List UInt8) : List UInt8 :=
  if text = [] ∧ emptyTag then ascii "  <" ++ name ++ ascii "/>\n"
  else ascii "  <" ++ name ++ ascii ">" ++ escape text ++ ascii "</" ++ name ++ ascii ">\n"

/-- A saved document with children whose contents are text. -/
def layout (emptyTag : Bool) (name : List UInt8) (children : List (List UInt8 × CString)) : List UInt8 :=
  ascii "<?xml version=\"1.0\" encoding=\"UTF-8\"?>\n<" ++ name ++ ascii ">\n" ++
    (children.flatMap fun c => line emptyTag c.1 c.2.bytes) ++ ascii "</" ++ name ++ ascii ">\n"

/-- The document that `xmlNewChild` makes of names and contents. -/
def Libxml2.tree (lib : Libxml2) (name : List UInt8) (children : List (List UInt8 × CString)) : Tree lib.Nodes :=
  ⟨name, children.map fun c => ⟨c.1, lib.newChild c.2⟩⟩

/-- What is documented of libxml2. A reference is longer than the character it stands for, and
what is no known reference is left out; between the elements that are read are text nodes. -/
structure Libxml2.Documented (lib : Libxml2) : Prop where
  text : ∀ s, 38 ∉ s.bytes → lib.nodeGetContent (lib.newChild s) = s
  reference : ∀ s, 38 ∈ s.bytes → (lib.nodeGetContent (lib.newChild s)).bytes.length < s.bytes.length
  saves : ∀ name children, ElementName name → children ≠ [] →
    (∀ c ∈ children, ElementName c.1 ∧ Printable c.2 ∧ 38 ∉ c.2.bytes) →
    lib.saveFormatFileEnc (lib.tree name children) = layout lib.emptyTag name children
  reads : ∀ name children, ElementName name → (∀ c ∈ children, ElementName c.1 ∧ Printable c.2) →
    ∃ nodes, lib.readFd (lib.saveFormatFileEnc (lib.tree name children)) = some (some ⟨name, nodes⟩) ∧
      nodes.filter (·.name ≠ ascii "text") = children.map fun c => ⟨c.1, lib.nodeGetContent (lib.newChild c.2)⟩

/-! ### The functions of the program -/

/-- `u8_to_str`. -/
def u8ToStr (ch : UInt8) : CString := ⟨[ch].takeWhile (· ≠ 0), zero_not_mem_takeWhile [ch]⟩

/-- `sock_msg_to_xml`: what it writes. -/
def sockMsgToXml (lib : Libxml2) (msg : SockMsg) : Option (List UInt8) := do
  let destIp ← string msg.destIp.bytes
  let fileName ← string msg.fileName.bytes
  return lib.saveFormatFileEnc (lib.tree xmlSockMsgRoot
    [(xmlSockMsgType, u8ToStr msg.type), (xmlSockMsgDstIp, destIp), (xmlSockMsgFn, fileName)])

/-- An array after `bzero`. -/
def bzero (bufsiz : Nat) : Field bufsiz := ⟨List.replicate bufsiz 0, List.length_replicate⟩

/-- One `read` of so many bytes that are there into an array, from its beginning. -/
def readInto {bufsiz : Nat} (buf : Field bufsiz) (available : List UInt8) : Field bufsiz :=
  ⟨available.take bufsiz ++ buf.bytes.drop available.length, by simp [buf.size_eq]; omega⟩

/-- `sock_msg_to_buf`, with whether `pipe` and `read` succeed. The standard output is not flushed
before the pipe takes its place: what is pending in its buffer comes before the document. -/
def sockMsgToBuf (lib : Libxml2) (pending : List UInt8) (pipe read : Bool) (msg : SockMsg) {bufsiz : Nat}
    (buf : Field bufsiz) : Option (UInt32 × Field bufsiz) :=
  if !pipe then some (1, buf)
  else do
    let xml ← sockMsgToXml lib msg
    let buf := bzero bufsiz
    if !read then return (2, buf)
    return (0, readInto buf (pending ++ xml))

/-- `buf_to_sock_msg_parse_from_fd`, with whether `pipe` and `write` succeed. -/
def bufToSockMsgParseFromFd (lib : Libxml2) (pipe write : Bool) (msg : SockMsg) {bufsiz : Nat} (buf : Field bufsiz) :
    Option (UInt32 × SockMsg) :=
  if !pipe then some (1, msg)
  else do
    let xml ← string buf.bytes
    if !write then return (2, msg)
    let (r, msg) ← xmlToSockMsgParseFromFd lib.readFd xml.bytes msg
    return (if r ≠ 0 then 3 else 0, msg)

end CacheFs.Xml
