import CacheFs.Xml.Encode

/-! A library that meets what is documented of libxml2.

It saves elements as text only, a content up to its first `&`, and reads what it saved by
taking it apart at each `<`: between two of them is a start tag with its text, or an end
tag with the blanks behind it. -/
namespace CacheFs.Xml
open CacheFs.Namespace (CString)

/-! ### Reading -/

def unescape : List UInt8 → List UInt8
  | 38 :: 108 :: 116 :: 59 :: rest => 60 :: unescape rest
  | 38 :: 103 :: 116 :: 59 :: rest => 62 :: unescape rest
  | 38 :: 97 :: 109 :: 112 :: 59 :: rest => 38 :: unescape rest
  | c :: rest => c :: unescape rest
  | [] => []

/-- The string up to the first terminator. -/
def upToNul (bytes : List UInt8) : CString := ⟨bytes.takeWhile (· ≠ 0), zero_not_mem_takeWhile bytes⟩

/-- What comes before the `>` of a tag, and what after it. -/
def tagName (piece : List UInt8) : List UInt8 := piece.takeWhile (· ≠ 62)

def afterTag (piece : List UInt8) : List UInt8 := (piece.dropWhile (· ≠ 62)).tail

/-- The node of a piece: an element, or the text after an end tag. -/
def pieceNode (piece : List UInt8) : Node :=
  if piece.head? = some 47 then ⟨ascii "text", upToNul (afterTag piece)⟩
  else ⟨tagName piece, upToNul (unescape (afterTag piece))⟩

/-- The pieces are nothing, the declaration, the root and its nodes. -/
def readPieces : List (List UInt8) → Doc
  | _ :: _ :: root :: rest =>
    some (some ⟨tagName root, ⟨ascii "text", upToNul (afterTag root)⟩ :: rest.dropLast.map pieceNode⟩)
  | _ => none

/-- The text of a content up to its first reference. -/
def upToReference (s : CString) : CString :=
  ⟨s.bytes.takeWhile (· ≠ 38), fun h => s.terminated ((List.takeWhile_prefix _).subset h)⟩

/-- The library. -/
def linesLib : Libxml2 where
  Nodes := CString
  newChild := upToReference
  nodeGetContent := id
  saveFormatFileEnc := fun tree => layout false tree.name (tree.children.map fun e => (e.name, e.nodes))
  readFd := fun xml => readPieces (xml.splitOn 60)
  emptyTag := false

theorem unescape_escape (text : List UInt8) : unescape (escape text) = text := by
  induction text with
  | nil => rfl
  | cons c text ih =>
    rw [escape, List.flatMap_cons, ← escape, escapeChar]
    by_cases hlt : c = 60
    · subst hlt
      exact congrArg (60 :: ·) ih
    by_cases hgt : c = 62
    · subst hgt
      exact congrArg (62 :: ·) ih
    by_cases hamp : c = 38
    · subst hamp
      exact congrArg (38 :: ·) ih
    · rw [if_neg hlt, if_neg hgt, if_neg hamp, List.singleton_append]
      rw [unescape.eq_def]
      simp [hamp, ih]

theorem upToNul_bytes (s : CString) : upToNul s.bytes = s := by
  obtain ⟨bytes, hbytes⟩ := s
  rw [upToNul, CString.mk.injEq, List.takeWhile_eq_self_iff]
  intro c hc
  simpa using ne_of_mem_of_not_mem hc hbytes

/-! ### The pieces of a saved document -/

section Pieces
variable {name : List UInt8} {children : List (List UInt8 × CString)} {c : List UInt8 × CString}

def startTag (c : List UInt8 × CString) : List UInt8 := c.1 ++ 62 :: escape c.2.bytes

def endTag (name : List UInt8) : List UInt8 := 47 :: name ++ ascii ">\n"

/-- What stands before the next tag. -/
def indent (children : List (List UInt8 × CString)) : List UInt8 := if children.isEmpty then [] else ascii "  "

/-- The pieces from the first child on. -/
def pieces (name : List UInt8) : List (List UInt8 × CString) → List (List UInt8)
  | [] => [endTag name]
  | c :: rest => startTag c :: (endTag c.1 ++ indent rest) :: pieces name rest

theorem not_mem_name {b : UInt8} (hname : ElementName name) (hb : b.toNat < 95) : b ∉ name := by
  intro hmem
  obtain ⟨hlow, -⟩ | rfl := hname.2.2 b hmem
  · omega
  · exact absurd hb (by decide)

theorem lt_not_mem_escape {text : List UInt8} : 60 ∉ escape text := by
  intro h
  obtain ⟨c, -, hmem⟩ := List.mem_flatMap.mp h
  rw [escapeChar] at hmem
  split at hmem
  · exact absurd hmem (by decide)
  split at hmem
  · exact absurd hmem (by decide)
  split at hmem
  · exact absurd hmem (by decide)
  · rename_i hne _ _
    rw [List.mem_singleton] at hmem
    exact hne hmem.symm

theorem lt_not_mem_endTag (hname : ElementName name) : 60 ∉ endTag name := by
  have hend : 60 ∉ ascii ">\n" := by decide
  simp [endTag, not_mem_name hname (b := 60) (by decide), hend]

theorem lt_not_mem_startTag (hc : ElementName c.1) : 60 ∉ startTag c := by
  simp [startTag, not_mem_name hc (b := 60) (by decide), lt_not_mem_escape]

theorem line_eq (c : List UInt8 × CString) :
    line false c.1 c.2.bytes = ascii "  " ++ 60 :: startTag c ++ 60 :: endTag c.1 := by
  have hopen : ascii "  <" = ascii "  " ++ [60] := by decide
  have hclose : ascii "</" = [60, 47] := by decide
  have hgt : ascii ">" = [62] := by decide
  simp [line, startTag, endTag, hopen, hclose, hgt]

/-- Taking apart what follows some text at each `<`. -/
theorem splitOn_children (hname : ElementName name) (hchildren : ∀ c ∈ children, ElementName c.1) {text : List UInt8}
    (htext : 60 ∉ text) :
    (text ++ ((children.flatMap fun c => line false c.1 c.2.bytes) ++ 60 :: endTag name)).splitOn 60 =
      (text ++ indent children) :: pieces name children := by
  induction children generalizing text with
  | nil =>
    rw [List.flatMap_nil, List.nil_append, List.splitOn_append_cons_self_of_not_mem htext,
      List.splitOn_eq_singleton (lt_not_mem_endTag hname)]
    simp [indent, pieces]
  | cons c rest ih =>
    have hc := hchildren c List.mem_cons_self
    have hblank : 60 ∉ text ++ ascii "  " := by
      have : 60 ∉ ascii "  " := by decide
      simp [htext, this]
    have hsplit : text ++ ((c :: rest).flatMap (fun c => line false c.1 c.2.bytes) ++ 60 :: endTag name) =
        (text ++ ascii "  ") ++ 60 :: (startTag c ++ 60 ::
          (endTag c.1 ++ ((rest.flatMap fun c => line false c.1 c.2.bytes) ++ 60 :: endTag name))) := by
      simp [line_eq]
    rw [hsplit, List.splitOn_append_cons_self_of_not_mem hblank,
      List.splitOn_append_cons_self_of_not_mem (lt_not_mem_startTag hc),
      ih (fun d hd => hchildren d (List.mem_cons_of_mem _ hd)) (lt_not_mem_endTag hc)]
    rfl

theorem tagName_append (hname : ElementName name) (rest : List UInt8) : tagName (name ++ 62 :: rest) = name := by
  rw [tagName, List.takeWhile_append_of_pos fun c hc => by
    simpa using ne_of_mem_of_not_mem hc (not_mem_name hname (b := 62) (by decide))]
  simp

theorem afterTag_append (hname : ElementName name) (rest : List UInt8) : afterTag (name ++ 62 :: rest) = rest := by
  rw [afterTag, List.dropWhile_append_of_pos fun c hc => by
    simpa using ne_of_mem_of_not_mem hc (not_mem_name hname (b := 62) (by decide))]
  simp

theorem pieceNode_startTag (hc : ElementName c.1) : pieceNode (startTag c) = ⟨c.1, c.2⟩ := by
  have hhead : (startTag c).head? ≠ some 47 := by
    obtain ⟨b, rest, hname⟩ := List.exists_cons_of_ne_nil hc.1
    have hb : 47 ∉ c.1 := not_mem_name hc (by decide)
    rw [startTag, hname, List.cons_append, List.head?_cons]
    intro h
    rw [hname, ← Option.some.inj h] at hb
    exact hb List.mem_cons_self
  rw [pieceNode, if_neg hhead, startTag, tagName_append hc, afterTag_append hc, unescape_escape, upToNul_bytes]

/-- The elements among the nodes of the pieces are the children. -/
theorem pieces_elements (hchildren : ∀ c ∈ children, ElementName c.1) :
    ((pieces name children).dropLast.map pieceNode).filter (·.name ≠ ascii "text") =
      children.map fun c => ⟨c.1, c.2⟩ := by
  induction children with
  | nil => rfl
  | cons c rest ih =>
    have hc := hchildren c List.mem_cons_self
    have hne : pieces name rest ≠ [] := by
      cases rest <;> exact List.cons_ne_nil _ _
    have hend : (pieceNode (endTag c.1 ++ indent rest)).name = ascii "text" := rfl
    rw [pieces, List.dropLast_cons_of_ne_nil (List.cons_ne_nil _ _), List.dropLast_cons_of_ne_nil hne, List.map_cons,
      List.map_cons, pieceNode_startTag hc, List.filter_cons_of_pos (by simpa using hc.2.1),
      List.filter_cons_of_neg (by simp [hend]), ih fun d hd => hchildren d (List.mem_cons_of_mem _ hd), List.map_cons]

/-- What is saved is read back, with text nodes between the elements. -/
theorem readPieces_layout (hname : ElementName name) (hchildren : ∀ c ∈ children, ElementName c.1) :
    ∃ nodes, readPieces ((layout false name children).splitOn 60) = some (some ⟨name, nodes⟩) ∧
      nodes.filter (·.name ≠ ascii "text") = children.map fun c => ⟨c.1, c.2⟩ := by
  have hdecl : ascii "<?xml version=\"1.0\" encoding=\"UTF-8\"?>\n<" =
      60 :: (ascii "?xml version=\"1.0\" encoding=\"UTF-8\"?>\n" ++ [60]) := by decide
  have hfree : 60 ∉ ascii "?xml version=\"1.0\" encoding=\"UTF-8\"?>\n" ∧ 60 ∉ ascii ">\n" := by decide
  have hclose : ascii "</" = [60, 47] := by decide
  have hroot : 60 ∉ name ++ ascii ">\n" := by
    simp [not_mem_name hname (b := 60) (by decide), hfree]
  have hlayout : layout false name children = [] ++ 60 :: (ascii "?xml version=\"1.0\" encoding=\"UTF-8\"?>\n" ++
      60 :: ((name ++ ascii ">\n") ++ ((children.flatMap fun c => line false c.1 c.2.bytes) ++ 60 :: endTag name))) := by
    simp [layout, hdecl, hclose, endTag]
  rw [hlayout, List.splitOn_append_cons_self_of_not_mem List.not_mem_nil,
    List.splitOn_append_cons_self_of_not_mem hfree.1, splitOn_children hname hchildren hroot]
  have hgt : ascii ">\n" = [62, 10] := by decide
  have htag : tagName (name ++ ascii ">\n" ++ indent children) = name := by
    rw [hgt, List.append_assoc, List.cons_append, tagName_append hname]
  refine ⟨_, by rw [readPieces, htag], ?_⟩
  rw [List.filter_cons_of_neg (by simp), pieces_elements hchildren]

end Pieces

theorem upToReference_lt {s : CString} (h : 38 ∈ s.bytes) : (upToReference s).bytes.length < s.bytes.length := by
  refine lt_of_le_of_ne (List.takeWhile_prefix _).length_le fun hlen => ?_
  have hall := List.takeWhile_eq_self_iff.mp ((List.takeWhile_prefix _).eq_of_length hlen)
  simpa using hall 38 h

theorem upToReference_eq {s : CString} (h : 38 ∉ s.bytes) : upToReference s = s := by
  obtain ⟨bytes, hbytes⟩ := s
  refine (CString.mk.injEq ..).mpr (List.takeWhile_eq_self_iff.mpr fun c hc => ?_)
  simpa using ne_of_mem_of_not_mem hc h

theorem linesLib_saves (name : List UInt8) (children : List (List UInt8 × CString)) :
    linesLib.saveFormatFileEnc (linesLib.tree name children) =
      layout false name (children.map fun c => (c.1, upToReference c.2)) :=
  congrArg (layout false name) (List.map_map ..)

/-- **The library is as documented.** -/
theorem linesLib_documented : linesLib.Documented where
  text := fun _ hs => upToReference_eq hs
  reference := fun _ hs => upToReference_lt hs
  saves := fun name children _ _ hchildren => by
    rw [linesLib_saves]
    refine congrArg (layout false name) ((List.map_congr_left fun c hc => ?_).trans (List.map_id _))
    rw [upToReference_eq (hchildren c hc).2.2]
    rfl
  reads := fun name children hname hchildren => by
    rw [linesLib_saves]
    have hnames : ∀ c ∈ children.map fun c => (c.1, upToReference c.2), ElementName c.1 := by
      simp only [List.mem_map]
      intro c hc
      obtain ⟨d, hd, rfl⟩ := hc
      exact (hchildren d hd).1
    obtain ⟨nodes, hread, helements⟩ := readPieces_layout hname hnames
    exact ⟨nodes, hread, helements.trans (List.map_map ..)⟩

end CacheFs.Xml
