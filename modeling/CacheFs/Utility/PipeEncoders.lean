import CacheFs.Utility.CommandLine
import CacheFs.Xml.ReplyRoundTrip

/-! The encoders that go through the shell, whole (`utility.c`).

A command line is run with `popen`, and what it prints is read line by line until nothing
comes, behind a terminator that needs a byte of the buffer, and one more that `fgets`
needs to see the end. The plain encoders read once, and are content with less. So both
leave the same in a buffer just when the shell makes the arguments of the line that the
message was made of, and the document is two bytes shorter than the buffer
(`pipe_encoders_agree`); with less room the loop never ends. A size that is no `int` makes
`fgets` return at once, and the buffer stays empty. -/
namespace CacheFs.Utility
open CacheFs.Namespace (CString)
open CacheFs.Xml
open CacheFs.Users (snprintf readLoop readLoop_fits readLoop_full readLoop_some)
open Shell (Ordinary State)

/-! ### The functions of the program -/

/-- The command line of `rpl_msg_to_buf_with_command_line_pipe`. -/
def rplCommandLine (rplMsg : RplMsg) : Option CString :=
  let text := mkXmlToStdout ++ 32 :: [rplMsg.err]
  string (readInto (bzero commandLineLen) (snprintf commandLineLen text)).bytes

/-- What a command line prints. Nothing is said of one that is not a call of the program. -/
def printed (lib : Libxml2) (env : List UInt8 → Option (List (List UInt8))) (line : CString) : Option (List UInt8) := do
  let argv ← Shell.words env line.bytes
  if argv.head? = some mkXmlToStdout then some ((mkXmlMain lib (argv.map upToNul)).getD []) else none

/-- The largest `int`, and one. -/
def intLimit : Nat := 2 ^ 31

/-- The loop of both encoders. `fgets` takes the size as an `int`, and reads nothing into a buffer of
a negative one. -/
def fgetsLoop (bufsiz rounds : Nat) (out : List UInt8) : Option (List UInt8) :=
  if bufsiz < intLimit then readLoop bufsiz rounds [] out else some []

/-- Both encoders from `popen` on, with whether it succeeds, and for so many rounds of the
loop. -/
def readCommand (lib : Libxml2) (env : List UInt8 → Option (List (List UInt8))) (popen : Bool) (rounds : Nat)
    (line : CString) {bufsiz : Nat} (buf : Field bufsiz) : Option (UInt32 × Field bufsiz) :=
  if !popen then some (1, buf)
  else do
    let out ← printed lib env line
    let text ← fgetsLoop bufsiz rounds out
    return (0, readInto (bzero bufsiz) text)

/-- `rpl_msg_to_buf_with_command_line_pipe`. -/
def rplMsgToBufWithCommandLinePipe (lib : Libxml2) (env : List UInt8 → Option (List (List UInt8))) (popen : Bool)
    (rounds : Nat) (rplMsg : RplMsg) {bufsiz : Nat} (buf : Field bufsiz) : Option (UInt32 × Field bufsiz) := do
  let line ← rplCommandLine rplMsg
  readCommand lib env popen rounds line buf

/-- `sock_msg_to_buf_with_command_line_pipe`. -/
def sockMsgToBufWithCommandLinePipe (lib : Libxml2) (env : List UInt8 → Option (List (List UInt8))) (popen : Bool)
    (rounds : Nat) (sockMsg : SockMsg) {bufsiz : Nat} (buf : Field bufsiz) : Option (UInt32 × Field bufsiz) := do
  let line ← commandLine sockMsg
  readCommand lib env popen rounds line buf

/-! ### Documents and their arguments -/

/-- The root of the program's document, and the elements under it. -/
def content : List CString → Option (List UInt8 × List (List UInt8 × CString))
  | [_, err] => some (xmlRplMsgRoot, [(xmlRplMsgErr, err)])
  | [_, type, destIp, fileName] =>
    some (xmlSockMsgRoot, [(xmlSockMsgType, type), (xmlSockMsgDstIp, destIp), (xmlSockMsgFn, fileName)])
  | _ => none

theorem mkXmlMain_content (lib : Libxml2) (argv : List CString) :
    mkXmlMain lib argv = (content argv).map fun x => lib.saveFormatFileEnc (lib.tree x.1 x.2) := by
  -- by how many arguments there are
  rcases argv with _ | ⟨_, _ | ⟨_, _ | ⟨_, _ | ⟨_, _ | ⟨_, _⟩⟩⟩⟩⟩ <;> rfl

/-- The names of the elements are names, and the texts are arguments. -/
theorem content_spec {argv : List CString} {name : List UInt8} {children : List (List UInt8 × CString)}
    (h : content argv = some (name, children)) :
    ElementName name ∧ children ≠ [] ∧ ∀ c ∈ children, ElementName c.1 ∧ c.2 ∈ argv := by
  unfold content at h
  split at h
  · cases h
    refine ⟨rplName.1, List.cons_ne_nil _ _, ?_⟩
    simp [rplName.2]
  · cases h
    refine ⟨elementName_of_mem (by simp), List.cons_ne_nil _ _, ?_⟩
    have htype : ElementName xmlSockMsgType := elementName_of_mem (by simp)
    have hip : ElementName xmlSockMsgDstIp := elementName_of_mem (by simp)
    have hfn : ElementName xmlSockMsgFn := elementName_of_mem (by simp)
    simp [htype, hip, hfn]
  · cases h

/-- Two documents of the same content are made of the same arguments, but for the program. -/
theorem content_injective {argv argv' : List CString} {x : List UInt8 × List (List UInt8 × CString)}
    (h : content argv = some x) (h' : content argv' = some x) : argv.tail = argv'.tail := by
  have hroot : xmlRplMsgRoot ≠ xmlSockMsgRoot := by decide
  unfold content at h h'
  split at h
  · cases h
    split at h'
    · cases h'
      rfl
    · simp [hroot.symm] at h'
    · cases h'
  · cases h
    split at h'
    · simp [hroot] at h'
    · cases h'
      rfl
    · cases h'
  · cases h

section Saved
variable {lib : Libxml2} {name name' : List UInt8} {children children' : List (List UInt8 × CString)}

/-- A child whose text is saved as it is. -/
def Plain (children : List (List UInt8 × CString)) : Prop :=
  ∀ c ∈ children, ElementName c.1 ∧ Printable c.2 ∧ 38 ∉ c.2.bytes

/-- A saved document is read back, so it is that of one content only. -/
theorem saved_injective (hlib : lib.Documented) (hname : ElementName name) (hname' : ElementName name')
    (hplain : Plain children) (hplain' : Plain children')
    (h : lib.saveFormatFileEnc (lib.tree name children) = lib.saveFormatFileEnc (lib.tree name' children')) :
    name = name' ∧ children = children' := by
  obtain ⟨nodes, hread, hnodes⟩ := hlib.reads name children hname fun c hc => ⟨(hplain c hc).1, (hplain c hc).2.1⟩
  obtain ⟨nodes', hread', hnodes'⟩ := hlib.reads name' children' hname' fun c hc =>
    ⟨(hplain' c hc).1, (hplain' c hc).2.1⟩
  rw [h, hread'] at hread
  simp only [Option.some.injEq, Root.mk.injEq] at hread
  obtain ⟨rfl, rfl⟩ := hread
  refine ⟨rfl, ?_⟩
  -- the nodes have the names and the texts of the children
  have texts {l : List (List UInt8 × CString)} (hl : Plain l) :
      (l.map fun c => (⟨c.1, lib.nodeGetContent (lib.newChild c.2)⟩ : Node)) = l.map fun c => ⟨c.1, c.2⟩ := by
    apply List.map_congr_left
    intro c hc
    rw [hlib.text c.2 (hl c hc).2.2]
  rw [hnodes', texts hplain, texts hplain'] at hnodes
  have hmap : Function.Injective fun c : List UInt8 × CString => (⟨c.1, c.2⟩ : Node) := by
    intro c d hcd
    simp only [Node.mk.injEq] at hcd
    exact Prod.ext hcd.1 hcd.2
  exact (hmap.list_map hnodes).symm

theorem zero_not_mem_saved (hlib : lib.Documented) (hname : ElementName name) (hne : children ≠ [])
    (hplain : Plain children) : 0 ∉ lib.saveFormatFileEnc (lib.tree name children) := by
  have nonzero {name : List UInt8} (h : ElementName name) : 0 ∉ name := by
    intro hzero
    obtain hletter | hunderscore := h.2.2 0 hzero
    · exact absurd hletter.1 (by decide)
    · cases hunderscore
  rw [hlib.saves name children hname hne hplain]
  exact zero_not_mem_layout (nonzero hname) fun c hc => nonzero (hplain c hc).1

theorem saved_ne_nil (hlib : lib.Documented) (hname : ElementName name) (hne : children ≠ []) (hplain : Plain children) :
    lib.saveFormatFileEnc (lib.tree name children) ≠ [] := by
  rw [hlib.saves name children hname hne hplain, layout]
  simp [ascii]

end Saved

/-! ### Reading what is printed -/

section Command
variable {lib : Libxml2} {line : CString} {argv : List (List UInt8)} {name : List UInt8}
  {children : List (List UInt8 × CString)} {bufsiz : Nat} {buf : Field bufsiz}

/-- A line of printable characters without `&`, which the shell may not add. -/
def PlainLine (line : CString) : Prop := ∀ c ∈ line.bytes, (32 ≤ c.toNat ∧ c.toNat ≤ 126) ∧ c ≠ 38

/-- The words of such a line are saved as they are. -/
theorem plain_of_words (hline : PlainLine line) (h : Shell.words (fun _ => none) line.bytes = some argv)
    (hcontent : content (argv.map upToNul) = some (name, children)) : Plain children := by
  have chars {w : List UInt8} (hw : w ∈ argv) {c : UInt8} (hc : c ∈ w) : (32 ≤ c.toNat ∧ c.toNat ≤ 126) ∧ c ≠ 38 := by
    obtain hmem | rfl := Shell.mem_of_words h hw hc
    · exact hline c hmem
    · decide
  intro c hc
  obtain ⟨-, -, hchildren⟩ := content_spec hcontent
  obtain ⟨helement, harg⟩ := hchildren c hc
  obtain ⟨w, hw, hcw⟩ := List.mem_map.mp harg
  have hmem {d : UInt8} (hd : d ∈ c.2.bytes) : d ∈ w := by
    rw [← hcw] at hd
    exact List.takeWhile_subset _ hd
  exact ⟨helement, fun d hd => (chars hw (hmem hd)).1, fun hd => (chars hw (hmem hd)).2 rfl⟩

/-- What is in a buffer behind `bzero` and one read of a text that leaves room. -/
theorem readInto_injective {out doc : List UInt8} (hout : 0 ∉ out) (hfits : out.length < bufsiz)
    (hdoc : 0 ∉ doc) (h : readInto (bzero bufsiz) doc = readInto (bzero bufsiz) out) : doc = out := by
  have hstring := string_readInto hout hfits
  rw [← h] at hstring
  by_cases hlen : doc.length < bufsiz
  · rw [string_readInto hdoc hlen, Option.some.injEq, CString.mk.injEq] at hstring
    exact hstring
  · -- a buffer that is full has no terminator
    obtain ⟨hzero, -⟩ := string_eq_some.mp hstring
    have hle : bufsiz ≤ doc.length := Nat.le_of_not_lt hlen
    simp only [readInto, bzero, List.drop_replicate, Nat.sub_eq_zero_of_le hle, List.replicate_zero, List.append_nil]
      at hzero
    exact absurd (List.mem_of_mem_take hzero) hdoc

/-- Words without zeros are the strings of themselves. -/
theorem map_upToNul (h : ∀ w ∈ argv, 0 ∉ w) : (argv.map upToNul).map CString.bytes = argv := by
  rw [List.map_map]
  conv_rhs => rw [← List.map_id argv]
  apply List.map_congr_left
  intro w hw
  exact congrArg CString.bytes (upToNul_bytes ⟨w, h w hw⟩)

theorem readCommand_some {env : List UInt8 → Option (List (List UInt8))} {rounds : Nat} {read : Field bufsiz}
    (h : readCommand lib env true rounds line buf = some (0, read)) :
    ∃ argv, Shell.words env line.bytes = some argv ∧ argv.head? = some mkXmlToStdout ∧ ∃ text,
      fgetsLoop bufsiz rounds ((mkXmlMain lib (argv.map upToNul)).getD []) = some text ∧
      read = readInto (bzero bufsiz) text := by
  simp only [readCommand, Bool.not_true, Bool.false_eq_true, if_false, Option.bind_eq_bind] at h
  obtain ⟨out, hprinted, h⟩ := Option.bind_eq_some_iff.mp h
  obtain ⟨text, hread, hret⟩ := Option.bind_eq_some_iff.mp h
  obtain ⟨argv, hwords, hout⟩ := Option.bind_eq_some_iff.mp hprinted
  split at hout
  · rename_i hprogram
    cases hout
    cases hret
    exact ⟨argv, hwords, hprogram, text, hread, rfl⟩
  · cases hout

/-- A line and the arguments that it is to be read as, and the document of these. -/
structure Call (line : CString) (argv : List (List UInt8)) (name : List UInt8) (children : List (List UInt8 × CString)) :
    Prop where
  content : content (argv.map upToNul) = some (name, children)
  plain : Plain children
  program : argv.head? = some mkXmlToStdout
  strings : ∀ w ∈ argv, 0 ∉ w
  line : PlainLine line

namespace Call
variable (hcall : Call line argv name children)
include hcall

theorem zero_not_mem (hlib : lib.Documented) : 0 ∉ lib.saveFormatFileEnc (lib.tree name children) := by
  obtain ⟨hname, hne, -⟩ := content_spec hcall.content
  exact zero_not_mem_saved hlib hname hne hcall.plain

theorem printed (lib : Libxml2) {env : List UInt8 → Option (List (List UInt8))}
    (hwords : Shell.words env line.bytes = some argv) :
    printed lib env line = some (lib.saveFormatFileEnc (lib.tree name children)) := by
  rw [Utility.printed, hwords]
  simp only [Option.bind_eq_bind, Option.bind_some, if_pos hcall.program, mkXmlMain_content, hcall.content,
    Option.map_some, Option.getD_some]

/-- What prints the same document is called with the same arguments. -/
theorem argv_eq (hlib : lib.Documented) {argv' : List (List UInt8)}
    (hwords : Shell.words (fun _ => none) line.bytes = some argv') (hprogram : argv'.head? = some mkXmlToStdout)
    (h : lib.saveFormatFileEnc (lib.tree name children) = (mkXmlMain lib (argv'.map upToNul)).getD []) : argv' = argv := by
  obtain ⟨hname, hne, -⟩ := content_spec hcall.content
  rw [mkXmlMain_content] at h
  cases hcontent : Utility.content (argv'.map upToNul) with
  | none =>
    rw [hcontent] at h
    exact absurd h (saved_ne_nil hlib hname hne hcall.plain)
  | some x =>
    rw [hcontent] at h
    obtain ⟨hname', -, -⟩ := content_spec hcontent
    obtain ⟨rfl, rfl⟩ := saved_injective hlib hname hname' hcall.plain (plain_of_words hcall.line hwords hcontent) h
    have htail := content_injective hcall.content hcontent
    have hstrings : ∀ w ∈ argv', 0 ∉ w := by
      intro w hw hmem
      obtain hmem | hmem := Shell.mem_of_words hwords hw hmem
      · exact line.terminated hmem
      · cases hmem
    obtain ⟨rest, rfl⟩ := List.head?_eq_some_iff.mp hcall.program
    obtain ⟨rest', rfl⟩ := List.head?_eq_some_iff.mp hprogram
    have hrest : rest.map upToNul = rest'.map upToNul := htail
    rw [← map_upToNul fun w hw => hcall.strings w (List.mem_cons_of_mem _ hw), hrest,
      map_upToNul fun w hw => hstrings w (List.mem_cons_of_mem _ hw)]

/-- The document is what is read just when the line is read as the arguments and there is room
for two bytes more, of a size that `fgets` takes. -/
theorem read_iff (hlib : lib.Documented) (hbufsiz : 0 < bufsiz) (buf : Field bufsiz) :
    (∃ rounds, ∀ env, readCommand lib env true rounds line buf =
        some (0, readInto (bzero bufsiz) (lib.saveFormatFileEnc (lib.tree name children)))) ↔
      (∀ env, Shell.words env line.bytes = some argv) ∧
        (lib.saveFormatFileEnc (lib.tree name children)).length + 1 < bufsiz ∧ bufsiz < intLimit := by
  have hdoc := hcall.zero_not_mem hlib
  constructor
  · intro h
    obtain ⟨rounds, h⟩ := h
    obtain ⟨argv', hwords, hprogram, text, hread, heq⟩ := readCommand_some (h fun _ => none)
    -- what was printed, without zeros
    have hzero : 0 ∉ (mkXmlMain lib (argv'.map upToNul)).getD [] := by
      rw [mkXmlMain_content]
      cases hcontent : Utility.content (argv'.map upToNul) with
      | none => exact List.not_mem_nil
      | some x =>
        obtain ⟨hname, hne, -⟩ := content_spec hcontent
        exact zero_not_mem_saved hlib hname hne (plain_of_words hcall.line hwords hcontent)
    by_cases hint : bufsiz < intLimit
    · rw [fgetsLoop, if_pos hint] at hread
      obtain ⟨rfl, hfits⟩ := readLoop_some hzero (by simpa using hbufsiz) hread
      rw [List.nil_append] at heq
      rw [List.length_nil, Nat.zero_add] at hfits
      have hsame := readInto_injective hzero (Nat.lt_of_succ_lt hfits) hdoc heq
      rw [hcall.argv_eq hlib hwords hprogram hsame] at hwords
      exact ⟨Shell.words_of_none hwords, by rw [hsame]; exact hfits, hint⟩
    · rw [fgetsLoop, if_neg hint] at hread
      cases hread
      obtain ⟨hname, hne, -⟩ := content_spec hcall.content
      have hempty := readInto_injective List.not_mem_nil (by simpa using hbufsiz) hdoc heq
      exact absurd hempty (saved_ne_nil hlib hname hne hcall.plain)
  · intro h
    obtain ⟨hwords, hfits, hint⟩ := h
    refine ⟨(lib.saveFormatFileEnc (lib.tree name children)).length + 1, fun env => ?_⟩
    have hread : readLoop bufsiz _ [] _ = some ([] ++ _) := readLoop_fits hdoc (by simpa using hfits) (Nat.lt_succ_self _)
    simp only [readCommand, hcall.printed lib (hwords env), Bool.not_true, Bool.false_eq_true, if_false,
      Option.bind_eq_bind, Option.bind_some, fgetsLoop, if_pos hint, hread, List.nil_append]
    rfl

/-- With less room the loop goes on for ever. -/
theorem read_full (hlib : lib.Documented) (hbufsiz : 0 < bufsiz) (hwords : ∀ env, Shell.words env line.bytes = some argv)
    (hfull : bufsiz ≤ (lib.saveFormatFileEnc (lib.tree name children)).length + 1) (hint : bufsiz < intLimit) (rounds : Nat)
    (env : List UInt8 → Option (List (List UInt8))) : readCommand lib env true rounds line buf = none := by
  have hread : readLoop bufsiz rounds [] _ = none :=
    readLoop_full (hcall.zero_not_mem hlib) hbufsiz (by simpa using hfull)
  simp only [readCommand, hcall.printed lib (hwords env), Bool.not_true, Bool.false_eq_true, if_false,
    Option.bind_eq_bind, Option.bind_some, fgetsLoop, if_pos hint, hread, Option.bind_none]

end Call

end Command

/-! ### A message -/

section Message
variable {msg : SockMsg} {destIp fileName line : CString}

theorem mem_spaced {name : List UInt8} {c : UInt8} (h : c ∈ spaced name) : c ∈ name ∨ c = 92 := by
  induction name with
  | nil => exact .inl h
  | cons d name ih =>
    rw [spaced] at h
    split at h
    · obtain h | h := List.mem_cons.mp h
      · exact .inr h
      · obtain h | h := List.mem_cons.mp h
        · exact .inl (List.mem_cons.mpr (.inl h))
        · exact (ih h).imp_left (List.mem_cons_of_mem d)
    · obtain h | h := List.mem_cons.mp h
      · exact .inl (List.mem_cons.mpr (.inl h))
      · exact (ih h).imp_left (List.mem_cons_of_mem d)

/-- An address is printable, without `&`. -/
theorem Dotted.printable (h : Dotted destIp.bytes) : Printable destIp ∧ 38 ∉ destIp.bytes := by
  constructor
  · intro c hc
    obtain hdigit | rfl := h.2 c hc
    · omega
    · decide
  · intro hmem
    obtain hdigit | hdot := h.2 38 hmem
    · exact absurd hdigit.1 (by decide)
    · cases hdot

/-- The line of a message of printable names without `&`, where there is one. -/
theorem Call.sockMsg (htype : msg.type ∈ sockmsgTypes) (hdotted : Dotted destIp.bytes) (hprintable : Printable fileName)
    (hplain : 38 ∉ fileName.bytes) (hbytes : line.bytes = command msg.type destIp.bytes (spaced fileName.bytes)) :
    Call line [mkXmlToStdout, [msg.type], destIp.bytes, fileName.bytes] xmlSockMsgRoot
      [(xmlSockMsgType, u8ToStr msg.type), (xmlSockMsgDstIp, destIp), (xmlSockMsgFn, fileName)] := by
  obtain ⟨htypeBytes, htypePrint, htypePlain, -⟩ := type_spec htype
  obtain ⟨hipPrint, hipPlain⟩ := hdotted.printable
  refine ⟨?_, ?_, rfl, ?_, ?_⟩
  · have htype' : upToNul [msg.type] = u8ToStr msg.type := by rw [← htypeBytes, upToNul_bytes]
    simp only [List.map_cons, List.map_nil, Utility.content, htype', upToNul_bytes]
  · simp [Plain, elementName_of_mem, htypePrint, htypePlain, hipPrint, hipPlain, hprintable, hplain]
  · have hprogram : 0 ∉ mkXmlToStdout := by decide
    have htype' : 0 ∉ [msg.type] := htypeBytes ▸ (u8ToStr msg.type).terminated
    simp only [List.mem_cons, List.not_mem_nil, or_false]
    rintro w (rfl | rfl | rfl | rfl)
    · exact hprogram
    · exact htype'
    · exact destIp.terminated
    · exact fileName.terminated
  · have hprogram : ∀ c ∈ mkXmlToStdout, (32 ≤ c.toNat ∧ c.toNat ≤ 126) ∧ c ≠ 38 := forall_of_all (by decide)
    have hspace : (32 ≤ (32 : UInt8).toNat ∧ (32 : UInt8).toNat ≤ 126) ∧ (32 : UInt8) ≠ 38 := by decide
    have text {s : CString} (hprint : Printable s) (hamp : 38 ∉ s.bytes) {c : UInt8} (hc : c ∈ s.bytes) :
        (32 ≤ c.toNat ∧ c.toNat ≤ 126) ∧ c ≠ 38 := ⟨hprint c hc, ne_of_mem_of_not_mem hc hamp⟩
    intro c hc
    rw [hbytes, command, ← htypeBytes] at hc
    simp only [List.mem_append, List.mem_cons] at hc
    obtain hc | rfl | hc | rfl | hc | rfl | hc := hc
    · exact hprogram c hc
    · exact hspace
    · exact text htypePrint htypePlain hc
    · exact hspace
    · exact text hipPrint hipPlain hc
    · exact hspace
    · obtain hc | rfl := mem_spaced hc
      · exact text hprintable hplain hc
      · decide

end Message

/-! ### A reply -/

section Reply
variable {lib : Libxml2} {err : UInt8}

/-- A character that is a word by itself. -/
def Spoken (c : UInt8) : Prop := c ≠ 0 ∧ Ordinary c ∧ c ∉ [35, 42, 63, 126]

instance (c : UInt8) : Decidable (Spoken c) := inferInstanceAs (Decidable (_ ∧ _))

theorem rplCommandLine_eq (err : UInt8) :
    (rplCommandLine ⟨err⟩).map CString.bytes = some (mkXmlToStdout ++ 32 :: (u8ToStr err).bytes) := by
  by_cases hzero : err = 0
  · rw [hzero]
    decide +kernel
  · have hprogram : 0 ∉ mkXmlToStdout := by decide
    have hlength : mkXmlToStdout.length = 18 := by decide
    have htext : 0 ∉ mkXmlToStdout ++ 32 :: [err] := by simp [hprogram, Ne.symm hzero]
    have hfits : (mkXmlToStdout ++ 32 :: [err]).length < commandLineLen := by
      simp [hlength, commandLineLen]
    rw [rplCommandLine, snprintf, List.take_of_length_le (Nat.le_sub_one_of_lt hfits), string_readInto htext hfits,
      u8ToStr_bytes, if_neg hzero]
    rfl

/-- The program and the character are the words of the line, whatever the environment. -/
theorem words_spoken (err : UInt8) :
    (∀ env, Shell.words env (mkXmlToStdout ++ 32 :: (u8ToStr err).bytes) = some [mkXmlToStdout, (u8ToStr err).bytes]) ↔
      Spoken err := by
  rw [Shell.words_eq_some, Shell.start, run_word (by decide) bare_program]
  -- there are 256 characters
  have hall : ∀ n < 256,
      let s := State.run ⟨.plain, [pieces mkXmlToStdout], none⟩ (u8ToStr (UInt8.ofNat n)).bytes
      (s.mode = .plain ∨ s.mode = .comment) ∧ (∀ w ∈ s.words ++ s.word.toList, w.expands = false) ∧
        (s.words ++ s.word.toList).map Shell.Word.text = [mkXmlToStdout, (u8ToStr (UInt8.ofNat n)).bytes] ↔
      Spoken (UInt8.ofNat n) := by decide +kernel
  have herr := hall err.toNat err.toNat_lt
  rwa [UInt8.ofNat_toNat] at herr

theorem rplMsgToXml_spoken (hlib : lib.Documented) (h : Letter err) (hspoken : Spoken err) :
    (rplMsgToXml lib ⟨err⟩).length = 75 := by
  have hplain : escapeChar err = [err] ∧ err ≠ 38 := by
    have hall : ∀ n < 256, Spoken (UInt8.ofNat n) → escapeChar (UInt8.ofNat n) = [UInt8.ofNat n] ∧ UInt8.ofNat n ≠ 38 := by
      decide +kernel
    have herr := hall err.toNat err.toNat_lt
    rw [UInt8.ofNat_toNat] at herr
    exact herr hspoken
  rw [rplMsgToXml_eq hlib h hplain.2, layout]
  simp [line, escape, hplain.1, u8ToStr_bytes, hspoken.1, xmlRplMsgRoot, xmlRplMsgErr, ascii]

theorem Call.rplMsg {line : CString} (herr : Letter err) (hne : err ≠ 38)
    (hbytes : line.bytes = mkXmlToStdout ++ 32 :: (u8ToStr err).bytes) :
    Call line [mkXmlToStdout, (u8ToStr err).bytes] xmlRplMsgRoot [(xmlRplMsgErr, u8ToStr err)] := by
  refine ⟨?_, ?_, rfl, ?_, ?_⟩
  · simp only [List.map_cons, List.map_nil, Utility.content, upToNul_bytes]
  · simp [Plain, rplName, u8ToStr_printable herr, mt ampersand_mem.mp hne]
  · have hprogram : 0 ∉ mkXmlToStdout := by decide
    simp [hprogram, (u8ToStr err).terminated]
  · have hprogram : ∀ c ∈ mkXmlToStdout, (32 ≤ c.toNat ∧ c.toNat ≤ 126) ∧ c ≠ 38 := forall_of_all (by decide)
    intro c hc
    rw [hbytes] at hc
    obtain hc | hc := List.mem_append.mp hc
    · exact hprogram c hc
    · obtain rfl | hc := List.mem_cons.mp hc
      · decide
      · exact ⟨u8ToStr_printable herr c hc, ne_of_mem_of_not_mem hc (mt ampersand_mem.mp hne)⟩

end Reply

/-! ### Both encoders -/

/-- The document of a message is short. -/
theorem savedLength_lt (emptyTag : Bool) {destIp fileName : List UInt8} (hip : destIp.length < inetAddrstrlen)
    (hfn : fileName.length < filePathLen) : savedLength emptyTag destIp fileName + 1 < intLimit := by
  have hescapeIp := escape_length_le destIp
  have hescapeFn := escape_length_le fileName
  simp only [savedLength, inetAddrstrlen, filePathLen, intLimit] at *
  omega

/-- The encoder through the shell returns what the plain one does, whatever the environment. -/
def Same {bufsiz : Nat} (pipe : (List UInt8 → Option (List (List UInt8))) → Nat → Option (UInt32 × Field bufsiz))
    (plain : Option (UInt32 × Field bufsiz)) : Prop := ∃ rounds, ∀ env, pipe env rounds = plain

/-- It never returns. -/
def Hangs {bufsiz : Nat} (pipe : (List UInt8 → Option (List (List UInt8))) → Nat → Option (UInt32 × Field bufsiz)) :
    Prop := ∀ env rounds, pipe env rounds = none

section Encoders
variable {lib : Libxml2} {bufsiz : Nat}

/-- **The encoders through the shell, whole**, when nothing is pending on the standard output. A reply
is encoded alike just when the shell takes its byte for itself and there is room; a message
just when its name is literal, with room for its backslashes on the line and for its document
in the buffer; and the size of that is an `int`. Where only the room in the buffer is missing
the plain encoders cut the document and these hang. -/
theorem pipe_encoders_agree (hlib : lib.Documented) (hbufsiz : 0 < bufsiz) (buf : Field bufsiz) :
    (∀ err, Letter err → err ≠ 38 →
      (Same (fun env rounds => rplMsgToBufWithCommandLinePipe lib env true rounds ⟨err⟩ buf)
          (some (rplMsgToBuf lib [] true true ⟨err⟩ buf)) ↔ Spoken err ∧ 76 < bufsiz ∧ bufsiz < intLimit) ∧
      (Spoken err → bufsiz ≤ 76 → Hangs fun env rounds => rplMsgToBufWithCommandLinePipe lib env true rounds ⟨err⟩ buf)) ∧
    (∀ (msg : SockMsg) (destIp fileName : CString), msg.type ∈ sockmsgTypes →
      string msg.destIp.bytes = some destIp → Dotted destIp.bytes → string msg.fileName.bytes = some fileName →
      Printable fileName → 38 ∉ fileName.bytes → fileName.bytes ≠ [] →
      (Same (fun env rounds => sockMsgToBufWithCommandLinePipe lib env true rounds msg buf)
          (sockMsgToBuf lib [] true true msg buf) ↔
        Literal fileName.bytes ∧ fileName.bytes.length + fileName.bytes.count 32 ≤ 259 ∧
          savedLength lib.emptyTag destIp.bytes fileName.bytes + 1 < bufsiz ∧ bufsiz < intLimit) ∧
      (Literal fileName.bytes → fileName.bytes.length + fileName.bytes.count 32 ≤ 259 →
        bufsiz ≤ savedLength lib.emptyTag destIp.bytes fileName.bytes + 1 →
        Hangs fun env rounds => sockMsgToBufWithCommandLinePipe lib env true rounds msg buf)) := by
  refine ⟨fun err herr hne => ?_, fun msg destIp fileName htype hip hdotted hfn hprintable hplain hnonempty => ?_⟩
  · obtain ⟨line, hsome, hbytes⟩ := Option.map_eq_some_iff.mp (rplCommandLine_eq err)
    have hcall := Call.rplMsg herr hne hbytes
    have hwords := words_spoken err
    rw [← hbytes] at hwords
    simp only [Same, Hangs, rplMsgToBufWithCommandLinePipe, hsome, Option.bind_eq_bind, Option.bind_some]
    constructor
    · refine (hcall.read_iff hlib hbufsiz buf).trans ?_
      rw [hwords]
      refine and_congr_right fun hspoken => ?_
      have hlength := rplMsgToXml_spoken hlib herr hspoken
      rw [rplMsgToXml] at hlength
      rw [hlength]
    · intro hspoken hfull env rounds
      have hlength := rplMsgToXml_spoken hlib herr hspoken
      rw [rplMsgToXml] at hlength
      exact hcall.read_full hlib hbufsiz (hwords.mpr hspoken) (by rw [hlength]; exact hfull)
        (lt_of_le_of_lt hfull (by decide)) rounds env
  · obtain ⟨hipPrint, hipPlain⟩ := hdotted.printable
    have hlength := saved_length hlib htype hipPrint hprintable hipPlain hplain
    have hdirect : sockMsgToBuf lib [] true true msg buf =
        some (0, readInto (bzero bufsiz) (saved lib msg.type destIp fileName)) := by
      simp only [sockMsgToBuf, sockMsgToXml_eq hip hfn]
      rfl
    have hline := commandLine_eq htype hip hfn
    by_cases hfits : fileName.bytes.length + fileName.bytes.count 32 ≤ 259
    · rw [if_pos hfits] at hline
      obtain ⟨line, hsome, hbytes⟩ := Option.map_eq_some_iff.mp hline
      have hcall := Call.sockMsg htype hdotted hprintable hplain hbytes
      have hwords : (∀ env, Shell.words env line.bytes = some [mkXmlToStdout, [msg.type], destIp.bytes, fileName.bytes]) ↔
          Literal fileName.bytes := by
        rw [hbytes]
        exact ⟨literal_of_words htype hdotted hnonempty hprintable, words_of_literal htype hdotted hnonempty⟩
      simp only [Same, Hangs, sockMsgToBufWithCommandLinePipe, hsome, hdirect, Option.bind_eq_bind, Option.bind_some, hfits,
        true_and, forall_const]
      rw [← hlength, ← hwords]
      have hint : (saved lib msg.type destIp fileName).length + 1 < intLimit := by
        rw [hlength]
        exact savedLength_lt _ (msg.destIp.size_eq ▸ string_length hip) (msg.fileName.size_eq ▸ string_length hfn)
      exact ⟨hcall.read_iff hlib hbufsiz buf, fun hargs hfull env rounds =>
        hcall.read_full hlib hbufsiz hargs hfull (lt_of_le_of_lt hfull hint) rounds env⟩
    · -- the spaced name has no room
      rw [if_neg hfits, Option.map_eq_none_iff] at hline
      refine ⟨iff_of_false (fun h => ?_) fun h => hfits h.2.1, fun _ h => absurd h hfits⟩
      obtain ⟨rounds, h⟩ := h
      have hnone := h fun _ => none
      simp only [hdirect, sockMsgToBufWithCommandLinePipe, hline] at hnone
      cases hnone

/-- `RPL_OK` and a message about `some might say.mp3` are encoded alike; with 76 bytes for it, the
reply is not. -/
theorem pipe_encoders_agree_song : ∃ lib : Libxml2, lib.Documented ∧
    (∀ buf : Field xmlBufsz, Same (fun env rounds => rplMsgToBufWithCommandLinePipe lib env true rounds ⟨rplOk⟩ buf)
      (some (rplMsgToBuf lib [] true true ⟨rplOk⟩ buf))) ∧
    (∀ buf : Field 76, Hangs fun env rounds => rplMsgToBufWithCommandLinePipe lib env true rounds ⟨rplOk⟩ buf) ∧
    ∃ (msg : SockMsg) (fileName : CString), string msg.fileName.bytes = some fileName ∧
      fileName.bytes = ascii "some might say.mp3" ∧ ∀ buf : Field xmlBufsz,
      Same (fun env rounds => sockMsgToBufWithCommandLinePipe lib env true rounds msg buf)
        (sockMsgToBuf lib [] true true msg buf) := by
  obtain ⟨destIp, hip⟩ := exists_field inetAddrstrlen (s := ⟨ascii "10.0.0.1", by decide⟩) (by decide)
  obtain ⟨fileName, hfn⟩ := exists_field filePathLen (s := ⟨ascii "some might say.mp3", by decide⟩) (by decide)
  have htype : (77 : UInt8) ∈ sockmsgTypes := by decide
  have hdotted : Dotted (ascii "10.0.0.1") := ⟨by decide, forall_of_all (by decide)⟩
  have hlib := linesLib_documented
  refine ⟨linesLib, hlib, fun buf => ?_, fun buf => ?_, ⟨77, destIp, fileName⟩, _, hfn, rfl, fun buf => ?_⟩
  · exact (((pipe_encoders_agree hlib (by decide) buf).1 rplOk (by decide) (by decide)).1).mpr (by decide)
  · exact ((pipe_encoders_agree hlib (by decide) buf).1 rplOk (by decide) (by decide)).2 (by decide) (by decide)
  · exact ((pipe_encoders_agree hlib (by decide) buf).2 ⟨77, destIp, fileName⟩ _ _ htype hip hdotted hfn
      (printable_of_all (by decide)) (by decide) (by decide)).1.mpr
      ⟨⟨forall_of_all (by decide), by decide, by decide⟩, by decide, by decide⟩

end Encoders

end CacheFs.Utility
