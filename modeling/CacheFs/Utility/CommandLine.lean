import CacheFs.Library.ShellWords
import CacheFs.Users.Reading
import CacheFs.Xml.Replies
import CacheFs.Xml.RoundTrip

/-! Encoding a message through the shell (`utility.c`, `make_xml.c`).

The message is put on a command line, with a backslash before each space of the file
name, and `mk_xml_to_stdout` makes the document of its arguments. The line is one of the
program and the three arguments just for the names that are literal to the shell but for
their spaces (`words_command`), and only then, and with room for the backslashes, the
document is the encoder's own (`encoders_agree`). -/
namespace CacheFs.Utility
open CacheFs.Namespace (CString)
open CacheFs.Xml
open CacheFs.Users (snprintf)
open Shell (Ordinary Piece Word State)

/-! ### The functions of the program -/

/-- `COMMAND_LINE`. -/
def commandLineLen : Nat := 512

/-- `CH_SPACE`. -/
def chSpace : UInt8 := 32

/-- The loop of `do_space_in_file_name`: what it writes. -/
def spaced : List UInt8 → List UInt8
  | [] => []
  | c :: p => if c = chSpace then 92 :: c :: spaced p else c :: spaced p

/-- `do_space_in_file_name`, when the array has room for what it writes. -/
def doSpaceInFileName (str : CString) {size : Nat} (dest : Field size) : Option (Field size) :=
  if (spaced str.bytes).length ≤ size then some (readInto dest (spaced str.bytes)) else none

/-- The name of the program on the command line. -/
def mkXmlToStdout : List UInt8 := ascii "./mk_xml_to_stdout"

/-- What `sock_msg_to_buf_with_command_line_pipe` prints for its `popen`. -/
def command (type : UInt8) (destIp fileName : List UInt8) : List UInt8 :=
  mkXmlToStdout ++ 32 :: ([type] ++ 32 :: (destIp ++ 32 :: fileName))

/-- The command line of `sock_msg_to_buf_with_command_line_pipe`. -/
def commandLine (msg : SockMsg) : Option CString := do
  let sockMsgFn ← string msg.fileName.bytes
  let buf ← doSpaceInFileName sockMsgFn (bzero filePathLen)
  let fileName ← string buf.bytes
  let destIp ← string msg.destIp.bytes
  let text := command msg.type destIp.bytes fileName.bytes
  string (readInto (bzero commandLineLen) (snprintf commandLineLen text)).bytes

/-- `mk_xml_sock_msg_to_xml`: what it writes. -/
def mkXmlSockMsgToXml (lib : Libxml2) (type destIp fileName : CString) : List UInt8 :=
  lib.saveFormatFileEnc (lib.tree xmlSockMsgRoot
    [(xmlSockMsgType, type), (xmlSockMsgDstIp, destIp), (xmlSockMsgFn, fileName)])

/-- `mk_xml_rpl_msg_to_xml`: what it writes. -/
def mkXmlRplMsgToXml (lib : Libxml2) (err : CString) : List UInt8 :=
  lib.saveFormatFileEnc (lib.tree xmlRplMsgRoot [(xmlRplMsgErr, err)])

/-- `main` of `make_xml.c`: what it writes, unless it fails. -/
def mkXmlMain (lib : Libxml2) : List CString → Option (List UInt8)
  | [_, err] => some (mkXmlRplMsgToXml lib err)
  | [_, type, destIp, fileName] => some (mkXmlSockMsgToXml lib type destIp fileName)
  | _ => none

/-! ### Both encoders -/

/-- Whatever the environment, the shell makes the program and the three arguments of the line,
and the program the document that `sock_msg_to_xml` makes. -/
def Agree (lib : Libxml2) (msg : SockMsg) (destIp fileName : CString) : Prop :=
  ∃ line, commandLine msg = some line ∧ ∀ env, ∃ argv, Shell.words env line.bytes = some argv ∧
    argv = [mkXmlToStdout, [msg.type], destIp.bytes, fileName.bytes] ∧
    mkXmlMain lib (argv.map upToNul) = sockMsgToXml lib msg

/-- A word of these characters, with its spaces quoted. -/
def pieces (name : List UInt8) : Word := name.map fun c => ⟨c, c = 32⟩

/-- A name that is literal to the shell when its spaces are quoted. -/
structure Literal (name : List UInt8) : Prop where
  ordinary : ∀ c ∈ name, c = 32 ∨ Ordinary c
  noComment : name.head? ≠ some 35
  noExpansion : (pieces name).expands = false

/-- Digits and dots. -/
def Dotted (destIp : List UInt8) : Prop := destIp ≠ [] ∧ ∀ c ∈ destIp, 48 ≤ c.toNat ∧ c.toNat ≤ 57 ∨ c = 46

/-! ### What is written -/

section Spaced
variable {name : List UInt8}

@[simp] theorem spaced_space (name : List UInt8) : spaced (32 :: name) = 92 :: 32 :: spaced name := rfl

theorem spaced_cons {c : UInt8} (hc : c ≠ 32) (name : List UInt8) : spaced (c :: name) = c :: spaced name := if_neg hc

theorem spaced_append (left right : List UInt8) : spaced (left ++ right) = spaced left ++ spaced right := by
  induction left with
  | nil => rfl
  | cons c left ih =>
    rw [List.cons_append, spaced, spaced, ih]
    split <;> rfl

theorem spaced_eq_self (h : 32 ∉ name) : spaced name = name := by
  induction name with
  | nil => rfl
  | cons c name ih =>
    have hc : c ≠ 32 := fun hc => h (hc ▸ List.mem_cons_self)
    rw [spaced_cons hc, ih fun hmem => h (List.mem_cons_of_mem c hmem)]

theorem spaced_length (name : List UInt8) : (spaced name).length = name.length + name.count 32 := by
  induction name with
  | nil => rfl
  | cons c name ih =>
    by_cases hc : c = 32
    · rw [hc, spaced_space]
      simp only [List.length_cons, List.count_cons_self, ih]
      omega
    · rw [spaced_cons hc, List.count_cons_of_ne hc]
      simp only [List.length_cons, ih]
      omega

theorem spaced_countP (name : List UInt8) : (spaced name).countP State.isQuote = name.countP State.isQuote := by
  induction name with
  | nil => rfl
  | cons c name ih =>
    by_cases hc : c = 32
    · have hnone : State.isQuote 92 = false ∧ State.isQuote 32 = false := ⟨rfl, rfl⟩
      rw [hc, spaced_space]
      simp [hnone, ih]
    · rw [spaced_cons hc, List.countP_cons, List.countP_cons, ih]

/-- The backslashes are the name's own and one for each space. -/
theorem spaced_backslashes (name : List UInt8) : (spaced name).count 92 = name.count 92 + name.count 32 := by
  induction name with
  | nil => rfl
  | cons c name ih =>
    by_cases hc : c = 32
    · rw [hc, spaced_space]
      simp [ih]
      omega
    · rw [spaced_cons hc, List.count_cons, ih, List.count_cons, List.count_cons_of_ne hc]
      omega

theorem zero_not_mem_spaced (h : 0 ∉ name) : 0 ∉ spaced name := by
  induction name with
  | nil => exact h
  | cons c name ih =>
    have hc : (0 : UInt8) ≠ c := fun hc => h (hc ▸ List.mem_cons_self)
    have hrest := ih fun hmem => h (List.mem_cons_of_mem c hmem)
    rw [spaced]
    split <;> simp [hc, hrest]

end Spaced

/-! ### What the shell reads -/

section Words
variable {ws : List Word} {w : Word} {name text rest : List UInt8} {c : UInt8}

@[simp] theorem pieces_append (left right : List UInt8) : pieces (left ++ right) = pieces left ++ pieces right :=
  List.map_append

@[simp] theorem pieces_text (name : List UInt8) : (pieces name).text = name := by
  unfold Word.text pieces
  rw [List.map_map]
  exact List.map_id name

/-- One character of a name is one character of a word. -/
theorem run_char (hc : c = 32 ∨ Ordinary c) {word : Option Word} (hcomment : c ≠ 35 ∨ word ≠ none) :
    State.run ⟨.plain, ws, word⟩ (spaced [c]) = ⟨.plain, ws, some (word.getD [] ++ pieces [c])⟩ := by
  by_cases hspace : c = 32
  · rw [hspace]
    exact State.step_backslash (s := ⟨.plain, ws, word⟩) rfl
  · have hc : Ordinary c := hc.resolve_left hspace
    have hquoted : decide (c = 32) = false := decide_eq_false hspace
    rw [spaced_cons hspace, spaced, State.run_cons, State.run_nil, State.step_ordinary rfl hc hcomment]
    simp [State.push, pieces, hquoted]

theorem run_spaced_from (hname : ∀ c ∈ name, c = 32 ∨ Ordinary c) :
    State.run ⟨.plain, ws, some w⟩ (spaced name) = ⟨.plain, ws, some (w ++ pieces name)⟩ := by
  induction name generalizing w with
  | nil => simp [spaced, pieces]
  | cons c name ih =>
    have hcons : c :: name = [c] ++ name := rfl
    rw [hcons, spaced_append, State.run_append, run_char (hname c List.mem_cons_self) (.inr (by simp)),
      ih fun c hc => hname c (List.mem_cons_of_mem _ hc), pieces_append, ← List.append_assoc]
    rfl

/-- A name that is not empty is one word. -/
theorem run_spaced (hne : name ≠ []) (hname : ∀ c ∈ name, c = 32 ∨ Ordinary c) (hcomment : name.head? ≠ some 35) :
    State.run ⟨.plain, ws, none⟩ (spaced name) = ⟨.plain, ws, some (pieces name)⟩ := by
  cases name with
  | nil => exact absurd rfl hne
  | cons c name =>
    have hcons : c :: name = [c] ++ name := rfl
    have hc : c ≠ 35 := fun hc => hcomment (by rw [hc]; rfl)
    rw [hcons, spaced_append, State.run_append, run_char (hname c List.mem_cons_self) (.inl hc),
      run_spaced_from fun c hc => hname c (List.mem_cons_of_mem _ hc)]
    rfl

/-- A character that is the same to the shell wherever it stands. -/
def Bare (c : UInt8) : Prop := Ordinary c ∧ c ∉ [35, 42, 63, 91, 126]

instance (c : UInt8) : Decidable (Bare c) := inferInstanceAs (Decidable (_ ∧ _))

/-- A word of such characters, and the blank behind it. -/
theorem run_word (hne : text ≠ []) (htext : ∀ c ∈ text, Bare c) :
    State.run ⟨.plain, ws, none⟩ (text ++ 32 :: rest) = State.run ⟨.plain, ws ++ [pieces text], none⟩ rest := by
  have hspace : 32 ∉ text := fun h => absurd (htext 32 h) (by decide)
  have hcomment : text.head? ≠ some 35 := fun h => absurd (htext 35 (List.mem_of_head? h)) (by decide)
  have hword : State.run ⟨.plain, ws, none⟩ (spaced text) = ⟨.plain, ws, some (pieces text)⟩ :=
    run_spaced hne (fun c hc => .inr (htext c hc).1) hcomment
  rw [spaced_eq_self hspace] at hword
  rw [State.run_append, hword, State.run_cons, State.step_blank rfl]
  rfl

theorem hasBracket_eq_false (h : ⟨91, false⟩ ∉ w) : w.hasBracket = false := by
  induction w with
  | nil => rfl
  | cons p w ih =>
    have hp : p ≠ ⟨91, false⟩ := fun hp => h (hp ▸ List.mem_cons_self)
    have hw := ih fun hmem => h (List.mem_cons_of_mem p hmem)
    simp [Word.hasBracket, hp, hw]

theorem bare_not_expands (htext : ∀ c ∈ text, Bare c) : (pieces text).expands = false := by
  have hmem (c : UInt8) (hc : ¬ Bare c) (quoted : Bool) : ⟨c, quoted⟩ ∉ pieces text := by
    intro h
    obtain ⟨d, hd, hpiece⟩ := List.mem_map.mp h
    cases hpiece
    exact hc (htext c hd)
  have hstar := hmem 42 (by decide) false
  have hquestion := hmem 63 (by decide) false
  have hbracket := hasBracket_eq_false (hmem 91 (by decide) false)
  have htilde : (pieces text).head? ≠ some ⟨126, false⟩ := fun h =>
    hmem 126 (by decide) false (List.mem_of_head? h)
  simp [Word.expands, Word.isPattern, Word.hasTilde, hstar, hquestion, hbracket, htilde]

end Words

/-! ### The words of the line -/

section Command
variable {type : UInt8} {destIp name rest : List UInt8}

/-- The words before the file name. -/
def leading (type : UInt8) (destIp : List UInt8) : List Word :=
  [pieces mkXmlToStdout, pieces [type], pieces destIp]

theorem bare_program : ∀ c ∈ mkXmlToStdout, Bare c := forall_of_all (by decide)

theorem bare_type (htype : type ∈ sockmsgTypes) : Bare type := by
  have hall : ∀ type ∈ sockmsgTypes, Bare type := forall_of_all (by decide)
  exact hall type htype

theorem bare_destIp (hip : Dotted destIp) : ∀ c ∈ destIp, Bare c := by
  intro c hc
  obtain hdigit | rfl := hip.2 c hc
  · have hne (d : UInt8) (hd : d.toNat < 48 ∨ 57 < d.toNat) : c ≠ d := by
      rintro rfl
      omega
    simp [Bare, Ordinary, Shell.isExpansion, Shell.isOperator, Shell.isBlank, hne]
  · decide

/-- The shell comes to the file name with three words. -/
theorem run_command (htype : type ∈ sockmsgTypes) (hip : Dotted destIp) :
    Shell.start.run (command type destIp rest) = State.run ⟨.plain, leading type destIp, none⟩ rest := by
  have hprogram : mkXmlToStdout ≠ [] := by decide
  have htype' : ∀ c ∈ [type], Bare c := by simpa using bare_type htype
  rw [Shell.start, command, run_word hprogram bare_program, run_word (List.cons_ne_nil _ _) htype',
    run_word hip.1 (bare_destIp hip)]
  rfl

theorem leading_not_expands (htype : type ∈ sockmsgTypes) (hip : Dotted destIp) :
    ∀ w ∈ leading type destIp, w.expands = false := by
  have htype' : ∀ c ∈ [type], Bare c := by simpa using bare_type htype
  simp [leading, bare_not_expands bare_program, bare_not_expands htype', bare_not_expands (bare_destIp hip)]

/-- A literal name is the last of four words. -/
theorem words_of_literal (htype : type ∈ sockmsgTypes) (hip : Dotted destIp) (hne : name ≠ []) (hname : Literal name)
    (env : List UInt8 → Option (List (List UInt8))) :
    Shell.words env (command type destIp (spaced name)) = some [mkXmlToStdout, [type], destIp, name] := by
  have hrun : Shell.start.run (command type destIp (spaced name)) = ⟨.plain, leading type destIp, some (pieces name)⟩ := by
    rw [run_command htype hip, run_spaced hne hname.ordinary hname.noComment]
  refine Shell.words_eq_some.mpr ?_ env
  rw [hrun]
  refine ⟨.inl rfl, ?_, by simp [leading]⟩
  intro w hw
  obtain hw | hw := List.mem_append.mp hw
  · exact leading_not_expands htype hip w hw
  · obtain rfl : w = pieces name := by simpa using hw
    exact hname.noExpansion

/-- A character that is not ordinary, and neither a backslash nor a blank, ends the command or is lost. -/
theorem step_special {s : State} {c : UInt8} (hmode : s.mode = .plain) (hc : ¬ Ordinary c) (hbackslash : c ≠ 92)
    (hblank : Shell.isBlank c = false) : (s.step c).mode = .compound ∨ (s.step c).mode = .expansion ∨
      State.isQuote c = true ∧ (s.step c).kept = s.kept := by
  obtain ⟨hc', -⟩ | hquote | ⟨mode, hended, hstep⟩ | ⟨hblank', -⟩ | ⟨rfl, -⟩ | ⟨hc', -⟩ :=
    State.step_plain_cases hmode c
  · exact absurd hc' hbackslash
  · exact .inr (.inr hquote)
  · rw [hstep]
    obtain rfl | rfl := hended
    · exact .inr (.inl rfl)
    · exact .inl rfl
  · rw [hblank] at hblank'
    cases hblank'
  · exact absurd (by decide) hc
  · exact absurd hc' hc

theorem kept_eq_flatten (s : State) : s.kept = ((s.words ++ s.word.toList).map Word.text).flatten :=
  List.map_flatten

theorem kept_some (ws : List Word) (w : Word) :
    (State.mk .plain ws (some w)).kept = (State.mk .plain ws none).kept ++ w.text := by
  simp [kept_eq_flatten]

/-- A name that is kept whole has no backslash: it would take two of the spaced name's. -/
theorem no_backslash {s : State} (hmode : s.mode = .plain)
    (hkept : (s.run (spaced name)).kept = s.kept ++ name) : 92 ∉ name := by
  have hunquoted : s.mode.Unquoted := by
    rw [hmode]
    exact ⟨by decide, by decide, by decide⟩
  have hpending : s.pending = 0 := by simp [State.pending, hmode]
  have hcases := State.weight_kept_le hunquoted (spaced name)
  rw [hkept, spaced_countP, spaced_backslashes, hpending] at hcases
  simp only [State.weight, List.count_append, List.countP_append] at hcases
  have hcount : name.count 92 = 0 := by omega
  exact List.count_eq_zero.mp hcount

/-- Nothing of a name that is kept whole means anything to the shell. -/
theorem ordinary_of_kept {ws : List Word} (hprintable : ∀ c ∈ name, 32 ≤ c.toNat ∧ c.toNat ≤ 126) (hcomment : name.head? ≠ some 35)
    (hmode : (State.run ⟨.plain, ws, none⟩ (spaced name)).mode = .plain ∨
      (State.run ⟨.plain, ws, none⟩ (spaced name)).mode = .comment)
    (hkept : (State.run ⟨.plain, ws, none⟩ (spaced name)).kept = (State.mk .plain ws none).kept ++ name) :
    ∀ c ∈ name, c = 32 ∨ Ordinary c := by
  by_contra h
  have hfind : (name.find? fun c => decide ¬ (c = 32 ∨ Ordinary c)).isSome := by
    simpa using h
  obtain ⟨c, hc⟩ := Option.isSome_iff_exists.mp hfind
  obtain ⟨htrue, before, behind, rfl, hfalse⟩ := List.find?_eq_some_iff_append.mp hc
  have hspecial := of_decide_eq_true htrue
  have hbefore : ∀ c ∈ before, c = 32 ∨ Ordinary c := fun c hc => by simpa using hfalse c hc
  have hmem : c ∈ before ++ c :: behind := by simp
  have hspace : c ≠ 32 := fun hspace => hspecial (.inl hspace)
  have hbackslash : c ≠ 92 := fun hbackslash => no_backslash (s := ⟨.plain, ws, none⟩) rfl hkept (hbackslash ▸ hmem)
  have hblank : Shell.isBlank c = false := by
    have htab : c ≠ 9 := by
      rintro rfl
      exact absurd (hprintable 9 hmem).1 (by decide)
    simp [Shell.isBlank, hspace, htab]
  -- the state that the shell comes to the character with
  obtain ⟨word, hrun, hword⟩ : ∃ word, State.run ⟨.plain, ws, none⟩ (spaced before) = ⟨.plain, ws, word⟩ ∧
      (State.mk .plain ws word).kept = (State.mk .plain ws none).kept ++ before := by
    cases before with
    | nil => exact ⟨none, rfl, (List.append_nil _).symm⟩
    | cons d before => exact ⟨_, run_spaced (List.cons_ne_nil _ _) hbefore hcomment, by rw [kept_some, pieces_text]⟩
  have hline : spaced (before ++ c :: behind) = spaced before ++ c :: spaced behind := by
    rw [spaced_append, spaced_cons hspace]
  rw [hline, State.run_append, hrun, State.run_cons] at hmode hkept
  obtain hmode' | hmode' | ⟨hquote, hlost⟩ := step_special (s := ⟨.plain, ws, word⟩) rfl
    (fun hc => hspecial (.inr hc)) hbackslash hblank
  · rw [State.run_ended (.inr (.inl hmode')), hmode'] at hmode
    revert hmode
    decide
  · rw [State.run_ended (.inr (.inr hmode')), hmode'] at hmode
    revert hmode
    decide
  · have hle := State.countP_kept_le State.isQuote rfl (State.step ⟨.plain, ws, word⟩ c) (spaced behind)
    rw [hkept, hlost, hword, spaced_countP] at hle
    simp only [List.countP_append, List.countP_cons, hquote, if_true] at hle
    omega

/-- What the shell makes one word of is literal. -/
theorem literal_of_words (htype : type ∈ sockmsgTypes) (hip : Dotted destIp) (hne : name ≠ [])
    (hprintable : ∀ c ∈ name, 32 ≤ c.toNat ∧ c.toNat ≤ 126)
    (h : ∀ env, Shell.words env (command type destIp (spaced name)) = some [mkXmlToStdout, [type], destIp, name]) :
    Literal name := by
  obtain ⟨hmode, hexpands, htexts⟩ := Shell.words_eq_some.mp h
  rw [run_command htype hip] at hmode hexpands htexts
  have hcomment : name.head? ≠ some 35 := by
    intro hhead
    obtain ⟨name', rfl⟩ : ∃ name', name = 35 :: name' := ⟨name.tail, List.eq_cons_of_mem_head? hhead⟩
    have hended : State.run ⟨.plain, leading type destIp, none⟩ (spaced (35 :: name')) =
        ⟨.comment, leading type destIp, none⟩ := State.run_ended (.inl rfl) (spaced name')
    rw [hended] at htexts
    exact absurd (congrArg List.length htexts) (by simp [leading])
  have hkept : (State.run ⟨.plain, leading type destIp, none⟩ (spaced name)).kept =
      (State.mk .plain (leading type destIp) none).kept ++ name := by
    rw [kept_eq_flatten, htexts, kept_eq_flatten]
    simp [leading]
  have hordinary := ordinary_of_kept hprintable hcomment hmode hkept
  refine ⟨hordinary, hcomment, ?_⟩
  rw [run_spaced hne hordinary hcomment] at hexpands
  exact hexpands (pieces name) (by simp)

end Command

/-! ### The line -/

section CommandLine
variable {lib : Libxml2} {msg : SockMsg} {destIp fileName : CString}

/-- The spaced name must fit its array with a terminator. -/
theorem doSpaceInFileName_string (str : CString) : ((doSpaceInFileName str (bzero filePathLen)).bind fun buf => string buf.bytes) =
    if str.bytes.length + str.bytes.count 32 ≤ 259 then some ⟨spaced str.bytes, zero_not_mem_spaced str.terminated⟩ else none := by
  have hlength := spaced_length str.bytes
  have hzero := zero_not_mem_spaced str.terminated
  rw [doSpaceInFileName]
  by_cases hfits : str.bytes.length + str.bytes.count 32 ≤ 259
  · rw [if_pos (by rw [filePathLen]; omega), if_pos hfits]
    exact string_readInto hzero (by rw [filePathLen]; omega)
  rw [if_neg hfits]
  split
  · rename_i hle
    have hfull : (spaced str.bytes).length = filePathLen := by
      rw [filePathLen] at hle ⊢
      omega
    -- the array is full, without a terminator
    have hbytes : (readInto (bzero filePathLen) (spaced str.bytes)).bytes = spaced str.bytes := by
      simp [readInto, bzero, hfull, List.take_of_length_le hfull.le]
    rw [Option.bind_some, hbytes, string, if_neg hzero]
  · rfl

/-- Neither the address nor the file name is long enough for the line to be cut. -/
theorem commandLine_eq (htype : msg.type ∈ sockmsgTypes) (hip : string msg.destIp.bytes = some destIp)
    (hfn : string msg.fileName.bytes = some fileName) : (commandLine msg).map CString.bytes =
      if fileName.bytes.length + fileName.bytes.count 32 ≤ 259 then
        some (command msg.type destIp.bytes (spaced fileName.bytes))
      else none := by
  have hunfold : commandLine msg =
      ((doSpaceInFileName fileName (bzero filePathLen)).bind fun buf => string buf.bytes).bind fun escaped =>
        string (readInto (bzero commandLineLen)
          (snprintf commandLineLen (command msg.type destIp.bytes escaped.bytes))).bytes := by
    rw [commandLine, hfn, hip, Option.bind_assoc]
    rfl
  rw [hunfold, doSpaceInFileName_string]
  by_cases hfits : fileName.bytes.length + fileName.bytes.count 32 ≤ 259
  · rw [if_pos hfits, if_pos hfits, Option.bind_some]
    have hzero : 0 ∉ command msg.type destIp.bytes (spaced fileName.bytes) := by
      have hprogram : 0 ∉ mkXmlToStdout := by decide
      have hnone : 0 ≠ msg.type := by
        rintro h
        rw [← h] at htype
        revert htype
        decide
      simp [command, hprogram, hnone, destIp.terminated, zero_not_mem_spaced fileName.terminated]
    have hlength : (command msg.type destIp.bytes (spaced fileName.bytes)).length < commandLineLen := by
      have hprogram : mkXmlToStdout.length = 18 := by decide
      have hip' := string_length hip
      rw [msg.destIp.size_eq, inetAddrstrlen] at hip'
      simp only [command, List.length_append, List.length_cons, List.length_nil, spaced_length, hprogram, commandLineLen]
      omega
    rw [snprintf, List.take_of_length_le (Nat.le_sub_one_of_lt hlength), string_readInto hzero hlength]
    rfl
  · rw [if_neg hfits, if_neg hfits]
    rfl

/-- The program makes the same document of the arguments. -/
theorem mkXmlMain_eq (htype : msg.type ∈ sockmsgTypes) (hip : string msg.destIp.bytes = some destIp)
    (hfn : string msg.fileName.bytes = some fileName) :
    mkXmlMain lib ([mkXmlToStdout, [msg.type], destIp.bytes, fileName.bytes].map upToNul) = sockMsgToXml lib msg := by
  have htype' : upToNul [msg.type] = u8ToStr msg.type := by
    rw [← (type_spec htype).1, upToNul_bytes]
  rw [sockMsgToXml_eq hip hfn]
  simp only [List.map_cons, List.map_nil, htype', upToNul_bytes]
  rfl

/-- Both encoders agree when there is a line, and it is of these words. -/
theorem agree_iff (htype : msg.type ∈ sockmsgTypes) (hip : string msg.destIp.bytes = some destIp)
    (hfn : string msg.fileName.bytes = some fileName) : Agree lib msg destIp fileName ↔
      fileName.bytes.length + fileName.bytes.count 32 ≤ 259 ∧
        ∀ env, Shell.words env (command msg.type destIp.bytes (spaced fileName.bytes)) =
          some [mkXmlToStdout, [msg.type], destIp.bytes, fileName.bytes] := by
  have hline := commandLine_eq htype hip hfn
  constructor
  · rintro ⟨line, hsome, hwords⟩
    rw [hsome, Option.map_some] at hline
    split at hline
    · rename_i hfits
      refine ⟨hfits, fun env => ?_⟩
      obtain ⟨argv, hargv, rfl, -⟩ := hwords env
      rw [← Option.some.inj hline, hargv]
    · cases hline
  · rintro ⟨hfits, hwords⟩
    rw [if_pos hfits] at hline
    obtain ⟨line, hsome, hbytes⟩ := Option.map_eq_some_iff.mp hline
    refine ⟨line, hsome, fun env => ⟨_, ?_, rfl, mkXmlMain_eq htype hip hfn⟩⟩
    rw [hbytes, hwords env]

/-- For every printable name: the encoders agree just when all but the spaces of the name is
literal to the shell, and there is room for a backslash before each. -/
theorem encoders_agree (htype : msg.type ∈ sockmsgTypes) (hip : string msg.destIp.bytes = some destIp)
    (hdotted : Dotted destIp.bytes) (hfn : string msg.fileName.bytes = some fileName) (hprintable : Printable fileName)
    (hne : fileName.bytes ≠ []) : Agree lib msg destIp fileName ↔
      Literal fileName.bytes ∧ fileName.bytes.length + fileName.bytes.count 32 ≤ 259 := by
  rw [agree_iff htype hip hfn, and_comm]
  exact and_congr_left' ⟨literal_of_words htype hdotted hne hprintable, words_of_literal htype hdotted hne⟩

/-- A file named `some might say.mp3`. -/
theorem encoders_agree_song : ∃ (msg : SockMsg) (destIp fileName : CString),
    string msg.destIp.bytes = some destIp ∧ destIp.bytes = ascii "10.0.0.1" ∧
    string msg.fileName.bytes = some fileName ∧ fileName.bytes = ascii "some might say.mp3" ∧
      ∀ lib, Agree lib msg destIp fileName := by
  obtain ⟨destIp, hip⟩ := exists_field inetAddrstrlen (s := ⟨ascii "10.0.0.1", by decide⟩) (by decide)
  obtain ⟨fileName, hfn⟩ := exists_field filePathLen (s := ⟨ascii "some might say.mp3", by decide⟩) (by decide)
  have htype : (77 : UInt8) ∈ sockmsgTypes := by decide
  have hdotted : Dotted (ascii "10.0.0.1") := ⟨by decide, forall_of_all (by decide)⟩
  refine ⟨⟨77, destIp, fileName⟩, _, _, hip, rfl, hfn, rfl, fun lib => ?_⟩
  exact (encoders_agree htype hip hdotted hfn (printable_of_all (by decide)) (by decide)).mpr
    ⟨⟨forall_of_all (by decide), by decide, by decide⟩, by decide⟩

/-- With a character that means something to the shell, or without room, some message's encoders
disagree. -/
theorem not_agree (name : CString) (hprintable : Printable name) (hlength : name.bytes.length < filePathLen)
    (hne : name.bytes ≠ []) (h : (∃ c ∈ name.bytes, c ≠ 32 ∧ ¬ Ordinary c) ∨ 259 < name.bytes.length + name.bytes.count 32) :
    ∃ (msg : SockMsg) (destIp : CString), msg.type = 77 ∧ string msg.destIp.bytes = some destIp ∧
      destIp.bytes = ascii "10.0.0.1" ∧ string msg.fileName.bytes = some name ∧ ∀ lib, ¬ Agree lib msg destIp name := by
  obtain ⟨destIp, hip⟩ := exists_field inetAddrstrlen (s := ⟨ascii "10.0.0.1", by decide⟩) (by decide)
  obtain ⟨fileName, hfn⟩ := exists_field filePathLen hlength
  have htype : (77 : UInt8) ∈ sockmsgTypes := by decide
  have hdotted : Dotted (ascii "10.0.0.1") := ⟨by decide, forall_of_all (by decide)⟩
  refine ⟨⟨77, destIp, fileName⟩, _, rfl, hip, rfl, hfn, fun lib hagree => ?_⟩
  obtain ⟨hfits, hwords⟩ := (agree_iff htype hip hfn).mp hagree
  obtain ⟨c, hc, hspace, hspecial⟩ | hlong := h
  · have hliteral := literal_of_words htype hdotted hne hprintable hwords
    exact hspecial ((hliteral.ordinary c hc).resolve_left hspace)
  · omega

/-- A file named `don't go away.mp3`, and one named by a space and 258 letters. -/
theorem encoders_disagree :
    (∃ (msg : SockMsg) (destIp fileName : CString), msg.type = 77 ∧ string msg.destIp.bytes = some destIp ∧
      destIp.bytes = ascii "10.0.0.1" ∧ string msg.fileName.bytes = some fileName ∧
      fileName.bytes = ascii "don't go away.mp3" ∧ ∀ lib, ¬ Agree lib msg destIp fileName) ∧
    ∃ (msg : SockMsg) (destIp fileName : CString), msg.type = 77 ∧ string msg.destIp.bytes = some destIp ∧
      destIp.bytes = ascii "10.0.0.1" ∧ string msg.fileName.bytes = some fileName ∧
      fileName.bytes = 32 :: List.replicate 258 97 ∧ Printable fileName ∧ ∀ lib, ¬ Agree lib msg destIp fileName := by
  constructor
  · obtain ⟨msg, destIp, htype, hip, hdotted, hfn, hnot⟩ := not_agree ⟨ascii "don't go away.mp3", by decide⟩
      (printable_of_all (by decide)) (by decide) (by decide) (.inl ⟨39, by decide⟩)
    exact ⟨msg, destIp, _, htype, hip, hdotted, hfn, rfl, hnot⟩
  · have hzero : 0 ∉ (32 : UInt8) :: List.replicate 258 97 := by
      rw [List.mem_cons, List.mem_replicate]
      decide
    have hprintable : Printable ⟨32 :: List.replicate 258 97, hzero⟩ := by
      intro c hc
      obtain rfl | hc := List.mem_cons.mp hc
      · decide
      · obtain rfl := List.eq_of_mem_replicate hc
        decide
    have hlength : ((32 : UInt8) :: List.replicate 258 97).length = 259 := by
      rw [List.length_cons, List.length_replicate]
    have hlong : 259 < ((32 : UInt8) :: List.replicate 258 97).length + ((32 : UInt8) :: List.replicate 258 97).count 32 := by
      rw [hlength, List.count_cons_self]
      omega
    obtain ⟨msg, destIp, htype, hip, hdotted, hfn, hnot⟩ := not_agree _ hprintable
      (by rw [hlength, filePathLen]; omega) (List.cons_ne_nil _ _) (.inr hlong)
    exact ⟨msg, destIp, _, htype, hip, hdotted, hfn, rfl, hprintable, hnot⟩

end CommandLine

end CacheFs.Utility
