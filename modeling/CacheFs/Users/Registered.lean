import CacheFs.Library.Transition
import CacheFs.Users.NameCheck
import CacheFs.Users.Uids

/-! Which names can be added.

Every start of the server writes the super user's record again and then goes on to `NULL`, as `mkfile`
makes no directory (`initNs_eq`). The user file only grows, by starts and by `adduser`, and what
`grep` finds in it once it finds for ever: a plain name is added once, and not at all where it
occurs in the file already (`registered_once`). -/
namespace CacheFs.Users
open CacheFs.Namespace Transition
open CacheFs.Xml (ascii)

/-! ### `init_ns` -/

/-- `SHARED_DIR`. -/
def sharedDirFlag : UInt8 := 4

/-- `HOME_FOR_SU`. -/
def homeForSu : CString := ⟨ascii "/su", by decide⟩

/-- `HOME_FOR_SHARED`. -/
def homeForShared : CString := ⟨ascii "/shared", by decide⟩

/-- What the system answers `init_ns`: to `open`, to `write` with the number of bytes, and to `mkfile`. -/
structure InitAnswers where
  opened : Bool
  written : Option Nat
  home : Alloc
  shared : Alloc

/-- `ROOT_DIR_NAME`. -/
def rootDirName : CString := ⟨ascii "/", by decide⟩

/-- The root, and nothing else. The other statics are still `NULL`, which is 0 here. -/
def rootOnly : Ns where
  node := Function.update (fun _ => none) 1 (some ⟨rootDirName, directoryFile, su.uid, su.gid, 0o700, 1, [], 0⟩)
  cfsRootDir := 1
  currentWorkingDir := 0
  homeDir := 0
  sharedDir := 0

/-- The record that `init_ns` writes. -/
def suRecord : CString :=
  toCString (snprintf userInfoBufsz
    (userInfoFmt su.uid su.gid superUser.homeDir.bytes superUser.userName.bytes superUser.pw.bytes))

/-- `init_ns`, after which `main` returns 0. An `open` that fails gives a `u32`, which is not below 0,
and what `write` returns is not looked at. -/
def initNs (depth : Nat) (answers : InitAnswers) (file : CString) : Ending × System :=
  let file := match if answers.opened then answers.written else none with
    | none => file
    | some count => append file suRecord count
  let sys : System := ⟨file, rootOnly, su⟩
  match mkfile depth sys.currentUser answers.home sys.ns homeForSu directoryFile 0o700 with
  | none => (.undefined, sys)
  | some (_, ns) =>
    match mkfile depth sys.currentUser answers.shared ns homeForShared directoryFile 0o777 with
    | none => (.undefined, {sys with ns})
    | some (forShare, ns) =>
      match forShare, forShare.bind ns.node with
      | some p, some n =>
        let node := Function.update ns.node p (some {n with fileType := n.fileType ||| sharedDirFlag})
        (.returned 0, {sys with ns := {ns with node}})
      | _, _ => (.undefined, {sys with ns})

/-- **No start gets further** than to write the record: neither directory is made, and the second is `NULL`. -/
theorem initNs_eq (depth : Nat) (answers : InitAnswers) (file : CString) : initNs depth answers file =
    (.undefined, ⟨match if answers.opened then answers.written else none with
      | none => file
      | some count => append file suRecord count, rootOnly, su⟩) := rfl

/-! ### The file over starts and calls -/

/-- A record that was written whole: by a start, or by `adduser`; and how that ended. -/
structure Entry where
  byStart : Bool
  name : CString
  ending : Ending
  deriving DecidableEq

/-- The user file, and the records that were written whole since, the last one first. -/
structure Registry where
  file : CString
  entries : List Entry

inductive Turn where
  /-- The server is started. -/
  | start (depth : Nat) (answers : InitAnswers)
  /-- `adduser` is called, whatever the namespace and `current_user`. -/
  | add (depth rounds : Nat) (answers : Answers) (userName pw : CString) (ns : Ns) (currentUser : CfsUser)

/-- What is registered after a call that is to append this record. -/
def Registry.entered (s : Registry) (file record : CString) (e : Entry) : Registry :=
  ⟨file, if file.bytes = s.file.bytes ++ record.bytes then e :: s.entries else s.entries⟩

def Registry.next (tools : Tools) (s : Registry) : Turn → Option Registry
  | .start depth answers =>
    let (ending, sys) := initNs depth answers s.file
    some (s.entered sys.file suRecord ⟨true, superUser.userName, ending⟩)
  | .add depth rounds answers userName pw ns currentUser =>
    (adduser tools depth rounds answers userName pw ⟨s.file, ns, currentUser⟩).map fun (ending, sys) =>
      match newRecord tools rounds answers s.file userName pw with
      | some (.ok (_, record)) => s.entered sys.file record ⟨false, userName, ending⟩
      | _ => {s with file := sys.file}

def registry (tools : Tools) (file : CString) : Machine Registry Turn where
  start := fun s => s.file = file ∧ s.entries = []
  step := Registry.next tools

/-- A name of letters and digits for which the command fits in the buffer. -/
structure Plain (name : CString) : Prop where
  nonempty : name.bytes ≠ []
  alnum : name.bytes.all isAlnum = true
  fits : name.bytes.length ≤ 1004

/-- The file has only grown, a plain name that `adduser` added was not in it nor registered, and
whoever wrote a record went on to `NULL`. -/
structure RegisteredOnce (file : CString) (s : Registry) : Prop where
  grown : file.bytes <+: s.file.bytes
  absent : ∀ e ∈ s.entries, e.byStart = false → Plain e.name → ¬ e.name.bytes <:+: file.bytes
  once : s.entries.Pairwise fun e old => e.byStart = false → Plain e.name → e.name ≠ old.name
  undefined : ∀ e ∈ s.entries, e.ending = .undefined

/-! ### What `grep` finds -/

/-- A text that begins with a word begins with a line that does. -/
theorem lines_prefix {word : List UInt8} (hne : word ≠ []) (h10 : 10 ∉ word) (rest : List UInt8) :
    ∃ line more, lines (word ++ rest) = line :: more ∧ word <+: line := by
  induction word with
  | nil => exact absurd rfl hne
  | cons c word ih =>
    obtain ⟨hc, hword⟩ := not_or.mp (List.mem_cons.not.mp h10)
    rw [List.cons_append, lines, if_neg (Ne.symm hc)]
    by_cases hnil : word = []
    · subst hnil
      split
      · exact ⟨_, _, rfl, List.prefix_rfl⟩
      · exact ⟨_, _, rfl, List.prefix_append [c] _⟩
    · obtain ⟨line, more, hlines, hprefix⟩ := ih hnil hword
      rw [hlines]
      exact ⟨_, _, rfl, (List.prefix_cons_inj c).mpr hprefix⟩

/-- A word of a text is in a line of it. -/
theorem infix_lines {word file : List UInt8} (hne : word ≠ []) (h10 : 10 ∉ word) (h : word <:+: file) :
    ∃ line ∈ lines file, word <:+: line := by
  obtain ⟨before, rest, rfl⟩ := h
  rw [List.append_assoc]
  induction before with
  | nil =>
    obtain ⟨line, more, hlines, hprefix⟩ := lines_prefix hne h10 rest
    exact ⟨line, by rw [List.nil_append, hlines]; exact List.mem_cons_self, hprefix.isInfix⟩
  | cons c before ih =>
    obtain ⟨line, hline, hinfix⟩ := ih
    rw [List.cons_append, lines]
    split
    · exact ⟨line, List.mem_cons_of_mem _ hline, hinfix⟩
    · split
      · rename_i hnone
        rw [hnone] at hline
        cases hline
      · rename_i first more hlines
        rw [hlines] at hline
        obtain rfl | hline := List.mem_cons.mp hline
        · exact ⟨_, List.mem_cons_self, hinfix.trans (List.suffix_cons c line).isInfix⟩
        · exact ⟨line, List.mem_cons_of_mem _ hline, hinfix⟩

/-! ### Records -/

section Records
variable {tools : Tools} {rounds : Nat} {answers : Answers} {file userName pw : CString} {uid : UInt32}
  {record : CString}

/-- The uid of a record is printed as 0 or -1. -/
theorem decimal_uid (ht : tools.Documented)
    (hnew : newRecord tools rounds answers file userName pw = some (.ok (uid, record))) :
    (decimal (printed uid)).length ≤ 2 ∧ 0 ∉ decimal (printed uid) := by
  obtain rfl | rfl := uid_zero_or ht hnew
  · decide
  · decide

/-- What the line begins with is in the record, if it is text and fits. -/
theorem record_prefix (hnew : newRecord tools rounds answers file userName pw = some (.ok (uid, record)))
    {head : List UInt8} (hhead : head <+: userInfoFmt uid uid userName.bytes userName.bytes pw.bytes)
    (hlength : head.length ≤ userInfoBufsz - 1) (hzero : 0 ∉ head) : head <+: record.bytes := by
  obtain ⟨herror, -⟩ | ⟨-, -, ⟨herror, -⟩ | ⟨order, buf, -, -, hok⟩⟩ := newRecord_cases hnew
  · cases herror
  · cases herror
  · cases hok
    obtain ⟨rest, hrest⟩ := hhead
    have htext : ∀ c ∈ head, (fun c : UInt8 => decide (c ≠ 0)) c = true :=
      fun c hc => decide_eq_true fun heq => hzero (heq ▸ hc)
    show head <+: (List.take (userInfoBufsz - 1) _).takeWhile _
    rw [← hrest, List.take_append, List.take_of_length_le hlength, List.takeWhile_append_of_pos htext]
    exact List.prefix_append _ _

/-- A record is not empty. -/
theorem record_ne_nil (ht : tools.Documented)
    (hnew : newRecord tools rounds answers file userName pw = some (.ok (uid, record))) : record.bytes ≠ [] := by
  obtain ⟨hlength, hzero⟩ := decimal_uid ht hnew
  have hline : decimal (printed uid) <+: userInfoFmt uid uid userName.bytes userName.bytes pw.bytes := by
    rw [userInfoFmt, userInfoLine, List.append_assoc]
    exact List.prefix_append _ _
  have hprefix := record_prefix hnew hline (hlength.trans (by decide)) hzero
  exact fun hnil => decimal_ne_nil _ (List.prefix_nil.mp (hnil ▸ hprefix))

end Records

namespace Plain
variable {name : CString} (h : Plain name)
include h

theorem not_mem {c : UInt8} (hc : isAlnum c = false) : c ∉ name.bytes := by
  intro hmem
  rw [List.all_eq_true.mp h.alnum c hmem] at hc
  cases hc

/-- The search for a plain name is one in the user file. -/
theorem found_eq (shell : Shell) (file : CString) : found shell file name = grep name.bytes file.bytes := by
  have hcommand : getUserInfoCmd userInfoBufsz name = ascii "grep " ++ name.bytes ++ 32 :: userInfoFile := by
    apply List.take_of_length_le
    have hgrep : (ascii "grep ").length = 5 := by decide
    have hfile : userInfoFile.length = 13 := by decide
    have hfits := h.fits
    simp only [List.length_append, List.length_cons, hgrep, hfile, userInfoBufsz]
    omega
  have hwords := (shellWords_command userInfoFile h.nonempty (h.not_mem (by decide)) (by decide)).2
  rw [if_neg (by decide)] at hwords
  rw [found, hcommand, Shell.output, hwords]
  simp only [h.alnum, and_self, if_true]

/-- A plain name that occurs in the file is found. -/
theorem found_ne_nil {file : CString} (hin : name.bytes <:+: file.bytes) (shell : Shell) :
    found shell file name ≠ [] := by
  obtain ⟨line, hline, hinfix⟩ := infix_lines h.nonempty (h.not_mem (by decide)) hin
  rw [h.found_eq, grep]
  intro hnil
  have hmem : line ∈ (lines file.bytes).filter fun line => decide (name.bytes <:+: line) :=
    List.mem_filter.mpr ⟨hline, decide_eq_true hinfix⟩
  have hempty := List.flatMap_eq_nil_iff.mp hnil line hmem
  simp at hempty

/-- No record is made for a plain name that occurs in the file. -/
theorem not_infix {tools : Tools} {rounds : Nat} {answers : Answers} {file pw : CString} {made : UInt32 × CString}
    (hnew : newRecord tools rounds answers file name pw = some (.ok made)) : ¬ name.bytes <:+: file.bytes := by
  intro hin
  obtain ⟨herror, -⟩ | ⟨-, hfound, -⟩ := newRecord_cases hnew
  · cases herror
  · exact h.found_ne_nil hin answers.shell hfound

/-- A record has the name in it. -/
theorem infix_record {tools : Tools} (ht : tools.Documented) {rounds : Nat} {answers : Answers} {file pw : CString}
    {uid : UInt32} {record : CString} (hnew : newRecord tools rounds answers file name pw = some (.ok (uid, record))) :
    name.bytes <:+: record.bytes := by
  obtain ⟨hlength, hzero⟩ := decimal_uid ht hnew
  -- the record begins with the uid twice and the name, which is not cut
  let head := decimal (printed uid) ++ 32 :: (decimal (printed uid) ++ ascii " /" ++ name.bytes)
  have hslash : (ascii " /").length = 2 ∧ (0 : UInt8) ∉ ascii " /" := by decide
  have hbytes : head <+: record.bytes := by
    refine record_prefix hnew ?_ ?_ ?_
    · exact ⟨32 :: name.bytes ++ 32 :: pw.bytes ++ [10], by simp [userInfoFmt, userInfoLine, head]⟩
    · have hfits := h.fits
      simp only [head, List.length_append, List.length_cons, hslash.1, userInfoBufsz]
      omega
    · simp [head, hzero, hslash.2, name.terminated]
  have hname : name.bytes <:+ head :=
    ((List.suffix_append _ _).trans (List.suffix_cons 32 _)).trans (List.suffix_append _ _)
  exact hname.isInfix.trans hbytes.isInfix

end Plain

/-! ### Runs -/

section Runs
variable {tools : Tools} {file : CString} {s s' : Registry}

/-- Every name that is registered is in the file. -/
structure Kept (file : CString) (s : Registry) : Prop extends RegisteredOnce file s where
  inFile : ∀ e ∈ s.entries, Plain e.name → e.name.bytes <:+: s.file.bytes

theorem su_infix_record : superUser.userName.bytes <:+: suRecord.bytes := by decide

/-- The file grows. -/
theorem Kept.grow (h : Kept file s) {file' : CString} (hgrown : s.file.bytes <+: file'.bytes) :
    Kept file {s with file := file'} := by
  refine ⟨⟨h.grown.trans hgrown, h.absent, h.once, h.undefined⟩, ?_⟩
  intro e he hplain
  exact (h.inFile e he hplain).trans hgrown.isInfix

/-- A record is appended, whole or not: of a start, or of a name that is new if it is plain. -/
theorem Kept.entered (h : Kept file s) {file' record : CString} {e : Entry} (hgrown : s.file.bytes <+: file'.bytes)
    (hrecord : Plain e.name → e.name.bytes <:+: record.bytes)
    (hnew : e.byStart = false → Plain e.name → ¬ e.name.bytes <:+: s.file.bytes)
    (hending : s.file.bytes ≠ file'.bytes → e.ending = .undefined) (hne : record.bytes ≠ []) :
    Kept file (s.entered file' record e) := by
  unfold Registry.entered
  split
  · rename_i hwhole
    have hlast : Plain e.name → e.name.bytes <:+: file'.bytes := by
      intro hplain
      rw [hwhole]
      exact (hrecord hplain).trans (List.suffix_append _ _).isInfix
    have hchanged : s.file.bytes ≠ file'.bytes := by
      rw [hwhole]
      intro heq
      exact hne (List.self_eq_append_right.mp heq)
    refine ⟨⟨h.grown.trans hgrown, ?_, ?_, ?_⟩, ?_⟩
    · refine List.forall_mem_cons.mpr ⟨fun hstart hplain hin => ?_, h.absent⟩
      exact hnew hstart hplain (hin.trans h.grown.isInfix)
    · refine List.pairwise_cons.mpr ⟨fun old hold hstart hplain heq => ?_, h.once⟩
      exact hnew hstart hplain (heq ▸ h.inFile old hold (heq ▸ hplain))
    · exact List.forall_mem_cons.mpr ⟨hending hchanged, h.undefined⟩
    · exact List.forall_mem_cons.mpr ⟨hlast, (h.grow hgrown).inFile⟩
  · exact h.grow hgrown

theorem append_grown (file record : CString) (count : Nat) : file.bytes <+: (append file record count).bytes :=
  List.prefix_append _ _

theorem initNs_grown (depth : Nat) (answers : InitAnswers) (file : CString) :
    file.bytes <+: (initNs depth answers file).2.file.bytes := by
  rw [initNs_eq]
  show _ <+: CString.bytes (match (if answers.opened then answers.written else none) with
    | none => file
    | some count => append file suRecord count)
  split
  · exact List.prefix_rfl
  · exact append_grown file suRecord _

theorem adduser_grown {depth rounds : Nat} {answers : Answers} {userName pw : CString} {sys sys' : System} {e : Ending}
    (h : adduser tools depth rounds answers userName pw sys = some (e, sys')) : sys.file.bytes <+: sys'.file.bytes := by
  obtain ⟨_, -, -, rfl, -⟩ | ⟨_, record, count, -, -, -, -, rfl⟩ := adduser_cases h
  · exact List.prefix_rfl
  · exact append_grown sys.file record count

theorem Kept.preserved (ht : tools.Documented) (h : Kept file s) {turn : Turn} (hnext : s.next tools turn = some s') :
    Kept file s' := by
  cases turn with
  | start depth answers =>
    cases hnext
    exact h.entered (initNs_grown depth answers s.file) (fun _ => su_infix_record)
      (fun hstart => Bool.noConfusion hstart) (fun _ => rfl) (by decide)
  | add depth rounds answers userName pw ns currentUser =>
    obtain ⟨⟨ending, sys⟩, hadd, rfl⟩ := Option.map_eq_some_iff.mp hnext
    have hgrown := adduser_grown hadd
    have hending : s.file.bytes ≠ sys.file.bytes → ending = .undefined := by
      intro hne
      obtain ⟨_, -, -, rfl, -⟩ | ⟨_, _, _, -, -, -, hundefined, -⟩ := adduser_cases hadd
      · exact absurd rfl hne
      · exact hundefined
    show Kept file (match newRecord tools rounds answers s.file userName pw with
      | some (.ok (_, record)) => s.entered sys.file record ⟨false, userName, ending⟩
      | _ => {s with file := sys.file})
    split
    · rename_i uid record hnew
      exact h.entered hgrown (fun hplain => hplain.infix_record ht hnew) (fun _ hplain => hplain.not_infix hnew)
        hending (record_ne_nil ht hnew)
    · exact h.grow hgrown

theorem kept (ht : tools.Documented) (h : Reachable (registry tools file) s) : Kept file s := by
  refine h.invariant ?_ fun s turn s' hinv _ hstep => hinv.preserved ht hstep
  rintro ⟨file', entries⟩ ⟨rfl, rfl⟩
  exact ⟨⟨List.prefix_rfl, by simp, .nil, by simp⟩, by simp⟩

end Runs

/-- **Names are registered once**: over any starts of the server and any calls of `adduser`, whatever
their answers, a plain name is added no more than once, and not when it was in the file before. -/
theorem registered_once {tools : Tools} (ht : tools.Documented) {file : CString} {s : Registry}
    (h : Reachable (registry tools file) s) : RegisteredOnce file s :=
  (kept ht h).toRegisteredOnce

/-- The server is started and `bob` is added; he cannot be added again. -/
theorem registered_once_bob : ∃ s, Reachable (registry integerTools (userFile [])) s ∧
    s.entries.map (fun e => e.name.bytes) = [ascii "bob", ascii "su"] ∧ RegisteredOnce (userFile []) s := by
  let bob : CString := ⟨ascii "bob", by decide⟩
  obtain ⟨s, hreach, hs⟩ := Reach.exists_run (M := registry integerTools (userFile [])) (R := always)
    [.start 0 ⟨true, some 15, ⟨none, true, true⟩, ⟨none, true, true⟩⟩,
      .add 0 20 (goodAnswers [1]) bob ⟨ascii "x", by decide⟩ rootOnly su,
      .add 0 20 (goodAnswers [1]) bob ⟨ascii "x", by decide⟩ rootOnly su]
    (fun s => s.entries.map (fun e => e.name.bytes) = [ascii "bob", ascii "su"])
    (.start (s := ⟨userFile [], []⟩) ⟨rfl, rfl⟩) (by decide +kernel)
  exact ⟨s, hreach, of_decide_eq_true hs, registered_once integerTools_documented hreach⟩

end CacheFs.Users
