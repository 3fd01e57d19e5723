import Mathlib.Data.List.Infix
import CacheFs.Users.LeastUid
import CacheFs.Users.Reading

/-! Adding a user (`get_user_info_by_name` and `adduser` of `namespace_server.c`).

`adduser` asks `grep` whether the name is there, takes a uid from the script, appends the
record and makes the two directories. As `mkfile` makes no directory, a call that has
appended its record goes on to `NULL` (`adduser_cases`). -/
namespace CacheFs.Users
open CacheFs.Namespace
open CacheFs.Xml (ascii)

/-- `USER_INFO_BUFSZ`. -/
def userInfoBufsz : Nat := 1024

/-- `USER_INFO_FILE`. -/
def userInfoFile : List UInt8 := ascii "user_info.txt"

/-- `SHARED_FLAG`. -/
def sharedFlag : UInt8 := 2

/-- `SHARED_DIR_NAME`. -/
def sharedDirName : List UInt8 := ascii "shared"

/-- The super user, `SU_UID` and `SU_GID`. -/
def su : CfsUser := ⟨0, 0⟩

/-! ### Looking a user up -/

/-- The lines of a text in which a pattern occurs. -/
def grep (pattern file : List UInt8) : List UInt8 :=
  ((lines file).filter fun line => decide (pattern <:+: line)).flatMap (· ++ [10])

/-- A letter or a digit. -/
def isAlnum (c : UInt8) : Bool :=
  (48 ≤ c.toNat && c.toNat ≤ 57) || (65 ≤ c.toNat && c.toNat ≤ 90) || (97 ≤ c.toNat && c.toNat ≤ 122)

/-- What `popen` answers, and what a command prints that is no search of the user file. -/
structure Shell where
  popen : Bool
  other : List UInt8 → CString

def shellWords (command : List UInt8) : List (List UInt8) := (command.splitOn 32).filter (· ≠ [])

/-- What a command prints: a plain word is taken by the shell and by `grep` as it is. -/
def Shell.output (shell : Shell) (file command : List UInt8) : List UInt8 :=
  match shellWords command with
  | [program, pattern, path] =>
    if program = ascii "grep" ∧ pattern.all isAlnum ∧ path = userInfoFile then grep pattern file
    else (shell.other command).bytes
  | _ => (shell.other command).bytes

/-- `GET_USER_INFO_CMD_FMT` in a buffer. -/
def getUserInfoCmd (bufsiz : Nat) (userName : CString) : List UInt8 :=
  snprintf bufsiz (ascii "grep " ++ userName.bytes ++ 32 :: userInfoFile)

/-- `get_user_info_by_name`: its return value and what it leaves in the buffer. -/
def getUserInfoByName (rounds : Nat) (shell : Shell) (file : CString) (userName : CString) (bufsiz : Nat) :
    Option (UInt32 × List UInt8) :=
  let command := getUserInfoCmd bufsiz userName
  if shell.popen then do
    let buf ← readLoop bufsiz rounds [] (shell.output file.bytes command)
    return (if buf.length = 0 then 2 else 0, buf)
  else some (1, command)

/-! ### `adduser` -/

/-- What the system answers a call: to the two `popen`s, with the order in which the script
visits its array, to `open`, to `write` with the number of bytes, and to `mkfile`. -/
structure Answers where
  shell : Shell
  order : Option (List Nat)
  opened : Bool
  written : Option Nat
  home : Alloc
  shared : Alloc

/-- The user file, which is text, the namespace and `current_user`. -/
structure System where
  file : CString
  ns : Ns
  currentUser : CfsUser

/-- How a call ends: it returns, or goes on to what C leaves undefined. -/
inductive Ending where
  | returned (ret : UInt32)
  | undefined
  deriving DecidableEq

/-- `adduser` up to the record: the code of a failure, or the uid and the record. -/
def newRecord (tools : Tools) (rounds : Nat) (answers : Answers) (file userName pw : CString) :
    Option (Except UInt32 (UInt32 × CString)) := do
  let (r, buf) ← getUserInfoByName rounds answers.shell file userName userInfoBufsz
  if r ≠ 2 then return .error 1
  else match answers.order with
    | none => return .error 2
    | some order => do
      let buf ← readLoop userInfoBufsz rounds buf (getLeastAvailableUid tools order file.bytes)
      let uid := atoiU32 0 buf
      let record := userInfoFmt uid uid userName.bytes userName.bytes pw.bytes
      return .ok (uid, toCString (snprintf userInfoBufsz record))

/-- `adduser` from `set_cu` on: it makes the home and the shared directory. -/
def makeHome (depth : Nat) (answers : Answers) (userName : CString) (sys : System) : Ending × System :=
  let homePath := toCString (snprintf userInfoBufsz (47 :: userName.bytes))
  match mkfile depth sys.currentUser answers.home sys.ns homePath directoryFile 0o760 with
  | none => (.undefined, sys)
  | some (_, ns) =>
    let sharedPath := toCString (snprintf userInfoBufsz (47 :: userName.bytes ++ 47 :: sharedDirName))
    match mkfile depth sys.currentUser answers.shared ns sharedPath directoryFile 0o760 with
    | none => (.undefined, {sys with ns})
    | some (userSharedDir, ns) =>
      match userSharedDir, userSharedDir.bind ns.node with
      | some p, some n =>
        let node := Function.update ns.node p (some {n with fileType := n.fileType ||| sharedFlag})
        (.returned 0, {sys with ns := {ns with node}, currentUser := su})
      | _, _ => (.undefined, {sys with ns})

/-- A file with so many bytes of a record behind it. -/
def append (file record : CString) (count : Nat) : CString :=
  ⟨file.bytes ++ record.bytes.take count, fun h => (List.mem_append.mp h).elim file.terminated
    fun h => record.terminated (List.mem_of_mem_take h)⟩

/-- `adduser`. An `open` that fails gives a `u32`, which is not below 0: it is `write` that then
fails. -/
def adduser (tools : Tools) (depth rounds : Nat) (answers : Answers) (userName pw : CString) (sys : System) :
    Option (Ending × System) := do
  match ← newRecord tools rounds answers sys.file userName pw with
  | .error ret => return (.returned ret, sys)
  | .ok (uid, record) =>
    match if answers.opened then answers.written else none with
    | none => return (.returned 4, sys)
    | some count =>
      return makeHome depth answers userName
        {sys with file := append sys.file record count, currentUser := ⟨uid, uid⟩}

/-- A system where every call succeeds and the script visits its array in this order. -/
def goodAnswers (order : List Nat) : Answers :=
  ⟨⟨true, fun _ => toCString []⟩, some order, true, some 1000, ⟨some 3, true, true⟩, ⟨some 4, true, true⟩⟩

/-! ### What the calls return -/

theorem zero_not_mem_lines {file line : List UInt8} (h : 0 ∉ file) (hline : line ∈ lines file) : 0 ∉ line := by
  induction file generalizing line with
  | nil => cases hline
  | cons c file ih =>
    obtain ⟨hc, hfile⟩ := not_or.mp (List.mem_cons.not.mp h)
    rw [lines] at hline
    split at hline
    · obtain rfl | hline := List.mem_cons.mp hline
      · exact List.not_mem_nil
      · exact ih hfile hline
    · split at hline
      · rw [List.mem_singleton.mp hline]
        exact fun hzero => hc (List.mem_singleton.mp hzero)
      · rename_i first more hlines
        obtain rfl | hline := List.mem_cons.mp hline
        · have hfirst := ih hfile (hlines ▸ List.mem_cons_self)
          exact fun hzero => (List.mem_cons.mp hzero).elim hc hfirst
        · exact ih hfile (hlines ▸ List.mem_cons_of_mem _ hline)

theorem zero_not_mem_grep (pattern : List UInt8) {file : List UInt8} (h : 0 ∉ file) : 0 ∉ grep pattern file := by
  intro hzero
  obtain ⟨line, hline, hzero⟩ := List.mem_flatMap.mp hzero
  obtain hzero | hzero := List.mem_append.mp hzero
  · exact zero_not_mem_lines h (List.mem_of_mem_filter hline) hzero
  · exact absurd (List.mem_singleton.mp hzero) (by decide)

theorem zero_not_mem_output (shell : Shell) (file : CString) (command : List UInt8) :
    0 ∉ shell.output file.bytes command := by
  unfold Shell.output
  split
  · split
    · exact zero_not_mem_grep _ file.terminated
    · exact (shell.other command).terminated
  · exact (shell.other command).terminated

/-- What the search for a name prints. -/
def found (shell : Shell) (file userName : CString) : List UInt8 :=
  shell.output file.bytes (getUserInfoCmd userInfoBufsz userName)

section Calls
variable {tools : Tools} {depth rounds : Nat} {answers : Answers} {shell : Shell} {file userName pw : CString}
  {sys sys' : System} {r ret uid : UInt32} {buf : List UInt8} {record : CString}

/-- The search returns once all that it prints is read, which must leave room in the buffer. -/
theorem getUserInfoByName_eq (hpopen : shell.popen = true)
    (hfits : (found shell file userName).length + 1 < userInfoBufsz)
    (hrounds : (found shell file userName).length < rounds) :
    getUserInfoByName rounds shell file userName userInfoBufsz =
      some (if found shell file userName = [] then 2 else 0, found shell file userName) := by
  have hread : readLoop userInfoBufsz rounds [] (found shell file userName) = some ([] ++ found shell file userName) :=
    readLoop_fits (zero_not_mem_output shell file _) (by simpa using hfits) hrounds
  rw [found] at hread
  simp only [getUserInfoByName, hpopen, if_true, hread, Option.bind_eq_bind, Option.bind_some, List.nil_append,
    List.length_eq_zero_iff, found]
  rfl

theorem getUserInfoByName_some (h : getUserInfoByName rounds shell file userName userInfoBufsz = some (r, buf)) :
    (shell.popen = false ∧ r = 1) ∨ (shell.popen = true ∧ (found shell file userName).length + 1 < userInfoBufsz ∧
      r = (if found shell file userName = [] then 2 else 0) ∧ buf = found shell file userName) := by
  simp only [getUserInfoByName] at h
  split at h
  · rename_i hpopen
    obtain ⟨got, hread, h⟩ := Option.bind_eq_some_iff.mp h
    obtain ⟨rfl, hfits⟩ := readLoop_some (zero_not_mem_output shell file _) (by decide) hread
    cases h
    refine .inr ⟨hpopen, by simpa [found] using hfits, ?_, rfl⟩
    simp only [List.nil_append, List.length_eq_zero_iff, found]
    rfl
  · rename_i hpopen
    cases h
    exact .inl ⟨by simpa using hpopen, rfl⟩

/-- A name that is found, or a `popen` that fails, ends the call. -/
theorem newRecord_refused (h : getUserInfoByName rounds answers.shell file userName userInfoBufsz = some (r, buf))
    (hr : r ≠ 2) : newRecord tools rounds answers file userName pw = some (.error 1) := by
  simp only [newRecord, h, Option.bind_eq_bind, Option.bind_some, ne_eq, hr, not_false_eq_true, if_true]
  rfl

/-- How `newRecord` ends: refused, without a script, or with the record of a new name. -/
theorem newRecord_cases {result : Except UInt32 (UInt32 × CString)}
    (h : newRecord tools rounds answers file userName pw = some result) :
    (result = .error 1 ∧ ∃ r buf, getUserInfoByName rounds answers.shell file userName userInfoBufsz = some (r, buf) ∧
      r ≠ 2) ∨
    (answers.shell.popen = true ∧ found answers.shell file userName = [] ∧
      ((result = .error 2 ∧ answers.order = none) ∨
        ∃ order buf, answers.order = some order ∧
          readLoop userInfoBufsz rounds [] (getLeastAvailableUid tools order file.bytes) = some buf ∧
          result = .ok (atoiU32 0 buf, toCString (snprintf userInfoBufsz
            (userInfoFmt (atoiU32 0 buf) (atoiU32 0 buf) userName.bytes userName.bytes pw.bytes))))) := by
  simp only [newRecord, Option.bind_eq_bind, Option.bind_eq_some_iff, Prod.exists] at h
  obtain ⟨r, buf, hget, h⟩ := h
  by_cases hr : r = 2
  · subst hr
    obtain ⟨-, hone⟩ | ⟨hpopen, -, hfound, rfl⟩ := getUserInfoByName_some hget
    · cases hone
    · have hnil : found answers.shell file userName = [] := by
        apply Classical.byContradiction
        intro hne
        rw [if_neg hne] at hfound
        cases hfound
      refine .inr ⟨hpopen, hnil, ?_⟩
      rw [hnil] at h
      simp only [ne_eq, not_true_eq_false, if_false] at h
      cases horder : answers.order with
      | none =>
        rw [horder] at h
        cases h
        exact .inl ⟨rfl, rfl⟩
      | some order =>
        rw [horder] at h
        obtain ⟨got, hread, h⟩ := Option.bind_eq_some_iff.mp h
        cases h
        exact .inr ⟨order, got, rfl, hread, rfl⟩
  · simp only [ne_eq, hr, not_false_eq_true, if_true] at h
    cases h
    exact .inl ⟨rfl, r, buf, hget, hr⟩

/-- No home and no shared directory is made: `mkfile` refuses the type. -/
theorem makeHome_eq (depth : Nat) (answers : Answers) (userName : CString) (sys : System) :
    makeHome depth answers userName sys = (.undefined, sys) := rfl

/-- The script's answer is text. -/
theorem zero_not_mem_script (ht : tools.Documented) (order : List Nat) (file : List UInt8) :
    0 ∉ getLeastAvailableUid tools order file := by
  obtain hnil | ⟨line, hline, heq⟩ := script_line ht order file
  · rw [hnil]
    exact List.not_mem_nil
  · rw [heq]
    simp [hline]

/-- For a name that is not found the script is run, if it can be, and its answer read. -/
theorem newRecord_new (hpopen : answers.shell.popen = true) (hfound : found answers.shell file userName = [])
    (hrounds : 0 < rounds) : newRecord tools rounds answers file userName pw =
      match answers.order with
      | none => some (.error 2)
      | some order => (readLoop userInfoBufsz rounds [] (getLeastAvailableUid tools order file.bytes)).map fun buf =>
        .ok (atoiU32 0 buf, toCString (snprintf userInfoBufsz
          (userInfoFmt (atoiU32 0 buf) (atoiU32 0 buf) userName.bytes userName.bytes pw.bytes))) := by
  have hget : getUserInfoByName rounds answers.shell file userName userInfoBufsz = some (2, []) := by
    rw [getUserInfoByName_eq hpopen (by rw [hfound]; decide) (by rw [hfound]; exact hrounds), hfound, if_pos rfl]
  rw [newRecord, hget]
  cases answers.order with
  | none => rfl
  | some order => exact (Option.map_eq_bind ..).symm

/-- **How `adduser` ends**: it returns a code and has changed nothing, or it has appended its record
and goes on to the `NULL` that `mkfile` gave it. -/
theorem adduser_cases {e : Ending} (h : adduser tools depth rounds answers userName pw sys = some (e, sys')) :
    (∃ ret, e = .returned ret ∧ ret ≠ 0 ∧ sys' = sys ∧
      (newRecord tools rounds answers sys.file userName pw = some (.error ret) ∨
        ∃ made, newRecord tools rounds answers sys.file userName pw = some (.ok made) ∧ ret = 4 ∧
          (answers.opened = false ∨ answers.written = none))) ∨
    ∃ uid record count, newRecord tools rounds answers sys.file userName pw = some (.ok (uid, record)) ∧
      answers.opened = true ∧ answers.written = some count ∧ e = .undefined ∧
      sys' = {sys with file := append sys.file record count, currentUser := ⟨uid, uid⟩} := by
  simp only [adduser, Option.bind_eq_bind, Option.bind_eq_some_iff] at h
  obtain ⟨result, hresult, h⟩ := h
  cases result with
  | error ret =>
    cases h
    refine .inl ⟨ret, rfl, ?_, rfl, .inl hresult⟩
    obtain ⟨herror, -⟩ | ⟨-, -, ⟨herror, -⟩ | ⟨_, _, -, -, hok⟩⟩ := newRecord_cases hresult
    · cases herror
      decide
    · cases herror
      decide
    · cases hok
  | ok made =>
    obtain ⟨uid, record⟩ := made
    simp only [makeHome_eq] at h
    cases hopened : answers.opened with
    | false =>
      rw [hopened] at h
      cases h
      exact .inl ⟨4, rfl, by decide, rfl, .inr ⟨_, hresult, rfl, .inl rfl⟩⟩
    | true =>
      rw [hopened, if_pos rfl] at h
      cases hwritten : answers.written with
      | none =>
        rw [hwritten] at h
        cases h
        exact .inl ⟨4, rfl, by decide, rfl, .inr ⟨_, hresult, rfl, .inr rfl⟩⟩
      | some count =>
        rw [hwritten] at h
        cases h
        exact .inr ⟨uid, record, count, hresult, rfl, rfl, rfl, rfl⟩

theorem adduser_refused (hget : getUserInfoByName rounds answers.shell sys.file userName userInfoBufsz = some (r, buf))
    (hr : r ≠ 2) : adduser tools depth rounds answers userName pw sys = some (.returned 1, sys) := by
  unfold adduser
  rw [newRecord_refused hget hr]
  rfl

/-- `adduser` returns 1 when the search does not return 2, and only then. -/
theorem adduser_refuses :
    (∃ rounds sys', adduser tools depth rounds answers userName pw sys = some (.returned 1, sys')) ↔
      ∃ rounds r buf, getUserInfoByName rounds answers.shell sys.file userName userInfoBufsz = some (r, buf) ∧ r ≠ 2 := by
  constructor
  · intro h
    obtain ⟨rounds, sys', hret⟩ := h
    obtain ⟨ret, heq, -, -, hrefused | ⟨_, -, rfl, -⟩⟩ | ⟨_, _, _, -, -, -, heq, -⟩ := adduser_cases hret
    · cases heq
      obtain ⟨-, r, buf, hget, hr⟩ | ⟨-, -, ⟨heq, -⟩ | ⟨_, _, -, -, heq⟩⟩ := newRecord_cases hrefused
      · exact ⟨rounds, r, buf, hget, hr⟩
      · cases heq
      · cases heq
    · cases heq
    · cases heq
  · intro h
    obtain ⟨rounds, r, buf, hget, hr⟩ := h
    exact ⟨rounds, sys, adduser_refused hget hr⟩

end Calls

end CacheFs.Users
