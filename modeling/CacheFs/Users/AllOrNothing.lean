import CacheFs.Namespace.PathLookup
import CacheFs.Users.Adduser

/-! Whether `adduser` is all or nothing.

Up to the `write` a failure is a code and nothing has changed. After it the record stands in
the file, no directory is made, and the call goes on to `NULL`, with the new user as
the current one. So it is all or nothing just when it does not come so far
(`all_or_nothing`). -/
namespace CacheFs.Users
open CacheFs.Namespace
open CacheFs.Xml (ascii)

/-- A directory has a child of this name. -/
def HasChild (ns : Ns) (p : Ptr) (name : List UInt8) (q : Ptr) : Prop :=
  ∃ n m, ns.node p = some n ∧ q ∈ n.child ∧ ns.node q = some m ∧ m.name.bytes = name

/-- One record is appended, and the user has a home with a link to the shared directory in it. -/
structure UserAdded (sys sys' : System) (userName pw : CString) (uid : UInt32) : Prop where
  record : sys'.file.bytes = sys.file.bytes ++ userInfoFmt uid uid userName.bytes userName.bytes pw.bytes
  home : ∃ d n, HasChild sys'.ns sys'.ns.cfsRootDir userName.bytes d ∧ sys'.ns.node d = some n ∧
    isDirFile n.fileType ∧ n.uid = uid ∧
    ∃ q m, HasChild sys'.ns d sharedDirName q ∧ sys'.ns.node q = some m ∧
      isDirFile m.fileType ∧ isSharedFlagSet m.fileType

/-- `adduser` returns, with the super user as the current one, and has added the user, or has changed
neither the user file nor the namespace and returns another code than 0. -/
def AllOrNothing (tools : Tools) (depth : Nat) (answers : Answers) (userName pw : CString) (sys : System) : Prop :=
  ∃ rounds ret sys', adduser tools depth rounds answers userName pw sys = some (.returned ret, sys') ∧
    sys'.currentUser = su ∧
    ((ret = 0 ∧ ∃ uid, UserAdded sys sys' userName pw uid) ∨ (ret ≠ 0 ∧ sys'.file = sys.file ∧ sys'.ns = sys.ns))

/-- The call ends before its record is written: `popen` fails, or the name is found in a line, or the
script cannot be run, or the file cannot be opened and written; and what the commands print
before that leaves room in the buffer. -/
def StopsEarly (tools : Tools) (answers : Answers) (file userName : CString) : Prop :=
  answers.shell.popen = false ∨
  (found answers.shell file userName ≠ [] ∧ (found answers.shell file userName).length ≤ 1022) ∨
  (found answers.shell file userName = [] ∧ (answers.opened = false ∨ answers.written = none ∨ answers.order = none) ∧
    ∀ order ∈ answers.order, (getLeastAvailableUid tools order file.bytes).length ≤ 1022)

section AllOrNothing
variable {tools : Tools} {depth : Nat} {answers : Answers} {userName pw : CString} {sys : System}

/-- A call that returns has stopped early, and has changed nothing. -/
theorem stopsEarly_of_returned (ht : tools.Documented) {rounds : Nat} {ret : UInt32} {sys' : System}
    (h : adduser tools depth rounds answers userName pw sys = some (.returned ret, sys')) :
    sys' = sys ∧ StopsEarly tools answers sys.file userName := by
  obtain ⟨ret', -, -, hsame, hstop⟩ | ⟨_, _, _, -, -, -, heq, -⟩ := adduser_cases h
  · refine ⟨hsame, ?_⟩
    obtain ⟨result, hresult, hwrite⟩ : ∃ result, newRecord tools rounds answers sys.file userName pw = some result ∧
        ((∃ made, result = .ok made) → answers.opened = false ∨ answers.written = none) := by
      obtain hrefused | ⟨made, hmade, -, hwrite⟩ := hstop
      · exact ⟨_, hrefused, fun h => by obtain ⟨_, heq⟩ := h; cases heq⟩
      · exact ⟨_, hmade, fun _ => hwrite⟩
    obtain ⟨-, r, buf, hget, hr⟩ | ⟨hpopen, hnil, ⟨-, horder⟩ | ⟨order, buf, horder, hread, hok⟩⟩ :=
      newRecord_cases hresult
    · obtain ⟨hpopen, -⟩ | ⟨-, hfits, rfl, -⟩ := getUserInfoByName_some hget
      · exact .inl hpopen
      · refine .inr (.inl ⟨fun hnil => hr (if_pos hnil), ?_⟩)
        rw [userInfoBufsz] at hfits
        omega
    · refine .inr (.inr ⟨hnil, .inr (.inr horder), fun order horder' => ?_⟩)
      rw [horder] at horder'
      cases horder'
    · refine .inr (.inr ⟨hnil, ?_, fun order' horder' => ?_⟩)
      · obtain hopened | hwritten := hwrite ⟨_, hok⟩
        · exact .inl hopened
        · exact .inr (.inl hwritten)
      · rw [horder] at horder'
        cases horder'
        have hfits := (readLoop_some (zero_not_mem_script ht order sys.file.bytes) (by decide) hread).2
        rw [userInfoBufsz, List.length_nil] at hfits
        omega
  · cases heq

/-- A call that is to stop early does, and returns the code of what failed. -/
theorem returned_of_stopsEarly (ht : tools.Documented) (h : StopsEarly tools answers sys.file userName) :
    ∃ rounds ret, ret ≠ 0 ∧ adduser tools depth rounds answers userName pw sys = some (.returned ret, sys) := by
  by_cases hpopen : answers.shell.popen = true
  · obtain hno | ⟨hne, hfits⟩ | ⟨hnil, hwrite, hfits⟩ := h
    · rw [hpopen] at hno
      cases hno
    · have hfits' : (found answers.shell sys.file userName).length + 1 < userInfoBufsz := by
        rw [userInfoBufsz]
        omega
      have hget := getUserInfoByName_eq hpopen hfits' (Nat.lt_succ_self _)
      rw [if_neg hne] at hget
      exact ⟨_, 1, by decide, adduser_refused hget (by decide)⟩
    · cases horder : answers.order with
      | none =>
        have hnew : newRecord tools 1 answers sys.file userName pw = _ := newRecord_new hpopen hnil Nat.one_pos
        rw [horder] at hnew
        exact ⟨1, 2, by decide, by rw [adduser, hnew]; rfl⟩
      | some order =>
        have hlen := hfits order (by rw [horder]; rfl)
        have hread : readLoop userInfoBufsz 1023 [] (getLeastAvailableUid tools order sys.file.bytes) = _ :=
          readLoop_fits (zero_not_mem_script ht order sys.file.bytes) (by rw [userInfoBufsz, List.length_nil]; omega)
            (by omega)
        have hnew : newRecord tools 1023 answers sys.file userName pw = _ := newRecord_new hpopen hnil (by decide)
        rw [horder] at hnew
        simp only [hread, Option.map_some] at hnew
        have hwritten : (if answers.opened then answers.written else none) = none := by
          obtain hopened | hwritten | hno := hwrite
          · rw [hopened]
            rfl
          · rw [hwritten, ite_self]
          · rw [horder] at hno
            cases hno
        refine ⟨1023, 4, by decide, ?_⟩
        simp only [adduser, hnew, Option.bind_eq_bind, Option.bind_some, hwritten]
        rfl
  · have hfalse : answers.shell.popen = false := by simpa using hpopen
    have hget : getUserInfoByName 0 answers.shell sys.file userName userInfoBufsz =
        some (1, getUserInfoCmd userInfoBufsz userName) := by
      simp [getUserInfoByName, hfalse]
    exact ⟨0, 1, by decide, adduser_refused hget (by decide)⟩

end AllOrNothing

/-- **`adduser` is all or nothing** just when the super user is the current one and the call stops
before its record is written. -/
theorem all_or_nothing {tools : Tools} (ht : tools.Documented) (depth : Nat) (answers : Answers) (userName pw : CString)
    (sys : System) : AllOrNothing tools depth answers userName pw sys ↔
      sys.currentUser = su ∧ StopsEarly tools answers sys.file userName := by
  constructor
  · intro h
    obtain ⟨rounds, ret, sys', hret, hcurrent, -⟩ := h
    obtain ⟨rfl, hstops⟩ := stopsEarly_of_returned ht hret
    exact ⟨hcurrent, hstops⟩
  · intro h
    obtain ⟨hcurrent, hstops⟩ := h
    obtain ⟨rounds, ret, hne, hret⟩ := returned_of_stopsEarly ht hstops
    exact ⟨rounds, ret, sys, hret, hcurrent, .inr ⟨hne, rfl, rfl⟩⟩

/-- The super user adds `bob`: the record is written, with the uid -1, and no home is made. -/
theorem not_all_or_nothing : ∃ sys userName pw, sys.file = userFile [superUser] ∧ sys.ns.WellFormed ∧
    sys.currentUser = su ∧ userName.bytes = ascii "bob" ∧
    ((adduser integerTools 1 20 (goodAnswers [1]) userName pw sys).map fun x => (x.1, x.2.file.bytes)) =
      some (.undefined, ascii "0 0 /su su 123\n-1 -1 /bob bob x\n") ∧
    ¬ AllOrNothing integerTools 1 (goodAnswers [1]) userName pw sys := by
  let sys : System := ⟨userFile [superUser], smallNs 0, su⟩
  let userName : CString := ⟨ascii "bob", by decide⟩
  have hfound : found (goodAnswers [1]).shell sys.file userName = [] := by decide +kernel
  refine ⟨sys, userName, ⟨ascii "x", by decide⟩, rfl, smallNs_wellFormed 0 rfl, rfl, rfl, ?_, fun h => ?_⟩
  · decide +kernel
  · obtain ⟨rounds, ret, sys', hret, -⟩ := h
    obtain ⟨-, hno | ⟨hne, -⟩ | ⟨-, hno | hno | hno, -⟩⟩ := stopsEarly_of_returned integerTools_documented hret
    · cases hno
    · exact hne hfound
    · cases hno
    · cases hno
    · cases hno

/-- The file cannot be opened: nothing is changed. -/
theorem all_or_nothing_closed : ∃ answers userName, answers.opened = false ∧ answers.written = some 1000 ∧
    userName.bytes = ascii "bob" ∧
    ∀ pw, AllOrNothing integerTools 0 answers userName pw ⟨userFile [superUser], smallNs 0, su⟩ := by
  refine ⟨{goodAnswers [1] with opened := false}, ⟨ascii "bob", by decide⟩, rfl, rfl, rfl, fun pw => ?_⟩
  refine (all_or_nothing integerTools_documented 0 _ _ pw _).mpr ⟨rfl, .inr (.inr ⟨by decide +kernel, .inl rfl, ?_⟩)⟩
  intro order horder
  cases horder
  decide +kernel

end CacheFs.Users
