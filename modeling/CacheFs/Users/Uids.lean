import CacheFs.Namespace.PathLookup
import CacheFs.Users.Adduser

/-! Whether the uids that `adduser` gives are unique.

`awk` ends the number that it prints with a newline, `fgets` keeps that, and `atoi_u32` takes
it for an invalid character. So whatever the script finds, the uid is -1
(`uid_of_newRecord`), and the second user gets that of the first (`uids_unique`). -/
namespace CacheFs.Users
open CacheFs.Namespace
open CacheFs.Xml (ascii)

/-- A sequence of calls of `adduser` from one user file to another, with the names and the uids of
those that appended a record. The other calls returned a code; `awk` visits its array in
any order, and nothing is said of the namespace and of `current_user`. -/
inductive Adds (tools : Tools) : CString → List (CString × UInt32) → CString → Prop where
  | nil (file) : Adds tools file [] file
  | append {depth rounds answers userName pw sys e sys' uid record rest file'} :
    (∀ order ∈ answers.order, Visits (lines sys.file.bytes).length order) →
    newRecord tools rounds answers sys.file userName pw = some (.ok (uid, record)) →
    answers.opened = true → answers.written.isSome →
    adduser tools depth rounds answers userName pw sys = some (e, sys') →
    Adds tools sys'.file rest file' → Adds tools sys.file ((userName, uid) :: rest) file'
  | failed {depth rounds answers userName pw sys ret sys' rest file'} :
    adduser tools depth rounds answers userName pw sys = some (.returned ret, sys') →
    Adds tools sys'.file rest file' → Adds tools sys.file rest file'

/-- The uids are not that of the super user, and pairwise different. -/
def UidsUnique (added : List (CString × UInt32)) : Prop :=
  su.uid ∉ added.map Prod.snd ∧ (added.map Prod.snd).Nodup

section Uids
variable {tools : Tools} {rounds : Nat} {answers : Answers} {file userName pw : CString} {uid : UInt32} {record : CString}

/-- The uid of a new record is 0 if the script has printed nothing, and -1 if it has. -/
theorem uid_of_newRecord (ht : tools.Documented)
    (h : newRecord tools rounds answers file userName pw = some (.ok (uid, record))) :
    ∃ order, answers.order = some order ∧
      uid = if getLeastAvailableUid tools order file.bytes = [] then 0 else -1 := by
  obtain ⟨herror, -⟩ | ⟨-, -, ⟨herror, -⟩ | ⟨order, buf, horder, hread, hok⟩⟩ := newRecord_cases h
  · cases herror
  · cases herror
  · refine ⟨order, horder, ?_⟩
    obtain ⟨rfl, -⟩ := readLoop_some (zero_not_mem_script ht order file.bytes) (by decide) hread
    cases hok
    rw [List.nil_append]
    obtain hnil | ⟨line, -, hline⟩ := script_line ht order file.bytes
    · rw [hnil]
      rfl
    · rw [hline, if_neg (by simp), atoiU32_newline]

theorem uid_zero_or (ht : tools.Documented)
    (h : newRecord tools rounds answers file userName pw = some (.ok (uid, record))) : uid = 0 ∨ uid = -1 := by
  obtain ⟨order, -, huid⟩ := uid_of_newRecord ht h
  rw [huid]
  split
  · exact .inl rfl
  · exact .inr rfl

/-- With the super user alone the script prints 1. -/
theorem script_su (ht : tools.Documented) {order : List Nat} (h : Visits 1 order) :
    getLeastAvailableUid tools order (text [superUser]) = decimal 1 ++ [10] := by
  have huids : sortedUids tools [superUser] = [0] := List.perm_singleton.mp (sortedUids_perm ht _)
  cases order with
  | nil => cases h.all 1 le_rfl le_rfl
  | cons i rest =>
    have hone : i = 0 + 1 := by
      obtain ⟨hpos, hle⟩ := h.only i List.mem_cons_self
      have hmade : i ≠ 2 := by
        rintro rfl
        cases h.made [] rest rfl
      omega
    rw [hone, script_first ht _ (by rw [huids]; decide), huids]
    rfl

/-- The first record that is appended after the super user's has the uid -1. -/
theorem Adds.first (ht : tools.Documented) {file' : CString} {added : List (CString × UInt32)}
    (h : Adds tools file added file') (hfile : file = userFile [superUser]) : ∀ a ∈ added.head?, a.2 = -1 := by
  induction h with
  | nil => exact fun a ha => by cases ha
  | @append _ _ _ _ _ sys _ _ _ _ _ _ hvisits hnew =>
    intro a ha
    cases ha
    obtain ⟨order, horder, huid⟩ := uid_of_newRecord ht hnew
    have hvisit := hvisits order horder
    rw [hfile, userFile, lines_text] at hvisit
    rw [hfile, userFile, script_su ht hvisit, if_neg (by simp)] at huid
    exact huid
  | failed hadd _ ih =>
    obtain ⟨_, -, -, rfl, -⟩ | ⟨_, _, _, -, -, -, heq, -⟩ := adduser_cases hadd
    · exact ih hfile
    · cases heq

/-- Every record that is appended has the uid 0 or -1. -/
theorem Adds.zero_or (ht : tools.Documented) {file' : CString} {added : List (CString × UInt32)}
    (h : Adds tools file added file') : ∀ a ∈ added, a.2 = 0 ∨ a.2 = -1 := by
  induction h with
  | nil => exact List.forall_mem_nil _
  | append _ hnew _ _ _ _ ih => exact List.forall_mem_cons.mpr ⟨uid_zero_or ht hnew, ih⟩
  | failed _ _ ih => exact ih

end Uids

/-- **The uids are unique** just when no more than one record is appended. -/
theorem uids_unique {tools : Tools} (ht : tools.Documented) {added : List (CString × UInt32)} {file' : CString}
    (h : Adds tools (userFile [superUser]) added file') : UidsUnique added ↔ added.length ≤ 1 := by
  have hfirst := h.first ht rfl
  have hall := h.zero_or ht
  match added with
  | [] => exact ⟨fun _ => Nat.zero_le 1, fun _ => ⟨List.not_mem_nil, .nil⟩⟩
  | [a] =>
    have ha : a.2 = -1 := hfirst a rfl
    refine ⟨fun _ => le_rfl, fun _ => ⟨fun hin => ?_, List.nodup_singleton _⟩⟩
    rw [List.map_singleton, List.mem_singleton, ha] at hin
    exact absurd hin (by decide)
  | a :: b :: rest =>
    have ha : a.2 = -1 := hfirst a rfl
    refine ⟨fun hunique => ?_, fun hlen => ?_⟩
    · obtain ⟨hsu, hnodup⟩ := hunique
      obtain hb | hb := hall b (List.mem_cons_of_mem _ List.mem_cons_self)
      · exact absurd (List.mem_map.mpr ⟨b, List.mem_cons_of_mem _ List.mem_cons_self, hb⟩) hsu
      · have hne := (List.nodup_cons.mp hnodup).1
        exact absurd (List.mem_cons.mpr (.inl (ha.trans hb.symm))) hne
    · simp only [List.length_cons] at hlen
      omega

/-- A call that makes a record appends it. -/
theorem adds_good {tools : Tools} {rounds : Nat} {order : List Nat} {file userName pw file' : CString} {uid : UInt32}
    {record : CString} {rest : List (CString × UInt32)} (hvisits : Visits (lines file.bytes).length order)
    (hnew : newRecord tools rounds (goodAnswers order) file userName pw = some (.ok (uid, record)))
    (hrest : Adds tools (append file record 1000) rest file') : Adds tools file ((userName, uid) :: rest) file' := by
  have hadd : adduser tools 0 rounds (goodAnswers order) userName pw ⟨file, smallNs 0, su⟩ =
      some (.undefined, ⟨append file record 1000, smallNs 0, ⟨uid, uid⟩⟩) := by
    rw [adduser, hnew]
    rfl
  show Adds tools (System.mk file (smallNs 0) su).file _ _
  refine .append (fun order' horder => ?_) hnew rfl rfl hadd hrest
  cases horder
  exact hvisits

/-- The record of a new name, whose text can be computed. -/
theorem newRecord_of_text (rounds : Nat) (order : List Nat) (file userName pw : CString) (uid : UInt32)
    (bytes : List UInt8)
    (h : ((newRecord integerTools rounds (goodAnswers order) file userName pw).map fun result =>
      result.toOption.map fun made => (made.1, made.2.bytes)) = some (some (uid, bytes))) :
    ∃ record, record.bytes = bytes ∧
      newRecord integerTools rounds (goodAnswers order) file userName pw = some (.ok (uid, record)) := by
  obtain ⟨result, hresult, h⟩ := Option.map_eq_some_iff.mp h
  cases result with
  | error ret => cases h
  | ok made =>
    obtain ⟨uid', record⟩ := made
    cases h
    exact ⟨record, rfl, hresult⟩

/-- `bob` and `amy` are added, and both get the uid -1. -/
theorem uids_repeated : ∃ added file', Adds integerTools (userFile [superUser]) added file' ∧
    added.map (fun a => a.1.bytes) = [ascii "bob", ascii "amy"] ∧ added.map Prod.snd = [-1, -1] ∧
    ¬ UidsUnique added := by
  let bob : CString := ⟨ascii "bob", by decide⟩
  let amy : CString := ⟨ascii "amy", by decide⟩
  let pw : CString := ⟨ascii "x", by decide⟩
  have hlines : (lines (text [superUser])).length = 1 := by decide
  obtain ⟨record, hrecord, hbob⟩ := newRecord_of_text 20 [1] (userFile [superUser]) bob pw (-1)
    (ascii "-1 -1 /bob bob x\n") (by decide +kernel)
  let file : CString := append (userFile [superUser]) ⟨ascii "-1 -1 /bob bob x\n", by decide⟩ 1000
  have hfile : append (userFile [superUser]) record 1000 = file := by
    obtain ⟨bytes, hterm⟩ := record
    subst hrecord
    rfl
  have hlines' : (lines file.bytes).length = 2 := by decide +kernel
  obtain ⟨record', -, hamy⟩ := newRecord_of_text 20 [1, 2] file amy pw (-1)
    (ascii "-1 -1 /amy amy x\n") (by decide +kernel)
  have hrun : Adds integerTools (userFile [superUser]) [(bob, -1), (amy, -1)] (append file record' 1000) := by
    refine adds_good ?_ hbob ?_
    · rw [userFile, hlines]
      exact visits_first (n := 1) (i := 1) le_rfl le_rfl
    · rw [hfile]
      refine adds_good ?_ hamy (.nil _)
      rw [hlines']
      exact visits_first (n := 2) (i := 1) le_rfl (by decide)
  refine ⟨_, _, hrun, rfl, rfl, fun h => ?_⟩
  exact absurd h.2 (by decide)

/-- `bob` alone has a uid of his own. -/
theorem uids_unique_one : ∃ added file', Adds integerTools (userFile [superUser]) added file' ∧
    added.map (fun a => a.1.bytes) = [ascii "bob"] ∧ UidsUnique added := by
  let bob : CString := ⟨ascii "bob", by decide⟩
  have hlines : (lines (text [superUser])).length = 1 := by decide
  obtain ⟨record, -, hbob⟩ := newRecord_of_text 20 [1] (userFile [superUser]) bob ⟨ascii "x", by decide⟩ (-1)
    (ascii "-1 -1 /bob bob x\n") (by decide +kernel)
  have hrun : Adds integerTools (userFile [superUser]) [(bob, -1)] (append (userFile [superUser]) record 1000) := by
    refine adds_good ?_ hbob (.nil _)
    rw [userFile, hlines]
    exact visits_first (n := 1) (i := 1) le_rfl le_rfl
  exact ⟨_, _, hrun, rfl, (uids_unique integerTools_documented hrun).mpr le_rfl⟩

end CacheFs.Users
