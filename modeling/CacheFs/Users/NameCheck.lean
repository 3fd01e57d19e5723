import CacheFs.Users.Adduser

/-! Whether the check for a name is exact.

`grep` prints every line that the name occurs in, be it in another name, in a password or
in a number, and what it prints must leave room in a buffer of 1024 bytes. So the
check is exact just when neither goes wrong (`name_check`): with the super user
alone, the name `s` is taken (`name_check_fails`). -/
namespace CacheFs.Users
open CacheFs.Namespace
open CacheFs.Xml (ascii)

/-- A name made of letters and digits. -/
structure UserName where
  name : CString
  nonempty : name.bytes ≠ []
  alnum : name.bytes.all isAlnum = true

/-- Some record has exactly this name. -/
def Taken (records : List UserInfo) (userName : UserName) : Prop :=
  ∃ r ∈ records, r.userName.bytes = userName.name.bytes

/-- The check for a name finds it just when it is taken, and `adduser` refuses it then. -/
structure NameCheckExact (shell : Shell) (records : List UserInfo) (userName : UserName) : Prop where
  taken : Taken records userName → ∃ rounds buf,
    getUserInfoByName rounds shell (userFile records) userName.name userInfoBufsz = some (0, buf)
  free : ¬ Taken records userName → ∃ rounds buf,
    getUserInfoByName rounds shell (userFile records) userName.name userInfoBufsz = some (2, buf)
  refuses : ∀ tools depth answers pw sys, answers.shell = shell → sys.file = userFile records →
    ((∃ rounds sys', adduser tools depth rounds answers userName.name pw sys = some (.returned 1, sys')) ↔
      Taken records userName)

/-- The records in whose line the name occurs. -/
def matching (records : List UserInfo) (userName : UserName) : List UserInfo :=
  records.filter fun r => decide (userName.name.bytes <:+: r.line)

/-! ### The command -/

section Command
variable {shell : Shell} {records : List UserInfo} {userName : UserName}

theorem UserName.blank_not_mem (userName : UserName) : 32 ∉ userName.name.bytes := by
  intro h
  exact absurd (List.all_eq_true.mp userName.alnum 32 h) (by decide)

/-- The words of a command that is cut after its pattern, if not before. -/
theorem shellWords_command {pattern : List UInt8} (path : List UInt8) (hpattern : pattern ≠ []) (hblank : 32 ∉ pattern)
    (hpath : 32 ∉ path) :
    shellWords (ascii "grep " ++ pattern) = [ascii "grep", pattern] ∧
    shellWords (ascii "grep " ++ pattern ++ 32 :: path) =
      if path = [] then [ascii "grep", pattern] else [ascii "grep", pattern, path] := by
  have hgrep : 32 ∉ ascii "grep" := by decide
  have hcons : ascii "grep " ++ pattern = ascii "grep" ++ 32 :: pattern := rfl
  have hnil : ascii "grep" ≠ [] := by decide
  constructor
  · rw [shellWords, hcons, List.splitOn_append_cons_self_of_not_mem hgrep, List.splitOn_eq_singleton hblank]
    simp [hpattern, hnil]
  · rw [shellWords, hcons, List.append_assoc, List.cons_append, List.splitOn_append_cons_self_of_not_mem hgrep,
      List.splitOn_append_cons_self_of_not_mem hblank, List.splitOn_eq_singleton hpath]
    by_cases h : path = []
    · simp [hpattern, hnil, h]
    · simp [hpattern, hnil, h]

/-- The command of a name that fits searches in the user file. -/
theorem found_fits (hfits : userName.name.bytes.length ≤ 1004) :
    found shell (userFile records) userName.name = text (matching records userName) := by
  have hcommand : getUserInfoCmd userInfoBufsz userName.name =
      ascii "grep " ++ userName.name.bytes ++ 32 :: userInfoFile := by
    refine List.take_of_length_le ?_
    have hgrep : (ascii "grep ").length = 5 := by decide
    have hfile : userInfoFile.length = 13 := by decide
    simp only [List.length_append, List.length_cons, hgrep, hfile, userInfoBufsz]
    omega
  have hfile : userInfoFile ≠ [] := by decide
  obtain ⟨-, hwords⟩ := shellWords_command userInfoFile userName.nonempty userName.blank_not_mem (by decide)
  rw [if_neg hfile] at hwords
  rw [found, hcommand, Shell.output, hwords]
  simp only [userName.alnum, and_self, if_true, userFile, grep, lines_text, List.filter_map, List.flatMap_map]
  rfl

/-- The command of a longer name is cut, and does not. -/
theorem found_cut (hcut : 1004 < userName.name.bytes.length) :
    found shell (userFile records) userName.name =
      (shell.other (getUserInfoCmd userInfoBufsz userName.name)).bytes := by
  have hgrep : (ascii "grep ").length = 5 := by decide
  have hfile : userInfoFile.length = 13 := by decide
  have hblank := userName.blank_not_mem
  have htake : getUserInfoCmd userInfoBufsz userName.name = ascii "grep " ++
      ((userName.name.bytes ++ 32 :: userInfoFile).take 1018) := by
    rw [getUserInfoCmd, snprintf, List.append_assoc, List.take_append, hgrep,
      List.take_of_length_le (by rw [hgrep]; decide)]
    rfl
  rw [found, Shell.output]
  by_cases hlong : 1018 ≤ userName.name.bytes.length
  · have hpattern : (userName.name.bytes.take 1018) ≠ [] := by
      rw [Ne, List.take_eq_nil_iff]
      exact not_or.mpr ⟨by decide, userName.nonempty⟩
    have hwords := (shellWords_command [] hpattern (fun h => hblank (List.mem_of_mem_take h)) (by decide)).1
    rw [List.take_append_of_le_length hlong] at htake
    rw [htake, hwords]
  · have hpath : 32 ∉ userInfoFile.take (1017 - userName.name.bytes.length) := fun h =>
      absurd (List.mem_of_mem_take h) (by decide)
    have hwords := (shellWords_command _ userName.nonempty hblank hpath).2
    have hcons : (32 :: userInfoFile).take (1018 - userName.name.bytes.length) =
        32 :: userInfoFile.take (1017 - userName.name.bytes.length) := by
      obtain ⟨k, hk⟩ : ∃ k, 1018 - userName.name.bytes.length = k + 1 := ⟨1017 - userName.name.bytes.length, by omega⟩
      rw [hk, List.take_succ_cons, show k = 1017 - userName.name.bytes.length by omega]
    rw [List.take_append, List.take_of_length_le (by omega), hcons, ← List.append_assoc] at htake
    rw [htake, hwords]
    split
    · rename_i heq
      split at heq
      · cases heq
      · cases heq
        rw [if_neg]
        intro h
        have := congrArg List.length h.2.2
        rw [List.length_take, hfile] at this
        omega
    · rfl

end Command

/-! ### The check -/

section Check
variable {shell : Shell} {records : List UserInfo} {userName : UserName}

theorem matching_of_taken (h : Taken records userName) : matching records userName ≠ [] := by
  obtain ⟨r, hr, hname⟩ := h
  refine List.ne_nil_of_mem (a := r) (List.mem_filter.mpr ⟨hr, decide_eq_true ?_⟩)
  rw [← hname]
  exact r.userName_infix

/-- The check is exact just when what it prints can be read and is nothing for the free names. -/
theorem exact_iff_found : NameCheckExact shell records userName ↔ shell.popen = true ∧
    (found shell (userFile records) userName.name).length + 1 < userInfoBufsz ∧
    (Taken records userName ↔ found shell (userFile records) userName.name ≠ []) := by
  constructor
  · intro h
    by_cases htaken : Taken records userName
    · obtain ⟨rounds, buf, hget⟩ := h.taken htaken
      obtain ⟨-, hone⟩ | ⟨hpopen, hfits, hret, -⟩ := getUserInfoByName_some hget
      · cases hone
      · refine ⟨hpopen, hfits, fun _ hnil => ?_, fun _ => htaken⟩
        rw [if_pos hnil] at hret
        cases hret
    · obtain ⟨rounds, buf, hget⟩ := h.free htaken
      obtain ⟨-, hone⟩ | ⟨hpopen, hfits, hret, -⟩ := getUserInfoByName_some hget
      · cases hone
      · refine ⟨hpopen, hfits, fun htaken' => absurd htaken' htaken, fun hne => ?_⟩
        rw [if_neg hne] at hret
        cases hret
  · intro h
    obtain ⟨hpopen, hfits, htaken⟩ := h
    have hget := getUserInfoByName_eq hpopen hfits (Nat.lt_succ_self _)
    refine ⟨fun h => ?_, fun h => ?_, fun tools depth answers pw sys hshell hfile => ?_⟩
    · rw [if_neg (htaken.mp h)] at hget
      exact ⟨_, _, hget⟩
    · rw [if_pos (Classical.not_not.mp (htaken.not.mp h))] at hget
      exact ⟨_, _, hget⟩
    · rw [adduser_refuses, hshell, hfile, htaken]
      constructor
      · intro h
        obtain ⟨rounds, r, buf, hgot, hr⟩ := h
        obtain ⟨hno, -⟩ | ⟨-, -, rfl, -⟩ := getUserInfoByName_some hgot
        · rw [hpopen] at hno
          cases hno
        · exact fun hnil => hr (if_pos hnil)
      · intro hne
        rw [if_neg hne] at hget
        exact ⟨_, _, _, hget, by decide⟩

end Check

/-- **The check for a name is exact** just when `popen` does not fail, and no line has the name
in it, or some record has exactly that name, and the lines that have it in them leave
room in the buffer; where the name is so long that the command is cut, when the cut command
prints something just for the taken names. -/
theorem name_check (shell : Shell) (records : List UserInfo) (userName : UserName) :
    NameCheckExact shell records userName ↔ shell.popen = true ∧
      ((userName.name.bytes.length ≤ 1004 ∧ (text (matching records userName)).length ≤ 1022 ∧
          (matching records userName ≠ [] → Taken records userName)) ∨
        (1004 < userName.name.bytes.length ∧
          (shell.other (getUserInfoCmd userInfoBufsz userName.name)).bytes.length ≤ 1022 ∧
          (Taken records userName ↔ (shell.other (getUserInfoCmd userInfoBufsz userName.name)).bytes ≠ []))) := by
  rw [exact_iff_found]
  refine and_congr_right fun _ => ?_
  by_cases hfits : userName.name.bytes.length ≤ 1004
  · rw [found_fits hfits, Ne, text_eq_nil]
    simp only [hfits, true_and, not_lt_of_ge hfits, false_and, or_false]
    refine and_congr (by rw [userInfoBufsz]; omega) ⟨fun h => h.mpr, fun h => ⟨matching_of_taken, h⟩⟩
  · rw [found_cut (Nat.lt_of_not_le hfits)]
    simp only [hfits, false_and, Nat.lt_of_not_le hfits, true_and, false_or]
    exact and_congr_left fun _ => by rw [userInfoBufsz]; omega

/-- With the super user alone the name `s` is free, and found. -/
theorem name_check_fails : ∃ shell records userName, records = [superUser] ∧ userName.name.bytes = ascii "s" ∧
    ¬ Taken records userName ∧
    getUserInfoByName 20 shell (userFile records) userName.name userInfoBufsz = some (0, ascii "0 0 /su su 123\n") ∧
    ¬ NameCheckExact shell records userName := by
  let shell : Shell := ⟨true, fun _ => ⟨[], by decide⟩⟩
  let userName : UserName := ⟨⟨ascii "s", by decide⟩, by decide, by decide⟩
  have hfree : ¬ Taken [superUser] userName := by
    intro h
    obtain ⟨r, hr, hname⟩ := h
    obtain rfl := List.mem_singleton.mp hr
    cases hname
  have hmatching : text (matching [superUser] userName) = ascii "0 0 /su su 123\n" := by decide +kernel
  have hfound : found shell (userFile [superUser]) userName.name = ascii "0 0 /su su 123\n" := by
    rw [found_fits (by decide), hmatching]
  have hget : getUserInfoByName 20 shell (userFile [superUser]) userName.name userInfoBufsz =
      some (0, ascii "0 0 /su su 123\n") := by
    rw [getUserInfoByName_eq rfl (by rw [hfound]; decide) (by rw [hfound]; decide), hfound, if_neg (by decide)]
  refine ⟨shell, [superUser], userName, rfl, rfl, hfree, hget, fun h => ?_⟩
  have hne := (exact_iff_found.mp h).2.2.mpr
  rw [hfound] at hne
  exact hfree (hne (by decide))

end CacheFs.Users
