import Mathlib.Data.List.Sort
import CacheFs.Library.Gaps
import CacheFs.Users.Records

/-! The script `get_least_available_uid.sh`.

It sorts the records by uid and prints the successor of the first uid, in whatever order
`awk` visits them, that another number follows; behind the last, 0 is taken to follow.
It prints the least free uid in every order just when the uids go up in steps of one,
only the last of them being repeated (`script_correct`), and not after a second start
of the server with a user there (`script_incorrect`). -/
namespace CacheFs.Users
open CacheFs.Namespace (CString)
open CacheFs.Xml (ascii)

/-- What the script has `sort` and `awk` do: to sort lines by number, to compare `a[i + 1]` with
`a[i] + 1`, and to print that. An element without a value is `none`. -/
structure Tools where
  sortN : List (List UInt8) → List (List UInt8)
  neSucc : Option (List UInt8) → Option (List UInt8) → Bool
  printSucc : Option (List UInt8) → List UInt8

/-- The element `a[i]`, which is the first field of a line. -/
def element (sorted : List (List UInt8)) (i : Nat) : Option (List UInt8) :=
  if i = 0 then none else sorted[i - 1]?.map firstField

/-- `for (i in a)`, over the indices in the order in which they are visited. -/
def forIn (tools : Tools) (sorted : List (List UInt8)) : List Nat → List UInt8
  | [] => []
  | i :: rest =>
    if tools.neSucc (element sorted (i + 1)) (element sorted i) then tools.printSucc (element sorted i)
    else forIn tools sorted rest

/-- What `get_least_available_uid.sh` prints. -/
def getLeastAvailableUid (tools : Tools) (order : List Nat) (file : List UInt8) : List UInt8 :=
  forIn tools (tools.sortN (lines file)) order

/-- An order in which `awk` may visit the indices of an array of `n` elements. The reference to
`a[n + 1]` makes that element, and it is not said whether the loop comes to it. -/
structure Visits (n : Nat) (order : List Nat) : Prop where
  nodup : order.Nodup
  all : ∀ i, 1 ≤ i → i ≤ n → i ∈ order
  only : ∀ i ∈ order, 1 ≤ i ∧ i ≤ n + 1
  made : ∀ before after, order = before ++ (n + 1) :: after → n ∈ before

/-- What `awk` takes for a number that a `%d` may have printed. -/
inductive IsNumber : Option (List UInt8) → Int → Prop where
  | unset : IsNumber none 0
  | field {i : Int} : -2147483648 ≤ i → i < 2147483648 → IsNumber (some (decimal i)) i

/-- What is documented of `sort -n` and of `awk`'s numbers and `print`. -/
structure Tools.Documented (tools : Tools) : Prop where
  perm : ∀ ls, (tools.sortN ls).Perm ls
  sorted : ∀ ls, (∀ line ∈ ls, ∃ i, firstField line = decimal i) →
    (tools.sortN ls).Pairwise fun line line' => readInt (firstField line) ≤ readInt (firstField line')
  neSucc : ∀ next here j i, IsNumber next j → IsNumber here i → (tools.neSucc next here = true ↔ j ≠ i + 1)
  printSucc : ∀ here i, IsNumber here i → tools.printSucc here = decimal (i + 1) ++ [10]
  printLine : ∀ here, ∃ line, 0 ∉ line ∧ tools.printSucc here = line ++ [10]

/-- The script prints one number, which is the least that is no record's uid. -/
def ScriptCorrect (tools : Tools) (records : List UserInfo) : Prop :=
  ∀ order, Visits records.length order → ∃ uid,
    getLeastAvailableUid tools order (text records) = decimal uid ++ [10] ∧
      IsLeast (Gaps.free (records.map fun r => printed r.uid)) uid

/-! ### The loop -/

section Loop
variable {tools : Tools} {sorted : List (List UInt8)}

/-- The loop stops at the first index where something else than the successor comes next. -/
theorem forIn_cases (tools : Tools) (sorted : List (List UInt8)) (order : List Nat) :
    ((∀ i ∈ order, tools.neSucc (element sorted (i + 1)) (element sorted i) = false) ∧ forIn tools sorted order = []) ∨
    ∃ before i after, order = before ++ i :: after ∧
      (∀ j ∈ before, tools.neSucc (element sorted (j + 1)) (element sorted j) = false) ∧
      tools.neSucc (element sorted (i + 1)) (element sorted i) = true ∧
      forIn tools sorted order = tools.printSucc (element sorted i) := by
  induction order with
  | nil => exact .inl ⟨List.forall_mem_nil _, rfl⟩
  | cons i rest ih =>
    rw [forIn]
    cases hstop : tools.neSucc (element sorted (i + 1)) (element sorted i) with
    | true => exact .inr ⟨[], i, rest, rfl, List.forall_mem_nil _, hstop, rfl⟩
    | false =>
      obtain ⟨hnone, hnil⟩ | ⟨before, j, after, rfl, hbefore, hj, hprint⟩ := ih
      · exact .inl ⟨List.forall_mem_cons.mpr ⟨hstop, hnone⟩, hnil⟩
      · exact .inr ⟨i :: before, j, after, rfl, List.forall_mem_cons.mpr ⟨hstop, hbefore⟩, hj, hprint⟩

/-- Whatever the file, the script prints nothing or one line. -/
theorem script_line (ht : tools.Documented) (order : List Nat) (file : List UInt8) :
    getLeastAvailableUid tools order file = [] ∨
      ∃ line, 0 ∉ line ∧ getLeastAvailableUid tools order file = line ++ [10] := by
  obtain ⟨-, hnil⟩ | ⟨_, i, _, _, _, _, hprint⟩ := forIn_cases tools (tools.sortN (lines file)) order
  · exact .inl hnil
  · obtain ⟨line, hline, hprintLine⟩ := ht.printLine (element (tools.sortN (lines file)) i)
    exact .inr ⟨line, hline, hprint.trans hprintLine⟩

/-- Any index may be the first to be visited, and after the last the one that it makes. -/
theorem visits_first {n i : Nat} (h₁ : 1 ≤ i) (hn : i ≤ n) : Visits n (i :: (List.range' 1 n).erase i) := by
  have hrange := List.nodup_range' (s := 1) (n := n)
  refine ⟨List.nodup_cons.mpr ⟨hrange.not_mem_erase, hrange.erase i⟩, fun j hj hjn => ?_, fun j hj => ?_, ?_⟩
  · by_cases hji : j = i
    · exact hji ▸ List.mem_cons_self
    · exact List.mem_cons_of_mem _ ((List.mem_erase_of_ne hji).mpr (List.mem_range'_1.mpr ⟨hj, by omega⟩))
  · obtain rfl | hj := List.mem_cons.mp hj
    · omega
    · have := List.mem_range'_1.mp (List.mem_of_mem_erase hj)
      omega
  · intro before after heq
    have hin : n + 1 ∈ i :: (List.range' 1 n).erase i := heq ▸ List.mem_append_right _ List.mem_cons_self
    obtain heq | hin := List.mem_cons.mp hin
    · omega
    · have := List.mem_range'_1.mp (List.mem_of_mem_erase hin)
      omega

theorem visits_made {n : Nat} (hn : 1 ≤ n) : Visits n (n :: (n + 1) :: (List.range' 1 n).erase n) := by
  have h := visits_first hn le_rfl
  have hout : n + 1 ∉ (List.range' 1 n).erase n := by
    intro hin
    have := List.mem_range'_1.mp (List.mem_of_mem_erase hin)
    omega
  obtain ⟨hnot, hnodup⟩ := List.nodup_cons.mp h.nodup
  refine ⟨?_, fun j hj hjn => ?_, fun j hj => ?_, fun before after heq => ?_⟩
  · refine List.nodup_cons.mpr ⟨?_, List.nodup_cons.mpr ⟨hout, hnodup⟩⟩
    simp [hnot]
  · obtain rfl | hin := List.mem_cons.mp (h.all j hj hjn)
    · exact List.mem_cons_self
    · exact List.mem_cons_of_mem _ (List.mem_cons_of_mem _ hin)
  · obtain rfl | hj := List.mem_cons.mp hj
    · exact ⟨hn, Nat.le_succ j⟩
    · obtain rfl | hj := List.mem_cons.mp hj
      · exact ⟨Nat.succ_pos n, le_rfl⟩
      · exact h.only j (List.mem_cons_of_mem _ hj)
  · cases before with
    | nil =>
      have := (List.cons.inj heq).1
      omega
    | cons b before =>
      rw [(List.cons.inj heq).1]
      exact List.mem_cons_self

end Loop

/-! ### The numbers of a user file -/

section Numbers
variable {tools : Tools}

/-- The uids in the order of the sorted lines. -/
def sortedUids (tools : Tools) (records : List UserInfo) : List Int :=
  (tools.sortN (records.map UserInfo.line)).map fun line => readInt (firstField line)

theorem sortedUids_perm (ht : tools.Documented) (records : List UserInfo) :
    (sortedUids tools records).Perm (records.map fun r => printed r.uid) := by
  have hmap : (records.map UserInfo.line).map (fun line => readInt (firstField line)) =
      records.map fun r => printed r.uid := by
    rw [List.map_map]
    exact List.map_congr_left fun r _ => r.readInt_line
  rw [← hmap]
  exact (ht.perm _).map _

theorem sortedUids_sorted (ht : tools.Documented) (records : List UserInfo) :
    (sortedUids tools records).Pairwise (· ≤ ·) := by
  refine List.pairwise_map.mpr (ht.sorted _ fun line hline => ?_)
  obtain ⟨r, -, rfl⟩ := List.mem_map.mp hline
  exact ⟨_, r.firstField_line⟩

theorem sortedUids_length (ht : tools.Documented) (records : List UserInfo) :
    (sortedUids tools records).length = records.length := by
  simpa using (sortedUids_perm ht records).length_eq

/-- The elements of the array are the uids, and 0 is what `awk` takes the others for. -/
theorem isNumber_element (ht : tools.Documented) (records : List UserInfo) (i : Nat) :
    IsNumber (element (tools.sortN (records.map UserInfo.line)) (i + 1)) ((sortedUids tools records)[i]?.getD 0) := by
  simp only [element, Nat.succ_ne_zero, if_false, Nat.add_sub_cancel, sortedUids, List.getElem?_map]
  cases hline : (tools.sortN (records.map UserInfo.line))[i]? with
  | none => exact .unset
  | some line =>
    obtain ⟨r, -, rfl⟩ := List.mem_map.mp ((ht.perm _).mem_iff.mp (List.mem_of_getElem? hline))
    obtain ⟨hlow, hhigh⟩ := printed_range r.uid
    rw [Option.map_some, Option.map_some, Option.getD_some, r.readInt_line, r.firstField_line]
    exact .field hlow hhigh

/-- The loop stops at a gap, or behind the end. -/
theorem neSucc_iff (ht : tools.Documented) (records : List UserInfo) (i : Nat) :
    tools.neSucc (element (tools.sortN (records.map UserInfo.line)) (i + 1 + 1))
        (element (tools.sortN (records.map UserInfo.line)) (i + 1)) = true ↔
      (sortedUids tools records)[i + 1]?.getD 0 ≠ (sortedUids tools records)[i]?.getD 0 + 1 :=
  ht.neSucc _ _ _ _ (isNumber_element ht records (i + 1)) (isNumber_element ht records i)

/-- Where the loop stops at the first index, it prints the successor of the uid there. -/
theorem script_first {records : List UserInfo} (ht : tools.Documented) (rest : List Nat) {i : Nat}
    (hgap : (sortedUids tools records)[i + 1]?.getD 0 ≠ (sortedUids tools records)[i]?.getD 0 + 1) :
    getLeastAvailableUid tools ((i + 1) :: rest) (text records) =
      decimal ((sortedUids tools records)[i]?.getD 0 + 1) ++ [10] := by
  rw [getLeastAvailableUid, lines_text, forIn, if_pos ((neSucc_iff ht records i).mpr hgap)]
  exact ht.printSucc _ _ (isNumber_element ht records i)

end Numbers

section Correct
variable {tools : Tools} {records : List UserInfo}

/-- Where the script is right in every order, each gap leads to the least free uid. -/
theorem gap_least (ht : tools.Documented) (h : ScriptCorrect tools records) {i : Nat} {v : Int}
    (hgap : Gaps.Gap (sortedUids tools records) i v) :
    IsLeast (Gaps.free (records.map fun r => printed r.uid)) (v + 1) := by
  obtain ⟨hv, hnext⟩ := hgap
  obtain ⟨hlen, -⟩ := List.getElem?_eq_some_iff.mp hv
  rw [sortedUids_length ht] at hlen
  have hfirst := script_first ht ((List.range' 1 records.length).erase (i + 1)) (by rwa [hv, Option.getD_some])
  obtain ⟨uid, hprint, hleast⟩ := h _ (visits_first (Nat.succ_pos i) hlen)
  rw [hv, Option.getD_some, hprint] at hfirst
  rwa [decimal_inj (List.append_cancel_right hfirst)] at hleast

/-- Where the script is right in every order, the last uid is not negative: the loop would come
to what is behind the end. -/
theorem last_nonneg (ht : tools.Documented) (h : ScriptCorrect tools records) :
    ∃ i m, (sortedUids tools records)[i]? = some m ∧ i + 1 = (sortedUids tools records).length ∧ 0 ≤ m := by
  have hlen := sortedUids_length ht records
  obtain ⟨n, hn⟩ : ∃ n, records.length = n + 1 := by
    cases hrecords : records.length with
    | zero =>
      have hvisits : Visits records.length [] :=
        ⟨.nil, fun i hi hin => by omega, List.forall_mem_nil _, fun before after heq => by simp at heq⟩
      obtain ⟨uid, hprint, -⟩ := h [] hvisits
      exact absurd hprint.symm (by simp [getLeastAvailableUid, forIn])
    | succ n => exact ⟨n, rfl⟩
  rw [hn] at hlen
  have hlast := List.getElem?_eq_getElem (l := sortedUids tools records) (i := n) (by omega)
  have hend : (sortedUids tools records)[n + 1]? = none := List.getElem?_eq_none (by omega)
  have hend' : (sortedUids tools records)[n + 1 + 1]? = none := List.getElem?_eq_none (by omega)
  refine ⟨n, _, hlast, by omega, ?_⟩
  apply Classical.byContradiction
  intro hneg
  have hall {v : Int} (hv : v ∈ records.map fun r => printed r.uid) : v < 0 := by
    obtain ⟨j, hj⟩ := List.mem_iff_getElem?.mp ((sortedUids_perm ht records).mem_iff.mpr hv)
    obtain ⟨hjlen, -⟩ := List.getElem?_eq_some_iff.mp hj
    have := Gaps.sorted_le (sortedUids_sorted ht records) (by omega) hj hlast
    omega
  have hzero : (0 : Int) ∈ Gaps.free (records.map fun r => printed r.uid) :=
    ⟨le_rfl, fun hin => absurd (hall hin) (by omega)⟩
  have hvisits := visits_made (n := n + 1) (Nat.succ_pos n)
  obtain ⟨uid, hprint, hleast⟩ := h _ (by rwa [hn])
  have huid : uid = 0 := le_antisymm (hleast.2 hzero) hleast.1.1
  by_cases hgap : (sortedUids tools records)[n + 1]?.getD 0 ≠ (sortedUids tools records)[n]?.getD 0 + 1
  · rw [script_first ht _ hgap, hlast, Option.getD_some] at hprint
    have := decimal_inj (List.append_cancel_right hprint)
    rw [hend, hlast, Option.getD_none, Option.getD_some] at hgap
    omega
  · have hskip := (neSucc_iff ht records n).not.mpr hgap
    rw [getLeastAvailableUid, lines_text, forIn, if_neg hskip, ← lines_text, ← getLeastAvailableUid,
      script_first ht _ (by simp [hend, hend']), hend, Option.getD_none] at hprint
    have := decimal_inj (List.append_cancel_right hprint)
    omega

/-- **The script prints the least free uid** in every order just when the uids go up in steps of
one to a number that is not negative, and only that is repeated. -/
theorem script_correct (ht : tools.Documented) (records : List UserInfo) :
    ScriptCorrect tools records ↔ ∃ m, Gaps.Steps (records.map fun r => printed r.uid) m := by
  have hperm := sortedUids_perm ht records
  have hfree : Gaps.free (sortedUids tools records) = Gaps.free (records.map fun r => printed r.uid) := by
    simp only [Gaps.free, hperm.mem_iff]
  have hsteps : (∃ m, Gaps.Steps (records.map fun r => printed r.uid) m) ↔ ∃ m, Gaps.Steps (sortedUids tools records) m :=
    exists_congr fun m => ⟨fun h => h.perm hperm.symm, fun h => h.perm hperm⟩
  rw [hsteps, ← Gaps.all_gaps_least (sortedUids_sorted ht records), hfree]
  constructor
  · exact fun h => ⟨last_nonneg ht h, fun i v hgap => gap_least ht h hgap⟩
  · intro h order hvisits
    obtain ⟨⟨n, m, hlast, hlen, hm⟩, hgaps⟩ := h
    have hlen' := hlen.trans (sortedUids_length ht records)
    have hend : (sortedUids tools records)[n + 1]? = none := List.getElem?_eq_none (by omega)
    have hstop := (neSucc_iff ht records n).mpr (by rw [hend, hlast, Option.getD_none, Option.getD_some]; omega)
    rw [getLeastAvailableUid, lines_text]
    obtain ⟨hnone, -⟩ | ⟨before, i, after, rfl, hbefore, hi, hprint⟩ :=
      forIn_cases tools (tools.sortN (records.map UserInfo.line)) order
    · have := hnone (n + 1) (hvisits.all _ (Nat.succ_pos n) (by omega))
      rw [hstop] at this
      cases this
    · rw [hprint]
      obtain ⟨hpos, hle⟩ := hvisits.only i (List.mem_append_right _ List.mem_cons_self)
      obtain ⟨j, rfl⟩ : ∃ j, i = j + 1 := ⟨i - 1, by omega⟩
      have hj : j < (sortedUids tools records).length := by
        apply Classical.byContradiction
        intro hout
        have hnew : j + 1 = records.length + 1 := by omega
        have hmade := hvisits.made before after (by rw [hnew])
        rw [← hlen'] at hmade
        have := hbefore _ hmade
        rw [hstop] at this
        cases this
      have hv := List.getElem?_eq_getElem hj
      refine ⟨_, ht.printSucc _ _ (isNumber_element ht records j), ?_⟩
      rw [hv, Option.getD_some]
      exact hgaps j _ ⟨hv, by simpa [hv] using (neSucc_iff ht records j).mp hi⟩

end Correct

/-! ### Tools -/

/-- What a field is as a number, if it is an integer. -/
def number : Option (List UInt8) → Int
  | none => 0
  | some field => readInt field

/-- `sort` and `awk` on fields that are integers. -/
def integerTools : Tools where
  sortN := fun ls => ls.insertionSort fun line line' => readInt (firstField line) ≤ readInt (firstField line')
  neSucc := fun next here => number next ≠ number here + 1
  printSucc := fun here => decimal (number here + 1) ++ [10]

theorem IsNumber.number_eq {field : Option (List UInt8)} {i : Int} (h : IsNumber field i) : number field = i := by
  cases h with
  | unset => rfl
  | field => exact readInt_decimal i

theorem integerTools_documented : integerTools.Documented where
  perm := fun ls => List.perm_insertionSort _ ls
  sorted := by
    intro ls _
    let le (line line' : List UInt8) : Prop := readInt (firstField line) ≤ readInt (firstField line')
    have : Std.Total le := ⟨fun line line' => le_total _ _⟩
    have : IsTrans (List UInt8) le := ⟨fun _ _ _ h h' => le_trans h h'⟩
    exact List.pairwise_insertionSort le ls
  neSucc := by
    intro next here j i hnext hhere
    simp [integerTools, hnext.number_eq, hhere.number_eq]
  printSucc := by
    intro here i hhere
    simp [integerTools, hhere.number_eq]
  printLine := fun here => ⟨decimal (number here + 1), not_mem_decimal (by decide), rfl⟩

/-- A user with the uid and the name of one letter. -/
def oneLetterUser (uid : UInt32) (letter : UInt8) (h : letter ≠ 0 ∧ letter ≠ 10) : UserInfo :=
  let name : CString := ⟨[letter], fun hzero => h.1 (List.mem_singleton.mp hzero).symm⟩
  have hline : 10 ∉ name.bytes := fun hline => h.2 (List.mem_singleton.mp hline).symm
  ⟨uid, uid, name, name, name, hline, hline, hline⟩

/-- After two starts of the server and with a user of uid 1, the script prints 1. -/
theorem script_incorrect : ∃ records order, records.map (fun r => printed r.uid) = [0, 0, 1] ∧
    Visits records.length order ∧ getLeastAvailableUid integerTools order (text records) = ascii "1\n" ∧
    ¬ ScriptCorrect integerTools records := by
  let records := [superUser, superUser, oneLetterUser 1 97 (by decide)]
  have huids : records.map (fun r => printed r.uid) = [0, 0, 1] := by decide
  have hvisits : Visits records.length [1, 2, 3] := visits_first (n := 3) (i := 1) (by decide) (by decide)
  have hprint : getLeastAvailableUid integerTools [1, 2, 3] (text records) = ascii "1\n" := by decide +kernel
  refine ⟨records, [1, 2, 3], huids, hvisits, hprint, fun h => ?_⟩
  obtain ⟨uid, huid, hleast⟩ := h _ hvisits
  have hone : decimal uid ++ [10] = decimal 1 ++ [10] := huid.symm.trans (hprint.trans (by decide))
  rw [decimal_inj (List.append_cancel_right hone), huids] at hleast
  exact hleast.1.2 (by decide)

/-- With the super user and two users of the next uids, in any order, the script prints 3. -/
theorem script_correct_two : ∃ records, records.map (fun r => printed r.uid) = [2, 0, 1] ∧
    ScriptCorrect integerTools records := by
  let records := [oneLetterUser 2 98 (by decide), superUser, oneLetterUser 1 97 (by decide)]
  have huids : records.map (fun r => printed r.uid) = [2, 0, 1] := by decide
  refine ⟨records, huids, (script_correct integerTools_documented records).mpr ⟨2, ?_⟩⟩
  rw [huids]
  refine ⟨by decide, ⟨0, le_rfl, fun v => ?_⟩, fun v hv => ?_⟩
  · simp only [List.mem_cons, List.not_mem_nil, or_false]
    omega
  · exact List.nodup_iff_count_le_one.mp (by decide) v

end CacheFs.Users
