import CacheFs.Namespace.Tree

/-! `get_ns_node`.

The function scans the path one character at a time, keeps where the word it is in
begins and ends, and looks a word up when it leaves it. At the end of every round,
whether or not there was a lookup, it resets what it keeps of the word (`cont`). So
the begin of a word is forgotten before its end is seen: no word is ever looked up,
and the function returns the node it starts from (`getNsNode_eq`). -/
namespace CacheFs.Namespace

/-- `binary_seach_file`, to so many calls deep. The result of `strcmp` goes into a `u32`. -/
def binarySeachFile (ns : Ns) (fileName : List UInt8) (child : List Ptr) :
    Nat → UInt32 → UInt32 → Option UInt32
  | 0, _, _ => none
  | depth + 1, low, high =>
    if high ≤ low then some low
    else do
      let mid := (high + low) / 2
      let node ← child[mid.toNat]?.bind ns.node
      let i := UInt32.ofInt (strcmp fileName node.name.bytes)
      if i < 0 then binarySeachFile ns fileName child depth low (mid - 1)
      else if i = 0 then some mid
      else binarySeachFile ns fileName child depth (mid + 1) high

/-- `strncpy` of so many characters of a word into a buffer that has room for them. -/
def strncpy (buf word : List UInt8) (count : Nat) : Option (List UInt8) :=
  if count ≤ buf.length then some (word.take count ++ buf.drop count) else none

/-- The string in a buffer. -/
def cString (buf : List UInt8) : List UInt8 := buf.takeWhile (· ≠ 0)

/-- The local variables of `get_ns_node`, pointers into the path as their offsets. -/
structure Scan where
  ret : UInt32
  lkupNode : Ptr
  inword : Bool
  i : UInt32
  fnHead : Option Nat
  fnTail : Option Nat
  fileNameBuf : List UInt8

/-- Where a round goes on: to the label `op_over` or to `cont`. -/
inductive Flow where
  | opOver (st : Scan)
  | cont (st : Scan)

/-- What is at a place in the path, the terminator included. -/
def charAt (path : CString) (p : Nat) : UInt8 := path.bytes.getD p 0

/-- The two tests on entering and leaving a word. -/
def wordBounds (path : CString) (tail p : Nat) (st : Scan) : Scan :=
  let st := if st.inword = false ∧ p < tail ∧ charAt path p ≠ 47 then {st with fnHead := some p, inword := true} else st
  if st.inword = true ∧ (charAt path p = 47 ∨ p = tail) then {st with fnTail := some p, inword := false} else st

/-- The lookup of the word from `fnHead` to `fnTail`. -/
def lookUp (ns : Ns) (depth : Nat) (path : CString) (fnHead fnTail : Nat) (st : Scan) : Option Flow :=
  if st.ret = 3 then some (.opOver {st with ret := 4})
  else do
    let st := {st with ret := 0}
    let node ← ns.node st.lkupNode
    if !isDirFile node.fileType then return .opOver {st with ret := 1}
    let i := UInt32.ofNat (fnTail - fnHead)
    let fileNameBuf ← strncpy st.fileNameBuf (path.bytes.drop fnHead) i.toNat
    let st := {st with i := i, fileNameBuf := fileNameBuf}
    if strcmp (cString fileNameBuf) [46, 46] = 0 then
      return .cont {st with ret := 2, lkupNode := if isSharedDir node.fileType then ns.homeDir else node.parent}
    let i ← binarySeachFile ns (cString fileNameBuf) node.child depth 0 (node.howManyChildren - 1)
    let st := {st with i := i}
    let q ← node.child[i.toNat]?
    let child ← ns.node q
    if strcmp (cString fileNameBuf) child.name.bytes ≠ 0 then return .cont {st with ret := 3}
    return .cont {st with lkupNode := q}

/-- What is under the label `cont`. -/
def cont (ns : Ns) (fbufsiz : Nat) (st : Scan) : Option Scan :=
  if st.ret ≠ 3 then do
    let node ← ns.node st.lkupNode
    let lkupNode :=
      if isDirFile node.fileType && isSharedFlagSet node.fileType then ns.sharedDir else st.lkupNode
    return {st with lkupNode, fileNameBuf := List.replicate fbufsiz 0, fnHead := none, fnTail := none}
  else some st

/-- One round of the `for` loop, up to `cont`. -/
def round (ns : Ns) (depth : Nat) (path : CString) (tail p : Nat) (st : Scan) : Option Flow :=
  let st := wordBounds path tail p st
  match st.fnHead, st.fnTail with
  | some fnHead, some fnTail =>
    if fnHead < fnTail then lookUp ns depth path fnHead fnTail st else some (.cont st)
  | _, _ => some (.cont st)

/-- The `for` loop, from a place in the path for so many rounds. -/
def scan (ns : Ns) (depth : Nat) (path : CString) (fbufsiz tail : Nat) : Nat → Nat → Scan → Option Scan
  | 0, _, st => some st
  | rounds + 1, p, st => do
    match ← round ns depth path tail p st with
    | .opOver st => return st
    | .cont st => scan ns depth path fbufsiz tail rounds (p + 1) (← cont ns fbufsiz st)

/-- What `get_ns_node` returns and what it leaves in its arguments. -/
structure GetNsNode where
  ret : UInt32
  nsnode : Ptr
  index : UInt32
  fileNameBuf : List UInt8

/-- The local variables before the loop. -/
def Scan.start (ns : Ns) (path : CString) (fbufsiz : Nat) : Scan :=
  let i := UInt32.ofNat path.bytes.length
  if charAt path 0 = 47 then ⟨0, ns.cfsRootDir, false, i, none, none, List.replicate fbufsiz 0⟩
  else ⟨0, ns.currentWorkingDir, true, i, some 0, none, List.replicate fbufsiz 0⟩

/-- `get_ns_node`, with the binary search to so many calls deep; `none` when it reads what is
not there. -/
def getNsNode (depth : Nat) (ns : Ns) (path : CString) (fbufsiz : Nat) : Option GetNsNode := do
  let tail := (UInt32.ofNat path.bytes.length).toNat
  let st ← scan ns depth path fbufsiz tail (tail + 1) 0 (.start ns path fbufsiz)
  return ⟨st.ret, st.lkupNode, st.i, st.fileNameBuf⟩

/-! ### Links -/

namespace Ns
variable {ns : Ns} {q : Ptr}

/-- The directory that a link leads to is followed nowhere else. -/
theorem follow_follow : ns.follow (ns.follow q) = ns.follow q := by
  have hshared : ns.follow ns.sharedDir = ns.sharedDir := by
    rw [follow, ite_self]
  by_cases h : (ns.node q).any fun n => isDirFile n.fileType && isSharedFlagSet n.fileType
  · have hq : ns.follow q = ns.sharedDir := if_pos h
    rw [hq, hshared]
  · have hq : ns.follow q = q := if_neg h
    rw [hq, hq]

theorem isDir_live (h : ns.isDir q) : ∃ n, ns.node q = some n := by
  obtain ⟨n, hn, -⟩ := (Option.any_eq_true _ _).mp h
  exact ⟨n, hn⟩

theorem WellFormed.follow_live (h : ns.WellFormed) (hq : ∃ n, ns.node q = some n) :
    ∃ n, ns.node (ns.follow q) = some n := by
  rw [follow]
  split
  · exact isDir_live h.shared
  · exact hq

theorem WellFormed.start_live (h : ns.WellFormed) (path : CString) :
    ∃ n, ns.node (ns.startingNode path) = some n := by
  rw [startingNode]
  split
  · obtain ⟨n, hn, -⟩ := h.root
    exact ⟨n, hn⟩
  · exact isDir_live h.current

end Ns

/-! ### No word is looked up -/

section Scan
variable {ns : Ns} {path : CString} {depth fbufsiz tail p : Nat} {start : Ptr} {i : UInt32} {st : Scan}

/-- At the end of the path's part that has been scanned: at a node that is as good as the start,
and with no begin of a word but perhaps the one at `p`. -/
structure Unmoved (ns : Ns) (start : Ptr) (i : UInt32) (fbufsiz p : Nat) (st : Scan) : Prop where
  ret : st.ret = 0
  node : ns.follow st.lkupNode = ns.follow start
  live : ∃ n, ns.node st.lkupNode = some n
  index : st.i = i
  buf : st.fileNameBuf = List.replicate fbufsiz 0
  head : ∀ h ∈ st.fnHead, h = p
  tail : st.fnTail = none

/-- Where a word is entered or left is where the scan is. -/
theorem wordBounds_here (path : CString) (tail : Nat) (hhead : ∀ h ∈ st.fnHead, h = p) (htail : st.fnTail = none) :
    (∀ h ∈ (wordBounds path tail p st).fnHead, h = p) ∧ ∀ t ∈ (wordBounds path tail p st).fnTail, t = p := by
  simp only [wordBounds]
  split <;> split <;> simp_all

/-- Entering and leaving a word is all that a round does. -/
theorem round_eq (hhead : ∀ h ∈ st.fnHead, h = p) (htail : st.fnTail = none) :
    round ns depth path tail p st = some (.cont (wordBounds path tail p st)) := by
  obtain ⟨hhead', htail'⟩ := wordBounds_here path tail hhead htail
  simp only [round]
  split
  · rename_i fnHead fnTail hfnHead hfnTail
    rw [hhead' fnHead hfnHead, htail' fnTail hfnTail, if_neg (Nat.lt_irrefl p)]
  · rfl

theorem wordBounds_kept (path : CString) (tail p : Nat) (st : Scan) : (wordBounds path tail p st).ret = st.ret ∧
    (wordBounds path tail p st).lkupNode = st.lkupNode ∧ (wordBounds path tail p st).i = st.i := by
  simp only [wordBounds]
  split <;> split <;> exact ⟨rfl, rfl, rfl⟩

/-- The scan with nothing kept of a word. -/
def Scan.reset (ns : Ns) (fbufsiz : Nat) (st : Scan) : Scan :=
  {st with
    lkupNode := ns.follow st.lkupNode
    fileNameBuf := List.replicate fbufsiz 0
    fnHead := none
    fnTail := none}

theorem cont_eq (fbufsiz : Nat) (hret : st.ret = 0) (hlive : ∃ n, ns.node st.lkupNode = some n) :
    cont ns fbufsiz st = some (st.reset ns fbufsiz) := by
  obtain ⟨n, hn⟩ := hlive
  simp [cont, Scan.reset, hret, hn, Ns.follow]

/-- A round only follows the node it is at. -/
theorem Unmoved.round (hns : ns.WellFormed) (h : Unmoved ns start i fbufsiz p st) (rounds : Nat) :
    ∃ st', scan ns depth path fbufsiz tail (rounds + 1) p st =
        scan ns depth path fbufsiz tail rounds (p + 1) st' ∧
      Unmoved ns start i fbufsiz (p + 1) st' ∧ st'.lkupNode = ns.follow start := by
  obtain ⟨hret, hnode, hi⟩ := wordBounds_kept path tail p st
  have hcont := cont_eq fbufsiz (hret.trans h.ret) (hnode ▸ h.live)
  refine ⟨(wordBounds path tail p st).reset ns fbufsiz, ?_, ?_, (congrArg ns.follow hnode).trans h.node⟩
  · simp only [scan, round_eq h.head h.tail, hcont, Option.bind_eq_bind, Option.bind_some]
  · refine ⟨hret.trans h.ret, ?_, ?_, hi.trans h.index, rfl, by simp [Scan.reset], rfl⟩
    · exact Ns.follow_follow.trans (hnode ▸ h.node)
    · exact hns.follow_live (hnode ▸ h.live)

/-- However many rounds there are, the scan ends where it started. -/
theorem scan_eq (hns : ns.WellFormed) (depth : Nat) (path : CString) (tail rounds : Nat) (h : Unmoved ns start i fbufsiz p st)
    (hfollowed : 0 < rounds ∨ st.lkupNode = ns.follow start) :
    ∃ st', scan ns depth path fbufsiz tail rounds p st = some st' ∧
      Unmoved ns start i fbufsiz (p + rounds) st' ∧ st'.lkupNode = ns.follow start := by
  induction rounds generalizing p st with
  | zero => exact ⟨st, rfl, h, hfollowed.resolve_left (Nat.lt_irrefl 0)⟩
  | succ rounds ih =>
    obtain ⟨st₁, hscan, h₁, hnode⟩ := h.round hns rounds
    obtain ⟨st', hst', h', hnode'⟩ := ih h₁ (.inr hnode)
    exact ⟨st', hscan.trans hst', by rwa [Nat.add_right_comm] at h', hnode'⟩

theorem Scan.start_unmoved (hns : ns.WellFormed) (path : CString) (fbufsiz : Nat) :
    Unmoved ns (ns.startingNode path) (UInt32.ofNat path.bytes.length) fbufsiz 0 (.start ns path fbufsiz) := by
  have hslash : charAt path 0 = 47 ↔ path.bytes.head? = some 47 := by
    cases h : path.bytes <;> simp [charAt, h]
  have hlive := hns.start_live path
  simp only [Ns.startingNode, ← hslash] at hlive ⊢
  simp only [Scan.start]
  by_cases h : charAt path 0 = 47
  · simp only [if_pos h] at hlive ⊢
    exact ⟨rfl, rfl, hlive, rfl, rfl, by simp, rfl⟩
  · simp only [if_neg h] at hlive ⊢
    exact ⟨rfl, rfl, hlive, rfl, rfl, by simp, rfl⟩

end Scan

/-- **No word is looked up**: whatever the path, `get_ns_node` returns 0 and the
directory that the path starts from. -/
theorem getNsNode_eq {ns : Ns} (hns : ns.WellFormed) (depth : Nat) (path : CString) (fbufsiz : Nat) :
    getNsNode depth ns path fbufsiz = some ⟨0, ns.follow (ns.startingNode path),
      UInt32.ofNat path.bytes.length, List.replicate fbufsiz 0⟩ := by
  obtain ⟨st, hscan, hunmoved, hnode⟩ := scan_eq hns depth path (UInt32.ofNat path.bytes.length).toNat
    ((UInt32.ofNat path.bytes.length).toNat + 1) (Scan.start_unmoved hns path fbufsiz) (.inl (Nat.succ_pos _))
  simp only [getNsNode, hscan, Option.bind_eq_bind, Option.bind_some]
  rw [hunmoved.ret, hnode, hunmoved.index, hunmoved.buf]
  rfl

end CacheFs.Namespace
