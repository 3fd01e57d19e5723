import CacheFs.Library.Climb
import CacheFs.Library.Interaction
import CacheFs.Xml.RoundTrip

/-! Paths of replicas (`utility.c`, `sn_main.c`).

`get_cache_path` puts the file name of a message right behind the name of the cache
directory, without a separator and without a look at it. Where the path then leads is
seen from the name alone (`place_cachePath`), so it is known for which names the calls of
`do_remove_replica` and `do_trunc_replica` are about files of the cache
(`replica_confined`). -/
namespace CacheFs.Utility
open Climb Lookup Interaction
open CacheFs.Namespace (CString)
open CacheFs.Xml (Field SockMsg RplMsg ascii bzero filePathLen readInto string string_append string_readInto)

/-- `CACHE_PATH`. -/
def cachePath : List UInt8 := ascii "/mnt/supercache"

/-- `RPL_ERR_UNLINK`. -/
def rplErrUnlink : UInt8 := 72

/-- `RPL_ERR_TRUNC`. -/
def rplErrTrunc : UInt8 := 73

/-! ### The functions of the program -/

/-- `strcpy` to a place in an array, when there is room for the string. -/
def strcpyAt {size : Nat} (f : Field size) (p : Nat) (s : List UInt8) : Option (Field size) :=
  if h : p + s.length < size then
    some ⟨f.bytes.take p ++ s ++ 0 :: f.bytes.drop (p + s.length + 1), by simp [f.size_eq]; omega⟩
  else none

/-- `get_cache_path`, when `cache_path` has room for what is put there. -/
def getCachePath (path : CString) : Option (Field filePathLen) := do
  let cachePathBuf ← strcpyAt (bzero filePathLen) 0 cachePath
  strcpyAt cachePathBuf cachePath.length path.bytes

/-- What the super node calls of the file system, with the path. -/
inductive FileCall where
  | unlink (path : CString)
  | truncate (path : CString) (length : Nat)

def FileCall.path : FileCall → CString
  | unlink path => path
  | truncate path _ => path

/-- The calls return 0 or fail. -/
abbrev files : Interface := ⟨FileCall, fun _ => Bool⟩

/-- A call for the replica of the file of the message, and the error when it fails. -/
def doReplica (call : CString → FileCall) (err : UInt8) (sockMsg : SockMsg) (rplMsg : RplMsg) :
    Option (Prog files (UInt32 × RplMsg)) := do
  let fileName ← string sockMsg.fileName.bytes
  let buf ← getCachePath fileName
  let path ← string buf.bytes
  return .call (call path) fun ok => .ret (if ok then (0, rplMsg) else (1, ⟨err⟩))

/-- `do_remove_replica`. -/
def doRemoveReplica : SockMsg → RplMsg → Option (Prog files (UInt32 × RplMsg)) := doReplica .unlink rplErrUnlink

/-- `do_trunc_replica`. -/
def doTruncReplica : SockMsg → RplMsg → Option (Prog files (UInt32 × RplMsg)) :=
  doReplica (.truncate · 0) rplErrTrunc

/-! ### Where paths lead -/

/-- The components of a path, without those that lead nowhere. -/
def pathComponents (path : List UInt8) : List (Component (List UInt8)) :=
  ((path.splitOn 47).filter fun c => c ≠ [] ∧ c ≠ [46]).map fun c => if c = [46, 46] then .upper else .name c

/-- Where an absolute path leads. -/
def place (path : List UInt8) : List (List UInt8) := walk [] (pathComponents path)

/-- Strictly below `CACHE_PATH`. -/
def InCache (path : CString) : Prop := Below (place cachePath) (place path.bytes)

/-- Calls for files of the cache only. -/
def cacheOnly : Protocol files Unit where
  allowed := fun _ (c : FileCall) => InCache c.path
  after := fun g _ _ => g

@[simp] theorem cacheOnly_allowed (c : FileCall) : cacheOnly.allowed () c ↔ InCache c.path := Iff.rfl

/-- The path fits its buffer, and whatever is called is for a file of the cache. -/
def Confined (p : Option (Prog files (UInt32 × RplMsg))) : Prop :=
  ∃ q, p = some q ∧ q.Follows cacheOnly (fun _ _ => True) ()

/-- What is behind the first component of a file name, as upper steps and then names. -/
def behindFirst (fileName : List UInt8) : Reduced (List UInt8) :=
  reduce (pathComponents (fileName.dropWhile (· ≠ 47)))

/-- The name begins with a slash or climbs out of what its first component makes of the cache
directory; and it goes back down by the names of the directories it climbs out of, and on. -/
def LeadsInside (fileName : List UInt8) : Prop :=
  (fileName.takeWhile (· ≠ 47) = [] ∨ 0 < (behindFirst fileName).climbs) ∧
    Below ([ascii "mnt", ascii "supercache"].drop (2 - (behindFirst fileName).climbs)) (behindFirst fileName).names

instance (fileName : List UInt8) : Decidable (LeadsInside fileName) := inferInstanceAs (Decidable (_ ∧ _))

/-! ### The path of a replica -/

section CachePath
variable {path : CString}

theorem strcpyAt_bytes {size p : Nat} {f g : Field size} {s : List UInt8} (h : strcpyAt f p s = some g) :
    p + s.length < size ∧ ∃ rest, g.bytes = f.bytes.take p ++ s ++ 0 :: rest := by
  rw [strcpyAt] at h
  split at h
  · rename_i hlt
    obtain rfl := Option.some.inj h
    exact ⟨hlt, _, rfl⟩
  · exact absurd h (by simp)

theorem strcpyAt_isSome {size p : Nat} {f : Field size} {s : List UInt8} (h : p + s.length < size) :
    ∃ g, strcpyAt f p s = some g := by
  rw [strcpyAt, dif_pos h]
  exact ⟨_, rfl⟩

theorem zero_not_mem_cachePath (path : CString) : 0 ∉ cachePath ++ path.bytes := by
  rw [List.mem_append]
  rintro (h | h)
  · revert h
    decide
  · exact path.terminated h

/-- The path and its terminator fit just when the name has at most 244 characters. -/
theorem getCachePath_fits (h : path.bytes.length ≤ 244) :
    ∃ buf, getCachePath path = some buf ∧
      string buf.bytes = some ⟨cachePath ++ path.bytes, zero_not_mem_cachePath path⟩ := by
  obtain ⟨f, hf⟩ : ∃ f, strcpyAt (bzero filePathLen) 0 cachePath = some f := strcpyAt_isSome (by decide)
  obtain ⟨g, hg⟩ := strcpyAt_isSome (f := f) (p := cachePath.length) (s := path.bytes)
    (show 15 + path.bytes.length < 260 by omega)
  refine ⟨g, ?_, ?_⟩
  · rw [getCachePath, hf]
    exact hg
  · obtain ⟨-, rest, hfBytes⟩ := strcpyAt_bytes hf
    obtain ⟨-, rest', hgBytes⟩ := strcpyAt_bytes hg
    rw [hgBytes, hfBytes, List.take_zero, List.nil_append, List.take_left]
    exact string_append ⟨_, zero_not_mem_cachePath path⟩ rest'

theorem getCachePath_overflows (h : 244 < path.bytes.length) : getCachePath path = none := by
  rw [getCachePath, Option.bind_eq_bind, Option.bind_eq_none_iff]
  intro f hf
  rw [strcpyAt, dif_neg]
  show ¬ 15 + path.bytes.length < 260
  omega

theorem pathComponents_slash (left right : List UInt8) :
    pathComponents (left ++ 47 :: right) = pathComponents left ++ pathComponents right := by
  rw [pathComponents, List.splitOn_append_cons_self, List.filter_append, List.map_append]
  rfl

/-- A slash in front makes no difference. -/
theorem pathComponents_behind (path : List UInt8) : pathComponents (47 :: path) = pathComponents path :=
  pathComponents_slash [] path

/-- A component that is too long for dots is a name. -/
theorem pathComponents_name {c : List UInt8} (hslash : 47 ∉ c) (hlen : 2 < c.length) : pathComponents c = [.name c] := by
  have hne (d : List UInt8) (hd : d.length ≤ 2) : c ≠ d := by
    rintro rfl
    omega
  rw [pathComponents, List.splitOn_eq_singleton hslash, List.filter_cons_of_pos, List.filter_nil, List.map_singleton,
    if_neg (hne _ (by decide))]
  simp only [decide_eq_true_eq]
  exact ⟨hne _ (by decide), hne _ (by decide)⟩

/-- Behind the first component is nothing or a slash. -/
theorem pathComponents_first {c : List UInt8} (hslash : 47 ∉ c) (hlen : 2 < c.length) (fileName : List UInt8) :
    pathComponents (c ++ fileName.dropWhile (· ≠ 47)) = .name c :: pathComponents (fileName.dropWhile (· ≠ 47)) := by
  have hhead := List.head?_dropWhile_not (· ≠ 47) fileName
  cases htail : fileName.dropWhile (· ≠ 47) with
  | nil =>
    rw [List.append_nil, pathComponents_name hslash hlen]
    rfl
  | cons d rest =>
    rw [htail] at hhead
    obtain rfl : d = 47 := by simpa using hhead
    rw [pathComponents_slash, pathComponents_name hslash hlen, pathComponents_behind]
    rfl

/-- The first component of a name becomes one with the name of the cache directory. -/
theorem pathComponents_cachePath (fileName : List UInt8) : pathComponents (cachePath ++ fileName) =
    .name (ascii "mnt") :: .name (ascii "supercache" ++ fileName.takeWhile (· ≠ 47)) ::
      pathComponents (fileName.dropWhile (· ≠ 47)) := by
  have hslash : 47 ∉ ascii "supercache" ++ fileName.takeWhile (· ≠ 47) := by
    rw [List.mem_append]
    rintro (h | h)
    · revert h
      decide
    · simpa using List.mem_takeWhile_imp h
  have hlen : 2 < (ascii "supercache" ++ fileName.takeWhile (· ≠ 47)).length := by
    rw [List.length_append]
    exact Nat.lt_add_right _ (by decide)
  have hcachePath : cachePath = 47 :: (ascii "mnt" ++ 47 :: ascii "supercache") := by decide
  have hmnt : pathComponents (ascii "mnt") = [.name (ascii "mnt")] := by decide
  calc pathComponents (cachePath ++ fileName)
    _ = pathComponents (47 :: (ascii "mnt" ++ 47 :: ((ascii "supercache" ++ fileName.takeWhile (· ≠ 47)) ++
          fileName.dropWhile (· ≠ 47)))) := by
        rw [List.append_assoc, List.takeWhile_append_dropWhile, hcachePath]
        simp
    _ = _ := by
        rw [pathComponents_behind, pathComponents_slash, pathComponents_first hslash hlen, hmnt]
        rfl

theorem place_cachePath (fileName : List UInt8) : place (cachePath ++ fileName) = (behindFirst fileName).from
    ([ascii "mnt"] ++ [ascii "supercache" ++ fileName.takeWhile (· ≠ 47)]) := by
  rw [place, pathComponents_cachePath, walk, walk, walk_eq]
  rfl

/-- The name alone tells whether its path leads into the cache. -/
theorem inCache_iff : InCache ⟨cachePath ++ path.bytes, zero_not_mem_cachePath path⟩ ↔ LeadsInside path.bytes := by
  have hcache : place cachePath = [ascii "mnt"] ++ [ascii "supercache"] := by decide
  rw [InCache, hcache, place_cachePath, below_from, List.append_right_eq_self]
  rfl

end CachePath

/-! ### Confinement -/

section Confined
variable {sockMsg : SockMsg} {rplMsg : RplMsg} {fileName : CString} {call : CString → FileCall} {err : UInt8}

theorem doReplica_confined (h : string sockMsg.fileName.bytes = some fileName) (hcall : ∀ path, (call path).path = path) :
    Confined (doReplica call err sockMsg rplMsg) ↔ fileName.bytes.length ≤ 244 ∧ LeadsInside fileName.bytes := by
  rw [doReplica, h]
  by_cases hlen : fileName.bytes.length ≤ 244
  · obtain ⟨buf, hbuf, hstring⟩ := getCachePath_fits hlen
    simp only [Confined, Option.bind_eq_bind, Option.bind_some, hbuf, hstring, Option.pure_def, Option.some.injEq,
      exists_eq_left', Prog.follows_call, Prog.follows_ret, implies_true, and_true]
    rw [cacheOnly_allowed, hcall, inCache_iff]
    simp [hlen]
  · simp [Confined, getCachePath_overflows (by omega : 244 < fileName.bytes.length), hlen]

/-- **Replica operations stay inside the cache** exactly for the names that have at most 244
characters and lead inside. -/
theorem replica_confined (rplMsg : RplMsg) (h : string sockMsg.fileName.bytes = some fileName) :
    (Confined (doRemoveReplica sockMsg rplMsg) ↔ fileName.bytes.length ≤ 244 ∧ LeadsInside fileName.bytes) ∧
    (Confined (doTruncReplica sockMsg rplMsg) ↔ fileName.bytes.length ≤ 244 ∧ LeadsInside fileName.bytes) :=
  ⟨doReplica_confined h fun _ => rfl, doReplica_confined h fun _ => rfl⟩

/-- A message with a file name. -/
def about (fileName : List UInt8) : SockMsg := ⟨78, bzero _, readInto (bzero _) fileName⟩

/-- Names with the slash and then only names are fine. -/
theorem replica_confined_song :
    string (about (ascii "/oasis/some might say.mp3")).fileName.bytes =
      some ⟨ascii "/oasis/some might say.mp3", by decide⟩ ∧
    Confined (doRemoveReplica (about (ascii "/oasis/some might say.mp3")) ⟨0⟩) ∧
    Confined (doTruncReplica (about (ascii "/oasis/some might say.mp3")) ⟨0⟩) := by
  have hstring : string (about (ascii "/oasis/some might say.mp3")).fileName.bytes =
      some ⟨ascii "/oasis/some might say.mp3", by decide⟩ := string_readInto (by decide) (by decide)
  have h := replica_confined ⟨0⟩ hstring
  exact ⟨hstring, h.1.mpr (by decide), h.2.mpr (by decide)⟩

/-- A name without the slash is beside the cache, one with an upper step above it, and a long
one does not fit with its prefix. -/
theorem replica_not_confined :
    ¬ Confined (doRemoveReplica (about (ascii "some might say.mp3")) ⟨0⟩) ∧
    ¬ Confined (doTruncReplica (about (ascii "/../shadow")) ⟨0⟩) ∧
    ¬ Confined (doRemoveReplica (about (47 :: List.replicate 244 97)) ⟨0⟩) := by
  have hconfined {call : CString → FileCall} {err : UInt8} {fileName : List UInt8}
      (hcall : ∀ path, (call path).path = path) (hzero : 0 ∉ fileName) (hlen : fileName.length < 260)
      (hbad : ¬ (fileName.length ≤ 244 ∧ LeadsInside fileName)) : ¬ Confined (doReplica call err (about fileName) ⟨0⟩) := by
    rwa [doReplica_confined (string_readInto hzero hlen) hcall]
  have hlong (n : Nat) (hn : 244 ≤ n ∧ n < 259) : ¬ Confined (doRemoveReplica (about (47 :: List.replicate n 97)) ⟨0⟩) := by
    have hlen : (47 :: List.replicate n (97 : UInt8)).length = n + 1 := by simp
    exact hconfined (fun _ => rfl) (by simp) (by omega) fun h => by omega
  exact ⟨hconfined (fun _ => rfl) (by decide) (by decide) (by decide),
    hconfined (fun _ => rfl) (by decide) (by decide) (by decide), hlong 244 (by decide)⟩

end Confined

end CacheFs.Utility
