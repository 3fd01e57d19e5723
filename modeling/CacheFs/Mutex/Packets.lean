import Mathlib.Data.List.TakeDrop
import CacheFs.Mutex.OpCodes

/-! Packets on the wire (`md_mutex_client_func.c`, and `main` of both servers).

A client writes its packet whole, but a stream may bring it in pieces, or be closed
before its end. `main` clears its own packet, reads once, and starts a thread with what
it then has, however much that was. The zeros that were not read are the client's own
just when all that it has not read is zero (`served_as_sent`). -/
namespace CacheFs.Mutex

/-- `op_t`. -/
inductive OpT where
  | lock
  | tryLock
  | unlock
  deriving DecidableEq

def OpT.code : OpT → UInt32
  | lock => 0
  | tryLock => 1
  | unlock => 2

inductive ByteOrder where
  | little
  | big
  deriving DecidableEq

/-! ### The functions of the program -/

/-- A 32-bit number in memory. -/
def wordBytes (order : ByteOrder) (n : UInt32) : List UInt8 :=
  let bytes := [n.toUInt8, (n >>> 8).toUInt8, (n >>> 16).toUInt8, (n >>> 24).toUInt8]
  match order with
  | .little => bytes
  | .big => bytes.reverse

/-- The number that four bytes of memory are. -/
def word (order : ByteOrder) (bytes : List UInt8) : UInt32 :=
  let bytes := match order with
    | .little => bytes.reverse
    | .big => bytes
  bytes.foldl (fun n b => n * 256 + b.toUInt32) 0

/-- `md_mutex_req_packet` in memory: the code, and the file name in its cleared array. -/
def ReqPacket.bytes (order : ByteOrder) (pkt : ReqPacket) : List UInt8 :=
  wordBytes order pkt.opType ++ (pkt.fileName.bytes ++ List.replicate (maxPath - pkt.fileName.bytes.length) 0)

/-- What `md_mutex_func` writes. -/
def mdMutexFunc (order : ByteOrder) (fileName : FileName) (opType : OpT) : List UInt8 :=
  ReqPacket.bytes order ⟨opType.code, fileName⟩

/-- The string in the array of a packet, if it is terminated. -/
def fileNameOf (bytes : List UInt8) : Option FileName :=
  if h : 0 ∉ bytes.takeWhile (· ≠ 0) ∧ (bytes.takeWhile (· ≠ 0)).length < maxPath then
    some ⟨bytes.takeWhile (· ≠ 0), h.1, h.2⟩
  else none

/-- `req_pkt` after the `read`: what was read, and behind it what `bzero` left. -/
def reqPkt (received : List UInt8) : List UInt8 :=
  received.take (4 + maxPath) ++ List.replicate (4 + maxPath - received.length) 0

/-- The body of the loop in `main` from the `read` on, the same in both servers: the threads that
it starts. -/
def mainTurn (order : ByteOrder) (connectFd : Nat) (received : List UInt8) : Option (List ThreadArg) := do
  let fileName ← fileNameOf ((reqPkt received).drop 4)
  return [ReqPacket.threadArg ⟨word order ((reqPkt received).take 4), fileName⟩ connectFd]

/-! ### Connections -/

/-- A stream on which a client has sent: the pieces that it brings, until it is closed. -/
structure Connection (sent : List UInt8) where
  segments : List (List UInt8)
  nonempty : ∀ s ∈ segments, s ≠ []
  inOrder : segments.flatten <+: sent

namespace Connection
variable {sent : List UInt8} (c : Connection sent)

/-- What one `read` returns: the first piece, and nothing when it is closed before. -/
def read : List UInt8 := c.segments.headD []

/-- Closed before all was sent. -/
def Incomplete : Prop := c.segments.flatten ≠ sent

theorem read_prefix : c.read <+: sent := by
  cases hsegments : c.segments with
  | nil => simp [read, hsegments]
  | cons s rest =>
    refine List.IsPrefix.trans ?_ c.inOrder
    simp [read, hsegments]

end Connection

/-- One thread is started with what the client has sent, or none when that did not all come. -/
def ServedAsSent (order : ByteOrder) (fileName : FileName) (opType : OpT) (connectFd : Nat)
    (c : Connection (mdMutexFunc order fileName opType)) : Prop :=
  mainTurn order connectFd c.read = some [ReqPacket.threadArg ⟨opType.code, fileName⟩ connectFd] ∨
    c.Incomplete ∧ mainTurn order connectFd c.read = some []

/-- How many bytes of a packet are not zeros at its end. -/
def needed (order : ByteOrder) (fileName : FileName) (opType : OpT) : Nat :=
  if fileName.bytes ≠ [] then 4 + fileName.bytes.length
  else if opType = .lock then 0
  else
    match order with
    | .little => 1
    | .big => 4

/-! ### What a packet is after one read -/

section Read
variable {order : ByteOrder} {fileName : FileName} {opType : OpT} {received w f : List UInt8}

@[simp] theorem length_wordBytes (n : UInt32) : (wordBytes order n).length = 4 := by
  cases order <;> rfl

theorem length_fileName (fileName : FileName) :
    (fileName.bytes ++ List.replicate (maxPath - fileName.bytes.length) 0).length = maxPath := by
  have := fileName.fits
  rw [List.length_append, List.length_replicate]
  omega

@[simp] theorem length_mdMutexFunc : (mdMutexFunc order fileName opType).length = 4 + maxPath := by
  rw [mdMutexFunc, ReqPacket.bytes, List.length_append, length_wordBytes, length_fileName]

/-- The two fields of the packet, with zeros where nothing was read. -/
theorem reqPkt_fields (h : received <+: w ++ f) (hw : w.length = 4) (hf : f.length = maxPath) :
    (reqPkt received).take 4 = w.take received.length ++ List.replicate (4 - received.length) 0 ∧
    (reqPkt received).drop 4 =
      f.take (received.length - 4) ++ List.replicate (maxPath - (received.length - 4)) 0 := by
  have hle := h.length_le
  rw [List.length_append, hw, hf] at hle
  have heq := List.prefix_iff_eq_take.mp h
  rw [List.take_append, hw] at heq
  have hsplit : reqPkt received = (w.take received.length ++ List.replicate (4 - received.length) 0) ++
      (f.take (received.length - 4) ++ List.replicate (maxPath - (received.length - 4)) 0) := by
    rw [reqPkt, List.take_of_length_le hle]
    obtain hk | hk := Nat.le_total received.length 4
    · -- nothing of the name was read
      have hnone : received.length - 4 = 0 := by omega
      have hzeros : 4 + maxPath - received.length = 4 - received.length + maxPath := by omega
      rw [hnone, List.take_zero, List.append_nil] at heq
      rw [hnone, List.take_zero, List.nil_append, Nat.sub_zero, List.append_assoc, List.replicate_append_replicate,
        hzeros, ← heq]
    · have hnone : 4 - received.length = 0 := by omega
      have hzeros : 4 + maxPath - received.length = maxPath - (received.length - 4) := by omega
      rw [hnone, List.replicate_zero, List.append_nil, hzeros, ← List.append_assoc, ← heq]
  have hlen : (w.take received.length ++ List.replicate (4 - received.length) (0 : UInt8)).length = 4 := by
    rw [List.length_append, List.length_take, List.length_replicate, hw]
    omega
  rw [hsplit]
  exact ⟨List.take_left' hlen, List.drop_left' hlen⟩

/-- Of the name there is as much as was read of it. -/
theorem fileNameOf_read (fileName : FileName) (j : Nat) :
    ∃ f : FileName, fileNameOf ((fileName.bytes ++ List.replicate (maxPath - fileName.bytes.length) 0).take j ++
      List.replicate (maxPath - j) 0) = some f ∧ f.bytes = fileName.bytes.take j := by
  have hterminated : 0 ∉ fileName.bytes.take j := fun h => fileName.terminated (List.mem_of_mem_take h)
  have hfits : (fileName.bytes.take j).length < maxPath := Nat.lt_of_le_of_lt (List.length_take_le' ..) fileName.fits
  have hstring : ((fileName.bytes ++ List.replicate (maxPath - fileName.bytes.length) 0).take j ++
      List.replicate (maxPath - j) 0).takeWhile (· ≠ 0) = fileName.bytes.take j := by
    rw [List.take_append, List.take_replicate, List.append_assoc, List.replicate_append_replicate,
      List.takeWhile_append_of_pos fun b hb => by simpa using ne_of_mem_of_not_mem hb hterminated]
    simp
  refine ⟨⟨fileName.bytes.take j, hterminated, hfits⟩, ?_, rfl⟩
  simp only [fileNameOf, hstring]
  exact dif_pos ⟨hterminated, hfits⟩

/-- The operation is there when its byte was read, and a lock always. -/
theorem opType_read (order : ByteOrder) (opType : OpT) (k : Nat) :
    (word order ((wordBytes order opType.code).take k ++ List.replicate (4 - k) 0)).toUInt8 = opType.code.toUInt8 ↔
      needed order ⟨[], by decide, by decide⟩ opType ≤ k := by
  obtain hk | hk := Nat.lt_or_ge k 4
  · have hcases : k = 0 ∨ k = 1 ∨ k = 2 ∨ k = 3 := by omega
    obtain rfl | rfl | rfl | rfl := hcases <;> cases order <;> cases opType <;> decide
  · have hnone : 4 - k = 0 := by omega
    rw [List.take_of_length_le (by simpa using hk), hnone]
    refine iff_of_true ?_ ?_
    · cases order <;> cases opType <;> decide
    · refine Nat.le_trans ?_ hk
      cases order <;> cases opType <;> decide

theorem mainTurn_eq (connectFd : Nat) (h : received <+: mdMutexFunc order fileName opType) :
    ∃ f : FileName, f.bytes = fileName.bytes.take (received.length - 4) ∧
      mainTurn order connectFd received = some [ReqPacket.threadArg
        ⟨word order ((wordBytes order opType.code).take received.length ++ List.replicate (4 - received.length) 0), f⟩
        connectFd] := by
  obtain ⟨hop, hname⟩ := reqPkt_fields h (length_wordBytes _) (length_fileName fileName)
  obtain ⟨f, hf, hbytes⟩ := fileNameOf_read fileName (received.length - 4)
  refine ⟨f, hbytes, ?_⟩
  rw [mainTurn, hop, hname, hf]
  rfl

/-- **The server acts on the request the client sent** just when its one read brings every byte
of the packet that is not a zero at its end. -/
theorem served_as_sent (order : ByteOrder) (fileName : FileName) (opType : OpT) (connectFd : Nat)
    (c : Connection (mdMutexFunc order fileName opType)) :
    ServedAsSent order fileName opType connectFd c ↔ needed order fileName opType ≤ c.read.length := by
  obtain ⟨f, hf, hturn⟩ := mainTurn_eq connectFd c.read_prefix
  have hname : f = fileName ↔ fileName.bytes.length ≤ c.read.length - 4 := by
    rw [← List.take_eq_self_iff, ← hf]
    constructor
    · rintro rfl
      rfl
    · intro hbytes
      cases f
      cases fileName
      congr
  have hserved : ServedAsSent order fileName opType connectFd c ↔
      needed order ⟨[], by decide, by decide⟩ opType ≤ c.read.length ∧ fileName.bytes.length ≤ c.read.length - 4 := by
    rw [ServedAsSent, hturn, ← hname, ← opType_read]
    simp [ReqPacket.threadArg]
  rw [hserved]
  by_cases hempty : fileName.bytes = []
  · simp [needed, hempty]
  · have hop : needed order ⟨[], by decide, by decide⟩ opType ≤ 4 := by
      cases order <;> cases opType <;> decide
    have hpos := List.length_pos_iff.mpr hempty
    have hneeded : needed order fileName opType = 4 + fileName.bytes.length := if_pos hempty
    rw [hneeded]
    omega

end Read

section Examples
variable {order : ByteOrder} {fileName : FileName} {opType : OpT} {connectFd : Nat}

/-- A connection that brings all, in two pieces. -/
def Connection.cut {sent : List UInt8} (k : Nat) (hpos : 0 < k) (hlt : k < sent.length) : Connection sent where
  segments := [sent.take k, sent.drop k]
  nonempty := by
    intro s hs
    rw [← List.length_pos_iff]
    obtain rfl | hs := List.mem_cons.mp hs
    · rw [List.length_take]
      omega
    · rw [List.mem_singleton.mp hs, List.length_drop]
      omega
  inOrder := by simp

theorem not_servedAsSent {c : Connection (mdMutexFunc order fileName opType)} {arg : ThreadArg}
    (hturn : mainTurn order connectFd c.read = some [arg])
    (harg : arg ≠ ReqPacket.threadArg ⟨opType.code, fileName⟩ connectFd) :
    ¬ ServedAsSent order fileName opType connectFd c := by
  rw [ServedAsSent, hturn]
  simp [harg]

/-- A request to unlock `f`: a connection that is closed at once is taken for a request to lock,
and one that brings the operation first and then the rest, for one to unlock no name. -/
theorem not_served_as_sent : ∃ (fileName : FileName) (c c' : Connection (mdMutexFunc .little fileName .unlock)),
    fileName.bytes = [102] ∧ c.segments = [] ∧
    mainTurn .little 7 c.read = some [⟨mdLock, 7, ⟨[], by decide, by decide⟩⟩] ∧
    ¬ ServedAsSent .little fileName .unlock 7 c ∧ ¬ c'.Incomplete ∧
    mainTurn .little 7 c'.read = some [⟨mdUnlock, 7, ⟨[], by decide, by decide⟩⟩] ∧
    ¬ ServedAsSent .little fileName .unlock 7 c' := by
  let fileName : FileName := ⟨[102], by decide, by decide⟩
  let c : Connection (mdMutexFunc .little fileName .unlock) :=
    ⟨[], fun s hs => (List.not_mem_nil hs).elim, List.nil_prefix⟩
  let c' : Connection (mdMutexFunc .little fileName .unlock) :=
    .cut 4 (by decide) (by rw [length_mdMutexFunc]; decide)
  have hturn : mainTurn .little 7 c.read = some [⟨mdLock, 7, ⟨[], by decide, by decide⟩⟩] := by decide +kernel
  have hturn' : mainTurn .little 7 c'.read = some [⟨mdUnlock, 7, ⟨[], by decide, by decide⟩⟩] := by decide +kernel
  exact ⟨fileName, c, c', rfl, rfl, hturn, not_servedAsSent hturn (by decide), fun h => h (by simp [c', Connection.cut]), hturn',
    not_servedAsSent hturn' (by decide)⟩

end Examples

end CacheFs.Mutex
