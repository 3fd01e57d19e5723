import CacheFs.Queue.Retry

/-! The ring and the log as one queue.

With the `md_get` and the `md_put` of a call in one, the ring has the pending requests
in the order in which they arrived, whatever its head and tail have wrapped around to,
and the log has the WRITE requests that have left (`InOrder`). Inserting a request and
the head request leaving both keep that, so it holds along every run (`fifo`), unless a WRITE
leaves whose key or count does not fit (`fifo_overrun`). -/
namespace CacheFs.Queue

deriving instance DecidableEq for Write

namespace Fifo
open Interaction Ring Transition

/-- A request: a WRITE, with the arguments of its `write_queue_out`, or another, which
leaves by `read_queuue_out`. -/
inductive Queued where
  | write (w : Write) (isWrite : w.ioType = .write)
  | other (node : IoQNode) (notWrite : node.ioType ≠ .write)
  deriving DecidableEq

/-- What the queue has of a request. -/
def Queued.node : Queued → IoQNode
  | .write w _ => ⟨w.ioType, w.arriveTime⟩
  | .other node _ => node

def Queued.asWrite : Queued → Option Write
  | .write w _ => some w
  | .other _ _ => none

/-- The function a request leaves by; `ionNext` is what `malloc` left in a new node. -/
def Queued.leave (f : Filename) (ionNext : Key) : Queued → Program Exit
  | .write w _ => w.programWith f ionNext
  | .other node _ => do return .returned (← readQueueOut f node.arriveTime)

/-- The WRITE requests. -/
def writesOf (rs : List Queued) : List Write := rs.filterMap Queued.asWrite

/-- The store, and what no record has: the requests inserted so far, those of them that
are pending and those that have left, each in their order; and whether a call has done what
C leaves undefined. -/
structure State where
  store : Store
  arrived : List Queued
  pending : List Queued
  departed : List Queued
  undefined : Bool

inductive Move where
  | enqueue (r : Queued) (fails : Nat → Bool)
  | depart (r : Queued) (ionNext : Key) (fails : Nat → Bool)

/-- A request is inserted by `queue_in_wait`, which does so before its first poll. A pending
request that has its type and time in the head slot, which is when its `queue_in_wait`
returns, leaves by a call that returns 0, or does what is undefined. -/
def next (f : Filename) (s : State) : Move → Option State
  | .enqueue r fails =>
    let x := (queueInWait f r.node.ioType r.node.arriveTime 0).run serve fails s.store
    if x.1 = none then some {s with store := x.2, arrived := s.arrived ++ [r], pending := s.pending ++ [r]} else none
  | .depart r ionNext fails => do
    let m ← s.store.md f.chars
    let x := (r.leave f ionNext).run serve fails s.store
    if r ∈ s.pending ∧ m.ioq.ioQNode m.ioq.head = r.node then
      match x.1 with
      | .returned 0 => some {s with store := x.2, pending := s.pending.erase r, departed := s.departed ++ [r]}
      | .undefined => some {s with store := x.2, undefined := true}
      | _ => none
    else none

/-- A file with `head = tail = 0` and an empty log. -/
structure Empty (f : Filename) (s : State) : Prop where
  metaData : ∃ m, s.store.md f.chars = some m ∧ m.ioq.head = 0 ∧ m.ioq.tail = 0 ∧ m.EmptyLog
  arrived : s.arrived = []
  pending : s.pending = []
  departed : s.departed = []
  defined : s.undefined = false

def machine (f : Filename) : Machine State Move where
  start := Empty f
  step := next f

/-- A request finds a free slot, and a WRITE comes at a time of its own. -/
def admissible : Rule State Move
  | s, .enqueue r _ => s.pending.length < ioQLen ∧
      ∀ w ∈ r.asWrite, ∀ v ∈ writesOf s.arrived, v.arriveTime ≠ w.arriveTime
  | _, .depart _ _ _ => True

instance : ∀ (s : State) (mv : Move), Decidable (admissible s mv)
  | s, .enqueue r _ => inferInstanceAs (Decidable (s.pending.length < ioQLen ∧
      ∀ w ∈ r.asWrite, ∀ v ∈ writesOf s.arrived, v.arriveTime ≠ w.arriveTime))
  | _, .depart _ _ _ => isTrue trivial

/-- A request that leaves, if it is a WRITE, has a key and a count that fit. -/
def Queued.Defined (f : Filename) (r : Queued) : Prop := ∀ w ∈ r.asWrite, w.Defined f

instance (f : Filename) (r : Queued) : Decidable (r.Defined f) :=
  inferInstanceAs (Decidable (∀ w ∈ r.asWrite, w.Defined f))

/-- And what leaves is defined. -/
def admissibleDefined (f : Filename) : Rule State Move
  | s, .enqueue r fails => admissible s (.enqueue r fails)
  | _, .depart r _ _ => r.Defined f

instance (f : Filename) : ∀ (s : State) (mv : Move), Decidable (admissibleDefined f s mv)
  | s, .enqueue r fails => inferInstanceAs (Decidable (admissible s (.enqueue r fails)))
  | _, .depart r _ _ => inferInstanceAs (Decidable (r.Defined f))

/-- The ring has the pending requests and the log the writes that have left, both in the
order of arrival. -/
structure InOrder (f : Filename) (s : State) (m : MetaData) : Prop where
  defined : s.undefined = false
  metaData : s.store.md f.chars = some m
  order : s.arrived = s.departed ++ s.pending
  times : ((writesOf s.arrived).map Write.arriveTime).Nodup
  ring : Holds m.ioq.ioQNode m.ioq.head m.ioq.tail (s.pending.map Queued.node)
  log : Whole f s.store m (keys f (writesOf s.departed))
  node : ∀ w ∈ writesOf s.departed, ∃ n, s.store.ion (w.key f) = some n ∧ n.Of w

section Step
variable {f : Filename} {s s' : State} {m : MetaData}

theorem writesOf_append (rs qs : List Queued) : writesOf (rs ++ qs) = writesOf rs ++ writesOf qs :=
  List.filterMap_append

theorem writesOf_singleton (r : Queued) : writesOf [r] = r.asWrite.toList := by
  cases r <;> rfl

theorem mem_writesOf {rs : List Queued} {w : Write} (hw : w.ioType = .write) (h : .write w hw ∈ rs) :
    w ∈ writesOf rs :=
  List.mem_filterMap.mpr ⟨_, h, rfl⟩

theorem Empty.inOrder (h : Empty f s) : ∃ m, InOrder f s m := by
  obtain ⟨⟨m, hm, hhead, htail, hlog⟩, harrived, hpending, hdeparted, hdefined⟩ := h
  refine ⟨m, hdefined, hm, by rw [harrived, hpending, hdeparted]; rfl, by rw [harrived]; exact List.nodup_nil, ?_, ?_, ?_⟩
  · rw [hpending, hhead, htail]
    exact .nil _ _
  · rw [hdeparted]
    exact .empty f _ hlog
  · rw [hdeparted]
    simp [writesOf]

/-- Two requests that look alike in the ring are one: only writes have more to them, and
those have times of their own. -/
theorem InOrder.eq_of_node (h : InOrder f s m) {r q : Queued} (hr : r ∈ s.arrived) (hq : q ∈ s.arrived)
    (hnode : r.node = q.node) : r = q := by
  cases r with
  | other node notWrite =>
    cases q with
    | other node' notWrite' =>
      cases hnode
      rfl
    | write w isWrite => exact absurd ((congrArg IoQNode.ioType hnode).trans isWrite) notWrite
  | write v isWrite =>
    cases q with
    | other node notWrite => exact absurd ((congrArg IoQNode.ioType hnode).symm.trans isWrite) notWrite
    | write w isWrite' =>
      have htime : v.arriveTime = w.arriveTime := congrArg IoQNode.arriveTime hnode
      cases List.inj_on_of_nodup_map h.times (mem_writesOf _ hr) (mem_writesOf _ hq) htime
      rfl

theorem InOrder.times_append (h : InOrder f s m) {r : Queued}
    (hnew : ∀ w ∈ r.asWrite, ∀ v ∈ writesOf s.arrived, v.arriveTime ≠ w.arriveTime) :
    ((writesOf (s.arrived ++ [r])).map Write.arriveTime).Nodup := by
  rw [writesOf_append, writesOf_singleton, List.map_append, List.nodup_append]
  refine ⟨h.times, ?_, ?_⟩
  · cases r.asWrite <;> simp
  · intro t ht u hu
    obtain ⟨v, hv, rfl⟩ := List.mem_map.mp ht
    obtain ⟨w, hw, rfl⟩ := List.mem_map.mp hu
    exact hnew w (Option.mem_toList.mp hw) v hv

/-! ### Inserting -/

/-- What an insertion does to the store. -/
theorem inserted {ioType : IoType} {t : Int64} {fails : Nat → Bool} {s : Store} (hm : s.md f.chars = some m)
    (h : ((queueInWait f ioType t 0).run serve fails s).1 = none) :
    ((queueInWait f ioType t 0).run serve fails s).2 =
      {s with md := Function.update s.md f.chars (some {m with ioq := m.ioq.enqueue ioType t})} := by
  simp only [queueInWait, mdGet_bind, Prog.run_call] at h ⊢
  cases h₀ : fails 0 with
  | true => simp [serve, h₀] at h
  | false =>
    simp only [serve, h₀, hm, Bool.false_eq_true, if_false, mdPut_bind, Prog.run_call] at h ⊢
    cases h₁ : fails 1 with
    | true => simp [h₁] at h
    | false => simp [waitHead]

theorem InOrder.enqueue (h : InOrder f s m) {r : Queued} {fails : Nat → Bool}
    (hrule : admissible s (.enqueue r fails)) (hstep : next f s (.enqueue r fails) = some s') :
    ∃ m', InOrder f s' m' := by
  simp only [next] at hstep
  split at hstep
  · rename_i hnone
    rw [inserted h.metaData hnone] at hstep
    cases hstep
    obtain ⟨hroom, hnew⟩ := hrule
    refine ⟨_, h.defined, Function.update_self .., ?_, ?_, ?_, h.log.keep rfl rfl rfl rfl, h.node⟩
    · rw [h.order, List.append_assoc]
    · exact h.times_append hnew
    · rw [List.map_append]
      exact h.ring.push (by rw [List.length_map]; exact hroom) _
  · cases hstep

/-! ### Leaving -/

/-- Only the head slot's request leaves: it is the oldest. -/
theorem InOrder.oldest (h : InOrder f s m) {r : Queued} (hr : r ∈ s.pending)
    (hhead : m.ioq.ioQNode m.ioq.head = r.node) : ∃ rest, s.pending = r :: rest := by
  cases hpending : s.pending with
  | nil =>
    rw [hpending] at hr
    cases hr
  | cons q rest =>
    have hring := h.ring
    rw [hpending] at hring
    have hnode : q.node = r.node := hring.front.symm.trans hhead
    have arrived {x : Queued} (hx : x ∈ s.pending) : x ∈ s.arrived := by
      rw [h.order]
      exact List.mem_append_right _ hx
    have hq : q ∈ s.pending := by
      rw [hpending]
      exact List.mem_cons_self
    rw [h.eq_of_node (arrived hq) (arrived hr) hnode]
    exact ⟨rest, rfl⟩

theorem Queued.leave_other (node : IoQNode) (notWrite : node.ioType ≠ .write) (ionNext : Key) (fails : Nat → Bool)
    (s : Store) : ((Queued.other node notWrite).leave f ionNext).run serve fails s =
      (.returned ((readQueueOut f node.arriveTime).run serve fails s).1,
        ((readQueueOut f node.arriveTime).run serve fails s).2) :=
  Prog.run_bind_calls serve (readQueueOut f node.arriveTime) (fun r => return Exit.returned r) fails s

theorem Queued.Defined.leave_defined {r : Queued} (h : r.Defined f) (ionNext : Key) (fails : Nat → Bool) (s : Store) :
    ((r.leave f ionNext).run serve fails s).1 ≠ .undefined := by
  cases r with
  | write w isWrite =>
    intro hundefined
    have hends := Prog.run_ends (h := serve) (w.programWith f ionNext) fails s
    have hret : ((w.programWith f ionNext).run serve fails s).1 = .undefined := hundefined
    rw [hret] at hends
    exact Write.ends_undefined hends (h w rfl)
  | other node notWrite =>
    rw [Queued.leave_other]
    exact Exit.noConfusion

/-- What `read_queuue_out` does to the store when it returns 0. -/
theorem read_left {t : Int64} {fails : Nat → Bool} {s : Store} (hm : s.md f.chars = some m)
    (h : ((readQueueOut f t).run serve fails s).1 = 0) :
    ((readQueueOut f t).run serve fails s).2 =
      {s with md := Function.update s.md f.chars (some {m with ioq := m.ioq.dequeue, stAtime := t})} := by
  simp only [readQueueOut, mdGet_bind, Prog.run_call] at h ⊢
  cases h₀ : fails 0 with
  | true => simp [serve, h₀] at h
  | false =>
    simp only [serve, h₀, hm, Bool.false_eq_true, if_false, mdPut_bind, Prog.run_call] at h ⊢
    cases h₁ : fails 1 with
    | true => simp [h₁] at h
    | false => simp

/-- A write that leaves has a key of its own. -/
theorem InOrder.new_key (h : InOrder f s m) {w : Write} {hw : w.ioType = .write} {rest : List Queued}
    (hpending : s.pending = .write w hw :: rest) : w.key f ∉ keys f (writesOf s.departed) := by
  have hkeys := keys_nodup (f := f) |>.mpr h.times
  rw [h.order, hpending, writesOf_append, keys, List.map_append, List.nodup_append] at hkeys
  exact fun hmem => hkeys.2.2 _ hmem _ List.mem_cons_self rfl

/-- A write that returns 0 has appended its node. -/
theorem InOrder.write (h : InOrder f s m) {w : Write} {hw : w.ioType = .write} {rest : List Queued}
    (hpending : s.pending = .write w hw :: rest) (ionNext : Key) :
    InOrder f ⟨w.storeAt f ionNext m s.store .all, s.arrived, rest, s.departed ++ [.write w hw], s.undefined⟩
      (m.wrote (w.key f)) := by
  have hnew := h.new_key hpending
  have hring := h.ring
  rw [hpending, List.map_cons] at hring
  have hwrites : writesOf (s.departed ++ [.write w hw]) = writesOf s.departed ++ [w] := by
    rw [writesOf_append, writesOf_singleton]
    rfl
  refine ⟨h.defined, Function.update_self .., by rw [h.order, hpending, List.append_assoc]; rfl, h.times, ?_, ?_, ?_⟩
  · rw [MetaData.wrote_ioq]
    exact hring.pop
  · have hlog := h.log.write w ionNext
    rw [Chain.appended, Chain.takeWhile_eq hnew] at hlog
    show Whole f _ _ (keys f (writesOf (s.departed ++ [.write w hw])))
    rw [hwrites, keys, List.map_append]
    exact hlog
  · intro v hv
    rw [hwrites] at hv
    obtain hv | hv := List.mem_append.mp hv
    · obtain ⟨n, hn, hof⟩ := h.node v hv
      refine relinked_node (n := n) ?_ hof
      rw [Write.ionWith, Function.update_of_ne (ne_of_mem_of_not_mem (mem_keys hv) hnew), hn]
    · rw [List.mem_singleton.mp hv]
      exact relinked_node (Function.update_self ..) ⟨rfl, rfl, rfl⟩

/-- Another request leaves the log as it is. -/
theorem InOrder.other (h : InOrder f s m) {node : IoQNode} {hnode : node.ioType ≠ .write} {rest : List Queued}
    (hpending : s.pending = .other node hnode :: rest) (t : Int64) :
    InOrder f ⟨{s.store with md := Function.update s.store.md f.chars (some {m with ioq := m.ioq.dequeue, stAtime := t})},
      s.arrived, rest, s.departed ++ [.other node hnode], s.undefined⟩
      {m with ioq := m.ioq.dequeue, stAtime := t} := by
  have hring := h.ring
  rw [hpending, List.map_cons] at hring
  have hwrites : writesOf (s.departed ++ [.other node hnode]) = writesOf s.departed := by
    rw [writesOf_append, writesOf_singleton, Queued.asWrite, Option.toList_none, List.append_nil]
  refine ⟨h.defined, Function.update_self .., by rw [h.order, hpending, List.append_assoc]; rfl, h.times, hring.pop,
    ?_, ?_⟩
  · show Whole f _ _ (keys f (writesOf (s.departed ++ [.other node hnode])))
    rw [hwrites]
    exact h.log.keep rfl rfl rfl rfl
  · show ∀ w ∈ writesOf (s.departed ++ [.other node hnode]), _
    rw [hwrites]
    exact h.node

/-- A request that leaves by a call that returns 0 has left the store so. -/
theorem InOrder.left (h : InOrder f s m) {r : Queued} {rest : List Queued} (hpending : s.pending = r :: rest)
    {ionNext : Key} {fails : Nat → Bool} (hret : ((r.leave f ionNext).run serve fails s.store).1 = .returned 0) :
    ∃ m', InOrder f ⟨((r.leave f ionNext).run serve fails s.store).2, s.arrived, rest, s.departed ++ [r], s.undefined⟩ m' ∧
      m'.ioq = m.ioq.dequeue := by
  cases r with
  | write w isWrite =>
    have hends := Prog.run_ends (h := serve) (w.programWith f ionNext) fails s.store
    have hzero : ((w.programWith f ionNext).run serve fails s.store).1 = .returned 0 := hret
    rw [hzero] at hends
    obtain ⟨-, m', hm', hstore⟩ := Write.ends_done hends
    cases h.metaData.symm.trans hm'
    refine ⟨m.wrote (w.key f), ?_, MetaData.wrote_ioq ..⟩
    rw [Queued.leave, hstore]
    exact h.write hpending ionNext
  | other node notWrite =>
    rw [Queued.leave_other] at hret ⊢
    refine ⟨{m with ioq := m.ioq.dequeue, stAtime := node.arriveTime}, ?_, rfl⟩
    rw [read_left h.metaData (Exit.returned.inj hret)]
    exact h.other hpending node.arriveTime

/-- A request that leaves, with nothing undefined, is the oldest, and no slot changes. -/
theorem InOrder.depart (h : InOrder f s m) {r : Queued} (hdefined : r.Defined f) {ionNext : Key} {fails : Nat → Bool}
    (hstep : next f s (.depart r ionNext fails) = some s') :
    s.pending = r :: s'.pending ∧ ∃ m', InOrder f s' m' ∧ m'.ioq = m.ioq.dequeue := by
  simp only [next, h.metaData, Option.bind_eq_bind, Option.bind_some] at hstep
  split at hstep
  · rename_i hleaves
    obtain ⟨rest, hpending⟩ := h.oldest hleaves.1 hleaves.2
    split at hstep
    · rename_i hret
      rw [hpending, List.erase_cons_head] at hstep
      cases hstep
      exact ⟨hpending, h.left hpending hret⟩
    · rename_i hret
      exact absurd hret (hdefined.leave_defined ionNext fails s.store)
    · cases hstep
  · cases hstep

end Step

/-- **The ring is a queue and the log follows it**: in every run in which a request finds a
free slot and writes have times of their own, and leave with a key and a count that fit, the
ring has the pending requests and the log the writes that have left, in the order of arrival;
the head and the tail stay in the ring; and what leaves is the oldest, the others' slots
staying as they are. -/
theorem fifo {f : Filename} {s : State} (h : Reach (machine f) (admissibleDefined f) s) : ∃ m, InOrder f s m ∧
    (m.ioq.head.val < ioQLen ∧ m.ioq.tail.val < ioQLen) ∧
    ∀ r, r.Defined f → ∀ ionNext fails s', (machine f).step s (.depart r ionNext fails) = some s' →
      s.pending = r :: s'.pending ∧ ∃ m', InOrder f s' m' ∧ m'.ioq = m.ioq.dequeue := by
  have hinv : ∃ m, InOrder f s m := by
    refine h.invariant (I := fun s => ∃ m, InOrder f s m) (fun _ => Empty.inOrder) fun s mv s' hs hrule hstep => ?_
    obtain ⟨m, hm⟩ := hs
    cases mv with
    | enqueue r fails => exact hm.enqueue hrule hstep
    | depart r ionNext fails =>
      obtain ⟨-, m', hm', -⟩ := hm.depart hrule hstep
      exact ⟨m', hm'⟩
  obtain ⟨m, hm⟩ := hinv
  exact ⟨m, hm, ⟨m.ioq.head.isLt, m.ioq.tail.isLt⟩, fun r hdefined ionNext fails s' hstep => hm.depart hdefined hstep⟩

/-- A file with so many replicas, an empty queue and an empty log, and no requests. -/
def State.new (f : Filename) (n : Fin (maxReplicas + 1)) : State := ⟨.ofFile f (.new n), [], [], [], false⟩

theorem State.new_start (f : Filename) (n : Fin (maxReplicas + 1)) : (machine f).start (State.new f n) :=
  ⟨⟨.new n, Store.ofFile_md f _, rfl, rfl, rfl, rfl⟩, rfl, rfl, rfl, rfl⟩

/-- A write of one byte, with a time. -/
def writeAt (t : Int64) : Queued := .write ⟨.write, t, 0, [7], 1, by decide⟩ rfl

/-- The one request of a file with a name of 249 characters is a write at a time of ten digits:
with its terminator, the key is longer than `path`. -/
theorem fifo_overrun : ∃ f s, f.chars.length = 249 ∧ Reach (machine f) admissible s ∧ ¬ ∃ m, InOrder f s m := by
  let f : Filename := ⟨List.replicate 249 'f', by rw [List.length_replicate]; decide⟩
  obtain ⟨s, hreach, hs⟩ := Reach.exists_run (M := machine f) (R := admissible)
    [.enqueue (writeAt 1000000000) fun _ => false, .depart (writeAt 1000000000) [] fun _ => false]
    (fun s : State => s.undefined) (.start (State.new_start f 1)) (by decide +kernel)
  refine ⟨f, s, List.length_replicate, hreach, fun horder => ?_⟩
  obtain ⟨m, hm⟩ := horder
  rw [hm.defined] at hs
  cases hs

/-- A write, a read and a write arrive, and the first two leave. -/
theorem fifo_three : ∃ f s, Reach (machine f) (admissibleDefined f) s ∧ s.departed.length = 2 ∧
    s.pending.length = 1 ∧ ∃ m, InOrder f s m := by
  let f : Filename := ⟨['f'], by decide⟩
  let r (t : Int64) : Queued := .other ⟨.read, t⟩ IoType.noConfusion
  let done : Nat → Bool := fun _ => false
  obtain ⟨s, hreach, hs⟩ := Reach.exists_run (M := machine f) (R := admissibleDefined f)
    [.enqueue (writeAt 1) done, .enqueue (r 1) done, .enqueue (writeAt 2) done, .depart (writeAt 1) [] done,
      .depart (r 1) [] done]
    (fun s : State => decide (s.departed.length = 2) && decide (s.pending.length = 1))
    (.start (State.new_start f 1)) (by decide +kernel)
  simp only [Bool.and_eq_true, decide_eq_true_eq] at hs
  obtain ⟨m, hm, -⟩ := fifo hreach
  exact ⟨f, s, hreach, hs.1, hs.2, m, hm⟩

end Fifo

end CacheFs.Queue
