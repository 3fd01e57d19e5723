import CacheFs.Library.Members
import CacheFs.Queue.Requests

/-! What the clients' calls do to the queue of the file.

The programs of a client get the metadata and put them at most once, with the queue
they have got, edited (`getPut`). So what a move does to the queue is one of three
things, said once (`Effect`): nothing, or a request put in, or one taken out, each
time as an edit of the queue the client has last got. -/
namespace CacheFs.Queue
open Interaction Members

/-! ### What the programs call -/

/-- A function that gets the metadata of the file and puts them at most once, with the
queue it has got, edited; it may use the write log if `logs`. -/
def getPut (f : Filename) (edit : IoQ → IoQ) (logs : Prop) : Protocol tt Pair where
  allowed := fun p call => match call with
    | .mdGet g => g = f.chars
    | .mdPut g m => g = f.chars ∧ p.put = none ∧ ∃ m₀, p.got = some m₀ ∧ m.ioq = edit m₀.ioq
    | .mdOut _ => False
    | .ionGet _ | .ionPut _ _ | .iodGet _ | .iodPut _ _ => logs
  after := Pair.after

/-- The head slot of the metadata got has the node. -/
def Pair.sawHead (node : IoQNode) (p : Pair) : Prop := ∃ m, p.got = some m ∧ m.ioq.ioQNode m.ioq.head = node

/-- `queue_in_wait` waits once it has put, and returns 0 once it has got metadata then with its
own node in the head slot. -/
def Waited (node : IoQNode) (pair : Pair) (r : Option UInt32) : Prop :=
  r ≠ some 1 → pair.put = some true ∧ (r = some 0 → pair.sawHead node)

/-- The functions end so; what leaves the queue is undefined only if the request is. -/
def Client.Follows (f : Filename) (c : Client) : Prop :=
  match c.stage with
  | .entering p => p.Follows (getPut f (·.enqueue c.request.ioType c.request.arriveTime) False)
      (Waited c.request.node) c.pair
  | .leaving p => p.Follows (getPut f IoQ.dequeue True) (fun _ r => c.request.Defined f → r ≠ .undefined) c.pair

section Programs
variable {f : Filename} {ioType : IoType} {t : Int64}

theorem waitHead_follows (polls : Nat) {pair : Pair} (hput : pair.put = some true) :
    (waitHead f ioType t polls).Follows (getPut f (·.enqueue ioType t) False) (Waited ⟨ioType, t⟩) pair := by
  induction polls generalizing pair with
  | zero => exact fun _ => ⟨hput, by simp⟩
  | succ polls ih =>
    simp only [waitHead, mdGet_bind, Prog.follows_call]
    refine ⟨rfl, fun a => ?_⟩
    cases a with
    | none => exact fun hwaits => absurd rfl hwaits
    | some m =>
      simp only
      split
      · rename_i hhead
        exact fun _ => ⟨hput, fun _ => ⟨m, rfl, by rw [← hhead.1, ← hhead.2]⟩⟩
      · exact ih hput

theorem queueInWait_follows (polls : Nat) :
    (queueInWait f ioType t polls).Follows (getPut f (·.enqueue ioType t) False) (Waited ⟨ioType, t⟩)
      ⟨none, none⟩ := by
  simp only [queueInWait, mdGet_bind, Prog.follows_call]
  refine ⟨rfl, fun a => ?_⟩
  cases a with
  | none => exact fun hwaits => absurd rfl hwaits
  | some m =>
    simp only [mdPut_bind, Prog.follows_call]
    refine ⟨⟨rfl, rfl, m, rfl, rfl⟩, fun done => ?_⟩
    cases done with
    | false => exact fun hwaits => absurd rfl hwaits
    | true => exact waitHead_follows polls rfl

theorem readQueueOut_follows :
    (readQueueOut f t).Follows (getPut f IoQ.dequeue True) (fun _ _ => True) ⟨none, none⟩ := by
  simp only [readQueueOut, mdGet_bind, Prog.follows_call]
  refine ⟨rfl, fun a => ?_⟩
  cases a with
  | none => simp
  | some m =>
    simp only [mdPut_bind, Prog.follows_call]
    refine ⟨⟨rfl, rfl, m, rfl, rfl⟩, fun done => ?_⟩
    cases done <;> simp

/-- Linking the old tail leaves the metadata alone. -/
theorem linkTail_follows (tail path : Key) (pair : Pair) :
    (linkTail tail path).Follows (getPut f IoQ.dequeue True) (fun pair' _ => pair' = pair) pair := by
  simp only [linkTail]
  split
  · simp only [ionGet_bind, Prog.follows_call]
    refine ⟨trivial, fun a => ?_⟩
    cases a with
    | none => rfl
    | some node => exact ⟨trivial, fun _ => rfl⟩
  · rfl

@[simp] theorem MetaData.logged_ioq (m : MetaData) (path : Key) : (m.logged path).ioq = m.ioq := by
  simp only [MetaData.logged]
  split <;> rfl

theorem putData_follows (path : Key) (data : List UInt8) (count : UInt32) (pair : Pair) :
    (putData path data count).Follows (getPut f IoQ.dequeue True)
      (fun _ r => count.toNat < intLimit → r ≠ .undefined) pair := by
  unfold putData
  split
  · refine ⟨trivial, fun done => ?_⟩
    cases done with
    | false | true => exact fun _ => Exit.noConfusion
  · rename_i hcount
    exact fun hfits => absurd hfits hcount

theorem writeUnder_follows (path : Key) (offset : UInt64) (data : List UInt8) (size : UInt64) (ionNext : Key) :
    (writeUnder path f ioType t offset data size ionNext).Follows (getPut f IoQ.dequeue True)
      (fun _ r => size.toUInt32.toNat < intLimit → r ≠ .undefined) ⟨none, none⟩ := by
  simp only [writeUnder, mdGet_bind, Prog.follows_call]
  refine ⟨rfl, fun a => ?_⟩
  cases a with
  | none => simp
  | some m =>
    simp only [ionPut_bind, Prog.follows_call]
    refine ⟨trivial, fun done => ?_⟩
    cases done with
    | false => simp
    | true =>
      refine (linkTail_follows _ _ _).bind fun pair linked hpair => ?_
      subst hpair
      cases linked with
      | false => simp
      | true =>
        simp only [if_true, mdPut_bind, Prog.follows_call]
        refine ⟨⟨rfl, rfl, m, rfl, MetaData.logged_ioq _ _⟩, fun done => ?_⟩
        cases done with
        | false => simp
        | true => exact putData_follows path data _ _

theorem writeQueueOut_follows (offset : UInt64) (data : List UInt8) (size : UInt64) (ionNext : Key) :
    (writeQueueOut f ioType t offset data size ionNext).Follows (getPut f IoQ.dequeue True)
      (fun _ r => (ionKey f t).length < ioNodeKeyLen ∧ size.toUInt32.toNat < intLimit → r ≠ .undefined)
      ⟨none, none⟩ := by
  unfold writeQueueOut
  split
  · refine Prog.Follows.mono (writeUnder_follows _ offset data size ionNext) fun _ _ h hdefined => ?_
    exact h hdefined.2
  · rename_i hlong
    exact fun hdefined => absurd hdefined.1 hlong

theorem Request.enter_follows (r : Request) (polls : Nat) :
    Client.Follows f ⟨r, .entering (r.enter f polls), ⟨none, none⟩⟩ := queueInWait_follows polls

theorem Request.wait_follows (r : Request) (polls : Nat) {pair : Pair} (hput : pair.put = some true) :
    Client.Follows f ⟨r, .entering (r.wait f polls), pair⟩ := waitHead_follows polls hput

theorem Request.leave_follows (r : Request) : Client.Follows f ⟨r, .leaving (r.leave f), ⟨none, none⟩⟩ := by
  obtain ⟨ioType, t, out⟩ := r
  cases out with
  | read => exact readQueueOut_follows.bind fun _ _ _ _ => Exit.noConfusion
  | write offset data size ionNext => exact writeQueueOut_follows offset data size ionNext

end Programs

/-! ### What a call does to the queue -/

/-- The client's request is in the queue: it has been put in and not been taken out. -/
def Client.Queued (c : Client) : Prop :=
  if c.enters then c.pair.put = some true else c.pair.put ≠ some true

/-- An `md_put` that is done, of the queue the client has got, edited. -/
structure Client.Puts (f : Filename) (fails : Bool) (s : State) (c c' : Client) (s' : State)
    (edit : IoQ → IoQ) : Prop where
  done : fails = false
  puts : c.puts
  before : c.inPair
  after : c'.inPair = false
  ioq : ∃ m₀ m, c.pair.got = some m₀ ∧ s'.store.md f.chars = some m ∧ m.ioq = edit m₀.ioq

/-- A put on the queue as the client got it edits the queue. -/
theorem Client.Puts.edits {f : Filename} {fails : Bool} {s s' : State} {c c' : Client} {edit : IoQ → IoQ}
    (h : c.Puts f fails s c' s' edit) {m : MetaData} (hgot : ∀ m₀ ∈ c.pair.got, m.ioq = m₀.ioq) :
    ∃ m', s'.store.md f.chars = some m' ∧ m'.ioq = edit m.ioq := by
  obtain ⟨m₀, m', hm₀, hm', hioq⟩ := h.ioq
  exact ⟨m', hm', by rw [hioq, hgot m₀ hm₀]⟩

/-- What a call of client `i` does, where it fails or not: the client is `c` before it
and `c'` after it. -/
inductive Client.Turn (f : Filename) (fails : Bool) (s : State) (i : Nat) (c c' : Client) (s' : State) : Prop
  /-- Nothing to the queue. A client is admitted when it sees its own node in the head
  slot, and what it has got is what it had, or what is stored. -/
  | silent (md : s'.store.md f.chars = s.store.md f.chars) (pending : s'.pending = s.pending)
      (queued : c'.Queued ↔ c.Queued)
      (admitted : c'.admitted → c.admitted ∨
        ∃ m, s.store.md f.chars = some m ∧ m.ioq.ioQNode m.ioq.head = c.request.node)
      (inPair : c'.inPair → c'.pair.got = s.store.md f.chars ∨ c.inPair ∧ c'.pair.got = c.pair.got)
  | enqueued (put : c.Puts f fails s c' s' (·.enqueue c.request.ioType c.request.arriveTime))
      (enters : c.enters = true) (before : ¬ c.Queued) (after : c'.Queued)
      (pending : s'.pending = s.pending ++ [i]) (waits : c'.admitted = false)
  | left (put : c.Puts f fails s c' s' IoQ.dequeue) (leaves : c.enters = false)
      (before : c.Queued) (after : ¬ c'.Queued) (pending : s'.pending = s.pending.erase i)

/-- What a client has done whose `queue_in_wait` has returned 0. -/
theorem Client.Follows.saw {f : Filename} {c : Client} (h : c.Follows f) (henters : c.enters = true)
    (hadm : c.admitted = true) : c.pair.put = some true ∧ c.pair.sawHead c.request.node := by
  obtain ⟨r, stage, pair⟩ := c
  cases stage with
  | entering prog =>
    cases prog with
    | ret r =>
      obtain rfl : r = some 0 := of_decide_eq_true hadm
      exact ⟨(h (by decide)).1, (h (by decide)).2 rfl⟩
    | call => cases hadm
  | leaving => cases henters

/-- A client that has got nothing since its put is not admitted. -/
theorem Client.Follows.waits {f : Filename} {c : Client} (h : c.Follows f) (henters : c.enters = true)
    (hgot : c.pair.got = none) : c.admitted = false := by
  refine Bool.eq_false_iff.mpr fun hadm => ?_
  obtain ⟨-, m, hm, -⟩ := h.saw henters hadm
  rw [hgot] at hm
  cases hm

theorem Client.admitted_of_leaves {c : Client} (h : c.enters = false) : c.admitted = true := by
  obtain ⟨r, stage, pair⟩ := c
  cases stage with
  | entering => cases h
  | leaving => rfl

/-- A client that has got something has got what is stored. -/
theorem serve_mdGet {f : Key} {fails : Bool} {s : Store} {m : MetaData}
    (h : (serve (.mdGet f) fails s).1 = some m) : s.md f = some m := by
  cases fails with
  | true => cases h
  | false => exact h

theorem Client.inPair_iff {c : Client} :
    c.inPair = true ↔ (∃ m, c.pair.got = some m) ∧ c.pair.put = none ∧ c.returned = false := by
  simp only [inPair, Bool.and_eq_true, Option.isSome_iff_exists, Option.isNone_iff_eq_none,
    Bool.not_eq_true', and_assoc]

/-- A client that has put is no longer between its get and its put. -/
theorem Client.not_inPair {c : Client} {done : Bool} (h : c.pair.put = some done) : c.inPair = false := by
  simp [inPair, h]

section Turn
variable {f : Filename} {s s' : State} {i : Nat} {fails : Bool} {r : Request} {pair : Pair}

theorem entering_turn {call : Call} {k : Answer call → Program (Option UInt32)}
    (h : Client.Follows f ⟨r, .entering (.call call k), pair⟩)
    (hstore : s'.store = (serve call fails s.store).2)
    (hpending : s'.pending = if put call (serve call fails s.store).1 then s.pending ++ [i] else s.pending) :
    Client.Turn f fails s i ⟨r, .entering (.call call k), pair⟩
      ⟨r, .entering (k (serve call fails s.store).1), pair.after call (serve call fails s.store).1⟩ s' := by
  obtain ⟨hallowed, hafter⟩ := h
  have hfollows' : Client.Follows f ⟨r, .entering (k (serve call fails s.store).1),
    pair.after call (serve call fails s.store).1⟩ := hafter _
  cases call with
  | mdGet g =>
    cases hallowed
    refine .silent (by rw [hstore]; rfl) hpending Iff.rfl (fun hadm => ?_) (fun hin => ?_)
    · obtain ⟨-, m, hgot, hhead⟩ := hfollows'.saw rfl hadm
      exact .inr ⟨m, serve_mdGet hgot, hhead⟩
    · obtain ⟨⟨m, hgot⟩, -⟩ := Client.inPair_iff.mp hin
      exact .inl (hgot.trans (serve_mdGet hgot).symm)
  | mdPut g m =>
    obtain ⟨rfl, hput, m₀, hgot, hioq⟩ := hallowed
    have hput : pair.put = none := hput
    have hbefore : ¬ Client.Queued ⟨r, .entering (.call (.mdPut f.chars m) k), pair⟩ := by
      simp [Client.Queued, Client.enters, hput]
    cases fails with
    | false =>
      refine .enqueued ⟨rfl, rfl, Client.inPair_iff.mpr ⟨⟨m₀, hgot⟩, hput, rfl⟩, Client.not_inPair rfl,
        m₀, m, hgot, ?_, hioq⟩ rfl hbefore rfl hpending (hfollows'.waits rfl rfl)
      rw [hstore]
      exact Function.update_self ..
    | true =>
      refine .silent (by rw [hstore]; rfl) hpending (iff_of_false (fun hafter => by cases hafter) hbefore)
        (fun hadm => ?_) (fun hin => ?_)
      · rw [hfollows'.waits rfl rfl] at hadm
        cases hadm
      · rw [Client.not_inPair rfl] at hin
        cases hin
  | mdOut | ionGet | ionPut | iodGet | iodPut => exact hallowed.elim

theorem leaving_turn {call : Call} {k : Answer call → Program Exit}
    (h : Client.Follows f ⟨r, .leaving (.call call k), pair⟩)
    (hstore : s'.store = (serve call fails s.store).2)
    (hpending : s'.pending = if put call (serve call fails s.store).1 then s.pending.erase i else s.pending) :
    Client.Turn f fails s i ⟨r, .leaving (.call call k), pair⟩
      ⟨r, .leaving (k (serve call fails s.store).1), pair.after call (serve call fails s.store).1⟩ s' := by
  obtain ⟨hallowed, -⟩ := h
  cases call with
  | mdGet g =>
    cases hallowed
    refine .silent (by rw [hstore]; rfl) hpending Iff.rfl (fun _ => .inl rfl) (fun hin => ?_)
    obtain ⟨⟨m, hgot⟩, -⟩ := Client.inPair_iff.mp hin
    exact .inl (hgot.trans (serve_mdGet hgot).symm)
  | mdPut g m =>
    obtain ⟨rfl, hput, m₀, hgot, hioq⟩ := hallowed
    have hput : pair.put = none := hput
    have hbefore : Client.Queued ⟨r, .leaving (.call (.mdPut f.chars m) k), pair⟩ := by
      simp [Client.Queued, Client.enters, hput]
    cases fails with
    | false =>
      refine .left ⟨rfl, rfl, Client.inPair_iff.mpr ⟨⟨m₀, hgot⟩, hput, rfl⟩, Client.not_inPair rfl,
        m₀, m, hgot, ?_, hioq⟩ rfl hbefore (fun hafter => hafter rfl) hpending
      rw [hstore]
      exact Function.update_self ..
    | true =>
      refine .silent (by rw [hstore]; rfl) hpending
        (iff_of_true (by simp [Client.Queued, Client.enters, Pair.after, serve]) hbefore)
        (fun _ => .inl rfl) (fun hin => ?_)
      rw [Client.not_inPair rfl] at hin
      cases hin
  | mdOut => exact hallowed.elim
  | ionGet | ionPut | iodGet | iodPut =>
    -- the write log is not the queue
    refine .silent (by rw [hstore]; cases fails <;> rfl) hpending Iff.rfl (fun _ => .inl rfl)
      (fun hin => .inr ⟨?_, rfl⟩)
    obtain ⟨hgot, hput, -⟩ := Client.inPair_iff.mp hin
    exact Client.inPair_iff.mpr ⟨hgot, hput, rfl⟩

theorem turn {c : Client} (hc : s.clients[i]? = some c) (hfollows : c.Follows f)
    (hnext : s.next f (.call i fails) = some s') :
    ∃ c', s'.clients = s.clients.set i c' ∧ c'.request = c.request ∧ c'.enters = c.enters ∧ c'.Follows f ∧
      c.Turn f fails s i c' s' := by
  obtain ⟨r, stage, pair⟩ := c
  simp only [State.next, hc, Option.bind_eq_bind, Option.bind_some] at hnext
  cases stage with
  | entering prog =>
    cases prog with
    | ret => cases hnext
    | call call k =>
      cases hnext
      exact ⟨_, rfl, rfl, rfl, hfollows.2 _, entering_turn hfollows rfl rfl⟩
  | leaving prog =>
    cases prog with
    | ret => cases hnext
    | call call k =>
      cases hnext
      exact ⟨_, rfl, rfl, rfl, hfollows.2 _, leaving_turn hfollows rfl rfl⟩

end Turn

/-! ### Every run -/

section Nodes
variable {clients : List Client} {pending : List Nat} {i : Nat} {c : Client}

theorem nodesOf_add (h : ∀ i ∈ pending, i < clients.length) (c : Client) :
    nodesOf (clients ++ [c]) pending = nodesOf clients pending :=
  List.filterMap_congr fun i hi => by rw [List.getElem?_append_left (h i hi)]

theorem nodesOf_set (hc : clients[i]? = some c) {c' : Client} (hrequest : c'.request = c.request) :
    nodesOf (clients.set i c') pending = nodesOf clients pending := by
  refine List.filterMap_congr fun j _ => ?_
  by_cases hij : i = j
  · subst hij
    rw [getElem?_set_same hc, hc, Option.map_some, Option.map_some, hrequest]
  · rw [List.getElem?_set_ne hij]

theorem nodesOf_append (hc : clients[i]? = some c) :
    nodesOf clients (pending ++ [i]) = nodesOf clients pending ++ [c.request.node] := by
  simp [nodesOf, hc]

theorem nodesOf_cons (hc : clients[i]? = some c) :
    nodesOf clients (i :: pending) = c.request.node :: nodesOf clients pending := by
  simp [nodesOf, hc]

theorem mem_nodesOf (hi : i ∈ pending) (hc : clients[i]? = some c) :
    c.request.node ∈ nodesOf clients pending :=
  List.mem_filterMap.mpr ⟨i, hi, by rw [hc]; rfl⟩

theorem nodesOf_length (h : ∀ i ∈ pending, i < clients.length) :
    (nodesOf clients pending).length = pending.length := by
  induction pending with
  | nil => rfl
  | cons i pending ih =>
    have hi := List.getElem?_eq_getElem (h i List.mem_cons_self)
    rw [nodesOf_cons hi, List.length_cons, List.length_cons,
      ih fun j hj => h j (List.mem_cons_of_mem i hj)]

end Nodes

/-- The pending requests are those of the clients that are in the queue. -/
structure Orderly (f : Filename) (s : State) : Prop where
  follows : ∀ (i : Nat) (c : Client), s.clients[i]? = some c → c.Follows f
  queued : ∀ (i : Nat) (c : Client), s.clients[i]? = some c → (i ∈ s.pending ↔ c.Queued)
  known : ∀ i ∈ s.pending, i < s.clients.length
  nodup : s.pending.Nodup

/-- What a move does to the queue of the file, and what it means for the clients. -/
inductive Effect (f : Filename) (s : State) (mv : Move) (s' : State) : Prop
  | silent (md : s'.store.md f.chars = s.store.md f.chars) (pending : s'.pending = s.pending)
      (nodes : s'.nodes = s.nodes)
      (admitted : ∀ (j : Nat) (c' : Client), s'.clients[j]? = some c' → c'.admitted → j ∈ s.pending →
        (∃ c : Client, s.clients[j]? = some c ∧ c.admitted) ∨
        ∃ c m, s.clients[j]? = some c ∧ s.store.md f.chars = some m ∧
          m.ioq.ioQNode m.ioq.head = c.request.node)
      (inPair : ∀ (j : Nat) (c' : Client), s'.clients[j]? = some c' → c'.inPair → c'.pair.got = s.store.md f.chars ∨
        ∃ c : Client, s.clients[j]? = some c ∧ c.inPair ∧ c'.pair.got = c.pair.got)
  | enqueued (i : Nat) (c c' : Client) (call : mv = .call i false) (client : s.clients[i]? = some c)
      (clients : s'.clients = s.clients.set i c')
      (put : c.Puts f false s c' s' (·.enqueue c.request.ioType c.request.arriveTime))
      (enters : c.enters = true) (waits : c'.admitted = false)
      (pending : s'.pending = s.pending ++ [i]) (nodes : s'.nodes = s.nodes ++ [c.request.node])
  | left (i : Nat) (c c' : Client) (call : mv = .call i false) (client : s.clients[i]? = some c)
      (clients : s'.clients = s.clients.set i c') (put : c.Puts f false s c' s' IoQ.dequeue)
      (leaves : c.enters = false) (member : i ∈ s.pending)
      (pending : s'.pending = s.pending.erase i) (nodes : s'.nodes = nodesOf s.clients (s.pending.erase i))

section Step
variable {f : Filename} {s s' : State} {mv : Move}

theorem Quiet.orderly (h : Quiet f s) : Orderly f s := by
  obtain ⟨-, hclients, hpending⟩ := h
  exact ⟨by simp [hclients], by simp [hclients], by simp [hpending], by simp [hpending]⟩

/-- A client's move that keeps its request keeps the order, when the queue says of the
client what it did. -/
theorem Orderly.set (h : Orderly f s) {i : Nat} {c c' : Client} (hc : s.clients[i]? = some c)
    (hfollows : c'.Follows f) {store : Store} {pending : List Nat} (hi : i ∈ pending ↔ c'.Queued)
    (hothers : ∀ j ≠ i, j ∈ pending ↔ j ∈ s.pending) (hnodup : pending.Nodup) :
    Orderly f ⟨store, s.clients.set i c', pending⟩ := by
  have hlt := (List.getElem?_eq_some_iff.mp hc).1
  refine ⟨fun j d hd => ?_, fun j d hd => ?_, fun j hj => ?_, hnodup⟩
  · obtain ⟨-, rfl⟩ | ⟨-, hd⟩ := getElem?_set_cases hd
    · exact hfollows
    · exact h.follows j d hd
  · obtain ⟨rfl, rfl⟩ | ⟨hij, hd⟩ := getElem?_set_cases hd
    · exact hi
    · exact (hothers j (Ne.symm hij)).trans (h.queued j d hd)
  · rw [List.length_set]
    by_cases hij : j = i
    · exact hij ▸ hlt
    · exact h.known j ((hothers j hij).mp hj)

/-- A client's move that leaves the queue alone. -/
theorem Effect.set {i : Nat} {c c' : Client} (hc : s.clients[i]? = some c)
    (hclients : s'.clients = s.clients.set i c') (hrequest : c'.request = c.request)
    (md : s'.store.md f.chars = s.store.md f.chars) (pending : s'.pending = s.pending)
    (admitted : c'.admitted → i ∈ s.pending → c.admitted ∨
      ∃ m, s.store.md f.chars = some m ∧ m.ioq.ioQNode m.ioq.head = c.request.node)
    (inPair : c'.inPair → c'.pair.got = s.store.md f.chars ∨ c.inPair ∧ c'.pair.got = c.pair.got) :
    Effect f s mv s' := by
  refine .silent md pending ?_ (fun j d hd hadm hj => ?_) (fun j d hd hin => ?_)
  · rw [State.nodes, hclients, pending, nodesOf_set hc hrequest, State.nodes]
  · rw [hclients] at hd
    obtain ⟨rfl, rfl⟩ | ⟨-, hd⟩ := getElem?_set_cases hd
    · obtain hadm | ⟨m, hm, hhead⟩ := admitted hadm hj
      · exact .inl ⟨c, hc, hadm⟩
      · exact .inr ⟨c, m, hc, hm, hhead⟩
    · exact .inl ⟨d, hd, hadm⟩
  · rw [hclients] at hd
    obtain ⟨rfl, rfl⟩ | ⟨-, hd⟩ := getElem?_set_cases hd
    · exact (inPair hin).imp_right fun ⟨hin, hgot⟩ => ⟨c, hc, hin, hgot⟩
    · exact .inr ⟨d, hd, hin, rfl⟩

theorem Orderly.request (h : Orderly f s) (r : Request) (polls : Nat)
    (hstep : s.next f (.request r polls) = some s') : Orderly f s' ∧ Effect f s (.request r polls) s' := by
  cases hstep
  have hold {j : Nat} {d : Client} {cs : List Client} (hj : j ∈ s.pending)
      (hd : (s.clients ++ cs)[j]? = some d) : s.clients[j]? = some d :=
    (List.getElem?_append_left (h.known j hj)).symm.trans hd
  constructor
  · refine ⟨fun j d hd => ?_, fun j d hd => ?_, fun j hj => ?_, h.nodup⟩
    · obtain hd | ⟨-, rfl⟩ := getElem?_append_one hd
      · exact h.follows j d hd
      · exact r.enter_follows polls
    · obtain hd | ⟨rfl, rfl⟩ := getElem?_append_one hd
      · exact h.queued j d hd
      · exact iff_of_false (fun hj => Nat.lt_irrefl _ (h.known _ hj)) (by simp [Client.Queued, Client.enters])
    · rw [List.length_append]
      exact Nat.lt_add_right _ (h.known j hj)
  · refine .silent rfl rfl (nodesOf_add h.known _) (fun j d hd hadm hj => .inl ⟨d, hold hj hd, hadm⟩)
      (fun j d hd hin => ?_)
    obtain hd | ⟨-, rfl⟩ := getElem?_append_one hd
    · exact .inr ⟨d, hd, hin, rfl⟩
    · cases hin

theorem Orderly.call (h : Orderly f s) {i : Nat} {fails : Bool} (hstep : s.next f (.call i fails) = some s') :
    Orderly f s' ∧ Effect f s (.call i fails) s' := by
  cases hc : s.clients[i]? with
  | none => simp [State.next, hc] at hstep
  | some c =>
    obtain ⟨c', hclients, hrequest, -, hfollows, hturn⟩ := turn hc (h.follows i c hc) hstep
    have hqueued := h.queued i c hc
    obtain ⟨store, clients, pending⟩ := s'
    cases hclients
    cases hturn with
    | silent md hpending queued admitted inPair =>
      cases hpending
      exact ⟨h.set hc hfollows (hqueued.trans queued.symm) (fun _ _ => Iff.rfl) h.nodup,
        .set hc rfl hrequest md rfl (fun hadm _ => admitted hadm) inPair⟩
    | enqueued put enters before after hpending waits =>
      cases hpending
      cases put.done
      have hi : i ∉ s.pending := fun hi => before (hqueued.mp hi)
      refine ⟨h.set hc hfollows (iff_of_true (by simp) after) (fun j hj => by simp [hj]) ?_,
        .enqueued i c c' rfl hc rfl put enters waits rfl ((nodesOf_set hc hrequest).trans (nodesOf_append hc))⟩
      exact List.nodup_append.mpr ⟨h.nodup, List.nodup_singleton i, fun a ha b hb =>
        fun hab => hi (List.mem_singleton.mp hb ▸ hab ▸ ha)⟩
    | left put leaves before after hpending =>
      cases hpending
      cases put.done
      exact ⟨h.set hc hfollows (iff_of_false h.nodup.not_mem_erase after)
          (fun j hj => List.mem_erase_of_ne hj) (h.nodup.erase i),
        .left i c c' rfl hc rfl put leaves (hqueued.mpr before) rfl (nodesOf_set hc hrequest)⟩

theorem Orderly.wait (h : Orderly f s) {i polls : Nat} (hstep : s.next f (.wait i polls) = some s') :
    Orderly f s' ∧ Effect f s (.wait i polls) s' := by
  cases hc : s.clients[i]? with
  | none => simp [State.next, hc] at hstep
  | some c =>
    simp only [State.next, hc, Option.bind_eq_bind, Option.bind_some] at hstep
    split at hstep
    · rename_i hstage
      cases hstep
      obtain ⟨request, stage, pair⟩ := c
      cases hstage
      have hwaited : Waited request.node pair none := h.follows i _ hc
      have hput : pair.put = some true := (hwaited (by decide)).1
      -- it is in the queue as before, and has seen nothing new
      have hqueued : i ∈ s.pending ↔ Client.Queued ⟨request, .entering (.ret none), pair⟩ := h.queued i _ hc
      have hwaits : Client.admitted ⟨request, .entering (request.wait f polls), pair⟩ = false := by
        cases polls <;> rfl
      refine ⟨h.set hc (request.wait_follows polls hput) hqueued (fun _ _ => Iff.rfl) h.nodup,
        .set hc rfl rfl rfl rfl (fun hadm => ?_) (fun hin => ?_)⟩
      · rw [hwaits] at hadm
        cases hadm
      · rw [Client.not_inPair hput] at hin
        cases hin
    · cases hstep

theorem Orderly.leave (h : Orderly f s) {i : Nat} (hstep : s.next f (.leave i) = some s') :
    Orderly f s' ∧ Effect f s (.leave i) s' := by
  cases hc : s.clients[i]? with
  | none => simp [State.next, hc] at hstep
  | some c =>
    simp only [State.next, hc, Option.bind_eq_bind, Option.bind_some] at hstep
    split at hstep
    · rename_i hstage
      cases hstep
      have hadm : c.admitted = true := by simp [Client.admitted, hstage]
      have henters : c.enters = true := by simp [Client.enters, hstage]
      have hput := ((h.follows i c hc).saw henters hadm).1
      have hqueued : c.Queued := by simp [Client.Queued, henters, hput]
      refine ⟨h.set hc c.request.leave_follows (iff_of_true ((h.queued i c hc).mpr hqueued) ?_)
        (fun _ _ => Iff.rfl) h.nodup, .set hc rfl rfl rfl rfl (fun _ _ => .inl hadm) (fun hin => by cases hin)⟩
      simp [Client.Queued, Client.enters]
    · cases hstep

/-- **Every move is one of three effects**, and keeps the pending requests in order. -/
theorem Orderly.step (h : Orderly f s) (hstep : s.next f mv = some s') : Orderly f s' ∧ Effect f s mv s' := by
  cases mv with
  | request r polls => exact h.request r polls hstep
  | call i fails => exact h.call hstep
  | wait i polls => exact h.wait hstep
  | leave i => exact h.leave hstep

/-! ### What is undefined -/

/-- The clients that leave have nothing undefined to do. -/
def State.LeavesDefined (f : Filename) (s : State) : Prop :=
  ∀ (i : Nat) (c : Client), s.clients[i]? = some c → c.enters = false → c.request.Defined f

theorem State.LeavesDefined.step (h : s.LeavesDefined f) (hord : Orderly f s) (hrule : definedLeaves f s mv)
    (hstep : s.next f mv = some s') : s'.LeavesDefined f := by
  intro j d hd hleaves
  cases mv with
  | request r polls =>
    cases hstep
    obtain hd | ⟨-, rfl⟩ := getElem?_append_one hd
    · exact h j d hd hleaves
    · cases hleaves
  | call i fails =>
    obtain ⟨c, hc, -⟩ := Option.bind_eq_some_iff.mp hstep
    obtain ⟨c', hclients, hrequest, henters, -⟩ := turn hc (hord.follows i c hc) hstep
    rw [hclients] at hd
    obtain ⟨rfl, rfl⟩ | ⟨-, hd⟩ := getElem?_set_cases hd
    · rw [hrequest]
      exact h _ c hc (henters.symm.trans hleaves)
    · exact h j d hd hleaves
  | wait i polls =>
    obtain ⟨c, hc, hstep⟩ := Option.bind_eq_some_iff.mp hstep
    split at hstep
    · cases hstep
      obtain ⟨-, rfl⟩ | ⟨-, hd⟩ := getElem?_set_cases hd
      · cases hleaves
      · exact h j d hd hleaves
    · cases hstep
  | leave i =>
    obtain ⟨c, hc, hstep⟩ := Option.bind_eq_some_iff.mp hstep
    split at hstep
    · cases hstep
      obtain ⟨rfl, rfl⟩ | ⟨-, hd⟩ := getElem?_set_cases hd
      · exact hrule c hc
      · exact h j d hd hleaves
    · cases hstep

theorem State.LeavesDefined.defined (h : s.LeavesDefined f) (hord : Orderly f s) : s.Defined := by
  intro i c hc
  obtain ⟨request, stage, pair⟩ := c
  cases stage with
  | entering p => rfl
  | leaving p =>
    cases p with
    | call call k => rfl
    | ret r =>
      have hfollows : request.Defined f → r ≠ .undefined := hord.follows i _ hc
      exact decide_eq_false (hfollows (h i _ hc rfl))

end Step

end CacheFs.Queue
