import CacheFs.Library.Settling
import CacheFs.Queue.Admission

/-! Whether the queue can still be emptied.

A function returns at the first call of its that fails. A client whose request is in the
queue then never takes it out again, and as the queue is served in order nobody behind it is
admitted any more. Short of that the oldest request can always leave, so the queue can be
emptied exactly when no client with a pending request has given up (`drains_iff`). The
requests are such that nothing of how they leave is undefined. -/
namespace CacheFs.Queue
open Interaction Ring Transition Members

/-! ### The functions -/

/-- What a call is answered that fails. -/
def failed : (c : Call) → Answer c
  | .mdGet _ | .ionGet _ | .iodGet _ => none
  | .mdPut _ _ | .mdOut _ | .ionPut _ _ | .iodPut _ _ => false

section Programs
variable {R : Type}

/-- The function returns at the first call that fails. -/
def Stops : Program R → Prop
  | .ret _ => True
  | .call c next => (∃ r, next (failed c) = .ret r) ∧ ∀ a, Stops (next a)

/-- As long as no call fails the function goes on to an `md_put`. -/
def ReachesPut : Program R → Prop
  | .ret _ => False
  | .call (.mdPut _ _) _ => True
  | .call c next => ∀ a, a ≠ failed c → ReachesPut (next a)

/-- The function gets the metadata until the node is in the head slot. -/
def Polls (f : Filename) (node : IoQNode) : Program (Option UInt32) → Prop
  | .ret _ => True
  | .call (.mdGet g) next => g = f.chars ∧ (∀ m, m.ioq.ioQNode m.ioq.head = node → next (some m) = .ret (some 0)) ∧
      ∀ a, Polls f node (next a)
  | .call _ _ => False

/-- And does so after its `md_put`. -/
def Enters (f : Filename) (node : IoQNode) : Program (Option UInt32) → Prop
  | .ret _ => True
  | .call (.mdPut _ _) next => Polls f node (next true) ∧ Enters f node (next false)
  | .call _ next => ∀ a, Enters f node (next a)

/-- By the keys that are known to have nodes, if they are long enough for a tail: a node is only got
by such a key, and only such a key is put as the tail. -/
def nodesKnown (f : Filename) : Protocol tt (List Key) where
  allowed := fun known call => match call with
    | .mdGet g => g = f.chars
    | .mdPut g m => g = f.chars ∧ m.ioNodeQTail ∈ known
    | .ionGet k => k ∈ known ∧ 1 < k.length
    | .ionPut _ _ | .iodPut _ _ => True
    | .mdOut _ | .iodGet _ => False
  after := fun known call a => match call, a with
    | .mdGet _, some m => m.ioNodeQTail :: known
    | .ionPut k _, true => k :: known
    | .mdGet _, none | .ionPut _ _, false => known
    | .mdPut _ _, _ | .mdOut _, _ | .ionGet _, _ | .iodGet _, _ | .iodPut _ _, _ => known

variable {f : Filename} {ioType : IoType} {t : Int64}

theorem waitHead_polls (polls : Nat) : Polls f ⟨ioType, t⟩ (waitHead f ioType t polls) := by
  induction polls with
  | zero => trivial
  | succ polls ih =>
    refine ⟨rfl, fun m hm => ?_, fun a => ?_⟩
    · show (if _ then _ else _) = _
      rw [if_pos (by rw [hm]; exact ⟨rfl, rfl⟩)]
      rfl
    · cases a with
      | none => trivial
      | some m =>
        show Polls f ⟨ioType, t⟩ (if _ then _ else _)
        split
        · trivial
        · exact ih

theorem waitHead_stops (polls : Nat) : Stops (waitHead f ioType t polls) := by
  induction polls with
  | zero => trivial
  | succ polls ih =>
    refine ⟨⟨_, rfl⟩, fun a => ?_⟩
    cases a with
    | none => trivial
    | some m =>
      show Stops (if _ then _ else _)
      split
      · trivial
      · exact ih

theorem waitHead_nodesKnown (polls : Nat) (known : List Key) :
    (waitHead f ioType t polls).Follows (nodesKnown f) (fun _ _ => True) known := by
  induction polls generalizing known with
  | zero => trivial
  | succ polls ih =>
    refine ⟨rfl, fun a => ?_⟩
    cases a with
    | none => trivial
    | some m =>
      show Prog.Follows (nodesKnown f) (fun _ _ => True) (if _ then _ else _) (m.ioNodeQTail :: known)
      split
      · trivial
      · exact ih _

theorem Request.enter_stops (r : Request) (polls : Nat) : Stops (r.enter f polls) := by
  refine ⟨⟨_, rfl⟩, fun a => ?_⟩
  cases a with
  | none => trivial
  | some m => exact ⟨⟨_, rfl⟩, fun done => by cases done <;> first | trivial | exact waitHead_stops polls⟩

theorem Request.enter_enters (r : Request) (polls : Nat) : Enters f r.node (r.enter f polls) := by
  intro a
  cases a with
  | none => trivial
  | some m => exact ⟨waitHead_polls polls, trivial⟩

theorem Request.enter_nodesKnown (r : Request) (polls : Nat) :
    (r.enter f polls).Follows (nodesKnown f) (fun _ _ => True) [] := by
  refine ⟨rfl, fun a => ?_⟩
  cases a with
  | none => trivial
  | some m =>
    refine ⟨⟨rfl, List.mem_cons_self⟩, fun done => ?_⟩
    cases done with
    | false => trivial
    | true => exact waitHead_nodesKnown polls _

/-- What comes after linking the old tail. -/
theorem linkTail_bind {tail path : Key} {k : Bool → Program R} : (linkTail tail path >>= k) =
    if tail.length > 1 then
      .call (.ionGet tail) fun a => match a with
        | some node => .call (.ionPut tail {node with ionNext := path}) k
        | none => k false
    else k true := by
  rw [linkTail]
  split
  · refine congrArg (Prog.call (I := tt) (.ionGet tail)) (funext fun a => ?_)
    cases a <;> rfl
  · rfl

section Leave
variable {path : Key} {offset : UInt64} {data : List UInt8} {size : UInt64} {count : UInt32} {ionNext : Key}

theorem readQueueOut_stops : Stops (readQueueOut f t >>= fun r => (return Exit.returned r : Program Exit)) := by
  refine ⟨⟨_, rfl⟩, fun a => ?_⟩
  cases a with
  | none => trivial
  | some m => exact ⟨⟨_, rfl⟩, fun done => by cases done <;> trivial⟩

theorem putData_stops : Stops (putData path data count) := by
  unfold putData
  split
  · exact ⟨⟨_, rfl⟩, fun done => by cases done <;> trivial⟩
  · trivial

theorem writeUnder_stops : Stops (writeUnder path f ioType t offset data size ionNext) := by
  refine ⟨⟨_, rfl⟩, fun a => ?_⟩
  cases a with
  | none => trivial
  | some m =>
    refine ⟨⟨_, rfl⟩, fun done => ?_⟩
    cases done with
    | false => trivial
    | true =>
      have hput : Stops (do
          if ← mdPut f.chars ({m with ioq := m.ioq.dequeue}.logged path) then putData path data size.toUInt32
          else return .returned 1) := by
        refine ⟨⟨_, rfl⟩, fun done => ?_⟩
        cases done with
        | false => trivial
        | true => exact putData_stops
      show Stops (linkTail m.ioNodeQTail path >>= _)
      rw [linkTail_bind]
      split
      · refine ⟨⟨_, rfl⟩, fun a => ?_⟩
        cases a with
        | none => trivial
        | some node =>
          refine ⟨⟨_, rfl⟩, fun linked => ?_⟩
          cases linked with
          | false => trivial
          | true => exact hput
      · exact hput

theorem writeQueueOut_stops : Stops (writeQueueOut f ioType t offset data size ionNext) := by
  unfold writeQueueOut
  split
  · exact writeUnder_stops
  · trivial

theorem readQueueOut_puts :
    ReachesPut (readQueueOut f t >>= fun r => (return Exit.returned r : Program Exit)) := by
  intro a ha
  cases a with
  | none => exact absurd rfl ha
  | some m => trivial

theorem writeUnder_puts : ReachesPut (writeUnder path f ioType t offset data size ionNext) := by
  intro a ha
  cases a with
  | none => exact absurd rfl ha
  | some m =>
    intro done hdone
    cases done with
    | false => exact absurd rfl hdone
    | true =>
      show ReachesPut (linkTail m.ioNodeQTail path >>= _)
      rw [linkTail_bind]
      split
      · intro a ha
        cases a with
        | none => exact absurd rfl ha
        | some node =>
          intro linked hlinked
          cases linked with
          | false => exact absurd rfl hlinked
          | true => trivial
      · trivial

theorem readQueueOut_nodesKnown : Prog.Follows (nodesKnown f) (fun _ _ => True)
    (readQueueOut f t >>= fun r => (return Exit.returned r : Program Exit)) [] := by
  refine ⟨rfl, fun a => ?_⟩
  cases a with
  | none => trivial
  | some m => exact ⟨⟨rfl, List.mem_cons_self⟩, fun done => by cases done <;> trivial⟩

theorem MetaData.logged_tail (m : MetaData) (path : Key) : (m.logged path).ioNodeQTail = path := by
  rw [MetaData.logged]
  split <;> rfl

theorem putData_nodesKnown (known : List Key) :
    (putData path data count).Follows (nodesKnown f) (fun _ _ => True) known := by
  unfold putData
  split
  · exact ⟨trivial, fun done => by cases done <;> trivial⟩
  · trivial

theorem writeUnder_nodesKnown :
    (writeUnder path f ioType t offset data size ionNext).Follows (nodesKnown f) (fun _ _ => True) [] := by
  refine ⟨rfl, fun a => ?_⟩
  cases a with
  | none => trivial
  | some m =>
    refine ⟨trivial, fun done => ?_⟩
    cases done with
    | false => trivial
    | true =>
      have hput (known : List Key) (hknown : path ∈ known) : Prog.Follows (nodesKnown f) (fun _ _ => True) (do
          if ← mdPut f.chars ({m with ioq := m.ioq.dequeue}.logged path) then putData path data size.toUInt32
          else return .returned 1) known := by
        refine ⟨⟨rfl, by rwa [MetaData.logged_tail]⟩, fun done => ?_⟩
        cases done with
        | false => trivial
        | true => exact putData_nodesKnown _
      show Prog.Follows (nodesKnown f) (fun _ _ => True) (linkTail m.ioNodeQTail path >>= _) [path, m.ioNodeQTail]
      rw [linkTail_bind]
      split
      · rename_i hlong
        refine ⟨⟨by simp, hlong⟩, fun a => ?_⟩
        cases a with
        | none => trivial
        | some node =>
          refine ⟨trivial, fun linked => ?_⟩
          cases linked with
          | false => trivial
          | true => exact hput _ (by simp [nodesKnown])
      · exact hput _ (by simp)

theorem writeQueueOut_nodesKnown :
    (writeQueueOut f ioType t offset data size ionNext).Follows (nodesKnown f) (fun _ _ => True) [] := by
  unfold writeQueueOut
  split
  · exact writeUnder_nodesKnown
  · trivial

end Leave

theorem Request.leave_stops (r : Request) : Stops (r.leave f) := by
  rw [Request.leave]
  cases r.out with
  | read => exact readQueueOut_stops
  | write => exact writeQueueOut_stops

theorem Request.leave_puts {r : Request} (hdefined : r.Defined f) : ReachesPut (r.leave f) := by
  obtain ⟨ioType, t, out⟩ := r
  cases out with
  | read => exact readQueueOut_puts
  | write offset data size ionNext =>
    have hkey : (ionKey f t).length < ioNodeKeyLen := hdefined.1
    show ReachesPut (writeQueueOut f ioType t offset data size ionNext)
    rw [writeQueueOut, if_pos hkey]
    exact writeUnder_puts

theorem Request.leave_nodesKnown (r : Request) : (r.leave f).Follows (nodesKnown f) (fun _ _ => True) [] := by
  rw [Request.leave]
  cases r.out with
  | read => exact readQueueOut_nodesKnown
  | write => exact writeQueueOut_nodesKnown

end Programs

/-! ### Clients -/

/-- The key has a node, if it is long enough for a tail. -/
def KeyThere (s : Store) (k : Key) : Prop := 1 < k.length → (s.ion k).isSome = true

def TailThere (f : Filename) (s : Store) : Prop := ∀ m, s.md f.chars = some m → KeyThere s m.ioNodeQTail

/-- Clients that queue for a file whose log has the node its tail is at. -/
def tailedMachine (f : Filename) : Machine State Move where
  start := fun s => Quiet f s ∧ TailThere f s.store
  step := State.next f

/-- No request is made that leaves in a way that is undefined. -/
def definedRequests (f : Filename) : Rule State Move
  | _, .request r _ => r.Defined f
  | _, _ => True

instance (f : Filename) : ∀ (s : State) (mv : Move), Decidable (definedRequests f s mv)
  | _, .request r _ => inferInstanceAs (Decidable (r.Defined f))
  | _, .call _ _ => isTrue trivial
  | _, .wait _ _ => isTrue trivial
  | _, .leave _ => isTrue trivial

/-- The runs in question: clients queue one after the other, with such requests. -/
def orderlyRequests (f : Filename) : Rule State Move := fun s mv => orderlyApart s mv ∧ definedRequests f s mv

instance (f : Filename) (s : State) (mv : Move) : Decidable (orderlyRequests f s mv) :=
  inferInstanceAs (Decidable (_ ∧ _))

/-- The function the client is in has returned, and the client goes no further. One that waits has
not. -/
def Client.gaveUp (c : Client) : Bool :=
  match c.stage with
  | .entering (.ret (some r)) => decide (r ≠ 0)
  | .leaving (.ret _) => true
  | .entering (.ret none) | .entering (.call _ _) | .leaving (.call _ _) => false

def Client.Steady (f : Filename) (c : Client) : Prop :=
  match c.stage with
  | .entering p =>
    Stops p ∧ if c.pair.put = some true then Polls f c.request.node p else Enters f c.request.node p
  | .leaving p => Stops p ∧ (c.pair.put ≠ some true → ReachesPut p ∨ ∃ r, p = .ret r)

def Client.Knows (f : Filename) (c : Client) (known : List Key) : Prop :=
  match c.stage with
  | .entering p => p.Follows (nodesKnown f) (fun _ _ => True) known
  | .leaving p => p.Follows (nodesKnown f) (fun _ _ => True) known

/-- The function goes on with what a call of its is answered. -/
inductive Stage.Goes : Stage → (call : Call) → Answer call → Stage → Prop where
  | entering {call : Call} {k} {a : Answer call} : Goes (.entering (.call call k)) call a (.entering (k a))
  | leaving {call : Call} {k} {a : Answer call} : Goes (.leaving (.call call k)) call a (.leaving (k a))

section Step
variable {f : Filename} {s s' : State} {i : Nat} {c : Client} {fails : Bool}

/-- The client after a call of its that is answered so. -/
def Client.answered (c : Client) (stage : Stage) (call : Call) (a : Answer call) : Client :=
  ⟨c.request, stage, c.pair.after call a⟩

theorem call_goes (hc : s.clients[i]? = some c) (hstep : s.next f (.call i fails) = some s') :
    ∃ call stage, c.stage.Goes call (serve call fails s.store).1 stage ∧ s'.store = (serve call fails s.store).2 ∧
      s'.clients = s.clients.set i (c.answered stage call (serve call fails s.store).1) := by
  obtain ⟨request, stage, pair⟩ := c
  simp only [State.next, hc, Option.bind_eq_bind, Option.bind_some] at hstep
  cases stage with
  | entering p | leaving p =>
    cases p with
    | ret r => cases hstep
    | call call k =>
      cases hstep
      exact ⟨call, _, by constructor, rfl, rfl⟩

theorem Client.Steady.answered (h : c.Steady f) {call : Call} {a : Answer call} {stage : Stage}
    (hgoes : c.stage.Goes call a stage) : (c.answered stage call a).Steady f := by
  obtain ⟨request, stage₀, pair⟩ := c
  cases hgoes with
  | @entering call k a =>
    obtain ⟨⟨⟨r, hr⟩, hstops⟩, hgoes⟩ := h
    refine ⟨hstops a, ?_⟩
    split at hgoes
    · rename_i hput
      cases call with
      | mdGet g =>
        show if pair.put = some true then _ else _
        rw [if_pos hput]
        exact hgoes.2.2 a
      | mdPut | mdOut | ionGet | ionPut | iodGet | iodPut => exact hgoes.elim
    · rename_i hput
      cases call with
      | mdPut g m =>
        cases a
        · exact hgoes.2
        · exact hgoes.1
      | mdGet g | mdOut g | ionGet g | iodGet g | ionPut g n | iodPut g v =>
        show if pair.put = some true then _ else _
        rw [if_neg hput]
        exact hgoes a
  | @leaving call k a =>
    obtain ⟨⟨⟨r, hr⟩, hstops⟩, hgoes⟩ := h
    refine ⟨hstops a, fun hput => ?_⟩
    by_cases ha : a = failed call
    · exact .inr ⟨r, ha ▸ hr⟩
    · cases call with
      | mdPut g m =>
        cases a
        · exact absurd rfl ha
        · exact absurd rfl hput
      | mdGet g | mdOut g | ionGet g | iodGet g | ionPut g n | iodPut g v =>
        obtain hputs | ⟨_, hret⟩ := hgoes hput
        · exact .inl (hputs a ha)
        · cases hret

theorem KeyThere.serve {st : Store} {k : Key} (h : KeyThere st k) (call : Call) :
    KeyThere (Queue.serve call fails st).2 k := by
  intro hk
  cases call with
  | mdGet | ionGet | iodGet => exact h hk
  | mdPut | iodPut => cases fails <;> exact h hk
  | mdOut g =>
    rw [Queue.serve]
    split <;> exact h hk
  | ionPut g n =>
    cases fails with
    | true => exact h hk
    | false =>
      show (Function.update st.ion g (some n) k).isSome = true
      by_cases hg : k = g
      · rw [hg, Function.update_self]
        rfl
      · rw [Function.update_of_ne hg]
        exact h hk

/-- The keys that are known to have nodes keep them, and so does the tail. -/
theorem known_there (fails : Bool) {st : Store} {known : List Key} {call : Call} (hallowed : (nodesKnown f).allowed known call)
    (hthere : ∀ k ∈ known, KeyThere st k) (htail : TailThere f st) :
    (∀ k ∈ (nodesKnown f).after known call (serve call fails st).1, KeyThere (serve call fails st).2 k) ∧
      TailThere f (serve call fails st).2 := by
  have hkept (k : Key) (hk : k ∈ known) : KeyThere (serve call fails st).2 k := (hthere k hk).serve call
  cases call with
  | mdOut | iodGet => exact hallowed.elim
  | ionGet k => exact ⟨hkept, htail⟩
  | iodPut k v => exact ⟨hkept, by cases fails <;> exact htail⟩
  | mdGet g =>
    obtain rfl : g = f.chars := hallowed
    refine ⟨fun k hk => ?_, htail⟩
    cases fails with
    | true => exact hkept k hk
    | false =>
      cases hm : st.md f.chars with
      | none =>
        simp only [serve, hm] at hk
        exact hkept k hk
      | some m =>
        simp only [serve, hm] at hk
        obtain rfl | hk := List.mem_cons.mp hk
        · exact htail m hm
        · exact hkept k hk
  | mdPut g m =>
    obtain ⟨rfl, hknown⟩ := hallowed
    refine ⟨hkept, ?_⟩
    cases fails with
    | true => exact htail
    | false =>
      intro m' hm'
      simp only [serve, Bool.false_eq_true, if_false, Function.update_self, Option.some.injEq] at hm'
      subst hm'
      exact hthere _ hknown
  | ionPut k node =>
    cases fails with
    | true => exact ⟨hkept, htail⟩
    | false =>
      refine ⟨fun k' hk' => ?_, fun m hm => (htail m hm).serve (.ionPut k node)⟩
      obtain rfl | hk' := List.mem_cons.mp hk'
      · intro _
        show (Function.update st.ion k' (some node) k').isSome = true
        rw [Function.update_self]
        rfl
      · exact hkept k' hk'

theorem Client.Knows.answered {known : List Key} {call : Call} {a : Answer call} {stage : Stage}
    (h : c.Knows f known) (hgoes : c.stage.Goes call a stage) :
    (nodesKnown f).allowed known call ∧ (c.answered stage call a).Knows f ((nodesKnown f).after known call a) := by
  obtain ⟨request, stage₀, pair⟩ := c
  cases hgoes with
  | entering | leaving => exact ⟨h.1, h.2 a⟩

/-! ### Every run -/

/-- Clients that queue one after the other, and what their functions can rely on. -/
structure Draining (f : Filename) (s : State) : Prop where
  serving : Serving f s
  onePair : ∀ (i j : Nat) (c d : Client), s.clients[i]? = some c → s.clients[j]? = some d → c.inPair → d.inPair → i = j
  steady : ∀ (i : Nat) (c : Client), s.clients[i]? = some c → c.Steady f
  knows : ∀ (i : Nat) (c : Client), s.clients[i]? = some c → ∃ known, c.Knows f known ∧ ∀ k ∈ known, KeyThere s.store k
  requests : ∀ (i : Nat) (c : Client), s.clients[i]? = some c → c.request.Defined f
  tail : TailThere f s.store

/-- A client's move that makes no call, with its function where it can go on. -/
theorem Draining.goes (h : Draining f s) (hc : s.clients[i]? = some c) {c' : Client} (hserving : Serving f s')
    (hclients : s'.clients = s.clients.set i c') (hstore : s'.store = s.store) (hrequest : c'.request = c.request)
    (hout : c'.inPair = false) (hsteady : c'.Steady f) (hknows : c'.Knows f []) : Draining f s' := by
  refine ⟨hserving, fun j k d e hd he hdin hein => ?_, fun j d hd => ?_, fun j d hd => ?_, fun j d hd => ?_,
    by rw [hstore]; exact h.tail⟩
  · rw [hclients] at hd he
    obtain ⟨-, rfl⟩ | ⟨-, hd⟩ := getElem?_set_cases hd
    · rw [hout] at hdin
      cases hdin
    · obtain ⟨-, rfl⟩ | ⟨-, he⟩ := getElem?_set_cases he
      · rw [hout] at hein
        cases hein
      · exact h.onePair j k d e hd he hdin hein
  · rw [hclients] at hd
    obtain ⟨-, rfl⟩ | ⟨-, hd⟩ := getElem?_set_cases hd
    · exact hsteady
    · exact h.steady j d hd
  · rw [hclients] at hd
    rw [hstore]
    obtain ⟨-, rfl⟩ | ⟨-, hd⟩ := getElem?_set_cases hd
    · exact ⟨[], hknows, by simp⟩
    · exact h.knows j d hd
  · rw [hclients] at hd
    obtain ⟨-, rfl⟩ | ⟨-, hd⟩ := getElem?_set_cases hd
    · rw [hrequest]
      exact h.requests i c hc
    · exact h.requests j d hd

theorem Draining.step {mv : Move} (h : Draining f s) (hrule : orderlyRequests f s mv) (hstep : s.next f mv = some s') :
    Draining f s' := by
  have hserving := h.serving.step hrule.1 hstep
  cases mv with
  | request r polls =>
    cases hstep
    refine ⟨hserving, fun i j c d hc hd hcin hdin => ?_, fun i c hc => ?_, fun i c hc => ?_, fun i c hc => ?_, h.tail⟩
    · obtain hc | ⟨-, rfl⟩ := getElem?_append_one hc
      · obtain hd | ⟨-, rfl⟩ := getElem?_append_one hd
        · exact h.onePair i j c d hc hd hcin hdin
        · cases hdin
      · cases hcin
    · obtain hc | ⟨-, rfl⟩ := getElem?_append_one hc
      · exact h.steady i c hc
      · exact ⟨r.enter_stops polls, r.enter_enters polls⟩
    · obtain hc | ⟨-, rfl⟩ := getElem?_append_one hc
      · exact h.knows i c hc
      · exact ⟨[], r.enter_nodesKnown polls, by simp⟩
    · obtain hc | ⟨-, rfl⟩ := getElem?_append_one hc
      · exact h.requests i c hc
      · exact hrule.2
  | call i fails =>
    obtain ⟨c, hc, -⟩ := Option.bind_eq_some_iff.mp hstep
    obtain ⟨call, stage, hgoes, hstore, hclients⟩ := call_goes hc hstep
    obtain ⟨known, hknows, hthere⟩ := h.knows i c hc
    obtain ⟨hallowed, hknows'⟩ := hknows.answered hgoes
    obtain ⟨hthere', htail'⟩ := known_there fails hallowed hthere h.tail
    have hpair (j : Nat) (d : Client) (hd : s'.clients[j]? = some d) (hin : d.inPair = true) : j = i := by
      rw [hclients] at hd
      obtain ⟨rfl, -⟩ | ⟨hij, hd⟩ := getElem?_set_cases hd
      · rfl
      · rw [hrule.1.1.1 j (List.getElem?_eq_some_iff.mp hd).1 (Ne.symm hij) d hd] at hin
        cases hin
    refine ⟨hserving, fun j k d e hd he hdin hein => ?_, fun j d hd => ?_, fun j d hd => ?_, fun j d hd => ?_, ?_⟩
    · rw [hpair j d hd hdin, hpair k e he hein]
    · rw [hclients] at hd
      obtain ⟨rfl, rfl⟩ | ⟨-, hd⟩ := getElem?_set_cases hd
      · exact (h.steady _ c hc).answered hgoes
      · exact h.steady j d hd
    · rw [hclients] at hd
      rw [hstore]
      obtain ⟨rfl, rfl⟩ | ⟨-, hd⟩ := getElem?_set_cases hd
      · exact ⟨_, hknows', hthere'⟩
      · obtain ⟨known, hknows, hthere⟩ := h.knows j d hd
        exact ⟨known, hknows, fun k hk => (hthere k hk).serve call⟩
    · rw [hclients] at hd
      obtain ⟨-, rfl⟩ | ⟨-, hd⟩ := getElem?_set_cases hd
      · exact h.requests i c hc
      · exact h.requests j d hd
    · rw [hstore]
      exact htail'
  | wait i polls =>
    obtain ⟨c, hc, hstep⟩ := Option.bind_eq_some_iff.mp hstep
    split at hstep
    · rename_i hstage
      cases hstep
      obtain ⟨request, stage, pair⟩ := c
      cases hstage
      have hwaited : Waited request.node pair none := h.serving.orderly.follows i _ hc
      have hput : pair.put = some true := (hwaited (by decide)).1
      refine h.goes hc hserving rfl rfl rfl (Client.not_inPair hput) ⟨waitHead_stops polls, ?_⟩
        (waitHead_nodesKnown polls [])
      show if pair.put = some true then _ else _
      rw [if_pos hput]
      exact waitHead_polls polls
    · cases hstep
  | leave i =>
    obtain ⟨c, hc, hstep⟩ := Option.bind_eq_some_iff.mp hstep
    split at hstep
    · cases hstep
      exact h.goes hc hserving rfl rfl rfl rfl
        ⟨c.request.leave_stops, fun _ => .inl (Request.leave_puts (h.requests i c hc))⟩ c.request.leave_nodesKnown
    · cases hstep

theorem draining (h : Reach (tailedMachine f) (orderlyRequests f) s) : Draining f s := by
  refine h.invariant (fun s hs => ?_) fun s mv s' hinv hrule hstep => hinv.step hrule hstep
  obtain ⟨hquiet, htail⟩ := hs
  exact ⟨hquiet.serving, by simp [hquiet.clients], by simp [hquiet.clients], by simp [hquiet.clients],
    by simp [hquiet.clients], htail⟩

end Step

/-! ### The oldest request leaves -/

section Leaves
variable {f : Filename} {s : State} {i : Nat} {c : Client}

theorem serve_fails (call : Call) (st : Store) : serve call true st = (failed call, st) := by
  cases call <;> rfl

/-- Such calls need not fail. -/
theorem serve_good {st : Store} {known : List Key} {call : Call} (hallowed : (nodesKnown f).allowed known call)
    (hthere : ∀ k ∈ known, KeyThere st k) (hmd : ∃ m, st.md f.chars = some m) :
    (serve call false st).1 ≠ failed call := by
  cases call with
  | mdOut | iodGet => exact hallowed.elim
  | mdPut | ionPut | iodPut => exact nofun
  | mdGet g =>
    obtain rfl : g = f.chars := hallowed
    obtain ⟨m, hm⟩ := hmd
    show st.md f.chars ≠ none
    rw [hm]
    exact nofun
  | ionGet k =>
    have hsome := hthere k hallowed.1 hallowed.2
    show st.ion k ≠ none
    exact Option.isSome_iff_ne_none.mp hsome

/-- No other client is between its get and its put. -/
def Alone (s : State) (i : Nat) : Prop := ∀ j ≠ i, ∀ d, s.clients[j]? = some d → d.inPair = false

/-- The client's calls that are no `md_put` of its `queue_in_wait` keep to the rule then. -/
theorem Alone.orderly (h : Alone s i) (hc : s.clients[i]? = some c) (hput : c.enters → c.puts → False) :
    orderlyRequests f s (.call i false) := by
  have hput' (d : Client) (hd : d ∈ s.clients[i]?) (hputs : d.puts) (henters : d.enters) : False := by
    obtain rfl : c = d := Option.some.inj (hc.symm.trans hd)
    exact hput henters hputs
  exact ⟨⟨⟨fun j _ hj d hd => h j hj d hd, fun d hd hputs henters => (hput' d hd hputs henters).elim⟩,
    fun d hd hputs henters => (hput' d hd hputs henters).elim⟩, trivial⟩

/-- Alone, and with no call failing, a client in the function that leaves comes to its put. -/
theorem leaving_leaves {p : Program Exit} (h : Reach (tailedMachine f) (orderlyRequests f) s) (halone : Alone s i)
    (hc : s.clients[i]? = some c) (hstage : c.stage = .leaving p) (hp : ReachesPut p) :
    ∃ s', Reach ((tailedMachine f).from s) (orderlyRequests f) s' ∧ s'.pending = s.pending.erase i ∧
      ∀ j ≠ i, s'.clients[j]? = s.clients[j]? := by
  induction p generalizing s c with
  | ret r => exact hp.elim
  | call call next ih =>
    have hdraining := draining h
    have hleaves : c.enters = false := by rw [Client.enters, hstage]
    have hrule : orderlyRequests f s (.call i false) := by
      refine halone.orderly hc fun henters _ => ?_
      rw [hleaves] at henters
      cases henters
    obtain ⟨request, stage, pair⟩ := c
    cases hstage
    let a := (serve call false s.store).1
    let s₁ : State := ⟨(serve call false s.store).2, s.clients.set i ⟨request, .leaving (next a), pair.after call a⟩,
      if put call a then s.pending.erase i else s.pending⟩
    have hstep : s.next f (.call i false) = some s₁ := by
      simp only [State.next, hc]
      rfl
    have hothers (j : Nat) (hj : j ≠ i) : s₁.clients[j]? = s.clients[j]? := List.getElem?_set_ne hj.symm
    have hcases : put call a = true ∨ put call a = false ∧ (a ≠ failed call → ReachesPut (next a)) := by
      cases call with
      | mdPut g m => exact .inl rfl
      | mdGet g | mdOut g | ionGet k | ionPut k n | iodGet k | iodPut k v => exact .inr ⟨rfl, hp a⟩
    obtain hput | ⟨hput, hrest⟩ := hcases
    · have hpending : s₁.pending = s.pending.erase i := if_pos hput
      exact ⟨s₁, .step (.start rfl) hrule hstep, hpending, hothers⟩
    · have hpending : s₁.pending = s.pending := if_neg (by rw [hput]; exact Bool.false_ne_true)
      obtain ⟨known, hknows, hthere⟩ := hdraining.knows i _ hc
      obtain ⟨m, hm, -⟩ := hdraining.serving.ring
      have hgood := serve_good hknows.1 hthere ⟨m, hm⟩
      have halone₁ : Alone s₁ i := fun j hj d hd => halone j hj d (hothers j hj ▸ hd)
      obtain ⟨s', hreach, hpending', hothers'⟩ := ih a (.step h hrule hstep) halone₁ (getElem?_set_same hc _) rfl
        (hrest hgood)
      refine ⟨s', hreach.from_step hrule hstep, hpending'.trans (by rw [hpending]), fun j hj => ?_⟩
      rw [hothers' j hj, hothers j hj]

/-- A client that has been admitted calls the function that leaves. -/
theorem admitted_leaves (h : Reach (tailedMachine f) (orderlyRequests f) s) (halone : Alone s i)
    (hc : s.clients[i]? = some c) (hstage : c.stage = .entering (.ret (some 0))) :
    ∃ s', Reach ((tailedMachine f).from s) (orderlyRequests f) s' ∧ s'.pending = s.pending.erase i ∧
      ∀ j ≠ i, s'.clients[j]? = s.clients[j]? := by
  obtain ⟨request, stage, pair⟩ := c
  cases hstage
  let s₁ : State := ⟨s.store, s.clients.set i ⟨request, .leaving (request.leave f), ⟨none, none⟩⟩, s.pending⟩
  have hstep : s.next f (.leave i) = some s₁ := by
    simp only [State.next, hc]
    rfl
  have hrule : orderlyRequests f s (.leave i) := ⟨⟨⟨trivial, trivial⟩, trivial⟩, trivial⟩
  have hdefined : request.Defined f := (draining h).requests i _ hc
  have hothers (j : Nat) (hj : j ≠ i) : s₁.clients[j]? = s.clients[j]? := List.getElem?_set_ne hj.symm
  have halone₁ : Alone s₁ i := fun j hj d hd => halone j hj d (hothers j hj ▸ hd)
  obtain ⟨s', hreach, hpending, hothers'⟩ :=
    leaving_leaves (.step h hrule hstep) halone₁ (getElem?_set_same hc _) rfl (Request.leave_puts hdefined)
  exact ⟨s', hreach.from_step hrule hstep, hpending, fun j hj => (hothers' j hj).trans (hothers j hj)⟩

/-- A client that polls sees its own node in the head slot, when its request is the oldest. -/
theorem polling_leaves {call : Call} {next : Answer call → Program (Option UInt32)}
    (h : Reach (tailedMachine f) (orderlyRequests f) s) (halone : Alone s i) (hi : s.pending.head? = some i)
    (hc : s.clients[i]? = some c) (hstage : c.stage = .entering (.call call next)) :
    ∃ s', Reach ((tailedMachine f).from s) (orderlyRequests f) s' ∧ s'.pending = s.pending.erase i ∧
      ∀ j ≠ i, s'.clients[j]? = s.clients[j]? := by
  have hdraining := draining h
  obtain ⟨rest, hrest⟩ := List.head?_eq_some_iff.mp hi
  have hqueued := (hdraining.serving.orderly.queued i c hc).mp (hrest ▸ List.mem_cons_self)
  obtain ⟨request, stage, pair⟩ := c
  cases hstage
  have hput : pair.put = some true := hqueued
  have hpolls : Polls f request.node (.call call next) := by
    have hsteady := (hdraining.steady i _ hc).2
    rwa [if_pos hput] at hsteady
  cases call with
  | mdPut | mdOut | ionGet | ionPut | iodGet | iodPut => exact hpolls.elim
  | mdGet g =>
    obtain ⟨rfl, hsees, -⟩ := hpolls
    obtain ⟨m, hm, hring⟩ := hdraining.serving.ring
    rw [State.nodes, hrest, nodesOf_cons hc] at hring
    let s₁ : State := ⟨s.store, s.clients.set i ⟨request, .entering (.ret (some 0)), ⟨some m, pair.put⟩⟩, s.pending⟩
    have hstep : s.next f (.call i false) = some s₁ := by
      have hanswer : serve (.mdGet f.chars) false s.store = (some m, s.store) := by rw [serve, hm]; rfl
      simp only [State.next, hc, Option.bind_eq_bind, Option.bind_some, hanswer, hsees m hring.front]
      rfl
    have hrule : orderlyRequests f s (.call i false) := halone.orderly hc fun _ hputs => by cases hputs
    have hothers (j : Nat) (hj : j ≠ i) : s₁.clients[j]? = s.clients[j]? := List.getElem?_set_ne hj.symm
    have halone₁ : Alone s₁ i := fun j hj d hd => halone j hj d (hothers j hj ▸ hd)
    obtain ⟨s', hreach, hpending, hothers'⟩ :=
      admitted_leaves (.step h hrule hstep) halone₁ (getElem?_set_same hc _) rfl
    exact ⟨s', hreach.from_step hrule hstep, hpending, fun j hj => (hothers' j hj).trans (hothers j hj)⟩

/-- And one that has polled so often in vain polls again. -/
theorem waiting_leaves {p : Program (Option UInt32)} (h : Reach (tailedMachine f) (orderlyRequests f) s)
    (halone : Alone s i) (hi : s.pending.head? = some i) (hc : s.clients[i]? = some c) (hstage : c.stage = .entering p)
    (hgaveUp : c.gaveUp = false) :
    ∃ s', Reach ((tailedMachine f).from s) (orderlyRequests f) s' ∧ s'.pending = s.pending.erase i ∧
      ∀ j ≠ i, s'.clients[j]? = s.clients[j]? := by
  cases p with
  | call call next => exact polling_leaves h halone hi hc hstage
  | ret r =>
    cases r with
    | some r =>
      have hr : r = 0 := by simpa [Client.gaveUp, hstage] using hgaveUp
      exact admitted_leaves h halone hc (by rw [hstage, hr])
    | none =>
      obtain ⟨request, stage, pair⟩ := c
      cases hstage
      let s₁ : State := ⟨s.store, s.clients.set i ⟨request, .entering (request.wait f 1), pair⟩, s.pending⟩
      have hstep : s.next f (.wait i 1) = some s₁ := by
        simp only [State.next, hc]
        rfl
      have hrule : orderlyRequests f s (.wait i 1) := ⟨⟨⟨trivial, trivial⟩, trivial⟩, trivial⟩
      have hothers (j : Nat) (hj : j ≠ i) : s₁.clients[j]? = s.clients[j]? := List.getElem?_set_ne hj.symm
      have halone₁ : Alone s₁ i := fun j hj d hd => halone j hj d (hothers j hj ▸ hd)
      obtain ⟨s', hreach, hpending, hothers'⟩ :=
        polling_leaves (.step h hrule hstep) halone₁ hi (getElem?_set_same hc _) rfl
      exact ⟨s', hreach.from_step hrule hstep, hpending, fun j hj => (hothers' j hj).trans (hothers j hj)⟩

theorem next_fails {j : Nat} {d : Client} (hd : s.clients[j]? = some d) (hcalls : d.returned = false) :
    ∃ call stage, d.stage.Goes call (failed call) stage ∧
      s.next f (.call j true) = some ⟨s.store, s.clients.set j (d.answered stage call (failed call)), s.pending⟩ := by
  have hput (call : Call) : put call (failed call) = false := by cases call <;> rfl
  obtain ⟨request, stage, pair⟩ := d
  cases stage with
  | entering p | leaving p =>
    cases p with
    | ret r => cases hcalls
    | call call next =>
      refine ⟨call, _, by constructor, ?_⟩
      simp only [State.next, hd, Option.bind_eq_bind, Option.bind_some, serve_fails, hput]
      rfl

theorem Client.Steady.over (h : c.Steady f) {call : Call} {stage : Stage} (hgoes : c.stage.Goes call (failed call) stage) :
    (c.answered stage call (failed call)).inPair = false := by
  have hreturned : (c.answered stage call (failed call)).returned = true := by
    obtain ⟨request, stage₀, pair⟩ := c
    generalize ha : failed call = a at hgoes
    cases hgoes with
    | entering | leaving =>
      obtain ⟨r, hr⟩ := h.1.1
      rw [ha] at hr
      simp [Client.answered, Client.returned, hr]
  simp [Client.inPair, hreturned]

/-- A client between its get and its put is over with it when a call of its fails. -/
theorem exists_alone (h : Reach (tailedMachine f) (orderlyRequests f) s) (hi : s.pending.head? = some i) :
    ∃ s', Reach ((tailedMachine f).from s) (orderlyRequests f) s' ∧ Alone s' i ∧ s'.pending = s.pending ∧
      ∀ j ∈ s.pending, s'.clients[j]? = s.clients[j]? := by
  have hdraining := draining h
  by_cases halone : Alone s i
  · exact ⟨s, .start rfl, halone, rfl, fun _ _ => rfl⟩
  simp only [Alone, Classical.not_forall] at halone
  obtain ⟨j, hj, d, hd, hin⟩ := halone
  rw [Bool.not_eq_false] at hin
  obtain ⟨-, hput, hcalls⟩ := Client.inPair_iff.mp hin
  have hwaits : j ∉ s.pending := by
    intro hmem
    have hqueued := (hdraining.serving.orderly.queued j d hd).mp hmem
    cases henters : d.enters with
    | true =>
      rw [Client.Queued, if_pos henters, hput] at hqueued
      cases hqueued
    | false =>
      have holdest := hdraining.serving.oldest j ⟨hmem, d, hd, Client.admitted_of_leaves henters⟩
      exact hj (Option.some.inj (holdest.symm.trans hi))
  obtain ⟨call, stage, hgoes, hstep⟩ := next_fails (f := f) hd hcalls
  have hone (k : Nat) (hk : k ≠ j) (e : Client) (he : s.clients[k]? = some e) : e.inPair = false := by
    by_contra hein
    exact hk (hdraining.onePair k j e d he hd (by simpa using hein) hin)
  have hrule : orderlyRequests f s (.call j true) := ⟨⟨⟨fun k _ hk e he => hone k hk e he, trivial⟩, trivial⟩, trivial⟩
  refine ⟨_, .step (.start rfl) hrule hstep, fun k _ e he => ?_, rfl, fun k hk => ?_⟩
  · obtain ⟨-, rfl⟩ | ⟨hkj, he⟩ := getElem?_set_cases he
    · exact (hdraining.steady j d hd).over hgoes
    · exact hone k (Ne.symm hkj) e he
  · have hne : j ≠ k := fun heq => hwaits (by rwa [heq])
    exact List.getElem?_set_ne hne

theorem oldest_leaves (h : Reach (tailedMachine f) (orderlyRequests f) s) {rest : List Nat} (hi : s.pending = i :: rest)
    (hc : s.clients[i]? = some c) (hgaveUp : c.gaveUp = false) :
    ∃ s', Reach ((tailedMachine f).from s) (orderlyRequests f) s' ∧ s'.pending = rest ∧
      ∀ j ∈ rest, s'.clients[j]? = s.clients[j]? := by
  have hhead : s.pending.head? = some i := by rw [hi]; rfl
  obtain ⟨s₁, hreach₁, halone, hpending₁, hclients₁⟩ := exists_alone h hhead
  have hc₁ : s₁.clients[i]? = some c := (hclients₁ i (hi ▸ List.mem_cons_self)).trans hc
  have h₁ := h.trans hreach₁
  obtain ⟨s', hreach', hpending', hclients'⟩ : ∃ s', Reach ((tailedMachine f).from s₁) (orderlyRequests f) s' ∧
      s'.pending = s₁.pending.erase i ∧ ∀ j ≠ i, s'.clients[j]? = s₁.clients[j]? := by
    have hdraining := draining h₁
    have hhead₁ : s₁.pending.head? = some i := by rw [hpending₁, hhead]
    cases hstage : c.stage with
    | entering p => exact waiting_leaves h₁ halone hhead₁ hc₁ hstage hgaveUp
    | leaving p =>
      refine leaving_leaves h₁ halone hc₁ hstage ?_
      have hsteady := hdraining.steady i c hc₁
      have hqueued := (hdraining.serving.orderly.queued i c hc₁).mp (List.mem_of_mem_head? hhead₁)
      rw [Client.Steady, hstage] at hsteady
      rw [Client.Queued, if_neg (by simp [Client.enters, hstage])] at hqueued
      obtain hputs | ⟨r, rfl⟩ := hsteady.2 hqueued
      · exact hputs
      · simp [Client.gaveUp, hstage] at hgaveUp
  refine ⟨s', hreach₁.trans hreach', ?_, fun j hj => ?_⟩
  · rw [hpending', hpending₁, hi, List.erase_cons_head]
  · have hnodup := (draining h).serving.orderly.nodup
    rw [hi] at hnodup
    have hne : j ≠ i := fun heq => (List.nodup_cons.mp hnodup).1 (heq ▸ hj)
    rw [hclients' j hne, hclients₁ j (hi ▸ List.mem_cons_of_mem i hj)]

end Leaves

/-! ### And the queue is emptied, or not -/

section Drains
variable {f : Filename} {s : State} {i : Nat} {c : Client}

theorem exists_drained (h : Reach (tailedMachine f) (orderlyRequests f) s)
    (hall : ∀ i ∈ s.pending, ∀ c, s.clients[i]? = some c → c.gaveUp = false) :
    ∃ s', Reach ((tailedMachine f).from s) (orderlyRequests f) s' ∧ s'.pending = [] := by
  induction hp : s.pending generalizing s with
  | nil => exact ⟨s, .start rfl, hp⟩
  | cons i rest ih =>
    have hi : i ∈ s.pending := hp ▸ List.mem_cons_self
    have hc := List.getElem?_eq_getElem ((draining h).serving.orderly.known i hi)
    obtain ⟨s₁, hreach, hpending, hclients⟩ := oldest_leaves h hp hc (hall i hi _ hc)
    have hall₁ : ∀ j ∈ s₁.pending, ∀ d, s₁.clients[j]? = some d → d.gaveUp = false := by
      intro j hj d hd
      rw [hpending] at hj
      rw [hclients j hj] at hd
      exact hall j (hp ▸ List.mem_cons_of_mem i hj) d hd
    obtain ⟨s', hreach', hempty⟩ := ih (h.trans hreach) hall₁ hpending
    exact ⟨s', hreach.trans hreach', hempty⟩

/-- A client that has given up makes no more moves. -/
theorem gaveUp_rests (fails : Bool) (polls : Nat) (hc : s.clients[i]? = some c) (hgaveUp : c.gaveUp = true) :
    s.next f (.call i fails) = none ∧ s.next f (.wait i polls) = none ∧ s.next f (.leave i) = none := by
  obtain ⟨request, stage, pair⟩ := c
  simp only [State.next, hc, Option.bind_eq_bind, Option.bind_some]
  cases stage with
  | entering p =>
    cases p with
    | call call next => cases hgaveUp
    | ret r =>
      cases r with
      | none => cases hgaveUp
      | some r =>
        have hr : r ≠ 0 := of_decide_eq_true hgaveUp
        refine ⟨rfl, rfl, ?_⟩
        split
        · rename_i hstage
          cases hstage
          exact absurd rfl hr
        · rfl
  | leaving p =>
    cases p with
    | call call next => cases hgaveUp
    | ret r => exact ⟨rfl, rfl, rfl⟩

theorem gaveUp_kept {s' : State} {mv : Move} (hc : s.clients[i]? = some c) (hgaveUp : c.gaveUp = true)
    (hstep : s.next f mv = some s') : s'.clients[i]? = some c := by
  have hkept {j : Nat} {d : Client} (hj : j ≠ i) : (s.clients.set j d)[i]? = some c :=
    (List.getElem?_set_ne hj).trans hc
  cases mv with
  | request r polls =>
    cases hstep
    exact (List.getElem?_append_left (List.getElem?_eq_some_iff.mp hc).1).trans hc
  | call j fails =>
    have hj : j ≠ i := by
      rintro rfl
      rw [(gaveUp_rests _ 0 hc hgaveUp).1] at hstep
      cases hstep
    obtain ⟨d, hd, -⟩ := Option.bind_eq_some_iff.mp hstep
    obtain ⟨call, stage, -, -, hclients⟩ := call_goes hd hstep
    rw [hclients]
    exact hkept hj
  | wait j polls =>
    have hj : j ≠ i := by
      rintro rfl
      rw [(gaveUp_rests true polls hc hgaveUp).2.1] at hstep
      cases hstep
    obtain ⟨d, hd, hstep⟩ := Option.bind_eq_some_iff.mp hstep
    split at hstep
    · cases hstep
      exact hkept hj
    · cases hstep
  | leave j =>
    have hj : j ≠ i := by
      rintro rfl
      rw [(gaveUp_rests true 0 hc hgaveUp).2.2] at hstep
      cases hstep
    obtain ⟨d, hd, hstep⟩ := Option.bind_eq_some_iff.mp hstep
    split at hstep
    · cases hstep
      exact hkept hj
    · cases hstep

/-- Its request stays where it is, with no others before it than there were. -/
def Stuck (front : List Nat) (i : Nat) (c : Client) (s : State) : Prop :=
  s.clients[i]? = some c ∧ ∃ before behind, s.pending = before ++ i :: behind ∧ before ⊆ front

theorem Stuck.step {front : List Nat} {s' : State} {mv : Move} (h : Stuck front i c s) (hgaveUp : c.gaveUp = true)
    (hord : Orderly f s) (hstep : s.next f mv = some s') : Stuck front i c s' := by
  obtain ⟨hc, before, behind, hpending, hfront⟩ := h
  refine ⟨gaveUp_kept hc hgaveUp hstep, ?_⟩
  obtain ⟨-, heffect⟩ := hord.step hstep
  cases heffect with
  | silent md pending => exact ⟨before, behind, pending.trans hpending, hfront⟩
  | enqueued j d d' call client clients put enters waits pending =>
    exact ⟨before, behind ++ [j], by rw [pending, hpending, List.append_assoc, List.cons_append], hfront⟩
  | left j d d' call client clients put leaves member pending =>
    have hne : j ≠ i := by
      rintro rfl
      cases call
      rw [(gaveUp_rests _ 0 hc hgaveUp).1] at hstep
      cases hstep
    rw [hpending] at pending
    by_cases hj : j ∈ before
    · exact ⟨before.erase j, behind, pending.trans (List.erase_append_left _ hj),
        fun k hk => hfront (List.mem_of_mem_erase hk)⟩
    · refine ⟨before, behind.erase j, ?_, hfront⟩
      rw [pending, List.erase_append_right _ hj, List.erase_cons_tail (by simpa using hne.symm)]

/-- **The queue can be emptied** exactly when no client with a pending request has given up. A
request whose client has stays for ever, and of the others only those before it are still
admitted. -/
theorem drains_iff (h : Reach (tailedMachine f) (orderlyRequests f) s) :
    ((∃ s', Reach ((tailedMachine f).from s) (orderlyRequests f) s' ∧ s'.pending = []) ↔
      ∀ i ∈ s.pending, ∀ c, s.clients[i]? = some c → c.gaveUp = false) ∧
    ∀ i ∈ s.pending, ∀ c, s.clients[i]? = some c → c.gaveUp = true →
      ∀ s', Reach ((tailedMachine f).from s) (orderlyRequests f) s' →
        i ∈ s'.pending ∧ ∀ j, s'.Admitted j → j = i ∨ j ∈ s.pending.takeWhile (· ≠ i) := by
  have hstuck (i : Nat) (hi : i ∈ s.pending) (c : Client) (hc : s.clients[i]? = some c) (hgaveUp : c.gaveUp = true)
      (s' : State) (hreach : Reach ((tailedMachine f).from s) (orderlyRequests f) s') :
      Stuck (s.pending.takeWhile (· ≠ i)) i c s' := by
    induction hreach with
    | start hs =>
      obtain rfl := hs
      obtain ⟨before, behind, hpending, hnot⟩ := List.eq_append_cons_of_mem hi
      refine ⟨hc, before, behind, hpending, ?_⟩
      have hall : ∀ j ∈ before, decide (j ≠ i) = true := fun j hj => decide_eq_true fun heq => hnot (heq ▸ hj)
      rw [hpending, List.takeWhile_append_of_pos hall]
      exact List.subset_append_left _ _
    | step hreach _ hstep ih => exact ih.step hgaveUp (draining (h.trans hreach)).serving.orderly hstep
  refine ⟨⟨fun hdrained i hi c hc => ?_, exists_drained h⟩, fun i hi c hc hgaveUp s' hreach => ?_⟩
  · obtain ⟨s', hreach, hempty⟩ := hdrained
    by_contra hgaveUp
    obtain ⟨-, before, behind, hpending, -⟩ := hstuck i hi c hc (by simpa using hgaveUp) s' hreach
    rw [hempty] at hpending
    simp at hpending
  · obtain ⟨-, before, behind, hpending, hfront⟩ := hstuck i hi c hc hgaveUp s' hreach
    refine ⟨by rw [hpending]; simp, fun j hj => ?_⟩
    have hhead := (draining (h.trans hreach)).serving.oldest j hj
    rw [hpending] at hhead
    cases before with
    | nil =>
      cases hhead
      exact .inl rfl
    | cons k before =>
      cases hhead
      exact .inr (hfront List.mem_cons_self)

/-- The `md_get` of a client that waits has failed, and the request behind its own is never admitted. -/
theorem drains_iff_stuck : ∃ f s, Reach (tailedMachine f) (orderlyRequests f) s ∧ s.pending = [0, 1] ∧
    (¬ ∃ s', Reach ((tailedMachine f).from s) (orderlyRequests f) s' ∧ s'.pending = []) ∧
    ∀ s', Reach ((tailedMachine f).from s) (orderlyRequests f) s' → ¬ s'.Admitted 1 := by
  let f : Filename := ⟨['f'], by decide⟩
  have hstart : (tailedMachine f).start (State.new f) := by
    refine ⟨State.new_start f, fun m hm => ?_⟩
    have hnew : m = .new 0 := Option.some.inj (hm.symm.trans (Store.ofFile_md f (.new 0)))
    rw [hnew]
    exact fun hlong => absurd hlong (by decide)
  obtain ⟨s, hreach, hs⟩ := Reach.exists_run (M := tailedMachine f) (R := orderlyRequests f)
    [.request (.readAt 1) 1, .request (.readAt 2) 1, .call 0 false, .call 0 false, .call 1 false, .call 1 false,
      .call 0 true]
    (fun s : State => decide (s.pending = [0, 1]) && s.clients[0]?.any Client.gaveUp) (.start hstart) (by decide +kernel)
  simp only [Bool.and_eq_true, decide_eq_true_eq, Option.any_eq_true] at hs
  obtain ⟨hpending, c, hc, hgaveUp⟩ := hs
  have hmem : 0 ∈ s.pending := by rw [hpending]; decide
  obtain ⟨hiff, hstuck⟩ := drains_iff hreach
  refine ⟨f, s, hreach, hpending, fun hdrained => ?_, fun s' hreach' hadmitted => ?_⟩
  · rw [hiff.mp hdrained 0 hmem c hc] at hgaveUp
    cases hgaveUp
  · have hcases := (hstuck 0 hmem c hc hgaveUp s' hreach').2 1 hadmitted
    rw [hpending] at hcases
    revert hcases
    decide

end Drains

end CacheFs.Queue
