import CacheFs.Queue.Pending

/-! Whether one request at a time is admitted.

Here each `md_get` and the `md_put` that goes with it run with no other client's call in between,
and the ring always has a slot to spare. Then the ring has the pending requests in
their order. A client knows its own by type and time only: as long as no two pending
requests are alike, and what leaves is defined, the one that is admitted is the oldest
(`one_admitted`), and two that are alike are both admitted (`two_admitted`). -/
namespace CacheFs.Queue
open Interaction Ring Transition Members

/-- Client `i` has been admitted and has not left the queue. -/
def State.Admitted (s : State) (i : Nat) : Prop := i ∈ s.pending ∧ ∃ c, s.clients[i]? = some c ∧ c.admitted

/-- Nothing undefined has been done, and at most one request is admitted, the oldest one
pending. -/
structure OneAdmitted (s : State) : Prop where
  defined : s.Defined
  one : ∀ i j, s.Admitted i → s.Admitted j → i = j
  oldest : ∀ i, s.Admitted i → s.pending.head? = some i

/-- No client calls while another is between its get and its put. -/
def pairsAtomic : Rule State Move
  | s, .call i _ => ∀ j < s.clients.length, j ≠ i → ∀ c ∈ s.clients[j]?, c.inPair = false
  | _, _ => True

instance : ∀ (s : State) (mv : Move), Decidable (pairsAtomic s mv)
  | s, .call i _ =>
    inferInstanceAs (Decidable (∀ j < s.clients.length, j ≠ i → ∀ c ∈ s.clients[j]?, c.inPair = false))
  | _, .request _ _ => isTrue trivial
  | _, .wait _ _ => isTrue trivial
  | _, .leave _ => isTrue trivial

/-- The runs in question: pairs are atomic, and at most `IO_Q_LEN` requests pending. -/
def orderlyPairs : Rule State Move := fun s mv =>
  pairsAtomic s mv ∧ atPut (fun s _ c => c.enters → s.pending.length < ioQLen) s mv

instance (s : State) (mv : Move) : Decidable (orderlyPairs s mv) :=
  inferInstanceAs (Decidable (_ ∧ _))

/-- And no request is put in while one with the same type and time is pending. -/
def orderlyApart : Rule State Move := fun s mv =>
  orderlyPairs s mv ∧ atPut (fun s _ c => c.enters → c.request.node ∉ s.nodes) s mv

instance (s : State) (mv : Move) : Decidable (orderlyApart s mv) :=
  inferInstanceAs (Decidable (_ ∧ _))

/-- And no write leaves whose key or count does not fit. -/
def orderlyDefined (f : Filename) : Rule State Move := fun s mv => orderlyApart s mv ∧ definedLeaves f s mv

instance (f : Filename) (s : State) (mv : Move) : Decidable (orderlyDefined f s mv) :=
  inferInstanceAs (Decidable (_ ∧ _))

/-- The ring has the pending requests in their order, and only the oldest is admitted. -/
structure Serving (f : Filename) (s : State) : Prop where
  orderly : Orderly f s
  current : ∀ (i : Nat) (c : Client), s.clients[i]? = some c → c.inPair → c.pair.got = s.store.md f.chars
  ring : ∃ m, s.store.md f.chars = some m ∧ Holds m.ioq.ioQNode m.ioq.head m.ioq.tail s.nodes
  apart : s.nodes.Nodup
  oldest : ∀ i, s.Admitted i → s.pending.head? = some i

section Step
variable {f : Filename} {s s' : State} {mv : Move}

/-- A pending request whose node is in the head slot is the oldest. -/
theorem Serving.head_of_front (h : Serving f s) {i : Nat} {c : Client} (hi : i ∈ s.pending)
    (hc : s.clients[i]? = some c) {m : MetaData} (hm : s.store.md f.chars = some m)
    (hhead : m.ioq.ioQNode m.ioq.head = c.request.node) : s.pending.head? = some i := by
  obtain ⟨m', hm', hring⟩ := h.ring
  cases hm.symm.trans hm'
  have hknown := h.orderly.known
  have hapart := h.apart
  rw [State.nodes] at hring hapart
  cases hp : s.pending with
  | nil => simp [hp] at hi
  | cons j rest =>
    rw [hp] at hi hring hapart hknown
    have hj := List.getElem?_eq_getElem (hknown j List.mem_cons_self)
    rw [nodesOf_cons hj] at hring hapart
    obtain rfl | hi := List.mem_cons.mp hi
    · rfl
    · have hmem := mem_nodesOf hi hc
      rw [← hhead, hring.front] at hmem
      exact absurd hmem (List.nodup_cons.mp hapart).1

/-- What a client that is about to put has got is what is stored. -/
theorem Serving.got (h : Serving f s) {i : Nat} {c : Client} (hc : s.clients[i]? = some c)
    (hin : c.inPair) {m : MetaData} (hm : s.store.md f.chars = some m) : ∀ m₀ ∈ c.pair.got, m.ioq = m₀.ioq := by
  intro m₀ hm₀
  rw [← h.current i c hc hin, hm₀] at hm
  cases hm
  rfl

/-- When pairs are atomic no client is between its get and its put just after a put. -/
theorem pairsAtomic.none_inPair {i : Nat} {fails : Bool} (h : pairsAtomic s (.call i fails)) {c' : Client}
    (hclients : s'.clients = s.clients.set i c') (hover : c'.inPair = false) (j : Nat) (d : Client)
    (hd : s'.clients[j]? = some d) : d.inPair = false := by
  rw [hclients] at hd
  obtain ⟨-, rfl⟩ | ⟨hij, hd⟩ := getElem?_set_cases hd
  · exact hover
  · exact h j (List.getElem?_eq_some_iff.mp hd).1 (Ne.symm hij) d hd

/-- A client newly admitted saw its own node in the head slot, so it is the oldest. -/
theorem Serving.silent (h : Serving f s) (hord' : Orderly f s')
    (md : s'.store.md f.chars = s.store.md f.chars) (pending : s'.pending = s.pending) (nodes : s'.nodes = s.nodes)
    (admitted : ∀ (j : Nat) (c' : Client), s'.clients[j]? = some c' → c'.admitted → j ∈ s.pending →
      (∃ c : Client, s.clients[j]? = some c ∧ c.admitted) ∨
      ∃ c m, s.clients[j]? = some c ∧ s.store.md f.chars = some m ∧ m.ioq.ioQNode m.ioq.head = c.request.node)
    (inPair : ∀ (j : Nat) (c' : Client), s'.clients[j]? = some c' → c'.inPair →
      c'.pair.got = s.store.md f.chars ∨
      ∃ c : Client, s.clients[j]? = some c ∧ c.inPair ∧ c'.pair.got = c.pair.got) : Serving f s' := by
  obtain ⟨m, hm, hring⟩ := h.ring
  refine ⟨hord', fun j c hc hin => ?_, ⟨m, md.trans hm, by rwa [nodes]⟩, by rw [nodes]; exact h.apart,
    fun j hj => ?_⟩
  · rw [md]
    obtain hgot | ⟨d, hd, hin', hgot⟩ := inPair j c hc hin
    · exact hgot
    · rw [hgot, h.current j d hd hin']
  · obtain ⟨hmem, c, hc, hadm⟩ := hj
    rw [pending] at hmem ⊢
    obtain hadm | ⟨d, m', hd, hm', hhead⟩ := admitted j c hc hadm hmem
    · exact h.oldest j ⟨hmem, hadm⟩
    · exact h.head_of_front hmem hd hm' hhead

/-- A request put in goes behind the others, and is like none of them. -/
theorem Serving.enqueued (h : Serving f s) (hord' : Orderly f s') {i : Nat} {c c' : Client}
    (hatomic : pairsAtomic s (.call i false)) (hroom : s.pending.length < ioQLen)
    (hapart : c.request.node ∉ s.nodes) (hc : s.clients[i]? = some c) (hclients : s'.clients = s.clients.set i c')
    (hput : c.Puts f false s c' s' (·.enqueue c.request.ioType c.request.arriveTime))
    (hwaits : c'.admitted = false) (hpending : s'.pending = s.pending ++ [i])
    (hnodes : s'.nodes = s.nodes ++ [c.request.node]) : Serving f s' := by
  obtain ⟨m, hm, hring⟩ := h.ring
  obtain ⟨m', hm', hioq⟩ := hput.edits (h.got hc hput.before hm)
  have hlen : s.nodes.length < ioQLen := by
    rw [State.nodes, nodesOf_length h.orderly.known]
    exact hroom
  refine ⟨hord', fun j d hd hin => ?_, ⟨m', hm', ?_⟩, ?_, fun j hj => ?_⟩
  · rw [hatomic.none_inPair hclients hput.after j d hd] at hin
    cases hin
  · rw [hioq, hnodes]
    exact hring.push hlen c.request.node
  · rw [hnodes]
    exact List.nodup_append.mpr ⟨h.apart, List.nodup_singleton _, fun a ha b hb =>
      fun hab => hapart (List.mem_singleton.mp hb ▸ hab ▸ ha)⟩
  · obtain ⟨hmem, d, hd, hadm⟩ := hj
    rw [hclients] at hd
    obtain ⟨-, rfl⟩ | ⟨hij, hd⟩ := getElem?_set_cases hd
    · rw [hwaits] at hadm
      cases hadm
    · rw [hpending, List.mem_append, List.mem_singleton] at hmem
      have hold := h.oldest j ⟨hmem.resolve_right (Ne.symm hij), d, hd, hadm⟩
      rw [hpending, List.head?_append, hold, Option.some_or]

/-- The request that leaves is the oldest, which is the one the head slot has. -/
theorem Serving.left (h : Serving f s) (hord' : Orderly f s') {i : Nat} {c c' : Client}
    (hatomic : pairsAtomic s (.call i false)) (hc : s.clients[i]? = some c)
    (hclients : s'.clients = s.clients.set i c') (hput : c.Puts f false s c' s' IoQ.dequeue)
    (hleaves : c.enters = false) (hmember : i ∈ s.pending) (hpending : s'.pending = s.pending.erase i)
    (hnodes : s'.nodes = nodesOf s.clients (s.pending.erase i)) : Serving f s' := by
  obtain ⟨m, hm, hring⟩ := h.ring
  obtain ⟨m', hm', hioq⟩ := hput.edits (h.got hc hput.before hm)
  -- the client that leaves is the oldest, and no other is admitted
  have hfirst := h.oldest i ⟨hmember, c, hc, Client.admitted_of_leaves hleaves⟩
  obtain ⟨rest, hrest⟩ := List.head?_eq_some_iff.mp hfirst
  have hall : s.nodes = c.request.node :: s'.nodes := by
    rw [hnodes, hrest, List.erase_cons_head, State.nodes, hrest, nodesOf_cons hc]
  rw [hall] at hring
  refine ⟨hord', fun j d hd hin => ?_, ⟨m', hm', ?_⟩, ?_, fun j hj => ?_⟩
  · rw [hatomic.none_inPair hclients hput.after j d hd] at hin
    cases hin
  · rw [hioq]
    exact hring.pop
  · exact (List.nodup_cons.mp (hall ▸ h.apart)).2
  · obtain ⟨hmem, d, hd, hadm⟩ := hj
    rw [hclients] at hd
    rw [hpending] at hmem
    obtain ⟨rfl, -⟩ | ⟨hij, hd⟩ := getElem?_set_cases hd
    · exact absurd hmem h.orderly.nodup.not_mem_erase
    · have hold := h.oldest j ⟨List.mem_of_mem_erase hmem, d, hd, hadm⟩
      exact absurd (Option.some.inj (hfirst.symm.trans hold)) hij

theorem Serving.step (h : Serving f s) (hrule : orderlyApart s mv) (hstep : s.next f mv = some s') :
    Serving f s' := by
  obtain ⟨hord', heffect⟩ := h.orderly.step hstep
  obtain ⟨⟨hatomic, hroom⟩, hapart⟩ := hrule
  cases heffect with
  | silent md pending nodes admitted inPair => exact h.silent hord' md pending nodes admitted inPair
  | enqueued i c c' call client clients put enters waits pending nodes =>
    cases call
    exact h.enqueued hord' hatomic (hroom c client put.puts enters) (hapart c client put.puts enters) client
      clients put waits pending nodes
  | left i c c' call client clients put leaves member pending nodes =>
    cases call
    exact h.left hord' hatomic client clients put leaves member pending nodes

end Step

theorem Quiet.serving {f : Filename} {s : State} (h : Quiet f s) : Serving f s := by
  obtain ⟨⟨m, hm, hempty⟩, hclients, hpending⟩ := id h
  have hnodes : s.nodes = [] := by simp [State.nodes, hpending, nodesOf]
  refine ⟨h.orderly, by simp [hclients], ⟨m, hm, ?_⟩, by simp [hnodes], fun i hi => ?_⟩
  · rw [hnodes, ← hempty]
    exact .nil _ _
  · simp [State.Admitted, hpending] at hi

/-- **One request at a time.** In every run with atomic pairs and room in the ring, in which
no request is put in while one with the same type and time is pending and no write leaves
with a key or a count that does not fit, at most one request is admitted, and it is the
oldest. -/
theorem one_admitted {f : Filename} {s : State} (h : Reach (queueMachine f) (orderlyDefined f) s) : OneAdmitted s := by
  have hinv : Serving f s ∧ s.LeavesDefined f := by
    refine h.invariant (I := fun s => Serving f s ∧ s.LeavesDefined f) (fun s hs => ⟨Quiet.serving hs, ?_⟩)
      (fun s mv s' hinv hrule hstep => ?_)
    · have hclients : s.clients = [] := hs.clients
      simp [State.LeavesDefined, hclients]
    · exact ⟨hinv.1.step hrule.1 hstep, hinv.2.step hinv.1.orderly hrule.2 hstep⟩
  obtain ⟨hserving, hdefined⟩ := hinv
  exact ⟨hdefined.defined hserving.orderly,
    fun i j hi hj => Option.some.inj ((hserving.oldest i hi).symm.trans (hserving.oldest j hj)), hserving.oldest⟩

/-- Two clients ask to read at the same time of the clock: each takes the node in the
head slot for its own. -/
theorem two_admitted : ∃ f s, Reach (queueMachine f) orderlyPairs s ∧ s.Admitted 0 ∧ s.Admitted 1 := by
  let f : Filename := ⟨['f'], by decide⟩
  obtain ⟨s, hreach, hs⟩ := Reach.exists_run (M := queueMachine f) (R := orderlyPairs)
    [.request (.readAt 1) 1, .request (.readAt 1) 1, .call 0 false, .call 0 false, .call 1 false, .call 1 false,
      .call 0 false, .call 1 false]
    (fun s : State => decide (0 ∈ s.pending ∧ 1 ∈ s.pending) && s.clients[0]?.any Client.admitted &&
      s.clients[1]?.any Client.admitted) (.start (State.new_start f)) (by decide +kernel)
  simp only [Bool.and_eq_true, decide_eq_true_eq, Option.any_eq_true] at hs
  exact ⟨f, s, hreach, ⟨hs.1.1.1, hs.1.2⟩, ⟨hs.1.1.2, hs.2⟩⟩

/-- A write is admitted while another waits behind it. -/
theorem one_admitted_waiting : ∃ f s, Reach (queueMachine f) (orderlyDefined f) s ∧ s.pending = [0, 1] ∧
    s.Admitted 0 ∧ OneAdmitted s := by
  let f : Filename := ⟨['f'], by decide⟩
  obtain ⟨s, hreach, hs⟩ := Reach.exists_run (M := queueMachine f) (R := orderlyDefined f)
    [.request ⟨.write, 1, .write 0 [7] 1 []⟩ 1, .request (.readAt 1) 1, .call 0 false, .call 0 false,
      .call 1 false, .call 1 false, .call 0 false, .call 1 false, .leave 0]
    (fun s : State => decide (s.pending = [0, 1]) && s.clients[0]?.any Client.admitted)
    (.start (State.new_start f)) (by decide +kernel)
  simp only [Bool.and_eq_true, decide_eq_true_eq, Option.any_eq_true] at hs
  exact ⟨f, s, hreach, hs.1, ⟨by simp [hs.1], hs.2⟩, one_admitted hreach⟩

end CacheFs.Queue
