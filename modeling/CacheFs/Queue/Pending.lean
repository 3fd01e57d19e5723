import CacheFs.Queue.Effects

/-! Whether queued requests keep their slots, when the clients' calls interleave.

The queue lives in a record that each client gets and puts as a whole. A put that
follows on someone else's undoes it, an enqueue into a full ring overwrites the
oldest request, and a client that leaves takes out whatever is in the head slot.
In runs where none of the three happens, and no write leaves whose key or count does not fit,
the ring has exactly the pending requests (`none_lost`); the first alone loses one
(`lost_request`). -/
namespace CacheFs.Queue
open Interaction Ring Transition

/-- The slots of the ring from head to tail have the pending requests, one slot each. -/
def Placed (f : Filename) (s : State) : Prop :=
  ∃ m q, s.store.md f.chars = some m ∧ Holds m.ioq.ioQNode m.ioq.head m.ioq.tail q ∧ q.Perm s.nodes

/-- Nothing undefined has been done, and no pending request is lost. -/
structure NoneLost (f : Filename) (s : State) : Prop where
  defined : s.Defined
  placed : Placed f s

/-- A put is made on the queue the client has got; one that enqueues, with a slot to
spare; one that leaves, with the client's own node in the head slot. -/
def SafePut (f : Filename) (s : State) (c : Client) : Prop :=
  ∀ m ∈ s.store.md f.chars, (∀ m₀ ∈ c.pair.got, m.ioq = m₀.ioq) ∧
    if c.enters then s.pending.length < ioQLen else m.ioq.ioQNode m.ioq.head = c.request.node

instance (f : Filename) (s : State) (c : Client) : Decidable (SafePut f s c) :=
  inferInstanceAs (Decidable (∀ m ∈ s.store.md f.chars, _ ∧ if c.enters then _ else _))

/-- Every put that is done is safe, and what leaves is defined. -/
def safePuts (f : Filename) : Rule State Move := fun s mv =>
  atPut (fun s _ c => SafePut f s c) s mv ∧ definedLeaves f s mv

instance (f : Filename) (s : State) (mv : Move) : Decidable (safePuts f s mv) :=
  inferInstanceAs (Decidable (_ ∧ _))

theorem Placed.step {f : Filename} {s s' : State} {mv : Move} (h : Placed f s) (hord : Orderly f s)
    (hrule : safePuts f s mv) (heffect : Effect f s mv s') : Placed f s' := by
  obtain ⟨m, q, hm, hq, hperm⟩ := h
  cases heffect with
  | silent md pending nodes => exact ⟨m, q, md.trans hm, hq, by rw [nodes]; exact hperm⟩
  | enqueued i c c' call client clients put enters waits pending nodes =>
    cases call
    obtain ⟨hgot, hroom⟩ := hrule.1 c client put.puts m hm
    obtain ⟨m', hm', hioq⟩ := put.edits hgot
    rw [if_pos enters, ← nodesOf_length hord.known, ← State.nodes, ← hperm.length_eq] at hroom
    refine ⟨m', q ++ [c.request.node], hm', ?_, by rw [nodes]; exact hperm.append_right _⟩
    rw [hioq]
    exact hq.push hroom c.request.node
  | left i c c' call client clients put leaves member pending nodes =>
    cases call
    obtain ⟨hgot, hhead⟩ := hrule.1 c client put.puts m hm
    obtain ⟨m', hm', hioq⟩ := put.edits hgot
    rw [leaves, if_neg Bool.false_ne_true] at hhead
    have hnodes : s.nodes.Perm (c.request.node :: s'.nodes) := by
      rw [nodes, ← nodesOf_cons client]
      exact (List.perm_cons_erase member).filterMap _
    cases q with
    | nil => exact absurd (hperm.trans hnodes).length_eq (by simp)
    | cons x q =>
      -- what it takes out is its own node
      have hx : x = c.request.node := hq.front.symm.trans hhead
      subst hx
      refine ⟨m', q, hm', ?_, (hperm.trans hnodes).cons_inv⟩
      rw [hioq]
      exact hq.pop

/-- **No queued request is lost** in a run whose every put is made on the queue as the
client got it, with a slot to spare when it enqueues and with the client's own node in
the head slot when it leaves; and no write leaves with a key or a count that does not fit. -/
theorem none_lost {f : Filename} {s : State} (h : Reach (queueMachine f) (safePuts f) s) : NoneLost f s := by
  suffices Orderly f s ∧ Placed f s ∧ s.LeavesDefined f from ⟨this.2.2.defined this.1, this.2.1⟩
  refine h.invariant (I := fun s => Orderly f s ∧ Placed f s ∧ s.LeavesDefined f)
    (fun s hs => ⟨Quiet.orderly hs, ?_, ?_⟩) ?_
  · obtain ⟨⟨m, hm, hempty⟩, -, hpending⟩ := hs
    refine ⟨m, [], hm, ?_, ?_⟩
    · rw [← hempty]
      exact .nil _ _
    · simp [State.nodes, hpending, nodesOf]
  · have hclients : s.clients = [] := hs.clients
    simp [State.LeavesDefined, hclients]
  · intro s mv s' h hrule hstep
    obtain ⟨hord, hplaced, hdefined⟩ := h
    obtain ⟨hord', heffect⟩ := hord.step hstep
    exact ⟨hord', hplaced.step hord hrule heffect, hdefined.step hord hrule.2 hstep⟩

/-- A file with an empty queue, and no clients. -/
def State.new (f : Filename) : State := ⟨.ofFile f (.new 0), [], []⟩

theorem State.new_start (f : Filename) : (queueMachine f).start (State.new f) :=
  ⟨⟨.new 0, Store.ofFile_md f _, rfl⟩, rfl, rfl⟩

/-- A request to read at this time. -/
def Request.readAt (t : Int64) : Request := ⟨.read, t, .read⟩

/-- Two clients get the metadata before either has put: the second put undoes the first,
and the first request is in no slot. -/
theorem lost_request : ∃ f s c, Reachable (queueMachine f) s ∧ 0 ∈ s.pending ∧ s.clients[0]? = some c ∧
    (∀ m q, s.store.md f.chars = some m → Holds m.ioq.ioQNode m.ioq.head m.ioq.tail q →
      c.request.node ∉ q) ∧ ¬ Placed f s := by
  let f : Filename := ⟨['f'], by decide⟩
  obtain ⟨s, hreach, hs⟩ := Reach.exists_run (M := queueMachine f) (R := always)
    [.request (.readAt 1) 1, .request (.readAt 2) 1, .call 0 false, .call 1 false, .call 0 false, .call 1 false]
    (fun s : State => decide (0 ∈ s.pending) &&
      s.clients[0]?.any (fun c : Client => decide (c.request.node = ⟨.read, 1⟩)) &&
      (s.store.md f.chars).any fun m : MetaData =>
        decide (m.ioq.head = 0 ∧ m.ioq.tail = 1 ∧ m.ioq.ioQNode 0 = ⟨.read, 2⟩))
    (.start (State.new_start f)) (by decide +kernel)
  simp only [Bool.and_eq_true, decide_eq_true_eq, Option.any_eq_true] at hs
  obtain ⟨⟨hpending, c, hc, hnode⟩, m, hm, hhead, htail, hslot⟩ := hs
  have hlost (m' : MetaData) (q) (hm' : s.store.md f.chars = some m')
      (hq : Holds m'.ioq.ioQNode m'.ioq.head m'.ioq.tail q) : c.request.node ∉ q := by
    cases hm.symm.trans hm'
    rw [hhead, htail] at hq
    have hlen : q.length = 1 := by
      have := hq.fits
      have := congrArg Fin.val hq.tail_eq
      simp only [place, ioQLen] at *
      omega
    obtain ⟨x, rfl⟩ := List.length_eq_one_iff.mp hlen
    rw [List.mem_singleton, ← hq.front, hslot, hnode]
    decide
  refine ⟨f, s, c, hreach, hpending, hc, hlost, fun ⟨m', q, hm', hq, hperm⟩ => ?_⟩
  exact hlost m' q hm' hq (hperm.mem_iff.mpr (mem_nodesOf hpending hc))

/-- A request is put in, is admitted and leaves, and another has been put in behind it. -/
theorem none_lost_second : ∃ f s, Reach (queueMachine f) (safePuts f) s ∧ s.pending = [1] ∧ NoneLost f s := by
  let f : Filename := ⟨['f'], by decide⟩
  obtain ⟨s, hreach, hs⟩ := Reach.exists_run (M := queueMachine f) (R := safePuts f)
    [.request (.readAt 1) 1, .request (.readAt 2) 1, .call 0 false, .call 0 false, .call 1 false, .call 1 false,
      .call 0 false, .leave 0, .call 0 false, .call 0 false]
    (fun s : State => decide (s.pending = [1])) (.start (State.new_start f)) (by decide +kernel)
  exact ⟨f, s, hreach, of_decide_eq_true hs, none_lost hreach⟩

end CacheFs.Queue
