import CacheFs.Library.Chain
import CacheFs.Queue.Calls
import CacheFs.Queue.LogCorrect

/-! The keys of a log whose writes come at any times and with any `ion_next`.

A write at a time that the log has already stores its node under the key of another, and
cuts the log there; and where the tail points, no write says. So the log is not the
list of the writes, but it is a list of keys that leads from `io_node_q_head` to
`io_node_q_tail` (`LogKeys`), and a write that is done appends its key to it
(`Whole.write`). -/
namespace CacheFs.Queue
open Interaction

/-- Where `ion_next` points, as the store has it. -/
def nextOf (s : Store) (k : Key) : Option Key := (s.ion k).map IoNode.ionNext

/-- The log from its head to its tail. -/
structure LogKeys (s : Store) (m : MetaData) (l : List Key) : Prop where
  head : ptr m.ioNodeQHead = l.head?
  tail : ptr m.ioNodeQTail = l.getLast?
  linked : Chain.Linked (nextOf s) l
  nodup : l.Nodup

/-- The log with all of its records. -/
structure Whole (f : Filename) (s : Store) (m : MetaData) (l : List Key) : Prop where
  log : LogKeys s m l
  own : ∀ k ∈ l, ∃ t, k = ionKey f t
  node : ∀ k ∈ l, (s.ion k).isSome
  data : ∀ k ∈ l, (s.iod k).isSome

section LogKeys
variable {f : Filename} {s s' : Store} {m : MetaData} {l : List Key}

theorem LogKeys.empty (s : Store) (hm : m.EmptyLog) : LogKeys s m [] :=
  ⟨by rw [hm.head]; rfl, by rw [hm.tail]; rfl, .nil, List.nodup_nil⟩

theorem Whole.empty (f : Filename) (s : Store) (hm : m.EmptyLog) : Whole f s m [] :=
  ⟨.empty s hm, by simp, by simp, by simp⟩

/-- The tail is the last key. -/
theorem LogKeys.eq_tail (h : LogKeys s m l) {k : Key} (hk : k ∈ l.getLast?) : k = m.ioNodeQTail :=
  (ptr_eq_some.mp (h.tail.trans hk)).1.symm

theorem LogKeys.tail_eq_nil (h : LogKeys s m l) : m.ioNodeQTail = [] ↔ l = [] := by
  rw [← ptr_eq_none, h.tail, List.getLast?_eq_none_iff]

theorem LogKeys.tail_mem (h : LogKeys s m l) (htail : m.ioNodeQTail ≠ []) : m.ioNodeQTail ∈ l := by
  have hlast := h.tail
  rw [ptr_ne_nil htail] at hlast
  exact List.mem_of_getLast? hlast.symm

/-- No key before the last is the tail. -/
theorem LogKeys.ne_tail (h : LogKeys s m l) {k : Key} (hk : k ∈ l.dropLast) : k ≠ m.ioNodeQTail := by
  have hl : l ≠ [] := by
    intro hnil
    rw [hnil] at hk
    cases hk
  have hsplit := List.dropLast_append_getLast hl
  have hnodup := h.nodup
  rw [← hsplit, List.nodup_append] at hnodup
  rw [← h.eq_tail (List.getLast?_eq_getLast_of_ne_nil hl)]
  exact hnodup.2.2 k hk _ (List.mem_singleton_self _)

/-- Where the tail points does not matter. -/
theorem LogKeys.congr (h : LogKeys s m l) (same : ∀ k ∈ l, k ≠ m.ioNodeQTail → nextOf s' k = nextOf s k) :
    LogKeys s' m l :=
  ⟨h.head, h.tail, h.linked.congr fun k hk => same k (List.dropLast_subset _ hk) (h.ne_tail hk), h.nodup⟩

theorem LogKeys.unique {l' : List Key} (h : LogKeys s m l) (h' : LogKeys s m l') : l = l' :=
  h.linked.unique h'.linked h.nodup h'.nodup (h.head.symm.trans h'.head) (h.tail.symm.trans h'.tail)

/-- A tail is long enough to be followed. -/
theorem Whole.long_tail (h : Whole f s m l) (htail : m.ioNodeQTail ≠ []) : m.ioNodeQTail.length > 1 := by
  obtain ⟨t, ht⟩ := h.own _ (h.log.tail_mem htail)
  rw [ht]
  exact one_lt_ionKey_length f t

/-- Metadata with the same log, over the same records. -/
theorem Whole.keep (h : Whole f s m l) {m' : MetaData} (hion : s'.ion = s.ion) (hiod : s'.iod = s.iod)
    (hhead : m'.ioNodeQHead = m.ioNodeQHead) (htail : m'.ioNodeQTail = m.ioNodeQTail) : Whole f s' m' l := by
  have hnext : nextOf s' = nextOf s := by
    funext k
    rw [nextOf, hion, nextOf]
  refine ⟨⟨?_, ?_, ?_, h.log.nodup⟩, h.own, fun k hk => ?_, fun k hk => ?_⟩
  · rw [hhead, h.log.head]
  · rw [htail, h.log.tail]
  · rw [hnext]
    exact h.log.linked
  · rw [hion]
    exact h.node k hk
  · rw [hiod]
    exact h.data k hk

end LogKeys

/-! ### A write -/

theorem relinked_eq (ion : Key → Option IoNode) (tail path k : Key) : relinked ion tail path k =
    (ion k).map fun n => if k = tail ∧ tail.length > 1 then {n with ionNext := path} else n := by
  by_cases hlong : tail.length > 1
  · by_cases hk : k = tail
    · subst hk
      simp [relinked, hlong]
    · simp [relinked, hlong, hk]
  · simp [relinked, hlong]

/-- A record stays when one is stored under another key. -/
theorem isSome_update {A : Type} {g : Key → Option A} {k path : Key} {a : A} (h : (g k).isSome ∨ k = path) :
    (Function.update g path (some a) k).isSome := by
  by_cases hpath : k = path
  · simp [hpath]
  · rw [Function.update_of_ne hpath]
    exact h.resolve_right hpath

section Write
variable {f : Filename} {s : Store} {m : MetaData} {l : List Key} (w : Write) (ionNext : Key)

section Linked
variable {s' : Store} (hs' : s'.ion = relinked (w.ionWith f ionNext m s) m.ioNodeQTail (w.key f))
include hs'

/-- The old tail points to the new key. -/
theorem Write.nextOf_tail (hlong : m.ioNodeQTail.length > 1) (hnode : (w.ionWith f ionNext m s m.ioNodeQTail).isSome) :
    nextOf s' m.ioNodeQTail = some (w.key f) := by
  obtain ⟨n, hn⟩ := Option.isSome_iff_exists.mp hnode
  rw [nextOf, hs', relinked_eq, hn]
  simp [hlong]

/-- The new node points where its memory happened to, unless it is stored under the old tail. -/
theorem Write.nextOf_path (hpath : w.key f ≠ m.ioNodeQTail) : nextOf s' (w.key f) = some ionNext := by
  rw [nextOf, hs', relinked_of_ne hpath]
  simp [ionWith, newNode]

theorem Write.nextOf_other {k : Key} (htail : k ≠ m.ioNodeQTail) (hpath : k ≠ w.key f) : nextOf s' k = nextOf s k := by
  rw [nextOf, hs', relinked_of_ne htail, ionWith, Function.update_of_ne hpath, nextOf]

end Linked

/-- No write takes a node out. -/
theorem Write.linked_isSome {k : Key} (hk : (s.ion k).isSome ∨ k = w.key f) :
    (relinked (w.ionWith f ionNext m s) m.ioNodeQTail (w.key f) k).isSome := by
  rw [relinked_eq, Option.isSome_map]
  exact isSome_update hk

/-- The tail's node is there once the new one is stored. -/
theorem Whole.ionWith_tail (h : Whole f s m l) (htail : m.ioNodeQTail ≠ []) :
    (w.ionWith f ionNext m s m.ioNodeQTail).isSome :=
  isSome_update (.inl (h.node _ (h.log.tail_mem htail)))

theorem Whole.linked_tail (h : Whole f s m l) (htail : m.ioNodeQTail ≠ []) :
    nextOf (w.storeAt f ionNext m s .all) m.ioNodeQTail = some (w.key f) :=
  w.nextOf_tail ionNext rfl (h.long_tail htail) (h.ionWith_tail w ionNext htail)

/-- A write that is done appends its key. -/
theorem Whole.write (h : Whole f s m l) :
    Whole f (w.storeAt f ionNext m s .all) (m.wrote (w.key f)) (Chain.appended l (w.key f)) := by
  have hne : w.key f ≠ [] := ionKey_ne_nil f w.arriveTime
  refine ⟨⟨?_, ?_, ?_, Chain.appended_nodup h.log.nodup _⟩, fun k hk => ?_, fun k hk => ?_, fun k hk => ?_⟩
  · rw [MetaData.wrote_head, Chain.head?_appended, ← h.log.head]
    by_cases hempty : m.ioNodeQHead = []
    · simp [hempty, ptr_ne_nil hne]
    · simp [hempty, ptr_ne_nil hempty]
  · rw [MetaData.wrote_tail, ptr_ne_nil hne, Chain.appended, List.getLast?_concat]
  · refine h.log.linked.append (fun k hk hkpath => ?_) fun k hk hkpath => ?_
    · exact w.nextOf_other ionNext rfl (h.log.ne_tail hk) hkpath
    · cases h.log.eq_tail hk
      refine h.linked_tail w ionNext fun hnil => ?_
      rw [h.log.tail_eq_nil.mp hnil] at hk
      cases hk
  · obtain hk | rfl := Chain.mem_appended hk
    · exact h.own k hk
    · exact ⟨w.arriveTime, rfl⟩
  · exact w.linked_isSome ionNext ((Chain.mem_appended hk).imp_left (h.node k))
  · exact isSome_update ((Chain.mem_appended hk).imp_left (h.data k))

end Write

end CacheFs.Queue
