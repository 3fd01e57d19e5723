import Mathlib.Data.List.Induction
import Mathlib.Data.List.Perm.Subperm
import Mathlib.Logic.Function.Basic

/-! Doubly linked lists in a store of cells.

A program that links cells by the keys or addresses of their neighbours keeps, in
the store, a list that is nowhere written down. `Segment` says that cells are
linked in the order of a given list, and each edit a program makes — putting a
cell in front, appending one, taking one out — is an edit of that list. `Path` is
what following one of the two pointers visits; a path that ends visits no cell
twice. -/
namespace Linked

variable {K : Type}

/-! ### Following a pointer -/

/-- Following `next` from `h` visits the cells of the list and ends. -/
def Path (next : K → Option (Option K)) : Option K → List K → Prop
  | h, [] => h = none
  | h, k :: l => h = some k ∧ ∃ n, next k = some n ∧ Path next n l

namespace Path
variable {next : K → Option (Option K)}

/-- What a pointer leads to is determined. -/
theorem unique {h : Option K} {l l' : List K} (hl : Path next h l) (hl' : Path next h l') : l = l' := by
  induction l generalizing h l' with
  | nil =>
    cases l' with
    | nil => rfl
    | cons k l' =>
      rw [hl] at hl'
      cases hl'.1
  | cons k l ih =>
    obtain ⟨rfl, n, hn, hl⟩ := hl
    cases l' with
    | nil => cases hl'
    | cons k' l' =>
      obtain ⟨hk, n', hn', hl'⟩ := hl'
      cases hk
      rw [hn] at hn'
      cases hn'
      rw [ih hl hl']

/-- From a cell that is visited, the rest of the path is followed. -/
theorem from_mem {h : Option K} {l : List K} (hl : Path next h l) {k : K} (hk : k ∈ l) :
    ∃ l', l'.length ≤ l.length ∧ Path next (some k) l' := by
  induction l generalizing h with
  | nil => cases hk
  | cons a l ih =>
    have hpath := hl
    obtain ⟨rfl, n, hn, hl⟩ := hl
    obtain rfl | hk := List.mem_cons.mp hk
    · exact ⟨k :: l, Nat.le_refl _, hpath⟩
    · obtain ⟨l', hlen, hl'⟩ := ih hl hk
      exact ⟨l', Nat.le_succ_of_le hlen, hl'⟩

/-- A path that ends visits no cell twice. -/
theorem nodup {h : Option K} {l : List K} (hl : Path next h l) : l.Nodup := by
  induction l generalizing h with
  | nil => exact List.nodup_nil
  | cons k l ih =>
    have hpath := hl
    obtain ⟨rfl, n, hn, hl⟩ := hl
    refine List.nodup_cons.mpr ⟨fun hk => ?_, ih hl⟩
    obtain ⟨l', hlen, hl'⟩ := hl.from_mem hk
    rw [hl'.unique hpath, List.length_cons] at hlen
    omega

/-- Each cell visited has a pointer. -/
theorem next_of_mem {h : Option K} {l : List K} (hl : Path next h l) {k : K} (hk : k ∈ l) :
    ∃ n, next k = some n := by
  induction l generalizing h with
  | nil => cases hk
  | cons a l ih =>
    obtain ⟨_, n, hn, hl⟩ := hl
    obtain rfl | hk := List.mem_cons.mp hk
    · exact ⟨n, hn⟩
    · exact ih hl hk

end Path

/-- A path in a finite range of addresses is no longer than the range. -/
theorem length_le_of_lt {l : List Nat} (hd : l.Nodup) {n : Nat} (h : ∀ k ∈ l, k < n) : l.length ≤ n := by
  have hsub : l ⊆ List.range n := fun k hk => List.mem_range.mpr (h k hk)
  simpa using (List.subperm_of_subset hd hsub).length_le

/-! ### Cells linked both ways -/

/-- The two pointers of each cell: to the cell before it and to the one after it. -/
abbrev Links (K : Type) := K → Option (Option K × Option K)

/-- The cells of the list are linked in its order, from one after `pre` to one before
`nxt`. -/
def Segment (links : Links K) : Option K → List K → Option K → Prop
  | _, [], _ => True
  | pre, k :: l, nxt => links k = some (pre, l.head?.or nxt) ∧ Segment links (some k) l nxt

/-- Writing the pointer before a cell, if there is a cell. -/
def setPre [DecidableEq K] (links : Links K) (k x : Option K) : Links K :=
  k.elim links fun k => Function.update links k ((links k).map fun (_, n) => (x, n))

/-- Writing the pointer after a cell, if there is a cell. -/
def setNext [DecidableEq K] (links : Links K) (k x : Option K) : Links K :=
  k.elim links fun k => Function.update links k ((links k).map fun (p, _) => (p, x))

theorem setPre_of_ne [DecidableEq K] {links : Links K} {k x : Option K} {c : K} (h : k ≠ some c) :
    setPre links k x c = links c := by
  cases k with
  | none => rfl
  | some k => exact Function.update_of_ne (fun hc => h (by rw [hc])) _ _

theorem setNext_of_ne [DecidableEq K] {links : Links K} {k x : Option K} {c : K} (h : k ≠ some c) :
    setNext links k x c = links c := by
  cases k with
  | none => rfl
  | some k => exact Function.update_of_ne (fun hc => h (by rw [hc])) _ _

namespace Segment
variable {links links' : Links K}

/-- Only the cells of the list matter. -/
theorem congr {pre nxt : Option K} {l : List K} (h : Segment links pre l nxt)
    (same : ∀ k ∈ l, links' k = links k) : Segment links' pre l nxt := by
  induction l generalizing pre with
  | nil => trivial
  | cons k l ih =>
    exact ⟨by rw [same k List.mem_cons_self]; exact h.1,
      ih h.2 fun c hc => same c (List.mem_cons_of_mem _ hc)⟩

/-- Two lists are linked one after the other when the ends meet. -/
theorem append_iff {pre nxt : Option K} {u v : List K} :
    Segment links pre (u ++ v) nxt ↔
      Segment links pre u (v.head?.or nxt) ∧ Segment links (u.getLast?.or pre) v nxt := by
  induction u generalizing pre with
  | nil => simp [Segment]
  | cons k u ih =>
    have hend : (k :: u).getLast?.or pre = u.getLast?.or (some k) := by
      rw [List.getLast?_cons]
      cases u.getLast? <;> rfl
    have hhead : (u ++ v).head?.or nxt = u.head?.or (v.head?.or nxt) := by
      rw [List.head?_append, Option.or_assoc]
    rw [List.cons_append, Segment, Segment, ih, hhead, hend, and_assoc]

/-- The neighbours of a cell. -/
theorem neighbours {pre nxt : Option K} {u v : List K} {k : K}
    (h : Segment links pre (u ++ k :: v) nxt) : links k = some (u.getLast?.or pre, v.head?.or nxt) :=
  (append_iff.mp h).2.1

/-- The first cell visited is the head, and following `next` visits the rest. -/
theorem path_next {pre : Option K} {l : List K} (h : Segment links pre l none) :
    Path (fun k => (links k).map Prod.snd) l.head? l := by
  induction l generalizing pre with
  | nil => rfl
  | cons k l ih =>
    exact ⟨rfl, l.head?, by simp [h.1], ih h.2⟩

/-- Following `pre` from the last cell visits them in reverse. -/
theorem path_pre {nxt : Option K} {l : List K} (h : Segment links none l nxt) :
    Path (fun k => (links k).map Prod.fst) l.getLast? l.reverse := by
  induction l using List.reverseRecOn generalizing nxt with
  | nil => rfl
  | append_singleton l k ih =>
    obtain ⟨hl, hk⟩ := append_iff.mp h
    rw [List.reverse_append, List.getLast?_concat]
    exact ⟨rfl, l.getLast?, by simp [hk.1], ih hl⟩

/-- A list that ends has no cell twice. -/
theorem nodup {pre : Option K} {l : List K} (h : Segment links pre l none) : l.Nodup := h.path_next.nodup

variable [DecidableEq K]

/-- Writing the pointer before the first cell moves the list behind another. -/
theorem relink_start {pre nxt : Option K} {l : List K} (h : Segment links pre l nxt) (hd : l.Nodup)
    (pre' : Option K) : Segment (setPre links l.head? pre') pre' l nxt := by
  cases l with
  | nil => trivial
  | cons k l =>
    refine ⟨?_, h.2.congr fun c hc => setPre_of_ne fun hk => ?_⟩
    · simp [setPre, h.1]
    · cases hk
      exact (List.nodup_cons.mp hd).1 hc

/-- Writing the pointer after the last cell moves the list before another. -/
theorem relink_end {pre nxt : Option K} {l : List K} (h : Segment links pre l nxt) (hd : l.Nodup)
    (nxt' : Option K) : Segment (setNext links l.getLast? nxt') pre l nxt' := by
  cases l using List.reverseRecOn with
  | nil => trivial
  | append_singleton l k =>
    obtain ⟨hl, hk⟩ := append_iff.mp h
    rw [List.getLast?_concat]
    refine append_iff.mpr ⟨hl.congr fun c hc => setNext_of_ne fun hck => ?_, ?_, trivial⟩
    · exact (List.nodup_append.mp hd).2.2 c hc k (List.mem_singleton_self k) (Option.some.inj hck).symm
    · simp [setNext, hk.1]

/-- Putting a cell in front. -/
theorem push {l : List K} (h : Segment links none l none) {p : K} (hp : links' p = some (none, l.head?))
    (hl : ∀ k ∈ l, links' k = setPre links l.head? (some p) k) : Segment links' none (p :: l) none :=
  ⟨by rw [hp, Option.or_none], (h.relink_start h.nodup (some p)).congr hl⟩

/-- Appending a cell. -/
theorem append {l : List K} (h : Segment links none l none) {p : K} (hp : links' p = some (l.getLast?, none))
    (hl : ∀ k ∈ l, links' k = setNext links l.getLast? (some p) k) : Segment links' none (l ++ [p]) none :=
  append_iff.mpr ⟨(h.relink_end h.nodup (some p)).congr hl, by rw [hp, Option.or_none]; rfl, trivial⟩

/-- Taking a cell out. -/
theorem unlink {u v : List K} {p : K} (h : Segment links none (u ++ p :: v) none)
    (hl : ∀ k ∈ u ++ v,
      links' k = setNext (setPre links v.head? u.getLast?) u.getLast? v.head? k) :
    Segment links' none (u ++ v) none := by
  have hd := h.nodup
  obtain ⟨hdu, hdpv, hdisj⟩ := List.nodup_append.mp hd
  obtain ⟨hu, hpv⟩ := append_iff.mp h
  have hu' := (hu.relink_end hdu v.head?)
  have hv' := hpv.2.relink_start (List.nodup_cons.mp hdpv).2 u.getLast?
  have apart {a b : K} (ha : a ∈ u) (hb : b ∈ v) : a ≠ b := hdisj a ha b (List.mem_cons_of_mem _ hb)
  rw [← Option.or_none (o := v.head?)] at hu'
  refine append_iff.mpr ⟨hu'.congr fun k hk => ?_, ?_⟩
  · rw [hl k (List.mem_append_left _ hk)]
    have hne : v.head? ≠ some k := fun hv => apart hk (List.mem_of_mem_head? hv) rfl
    by_cases hlast : u.getLast? = some k
    · rw [hlast, Option.or_none]
      simp only [setNext, Option.elim_some, Function.update_self]
      rw [setPre_of_ne hne]
    · rw [setNext_of_ne hlast, setPre_of_ne hne, setNext_of_ne hlast]
  · rw [Option.or_none]
    refine hv'.congr fun k hk => ?_
    rw [hl k (List.mem_append_right _ hk),
      setNext_of_ne fun hu => apart (List.mem_of_getLast? hu) hk rfl]

end Segment

end Linked
