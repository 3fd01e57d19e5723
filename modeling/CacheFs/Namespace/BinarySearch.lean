import Mathlib.Algebra.Group.Nat.Defs
import CacheFs.Namespace.GetNsNode

/-! How far `binary_seach_file` goes.

The result of `strcmp` goes into a `u32`, which is never below 0: a search never turns
left. So the lower bound only grows, and in an array of up to 2^31 children every read
stays between the bounds and no sum wraps (`search_bounded`). -/
namespace CacheFs.Namespace

/-! ### The course of a search -/

/-- Where a call goes on after its comparison. -/
inductive Turn where
  | left
  | found
  | right
  deriving DecidableEq

/-- A call that compares: its bounds, and where it goes on. -/
structure Probe where
  low : UInt32
  high : UInt32
  turn : Turn

/-- Where the call reads `child`. -/
def Probe.mid (p : Probe) : UInt32 := (p.high + p.low) / 2

/-- `binary_seach_file`, with the calls that compare. -/
def binarySeachFileAt (ns : Ns) (fileName : List UInt8) (child : List Ptr) :
    Nat → UInt32 → UInt32 → Option (UInt32 × List Probe)
  | 0, _, _ => none
  | depth + 1, low, high =>
    if high ≤ low then some (low, [])
    else do
      let mid := (high + low) / 2
      let node ← child[mid.toNat]?.bind ns.node
      let i := UInt32.ofInt (strcmp fileName node.name.bytes)
      if i < 0 then
        let (r, probes) ← binarySeachFileAt ns fileName child depth low (mid - 1)
        return (r, ⟨low, high, .left⟩ :: probes)
      else if i = 0 then return (mid, [⟨low, high, .found⟩])
      else
        let (r, probes) ← binarySeachFileAt ns fileName child depth (mid + 1) high
        return (r, ⟨low, high, .right⟩ :: probes)

/-- A call within bounds: it reads between its own, its sum does not wrap, and neither does
the place next to the one it has read, where it goes on from there. -/
structure Probe.Safe (p : Probe) (low high : UInt32) : Prop where
  within : low ≤ p.low ∧ p.high ≤ high
  read : p.low ≤ p.mid ∧ p.mid < p.high
  sum : (p.high + p.low).toNat = p.high.toNat + p.low.toNat
  left : p.turn = .left → (p.mid - 1).toNat + 1 = p.mid.toNat
  right : p.turn = .right → (p.mid + 1).toNat = p.mid.toNat + 1

section Course
variable {ns : Ns} {fileName : List UInt8} {child : List Ptr} {depth : Nat} {low high : UInt32}

/-- The calls are all that it adds. -/
theorem binarySeachFileAt_fst (depth : Nat) (low high : UInt32) :
    (binarySeachFileAt ns fileName child depth low high).map Prod.fst =
      binarySeachFile ns fileName child depth low high := by
  induction depth generalizing low high with
  | zero => rfl
  | succ depth ih =>
    rw [binarySeachFileAt, binarySeachFile]
    split
    · rfl
    · simp only [Option.bind_eq_bind, Option.map_bind]
      congr 1
      funext node
      simp only [Function.comp_apply]
      split
      · rw [← ih]
        cases binarySeachFileAt ns fileName child depth low ((high + low) / 2 - 1) <;> rfl
      · split
        · rfl
        · rw [← ih]
          cases binarySeachFileAt ns fileName child depth ((high + low) / 2 + 1) high <;> rfl

theorem toNat_mid (low high : UInt32) : ((high + low) / 2).toNat = (high.toNat + low.toNat) % 2 ^ 32 / 2 := by
  rw [UInt32.toNat_div, UInt32.toNat_add]
  rfl

/-- The middle is below the upper bound, also when the sum wraps. -/
theorem mid_lt (h : low < high) : ((high + low) / 2).toNat < high.toNat := by
  have hlt := UInt32.lt_iff_toNat_lt.mp h
  have hhigh := high.toNat_lt
  rw [toNat_mid]
  omega

theorem toNat_mid_succ (h : low < high) : ((high + low) / 2 + 1).toNat = ((high + low) / 2).toNat + 1 := by
  have hmid := mid_lt h
  have hhigh := high.toNat_lt
  rw [UInt32.toNat_add]
  exact Nat.mod_eq_of_lt (show ((high + low) / 2).toNat + 1 < 2 ^ 32 by omega)

/-- A call that compares finds the name or turns right. -/
theorem binarySeachFileAt_succ (h : low < high) {node : NsNode}
    (hnode : child[((high + low) / 2).toNat]?.bind ns.node = some node) :
    binarySeachFileAt ns fileName child (depth + 1) low high =
      if UInt32.ofInt (strcmp fileName node.name.bytes) = 0 then some ((high + low) / 2, [⟨low, high, .found⟩])
      else (binarySeachFileAt ns fileName child depth ((high + low) / 2 + 1) high).map fun r =>
        (r.1, ⟨low, high, .right⟩ :: r.2) := by
  have hle : ¬ high ≤ low := by
    rw [UInt32.not_le]
    exact h
  rw [binarySeachFileAt, if_neg hle]
  simp only [hnode, Option.bind_eq_bind, Option.bind_some, UInt32.not_lt_zero, if_false]
  split
  · rfl
  · cases binarySeachFileAt ns fileName child depth ((high + low) / 2 + 1) high <;> rfl

theorem binarySeachFileAt_end (h : high ≤ low) :
    binarySeachFileAt ns fileName child (depth + 1) low high = some (low, []) := by
  rw [binarySeachFileAt, if_pos h]

/-- A call whose sum does not wrap, and that does not turn left, is within bounds. -/
theorem Probe.safe_of_lt (h : low < high) (hsum : high.toNat + low.toNat < 2 ^ 32) {turn : Turn} (hturn : turn ≠ .left) :
    Probe.Safe ⟨low, high, turn⟩ low high := by
  have hlt := UInt32.lt_iff_toNat_lt.mp h
  have hmid := toNat_mid low high
  rw [Nat.mod_eq_of_lt hsum] at hmid
  refine ⟨⟨UInt32.le_refl _, UInt32.le_refl _⟩, ⟨?_, UInt32.lt_iff_toNat_lt.mpr (mid_lt h)⟩, ?_,
    fun hleft => absurd hleft hturn, fun _ => toNat_mid_succ h⟩
  · show low ≤ (high + low) / 2
    rw [UInt32.le_iff_toNat_le, hmid]
    omega
  · rw [UInt32.toNat_add]
    exact Nat.mod_eq_of_lt hsum

theorem Probe.Safe.mono {p : Probe} {low' : UInt32} (h : p.Safe low' high) (hle : low ≤ low') : p.Safe low high :=
  {h with within := ⟨UInt32.le_trans hle h.within.1, h.within.2⟩}

/-- A turn to the right keeps the order of the bounds, and brings them closer. -/
theorem right_within (h : low < high) (hsum : high.toNat + low.toNat < 2 ^ 32) :
    low ≤ (high + low) / 2 + 1 ∧ (high + low) / 2 + 1 ≤ high ∧
      high.toNat - ((high + low) / 2 + 1).toNat < high.toNat - low.toNat := by
  have hmid := mid_lt h
  have hsafe : Probe.Safe ⟨low, high, .found⟩ low high := Probe.safe_of_lt h hsum (by decide)
  have hlow : low ≤ (high + low) / 2 := hsafe.read.1
  rw [UInt32.le_iff_toNat_le] at hlow
  rw [UInt32.le_iff_toNat_le, UInt32.le_iff_toNat_le, toNat_mid_succ h]
  omega

/-- A read within the array finds a node. -/
theorem live_read (hlive : ∀ q ∈ child, ∃ n, ns.node q = some n) {mid : Nat} (hmid : mid < child.length) :
    ∃ node, child[mid]?.bind ns.node = some node := by
  obtain ⟨node, hnode⟩ := hlive child[mid] (List.getElem_mem hmid)
  exact ⟨node, by rw [List.getElem?_eq_getElem hmid, Option.bind_some, hnode]⟩

/-- **The recursion is well bounded**: in an array of up to 2^31 children, sorted or not, it
ends, reads between its bounds, never wraps, and returns an index between them. -/
theorem search_bounded (hlive : ∀ q ∈ child, ∃ n, ns.node q = some n) (hlen : child.length ≤ 2 ^ 31)
    (fileName : List UInt8) (hle : low ≤ high) (hhigh : high.toNat < child.length) :
    ∃ r probes, low ≤ r ∧ r ≤ high ∧ (∀ p ∈ probes, p.Safe low high) ∧
      ∀ depth, high.toNat - low.toNat < depth →
        binarySeachFile ns fileName child depth low high = some r ∧
        binarySeachFileAt ns fileName child depth low high = some (r, probes) := by
  suffices hat : ∃ r probes, low ≤ r ∧ r ≤ high ∧ (∀ p ∈ probes, p.Safe low high) ∧
      ∀ depth, high.toNat - low.toNat < depth →
        binarySeachFileAt ns fileName child depth low high = some (r, probes) by
    obtain ⟨r, probes, hr, hr', hsafe, hat⟩ := hat
    refine ⟨r, probes, hr, hr', hsafe, fun depth hdepth => ⟨?_, hat depth hdepth⟩⟩
    rw [← binarySeachFileAt_fst, hat depth hdepth, Option.map_some]
  -- what lies between the bounds gets less with every turn to the right
  induction hgap : high.toNat - low.toNat using Nat.strongRecOn generalizing low with
  | ind gap ih =>
    by_cases hend : high ≤ low
    · refine ⟨low, [], UInt32.le_refl low, hle, fun p hp => (List.not_mem_nil hp).elim, fun depth hdepth => ?_⟩
      obtain ⟨depth, rfl⟩ := Nat.exists_eq_add_one_of_ne_zero (Nat.ne_zero_of_lt hdepth)
      exact binarySeachFileAt_end hend
    · have hlt : low < high := UInt32.not_le.mp hend
      have hlt' := UInt32.lt_iff_toNat_lt.mp hlt
      have hmid := mid_lt hlt
      have hsum : high.toNat + low.toNat < 2 ^ 32 := by omega
      have hsafe (turn : Turn) (hturn : turn ≠ .left) : Probe.Safe ⟨low, high, turn⟩ low high :=
        Probe.safe_of_lt hlt hsum hturn
      obtain ⟨node, hread⟩ := live_read hlive (show ((high + low) / 2).toNat < child.length by omega)
      by_cases hfound : UInt32.ofInt (strcmp fileName node.name.bytes) = 0
      · refine ⟨(high + low) / 2, [⟨low, high, .found⟩], (hsafe .found (by decide)).read.1,
          UInt32.le_of_lt (UInt32.lt_iff_toNat_lt.mpr hmid), ?_, fun depth hdepth => ?_⟩
        · intro p hp
          obtain rfl := List.mem_singleton.mp hp
          exact hsafe .found (by decide)
        · obtain ⟨depth, rfl⟩ := Nat.exists_eq_add_one_of_ne_zero (Nat.ne_zero_of_lt hdepth)
          rw [binarySeachFileAt_succ hlt hread, if_pos hfound]
      · obtain ⟨hlow, hnext, hless⟩ := right_within hlt hsum
        obtain ⟨r, probes, hr, hr', hprobes, hat⟩ := ih _ (hgap ▸ hless) hnext rfl
        refine ⟨r, ⟨low, high, .right⟩ :: probes, UInt32.le_trans hlow hr, hr', ?_, fun depth hdepth => ?_⟩
        · intro p hp
          obtain rfl | hp := List.mem_cons.mp hp
          · exact hsafe .right (by decide)
          · exact (hprobes p hp).mono hlow
        · obtain ⟨depth, rfl⟩ := Nat.exists_eq_add_one_of_ne_zero (Nat.ne_zero_of_lt hdepth)
          rw [binarySeachFileAt_succ hlt hread, if_neg hfound, hat depth (by omega)]
          rfl

end Course

/-- A namespace with a child of each of these names. -/
def flatNs (names : List CString) : Ns :=
  ⟨fun q => names[q]?.map fun name => ⟨name, 0, 0, 0, 0, 0, [], 0⟩, 0, 0, 0, 0⟩

/-- Three children out of order. -/
theorem search_bounded_three : ∃ (ns : Ns) (child : List Ptr) (r : UInt32) (probes : List Probe),
    child.length = 3 ∧ r ≤ 2 ∧ (∀ p ∈ probes, p.Safe 0 2) ∧
    binarySeachFileAt ns [100] child 3 0 2 = some (r, probes) := by
  let names : List CString := [⟨[99], by decide⟩, ⟨[97], by decide⟩, ⟨[98], by decide⟩]
  have hlive : ∀ q ∈ List.range 3, ∃ n, (flatNs names).node q = some n := by
    intro q hq
    have hlt : q < names.length := List.mem_range.mp hq
    exact ⟨_, congrArg (Option.map _) (List.getElem?_eq_getElem hlt)⟩
  obtain ⟨r, probes, -, hr, hsafe, hat⟩ :=
    search_bounded hlive (by decide) [100] (show (0 : UInt32) ≤ 2 by decide) (by decide)
  exact ⟨flatNs names, List.range 3, r, probes, rfl, hr, hsafe, (hat 3 (by decide)).2⟩

end CacheFs.Namespace
