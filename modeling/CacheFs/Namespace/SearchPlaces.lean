import CacheFs.Namespace.BinarySearch

/-! Whether `binary_seach_file` finds and places names.

A search that never turns left looks at the middle of what is to its right until it
meets the name or comes to the last place: the places it looks at depend on nothing but
the number of children (`compared_iff`). The name, or its place, is found just when it is
one of them (`search_correct`). -/
namespace CacheFs.Namespace

/-! ### Names -/

theorem strcmp_bounds (a b : List UInt8) : -255 ≤ strcmp a b ∧ strcmp a b ≤ 255 := by
  induction a generalizing b with
  | nil =>
    cases b with
    | nil => decide
    | cons d b =>
      have := d.toNat_lt
      simp only [strcmp]
      omega
  | cons c a ih =>
    have hc := c.toNat_lt
    cases b with
    | nil =>
      simp only [strcmp]
      omega
    | cons d b =>
      have hd := d.toNat_lt
      rw [strcmp]
      split
      · exact ih b
      · omega

theorem strcmp_eq_zero {a b : CString} : strcmp a.bytes b.bytes = 0 ↔ a = b := by
  obtain ⟨a, ha⟩ := a
  obtain ⟨b, hb⟩ := b
  rw [CString.mk.injEq]
  induction a generalizing b with
  | nil =>
    cases b with
    | nil => simp [strcmp]
    | cons d b =>
      have hd : d ≠ 0 := fun h => hb (h ▸ List.mem_cons_self)
      have : d.toNat ≠ 0 := fun h => hd (UInt8.toNat_inj.mp h)
      simp [strcmp, this]
  | cons c a ih =>
    obtain ⟨hc, ha⟩ := not_or.mp (List.mem_cons.not.mp ha)
    cases b with
    | nil =>
      have : c.toNat ≠ 0 := fun h => hc (UInt8.toNat_inj.mp h).symm
      simp [strcmp, this]
    | cons d b =>
      obtain ⟨-, hb⟩ := not_or.mp (List.mem_cons.not.mp hb)
      rw [strcmp, List.cons.injEq]
      split
      · rename_i hcd
        rw [ih ha b hb, and_iff_right hcd]
      · rename_i hcd
        have : c.toNat ≠ d.toNat := fun h => hcd (UInt8.toNat_inj.mp h)
        simp only [hcd, false_and, iff_false]
        omega

/-- Nothing is lost of the result of `strcmp` in the `u32`. -/
theorem ofInt_strcmp {a b : CString} : UInt32.ofInt (strcmp a.bytes b.bytes) = 0 ↔ a = b := by
  have hbounds := strcmp_bounds a.bytes b.bytes
  rw [← strcmp_eq_zero, ← UInt32.toNat_inj, UInt32.ofInt]
  have hmod : (strcmp a.bytes b.bytes % 2 ^ 32).toNat < 2 ^ 32 := by omega
  rw [UInt32.toNat_ofNat', Nat.mod_eq_of_lt hmod]
  show (strcmp a.bytes b.bytes % 2 ^ 32).toNat = 0 ↔ _
  omega

/-- The children have these names. -/
def Named (ns : Ns) (child : List Ptr) (names : List CString) : Prop :=
  child.map (fun q => (ns.node q).map NsNode.name) = names.map some

/-- The name may be inserted there: it is missing, and the names are in strict order with it. -/
def Belongs (names : List CString) (name : CString) (i : Nat) : Prop :=
  name ∉ names ∧ i ≤ names.length ∧ (names.insertIdx i name).Pairwise fun a b => strcmp a.bytes b.bytes < 0

/-- The search returns the index of the name, or the one it may be inserted at. -/
def SearchCorrect (ns : Ns) (child : List Ptr) (names : List CString) (name : CString) (low high : UInt32) : Prop :=
  ∃ depth i, binarySeachFile ns name.bytes child depth low high = some i ∧
    (names[i.toNat]? = some name ∨ Belongs names name i.toNat)

/-! ### The places that are compared -/

/-- The lower bounds of a search from 0 that only turns right. -/
inductive Reaches (high : UInt32) : UInt32 → Prop where
  | start : Reaches high 0
  | right {low} : Reaches high low → low < high → Reaches high ((high + low) / 2 + 1)

/-- The places where such a search compares. -/
def Compared (high mid : UInt32) : Prop := ∃ low, Reaches high low ∧ low < high ∧ mid = (high + low) / 2

section Search
variable {ns : Ns} {child : List Ptr} {names : List CString} {name : CString} {depth : Nat} {low high i : UInt32}

theorem Named.read (h : Named ns child names) {j : Nat} (hj : j < names.length) :
    ∃ node, child[j]?.bind ns.node = some node ∧ names[j]? = some node.name := by
  have hget := congrArg (·[j]?) h
  simp only [List.getElem?_map, List.getElem?_eq_getElem hj, Option.map_some] at hget
  obtain ⟨q, hq, hname⟩ := Option.map_eq_some_iff.mp hget
  obtain ⟨node, hnode, hname⟩ := Option.map_eq_some_iff.mp hname
  exact ⟨node, by rw [hq, Option.bind_some, hnode], by rw [List.getElem?_eq_getElem hj, hname]⟩

/-- A call finds the name where it compares, or goes on to the right. -/
theorem Named.search_succ (h : Named ns child names) (name : CString) (depth : Nat) (hlt : low < high)
    (hhigh : high.toNat < names.length) :
    binarySeachFile ns name.bytes child (depth + 1) low high =
      if names[((high + low) / 2).toNat]? = some name then some ((high + low) / 2)
      else binarySeachFile ns name.bytes child depth ((high + low) / 2 + 1) high := by
  have hmid := mid_lt hlt
  obtain ⟨node, hread, hname⟩ := h.read (show ((high + low) / 2).toNat < names.length by omega)
  have hfound : names[((high + low) / 2).toNat]? = some name ↔ UInt32.ofInt (strcmp name.bytes node.name.bytes) = 0 := by
    rw [ofInt_strcmp, hname, Option.some.injEq, eq_comm]
  rw [← binarySeachFileAt_fst, binarySeachFileAt_succ hlt hread, ← binarySeachFileAt_fst]
  simp only [hfound]
  split
  · rfl
  · rw [Option.map_map]
    rfl

theorem search_end (h : high ≤ low) : binarySeachFile ns name.bytes child (depth + 1) low high = some low := by
  rw [binarySeachFile, if_pos h]

theorem Reaches.le (h : Reaches high low) : low ≤ high := by
  induction h with
  | start => exact UInt32.zero_le
  | right _ hlt _ =>
    rw [UInt32.le_iff_toNat_le, toNat_mid_succ hlt]
    exact mid_lt hlt

/-- From each lower bound the search goes on as it does from 0, unless it has found the name. -/
theorem Named.follow (h : Named ns child names) (name : CString) (hhigh : high.toNat < names.length)
    (hreach : Reaches high low) :
    (∃ depth i, binarySeachFile ns name.bytes child depth 0 high = some i ∧ names[i.toNat]? = some name) ∨
    ∃ k, ∀ depth, binarySeachFile ns name.bytes child (depth + k) 0 high =
      binarySeachFile ns name.bytes child depth low high := by
  induction hreach with
  | start => exact .inr ⟨0, fun _ => rfl⟩
  | @right low _ hlt ih =>
    obtain hfound | ⟨k, hk⟩ := ih
    · exact .inl hfound
    · have hstep := fun depth => h.search_succ name depth hlt hhigh
      by_cases hname : names[((high + low) / 2).toNat]? = some name
      · refine .inl ⟨1 + k, (high + low) / 2, ?_, hname⟩
        rw [hk, hstep, if_pos hname]
      · refine .inr ⟨k + 1, fun depth => ?_⟩
        rw [Nat.add_comm k, ← Nat.add_assoc, hk, hstep, if_neg hname]

/-- What a search returns is a place that it compares, with the name, or the upper bound. -/
theorem Named.returns (h : Named ns child names) (hhigh : high.toNat < names.length) (hreach : Reaches high low)
    (hsearch : binarySeachFile ns name.bytes child depth low high = some i) :
    (Compared high i ∧ names[i.toNat]? = some name) ∨ (i = high ∧ Reaches high high) := by
  induction depth generalizing low with
  | zero => cases hsearch
  | succ depth ih =>
    by_cases hend : high ≤ low
    · rw [search_end hend] at hsearch
      cases hsearch
      have heq := UInt32.le_antisymm hreach.le hend
      exact .inr ⟨heq, heq ▸ hreach⟩
    · have hlt : low < high := UInt32.not_le.mp hend
      rw [h.search_succ name depth hlt hhigh] at hsearch
      split at hsearch
      · rename_i hname
        cases hsearch
        exact .inl ⟨⟨low, hreach, hlt, rfl⟩, hname⟩
      · exact ih (hreach.right hlt) hsearch

/-- A search is correct just when the name is at a place that it compares, or it comes to the
upper bound, and that is the place of the name. -/
theorem Named.correct_iff (h : Named ns child names) (name : CString) (hhigh : high.toNat < names.length) :
    SearchCorrect ns child names name 0 high ↔ (∃ mid, Compared high mid ∧ names[mid.toNat]? = some name) ∨
      (Reaches high high ∧ (names[high.toNat]? = some name ∨ Belongs names name high.toNat)) := by
  constructor
  · intro hcorrect
    obtain ⟨depth, i, hsearch, hi⟩ := hcorrect
    obtain ⟨hcompared, hname⟩ | ⟨rfl, hreach⟩ := h.returns hhigh .start hsearch
    · exact .inl ⟨i, hcompared, hname⟩
    · exact .inr ⟨hreach, hi⟩
  · intro hcond
    obtain ⟨_, ⟨low, hreach, hlt, rfl⟩, hname⟩ | ⟨hreach, hplace⟩ := hcond
    · obtain ⟨depth, i, hsearch, hi⟩ | ⟨k, hk⟩ := h.follow name hhigh hreach
      · exact ⟨depth, i, hsearch, .inl hi⟩
      · exact ⟨1 + k, _, by rw [hk, h.search_succ name 0 hlt hhigh, if_pos hname], .inl hname⟩
    · obtain ⟨depth, i, hsearch, hi⟩ | ⟨k, hk⟩ := h.follow name hhigh hreach
      · exact ⟨depth, i, hsearch, .inl hi⟩
      · exact ⟨1 + k, high, by rw [hk, search_end (UInt32.le_refl high)], hplace⟩

end Search

/-! ### Where they are -/

section Places
variable {high low mid : UInt32} {n : Nat}

theorem div_two_pow_succ (n k : Nat) : n / 2 ^ (k + 1) = n / 2 ^ k / 2 := by rw [Nat.pow_succ, Nat.div_div_eq_div_mul]

/-- While a half of it is left, n less its part is a lower bound that may be compared from. -/
theorem lower_bound (hn : high.toNat + 1 = n) (k : Nat) (hpos : 0 < n / 2 ^ k / 2) :
    (UInt32.ofNat (n - n / 2 ^ k)).toNat = n - n / 2 ^ k ∧ UInt32.ofNat (n - n / 2 ^ k) < high := by
  have hle := Nat.div_le_self n (2 ^ k)
  have hhigh := high.toNat_lt
  have hlow : (UInt32.ofNat (n - n / 2 ^ k)).toNat = n - n / 2 ^ k := by
    rw [UInt32.toNat_ofNat', Nat.mod_eq_of_lt (by omega)]
  refine ⟨hlow, ?_⟩
  rw [UInt32.lt_iff_toNat_lt, hlow]
  omega

/-- In an array of n children the lower bounds are n less its halves, its quarters, and so on. -/
theorem reaches_iff (hn : high.toNat + 1 = n) (hlen : n ≤ 2 ^ 31 + 1) :
    Reaches high low ↔ ∃ k, 0 < n / 2 ^ k ∧ low.toNat = n - n / 2 ^ k := by
  have hstep {low : UInt32} {k : Nat} (hlt : low < high) (hlow : low.toNat = n - n / 2 ^ k) :
      ((high + low) / 2 + 1).toNat = n - n / 2 ^ (k + 1) := by
    have hlt' := UInt32.lt_iff_toNat_lt.mp hlt
    have hle := Nat.div_le_self n (2 ^ k)
    rw [toNat_mid_succ hlt, toNat_mid, Nat.mod_eq_of_lt (by omega), div_two_pow_succ]
    omega
  constructor
  · intro h
    induction h with
    | start => exact ⟨0, by simp [← hn], by simp⟩
    | right _ hlt ih =>
      obtain ⟨k, hpos, hlow⟩ := ih
      refine ⟨k + 1, ?_, hstep hlt hlow⟩
      rw [UInt32.lt_iff_toNat_lt] at hlt
      rw [div_two_pow_succ]
      omega
  · intro h
    obtain ⟨k, hpos, hlow⟩ := h
    induction k generalizing low with
    | zero =>
      have : low = 0 := UInt32.toNat_inj.mp (by simpa using hlow)
      rw [this]
      exact .start
    | succ k ih =>
      rw [div_two_pow_succ] at hpos
      obtain ⟨hbefore, hlt⟩ := lower_bound hn k hpos
      have hreach := (ih (by omega) hbefore).right hlt
      rwa [UInt32.toNat_inj.mp ((hstep hlt hbefore).trans hlow.symm)] at hreach

/-- The places that are compared are the last less the halves, the quarters, and so on. -/
theorem compared_iff (hn : high.toNat + 1 = n) (hlen : n ≤ 2 ^ 31 + 1) :
    Compared high mid ↔ ∃ k, 0 < n / 2 ^ (k + 1) ∧ mid.toNat = n - 1 - n / 2 ^ (k + 1) := by
  have hstep {low : UInt32} {k : Nat} (hlt : low < high) (hlow : low.toNat = n - n / 2 ^ k) :
      0 < n / 2 ^ (k + 1) ∧ ((high + low) / 2).toNat = n - 1 - n / 2 ^ (k + 1) := by
    have hlt' := UInt32.lt_iff_toNat_lt.mp hlt
    have hle := Nat.div_le_self n (2 ^ k)
    rw [toNat_mid, Nat.mod_eq_of_lt (by omega), div_two_pow_succ]
    omega
  constructor
  · intro h
    obtain ⟨low, hreach, hlt, rfl⟩ := h
    obtain ⟨k, -, hlow⟩ := (reaches_iff hn hlen).mp hreach
    exact ⟨k, hstep hlt hlow⟩
  · intro h
    obtain ⟨k, hpos, hmid⟩ := h
    rw [div_two_pow_succ] at hpos
    obtain ⟨hbefore, hlt⟩ := lower_bound hn k hpos
    have hreach := (reaches_iff hn hlen).mpr ⟨k, by omega, hbefore⟩
    exact ⟨_, hreach, hlt, UInt32.toNat_inj.mp (hmid.trans (hstep hlt hbefore).2.symm)⟩

/-- A search that does not wrap comes to the last place. -/
theorem reaches_last (hn : high.toNat + 1 = n) (hlen : n ≤ 2 ^ 31 + 1) : Reaches high high := by
  refine (reaches_iff hn hlen).mpr ⟨Nat.log2 n, ?_, ?_⟩
  · exact Nat.div_pos (Nat.log2_self_le (by omega)) (Nat.two_pow_pos _)
  · have hlow := Nat.log2_self_le (n := n) (by omega)
    have hhigh := Nat.lt_log2_self (n := n)
    have hone : n / 2 ^ n.log2 = 1 := by
      rw [Nat.div_eq_iff (Nat.two_pow_pos _)]
      rw [Nat.pow_succ] at hhigh
      omega
    omega

/-- In a longer array a sum wraps before that. -/
theorem not_reaches_last (hlen : 2 ^ 31 + 1 < high.toNat + 1) : ¬ Reaches high high := by
  suffices hne : ∀ low, Reaches high low → low ≠ high from fun h => hne high h rfl
  intro low h hlast
  have heq := congrArg UInt32.toNat hlast
  cases h with
  | start =>
    rw [← heq] at hlen
    exact absurd hlen (by decide)
  | right _ hlt =>
    have hhigh := high.toNat_lt
    have hlt' := UInt32.lt_iff_toNat_lt.mp hlt
    rw [toNat_mid_succ hlt, toNat_mid] at heq
    omega

end Places

section Correct
variable {ns : Ns} {child : List Ptr} {names : List CString}

theorem last_succ {n : UInt32} (hpos : 0 < n) : (n - 1).toNat + 1 = n.toNat := by
  have hone : (1 : UInt32) ≤ n := by
    rw [UInt32.lt_iff_toNat_lt] at hpos
    exact UInt32.le_iff_toNat_le.mpr hpos
  rw [UInt32.toNat_sub_of_le _ _ hone]
  exact Nat.sub_add_cancel (UInt32.le_iff_toNat_le.mp hone)

/-- With few enough children the places that are compared follow from their number. -/
theorem Named.correct_iff_few {n : UInt32} (hnamed : Named ns child names) (hlen : names.length = n.toNat) (hpos : 0 < n)
    (hfew : n.toNat ≤ 2 ^ 31 + 1) (name : CString) : SearchCorrect ns child names name 0 (n - 1) ↔
      (∃ k, names[n.toNat - 1 - n.toNat / 2 ^ (k + 1)]? = some name) ∨ Belongs names name (n.toNat - 1) := by
  have hlast := last_succ hpos
  have hsub : (n - 1).toNat = n.toNat - 1 := by omega
  rw [hnamed.correct_iff name (show (n - 1).toNat < names.length by omega), hsub, and_iff_right (reaches_last hlast hfew)]
  constructor
  · intro h
    obtain ⟨mid, hmid, hname⟩ | hname | hbelongs := h
    · obtain ⟨k, -, hk⟩ := (compared_iff hlast hfew).mp hmid
      exact .inl ⟨k, hk ▸ hname⟩
    · have hzero : n.toNat / 2 ^ (n.toNat + 1) = 0 :=
        Nat.div_eq_of_lt (Nat.lt_of_succ_lt Nat.lt_two_pow_self)
      exact .inl ⟨n.toNat, by rwa [hzero]⟩
    · exact .inr hbelongs
  · intro h
    obtain ⟨k, hname⟩ | hbelongs := h
    · by_cases hzero : n.toNat / 2 ^ (k + 1) = 0
      · rw [hzero] at hname
        exact .inr (.inl hname)
      · have hmid : (UInt32.ofNat (n.toNat - 1 - n.toNat / 2 ^ (k + 1))).toNat =
            n.toNat - 1 - n.toNat / 2 ^ (k + 1) := by
          have hlt := n.toNat_lt
          rw [UInt32.toNat_ofNat', Nat.mod_eq_of_lt]
          exact Nat.lt_of_le_of_lt (Nat.le_trans (Nat.sub_le _ _) (Nat.sub_le _ _)) hlt
        exact .inl ⟨_, (compared_iff hlast hfew).mpr ⟨k, Nat.pos_of_ne_zero hzero, hmid⟩, by rwa [hmid]⟩
    · exact .inr (.inr hbelongs)

/-- With more the last of them is not reached. -/
theorem Named.correct_iff_many {n : UInt32} (hnamed : Named ns child names) (hlen : names.length = n.toNat)
    (hpos : 0 < n) (hmany : 2 ^ 31 + 1 < n.toNat) (name : CString) : SearchCorrect ns child names name 0 (n - 1) ↔
      ∃ mid, Compared (n - 1) mid ∧ names[mid.toNat]? = some name := by
  have hlast := last_succ hpos
  rw [hnamed.correct_iff name (show (n - 1).toNat < names.length by omega)]
  simp only [not_reaches_last (show 2 ^ 31 + 1 < (n - 1).toNat + 1 by omega), false_and, or_false]

/-- **The search finds and places names** just when the name is at a place that is n - 1 less n
halved so many times, or is missing and belongs before the last child. With more than
2^31 + 1 children it does just when the name is at a place that is compared. -/
theorem search_correct {n : UInt32} (hnamed : Named ns child names) (hlen : names.length = n.toNat) (hpos : 0 < n)
    (name : CString) :
    (n.toNat ≤ 2 ^ 31 + 1 → (SearchCorrect ns child names name 0 (n - 1) ↔
      (∃ k, names[n.toNat - 1 - n.toNat / 2 ^ (k + 1)]? = some name) ∨ Belongs names name (n.toNat - 1))) ∧
    (2 ^ 31 + 1 < n.toNat → (SearchCorrect ns child names name 0 (n - 1) ↔
      ∃ mid, Compared (n - 1) mid ∧ names[mid.toNat]? = some name)) :=
  ⟨fun hfew => hnamed.correct_iff_few hlen hpos hfew name, fun hmany => hnamed.correct_iff_many hlen hpos hmany name⟩

theorem flatNs_named (names : List CString) : Named (flatNs names) (List.range names.length) names := by
  refine List.ext_getElem? fun j => ?_
  by_cases hj : j < names.length
  · simp [flatNs, hj]
  · simp [hj]

/-- Of the children `a`, `b` and `c` the search for `a` returns 2, and so does that for `d`. -/
theorem search_incorrect : ∃ (ns : Ns) (child : List Ptr) (names : List CString) (name name' : CString),
    Named ns child names ∧ names.Pairwise (fun a b => strcmp a.bytes b.bytes < 0) ∧ names[0]? = some name ∧
    name' ∉ names ∧ (names ++ [name']).Pairwise (fun a b => strcmp a.bytes b.bytes < 0) ∧
    binarySeachFile ns name.bytes child 2 0 2 = some 2 ∧ ¬ SearchCorrect ns child names name 0 2 ∧
    binarySeachFile ns name'.bytes child 2 0 2 = some 2 ∧ ¬ SearchCorrect ns child names name' 0 2 := by
  let names : List CString := [⟨[97], by decide⟩, ⟨[98], by decide⟩, ⟨[99], by decide⟩]
  have hcorrect (name : CString) := (flatNs_named names).correct_iff_few
    (show names.length = (3 : UInt32).toNat from rfl) (by decide) (by decide) name
  -- the places that are compared are 1 and 2
  have hplace (k : Nat) : 3 - 1 - 3 / 2 ^ (k + 1) = 1 ∨ 3 - 1 - 3 / 2 ^ (k + 1) = 2 := by
    have hle : 3 / 2 ^ (k + 1) ≤ 3 / 2 := Nat.div_le_div_left (Nat.le_self_pow (Nat.succ_ne_zero k) 2) (by decide)
    generalize 3 / 2 ^ (k + 1) = q at hle ⊢
    omega
  have hincorrect (name : CString) (hone : names[1]? ≠ some name) (htwo : names[2]? ≠ some name)
      (hbelongs : ¬ Belongs names name 2) : ¬ SearchCorrect (flatNs names) (List.range 3) names name 0 2 := by
    intro h
    obtain ⟨k, hk⟩ | h := (hcorrect name).mp h
    · obtain hplace | hplace := hplace k
      · exact hone (hplace ▸ hk)
      · exact htwo (hplace ▸ hk)
    · exact hbelongs h
  refine ⟨flatNs names, List.range 3, names, ⟨[97], by decide⟩, ⟨[100], by decide⟩, flatNs_named names, by decide,
    by decide, by decide, by decide, by decide, hincorrect _ (by decide) (by decide) ?_, by decide,
    hincorrect _ (by decide) (by decide) ?_⟩
  · exact fun h => absurd h.1 (by decide)
  · exact fun h => absurd h.2.2 (by decide)

/-- The middle one of three children is found. -/
theorem search_correct_middle : ∃ (ns : Ns) (child : List Ptr) (names : List CString) (name : CString),
    Named ns child names ∧ names.length = 3 ∧ names[1]? = some name ∧ SearchCorrect ns child names name 0 2 := by
  let names : List CString := [⟨[97], by decide⟩, ⟨[98], by decide⟩, ⟨[99], by decide⟩]
  refine ⟨flatNs names, List.range 3, names, ⟨[98], by decide⟩, flatNs_named names, rfl, by decide, ?_⟩
  have hcorrect := search_correct (flatNs_named names) (show names.length = (3 : UInt32).toNat from rfl) (by decide)
  exact ((hcorrect _).1 (by decide)).mpr (.inl ⟨0, by decide⟩)

end Correct

end CacheFs.Namespace
