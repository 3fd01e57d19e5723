import Mathlib.Data.List.Basic

/-! The words that a shell makes of a line.

Quoting and blanks are those of the POSIX shell, for a line without a line feed. A line
with operators, or with a quote that is not closed, is more or less than one simple
command. What is left to the shell's environment, or to the shell, is a parameter: what
becomes of parameters and commands, of patterns and of the homes of users. -/
namespace Shell

/-- A character of a word, and whether it was quoted. -/
structure Piece where
  char : UInt8
  quoted : Bool
  deriving DecidableEq

abbrev Word := List Piece

/-! ### Reading a line -/

inductive Mode where
  | plain
  /-- Behind a backslash. -/
  | escaped
  | single
  | double
  /-- Behind a backslash between double quotes. -/
  | doubleEscaped
  | comment
  /-- The line is not one simple command. -/
  | compound
  /-- There is an expansion in the line. -/
  | expansion
  deriving DecidableEq

structure State where
  mode : Mode
  /-- The words that are complete. -/
  words : List Word
  /-- The word that has begun. -/
  word : Option Word

/-- A character of an operator, the line feed included. -/
def isOperator (c : UInt8) : Bool := c ∈ [124, 38, 59, 60, 62, 40, 41, 10]

/-- What begins a parameter or a command. -/
def isExpansion (c : UInt8) : Bool := c = 36 ∨ c = 96

def isBlank (c : UInt8) : Bool := c = 32 ∨ c = 9

namespace State
variable (s : State)

/-- The word goes on, or begins. -/
def push (c : UInt8) (quoted : Bool) : State := {s with word := some (s.word.getD [] ++ [⟨c, quoted⟩])}

/-- A quote begins a word, if there is none. -/
def quote (mode : Mode) : State := {s with mode := mode, word := some (s.word.getD [])}

def plain (c : UInt8) : State :=
  if c = 92 then {s with mode := .escaped}
  else if c = 39 then s.quote .single
  else if c = 34 then s.quote .double
  else if isExpansion c then {s with mode := .expansion}
  else if isOperator c then {s with mode := .compound}
  else if isBlank c then {s with words := s.words ++ s.word.toList, word := none}
  else if c = 35 ∧ s.word = none then {s with mode := .comment}
  else s.push c false

def step (c : UInt8) : State :=
  match s.mode with
  | .plain => s.plain c
  | .escaped => {s.push c true with mode := .plain}
  | .single => if c = 39 then {s with mode := .plain} else s.push c true
  | .double =>
    if c = 34 then {s with mode := .plain}
    else if isExpansion c then {s with mode := .expansion}
    else if c = 92 then {s with mode := .doubleEscaped}
    else s.push c true
  | .doubleEscaped =>
    -- only before these the backslash is more than itself
    if c = 34 ∨ c = 92 ∨ isExpansion c then {s.push c true with mode := .double}
    else {(s.push 92 true).push c true with mode := .double}
  | .comment | .compound | .expansion => s

def run (line : List UInt8) : State := line.foldl step s

/-- All characters of the words so far. -/
def kept : List UInt8 := ((s.words ++ s.word.toList).flatten).map Piece.char

end State

def start : State := ⟨.plain, [], none⟩

/-! ### Words -/

namespace Word

def text (w : Word) : List UInt8 := w.map Piece.char

/-- Behind a `[`: one character at least, and a `]` before any slash. -/
def closes (w : Word) : Bool :=
  match if w.head? = some ⟨33, false⟩ then w.tail else w with
  | [] => false
  | p :: rest => p.char ≠ 47 && (rest.takeWhile fun p => p.char ≠ 47).contains ⟨93, false⟩

/-- There is a bracket expression in the word. -/
def hasBracket : Word → Bool
  | [] => false
  | p :: rest => p = ⟨91, false⟩ && closes rest || hasBracket rest

/-- The word is a pattern for names of files. -/
def isPattern (w : Word) : Bool := w.contains ⟨42, false⟩ || w.contains ⟨63, false⟩ || hasBracket w

/-- The word begins with a tilde and an unquoted name, for the home of a user. -/
def hasTilde (w : Word) : Bool :=
  w.head? = some ⟨126, false⟩ && (w.takeWhile (· ≠ ⟨47, false⟩)).all fun p => !p.quoted

/-- What becomes of the word is left to the environment. -/
def expands (w : Word) : Bool := isPattern w || hasTilde w

end Word

/-- The words of the simple command that a line is. For a line with expansions they are what the
environment makes of it. -/
def words (env : List UInt8 → Option (List (List UInt8))) (line : List UInt8) : Option (List (List UInt8)) :=
  let s := start.run line
  match s.mode with
  | .plain | .comment =>
    if (s.words ++ s.word.toList).any Word.expands then env line else some ((s.words ++ s.word.toList).map Word.text)
  -- nothing is said of a backslash with nothing behind it
  | .escaped | .expansion => env line
  | .single | .double | .doubleEscaped | .compound => none

/-! ### What a character does -/

/-- A character that has no meaning to the shell within a word. -/
def Ordinary (c : UInt8) : Prop :=
  c ≠ 92 ∧ c ≠ 39 ∧ c ≠ 34 ∧ isExpansion c = false ∧ isOperator c = false ∧ isBlank c = false

instance (c : UInt8) : Decidable (Ordinary c) := inferInstanceAs (Decidable (_ ∧ _))

/-- No quotes are open. -/
def Mode.Unquoted (m : Mode) : Prop := m ≠ .single ∧ m ≠ .double ∧ m ≠ .doubleEscaped

namespace State
variable {s : State} {c : UInt8} {line : List UInt8}

/-- A quote. -/
def isQuote (c : UInt8) : Bool := c = 39 || c = 34

@[simp] theorem run_nil (s : State) : s.run [] = s := rfl

@[simp] theorem run_cons (s : State) (c : UInt8) (line : List UInt8) : s.run (c :: line) = (s.step c).run line := rfl

theorem run_append (s : State) (left right : List UInt8) : s.run (left ++ right) = (s.run left).run right :=
  List.foldl_append

@[simp] theorem kept_push (quoted : Bool) : (s.push c quoted).kept = s.kept ++ [c] := by
  cases hword : s.word <;> simp [kept, push, hword]

@[simp] theorem kept_quote (mode : Mode) : (s.quote mode).kept = s.kept := by
  cases hword : s.word <;> simp [kept, quote, hword]

theorem step_ordinary (hmode : s.mode = .plain) (hc : Ordinary c) (hcomment : c ≠ 35 ∨ s.word ≠ none) :
    s.step c = s.push c false := by
  obtain ⟨hbackslash, hsingle, hdouble, hexpansion, hoperator, hblank⟩ := hc
  have hnot : ¬ (c = 35 ∧ s.word = none) := by
    rintro ⟨hc, hnone⟩
    obtain h | h := hcomment
    · exact h hc
    · exact h hnone
  simp [step, hmode, plain, hbackslash, hsingle, hdouble, hexpansion, hoperator, hblank, hnot]

/-- A backslash, and what it quotes. -/
theorem step_backslash (hmode : s.mode = .plain) : (s.step 92).step c = s.push c true := by
  simp [step, hmode, plain, push]

theorem step_blank (hmode : s.mode = .plain) :
    s.step 32 = {s with words := s.words ++ s.word.toList, word := none} := by
  simp [step, hmode, plain, isExpansion, isOperator, isBlank]

/-- What a character does outside of quotes: one case for each branch of the lexer. -/
theorem step_plain_cases (hmode : s.mode = .plain) (c : UInt8) :
    c = 92 ∧ s.step c = {s with mode := .escaped} ∨
    isQuote c = true ∧ (s.step c).kept = s.kept ∨
    (∃ mode, (mode = .expansion ∨ mode = .compound) ∧ s.step c = {s with mode := mode}) ∨
    isBlank c = true ∧ s.step c = {s with words := s.words ++ s.word.toList, word := none} ∨
    c = 35 ∧ s.step c = {s with mode := .comment} ∨
    Ordinary c ∧ s.step c = s.push c false := by
  have hstep : s.step c = s.plain c := by simp [step, hmode]
  rw [hstep, plain]
  by_cases hbackslash : c = 92
  · rw [if_pos hbackslash]
    exact .inl ⟨hbackslash, rfl⟩
  rw [if_neg hbackslash]
  refine .inr ?_
  by_cases hsingle : c = 39
  · rw [if_pos hsingle, kept_quote]
    exact .inl ⟨by simp [isQuote, hsingle], rfl⟩
  rw [if_neg hsingle]
  by_cases hdouble : c = 34
  · rw [if_pos hdouble, kept_quote]
    exact .inl ⟨by simp [isQuote, hdouble], rfl⟩
  rw [if_neg hdouble]
  refine .inr ?_
  cases hexpansion : isExpansion c with
  | true => exact .inl ⟨_, .inl rfl, if_pos rfl⟩
  | false =>
    rw [if_neg Bool.false_ne_true]
    cases hoperator : isOperator c with
    | true => exact .inl ⟨_, .inr rfl, if_pos rfl⟩
    | false =>
      rw [if_neg Bool.false_ne_true]
      refine .inr ?_
      cases hblank : isBlank c with
      | true => exact .inl ⟨rfl, if_pos rfl⟩
      | false =>
        rw [if_neg Bool.false_ne_true]
        refine .inr ?_
        split
        · exact .inl ⟨‹c = 35 ∧ _›.1, rfl⟩
        · exact .inr ⟨⟨hbackslash, hsingle, hdouble, hexpansion, hoperator, hblank⟩, rfl⟩

/-- Once a line is a comment, or is known not to be plain words, nothing changes. -/
theorem run_ended (h : s.mode = .comment ∨ s.mode = .compound ∨ s.mode = .expansion) (line : List UInt8) :
    s.run line = s := by
  induction line with
  | nil => rfl
  | cons c line ih =>
    have hstep : s.step c = s := by
      obtain h | h | h := h <;> simp [step, h]
    rw [run_cons, hstep, ih]

/-- A character is kept or not; only between double quotes a backslash may be kept with it. -/
theorem kept_step (s : State) (c : UInt8) : (s.step c).kept = s.kept ∨ (s.step c).kept = s.kept ++ [c] ∨
    (s.step c).kept = s.kept ++ [92] ++ [c] := by
  have hmode (s : State) (mode : Mode) : State.kept {s with mode := mode} = s.kept := rfl
  have hblank : State.kept {s with words := s.words ++ s.word.toList, word := none} = s.kept := by simp [kept]
  unfold step plain
  split
  · split_ifs <;> simp [hmode, hblank]
  · simp [hmode]
  · split_ifs <;> simp [hmode]
  · split_ifs <;> simp [hmode]
  · split_ifs <;> simp [hmode]
  all_goals exact .inl rfl

/-- What is kept was there, or is a backslash. -/
theorem mem_kept {s : State} {line : List UInt8} {c : UInt8} (h : c ∈ (s.run line).kept) :
    c ∈ s.kept ∨ c ∈ line ∨ c = 92 := by
  induction line generalizing s with
  | nil => exact .inl h
  | cons d line ih =>
    rw [run_cons] at h
    obtain hstep | hline | hbackslash := ih h
    · obtain hkept | hkept | hkept := kept_step s d <;> rw [hkept] at hstep
      · exact .inl hstep
      · obtain hold | hnew := List.mem_append.mp hstep
        · exact .inl hold
        · exact .inr (.inl (List.mem_cons.mpr (.inl (List.mem_singleton.mp hnew))))
      · simp only [List.mem_append, List.mem_singleton] at hstep
        obtain (hold | hnew) | hnew := hstep
        · exact .inl hold
        · exact .inr (.inr hnew)
        · exact .inr (.inl (List.mem_cons.mpr (.inl hnew)))
    · exact .inr (.inl (List.mem_cons_of_mem d hline))
    · exact .inr (.inr hbackslash)

/-- No more characters of a kind are kept than there were. -/
theorem countP_kept_le (p : UInt8 → Bool) (hp : p 92 = false) (s : State) (line : List UInt8) :
    (s.run line).kept.countP p ≤ s.kept.countP p + line.countP p := by
  induction line generalizing s with
  | nil => exact Nat.le_add_right _ _
  | cons c line ih =>
    have hstep : (s.step c).kept.countP p ≤ s.kept.countP p + [c].countP p := by
      obtain h | h | h := kept_step s c <;> rw [h] <;> simp [List.countP_append, hp]
    have hcons : (c :: line).countP p = [c].countP p + line.countP p := by
      rw [← List.singleton_append, List.countP_append]
    rw [run_cons, hcons]
    have := ih (s.step c)
    omega

/-- Backslashes twice, and blanks. -/
def weight (text : List UInt8) : Nat := 2 * text.count 92 + text.count 32

/-- A backslash that has not been kept or dropped yet. -/
def pending (s : State) : Nat := if s.mode = .escaped then 1 else 0

/-- Without open quotes a character opens some and is lost, or keeps to the balance of backslashes. -/
theorem step_weight (hs : s.mode.Unquoted) (c : UInt8) :
    isQuote c = true ∧ (s.step c).kept = s.kept ∨
      (s.step c).mode.Unquoted ∧ (s.step c).kept.countP isQuote ≤ s.kept.countP isQuote + [c].countP isQuote ∧
        weight (s.step c).kept + (s.step c).pending ≤ weight s.kept + [c].count 92 + s.pending := by
  have hmode (s : State) (mode : Mode) : State.kept {s with mode := mode} = s.kept := rfl
  cases hm : s.mode with
  | single => exact absurd hm hs.1
  | double => exact absurd hm hs.2.1
  | doubleEscaped => exact absurd hm hs.2.2
  | comment | compound | expansion =>
    have hstep : s.step c = s := by simp [step, hm]
    rw [hstep]
    exact .inr ⟨hs, Nat.le_add_right _ _, by omega⟩
  | escaped =>
    have hstep : s.step c = {s.push c true with mode := .plain} := by simp [step, hm]
    rw [hstep, hmode, kept_push]
    refine .inr ⟨by simp [Mode.Unquoted], by simp [List.countP_append], ?_⟩
    simp only [weight, pending, List.count_append, hm, List.count_singleton]
    by_cases hbackslash : c = 92
    · simp [hbackslash]
      omega
    by_cases hblank : c = 32
    · simp [hblank]
      omega
    · simp [hbackslash, hblank]
  | plain =>
    obtain ⟨rfl, hstep⟩ | hquote | ⟨mode, hended, hstep⟩ | ⟨hblank, hstep⟩ | ⟨hcomment, hstep⟩ | ⟨hc, hstep⟩ :=
      step_plain_cases hm c
    · rw [hstep, hmode]
      exact .inr ⟨by simp [Mode.Unquoted], Nat.le_add_right _ _, by simp [pending, hm]⟩
    · exact .inl hquote
    · rw [hstep, hmode]
      refine .inr ⟨?_, Nat.le_add_right _ _, ?_⟩ <;> obtain rfl | rfl := hended <;> simp [Mode.Unquoted, pending, hm]
    · have hkept : State.kept {s with words := s.words ++ s.word.toList, word := none} = s.kept := by simp [kept]
      rw [hstep, hkept]
      exact .inr ⟨by simp [Mode.Unquoted, hm], Nat.le_add_right _ _, by simp [pending, hm]⟩
    · rw [hstep, hmode]
      exact .inr ⟨by simp [Mode.Unquoted], Nat.le_add_right _ _, by simp [pending, hm]⟩
    · have hbackslash : c ≠ 92 := hc.1
      have hspace : c ≠ 32 := by
        rintro rfl
        exact absurd hc (by decide)
      rw [hstep, kept_push]
      exact .inr ⟨by simp [push, Mode.Unquoted, hm], by simp [List.countP_append],
        by simp [weight, pending, push, hm, List.count_append, hbackslash, hspace]⟩

/-- Where no quote is lost, no quotes were opened; then each backslash that is kept needed another,
and so did each blank. -/
theorem weight_kept_le (hs : s.mode.Unquoted) (line : List UInt8) :
    (s.run line).kept.countP isQuote < s.kept.countP isQuote + line.countP isQuote ∨
      weight (s.run line).kept ≤ weight s.kept + line.count 92 + s.pending := by
  induction line generalizing s with
  | nil => exact .inr (by rw [run_nil]; omega)
  | cons c line ih =>
    have hquotes : (c :: line).countP isQuote = [c].countP isQuote + line.countP isQuote := by
      rw [← List.singleton_append, List.countP_append]
    have hcount : (c :: line).count 92 = [c].count 92 + line.count 92 := by
      rw [← List.singleton_append, List.count_append]
    rw [run_cons, hquotes, hcount]
    obtain ⟨hc, hkept⟩ | ⟨hmode, hkept, hweight⟩ := step_weight hs c
    · have hle := countP_kept_le isQuote rfl (s.step c) line
      have hone : [c].countP isQuote = 1 := by simp [hc]
      rw [hkept] at hle
      exact .inl (by omega)
    · obtain hlost | hle := ih hmode
      · exact .inl (by omega)
      · exact .inr (by omega)

end State

/-- The words of a line in every environment. -/
theorem words_eq_some {line : List UInt8} {ws : List (List UInt8)} : (∀ env, words env line = some ws) ↔
    ((start.run line).mode = .plain ∨ (start.run line).mode = .comment) ∧
      (∀ w ∈ (start.run line).words ++ (start.run line).word.toList, w.expands = false) ∧
      ((start.run line).words ++ (start.run line).word.toList).map Word.text = ws := by
  simp only [words]
  generalize start.run line = s
  have hplain : (∀ env : List UInt8 → Option (List (List UInt8)),
      (if (s.words ++ s.word.toList).any Word.expands then env line
        else some ((s.words ++ s.word.toList).map Word.text)) = some ws) ↔
      (∀ w ∈ s.words ++ s.word.toList, w.expands = false) ∧ (s.words ++ s.word.toList).map Word.text = ws := by
    cases hany : (s.words ++ s.word.toList).any Word.expands with
    | true =>
      obtain ⟨w, hw, hexpands⟩ := List.any_eq_true.mp hany
      refine iff_of_false (fun h => ?_) (fun h => ?_)
      · exact absurd (h fun _ => none) (by simp)
      · rw [h.1 w hw] at hexpands
        exact absurd hexpands (by decide)
    | false =>
      have hnone := List.any_eq_false.mp hany
      simp only [Bool.false_eq_true, if_false, Option.some.injEq, forall_const]
      exact ⟨fun h => ⟨fun w hw => by simpa using hnone w hw, h⟩, fun h => h.2⟩
  have hopen : ¬ ∀ env : List UInt8 → Option (List (List UInt8)), env line = some ws := fun h =>
    absurd (h fun _ => none) (by simp)
  cases s.mode with
  | plain => simpa using hplain
  | comment => simpa using hplain
  | escaped => simpa using hopen
  | expansion => simpa using hopen
  | single | double | doubleEscaped | compound => simp

/-- Words that no environment is asked for are the words in every one. -/
theorem words_of_none {line : List UInt8} {ws : List (List UInt8)} (h : words (fun _ => none) line = some ws) :
    ∀ env, words env line = some ws := by
  intro env
  simp only [words] at h ⊢
  generalize start.run line = s at h ⊢
  cases hmode : s.mode with
  | plain | comment =>
    simp only [hmode] at h ⊢
    split at h
    · cases h
    · rename_i hexpands
      rw [if_neg hexpands, h]
  | escaped | expansion | single | double | doubleEscaped | compound =>
    simp only [hmode] at h
    cases h

/-- The characters of the words are the line's, or backslashes. -/
theorem mem_of_words {line : List UInt8} {ws : List (List UInt8)} (h : words (fun _ => none) line = some ws)
    {w : List UInt8} (hw : w ∈ ws) {c : UInt8} (hc : c ∈ w) : c ∈ line ∨ c = 92 := by
  obtain ⟨-, -, rfl⟩ := words_eq_some.mp (words_of_none h)
  obtain ⟨word, hword, rfl⟩ := List.mem_map.mp hw
  obtain ⟨p, hp, rfl⟩ := List.mem_map.mp hc
  have hkept : p.char ∈ (start.run line).kept := List.mem_map.mpr ⟨p, List.mem_flatten.mpr ⟨word, hword, hp⟩, rfl⟩
  exact (State.mem_kept hkept).resolve_left (List.not_mem_nil)

end Shell
