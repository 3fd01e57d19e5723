import CacheFs.Library.Members
import CacheFs.Queue.Databases
import CacheFs.Queue.Requests

/-! Clients that queue for a file, on the databases.

Here the clients take turns at every call to Tokyo Tyrant: between the calls of one function
of `tt_func.c` there may be those of any other client. What the databases and the clients
come to is what they come to with a store that serves a call at once, both ways
(`atomic_on_databases`). The records have to fit their structures, which the functions see to
if the file name and the new nodes do. -/
namespace CacheFs.Queue
open Interaction Members Transition

/-! ### What the functions put fits -/

/-- A name of characters of C strings. -/
def Filename.Plain (f : Filename) : Prop := ∀ c ∈ f.chars, Layout.Plain c

structure Store.Fits (s : Store) : Prop where
  md : ∀ k m, s.md k = some m → m.Fits
  ion : ∀ k n, s.ion k = some n → n.Fits

def AnswerFits : (c : Call) → Answer c → Prop
  | .mdGet _, a => ∀ m, a = some m → m.Fits
  | .ionGet _, a => ∀ n, a = some n → n.Fits
  | .iodGet _, _ => True
  | .mdPut _ _, _ | .mdOut _, _ | .ionPut _ _, _ | .iodPut _ _, _ => True

/-- The request's new node, if it makes one, has a string in its `ion_next`. -/
def Request.Fits (r : Request) : Prop :=
  match r.out with
  | .read => True
  | .write _ _ _ ionNext => KeyFits ionNext

section Fits
variable {f : Filename} {m : MetaData} {s : Store}

theorem toDigits_plain (n : Nat) : ∀ c ∈ Nat.toDigits 10 n, Layout.Plain c := by
  intro c hc
  have hdigit := Nat.isDigit_of_mem_toDigits (by decide) (by decide) hc
  simp only [Char.isDigit, Bool.and_eq_true, decide_eq_true_eq, ge_iff_le, UInt32.le_iff_toNat_le] at hdigit
  exact ⟨Nat.lt_of_lt_of_le (by decide) hdigit.1, Nat.lt_of_le_of_lt hdigit.2 (by decide)⟩

theorem decimal_plain (t : Int64) : ∀ c ∈ decimal t, Layout.Plain c := by
  rw [decimal]
  split
  · exact List.forall_mem_cons.mpr ⟨by decide, toDigits_plain _⟩
  · exact toDigits_plain _

theorem keyFits_nil : KeyFits [] := ⟨by decide, nofun⟩

theorem ionKey_keyFits (hf : f.Plain) {t : Int64} (hlength : (ionKey f t).length < ioNodeKeyLen) :
    KeyFits (ionKey f t) := by
  refine ⟨hlength, fun c hc => ?_⟩
  obtain hc | hc := List.mem_append.mp hc
  · exact hf c hc
  · obtain rfl | hc := List.mem_cons.mp hc
    · decide
    · exact decimal_plain t c hc

theorem MetaData.Fits.withQueue (hm : m.Fits) (q : IoQ) (t : Int64) : ({m with ioq := q, stAtime := t} : MetaData).Fits :=
  ⟨hm.myRep, hm.head, hm.tail⟩

theorem MetaData.Fits.logged (hm : m.Fits) {path : Key} (hpath : KeyFits path) : (m.logged path).Fits := by
  rw [MetaData.logged]
  split
  · refine ⟨fun i => ?_, hpath, hpath⟩
    show Replica.Fits (if _ then _ else _)
    split
    · exact ⟨(hm.myRep i).1, hpath⟩
    · exact hm.myRep i
  · exact ⟨hm.myRep, hm.head, hpath⟩

theorem waitHead_makes {ioType : IoType} {t : Int64} (polls : Nat) :
    (waitHead f ioType t polls).Makes CallFits AnswerFits := by
  induction polls with
  | zero => trivial
  | succ polls ih =>
    refine ⟨trivial, fun a _ => ?_⟩
    cases a with
    | none => trivial
    | some m =>
      show Prog.Makes (I := tt) CallFits AnswerFits (if _ then _ else _)
      split
      · trivial
      · exact ih

theorem queueInWait_makes {ioType : IoType} {t : Int64} (polls : Nat) :
    (queueInWait f ioType t polls).Makes CallFits AnswerFits := by
  refine ⟨trivial, fun a ha => ?_⟩
  cases a with
  | none => trivial
  | some m =>
    refine ⟨(ha m rfl).withQueue _ m.stAtime, fun done _ => ?_⟩
    cases done with
    | false => trivial
    | true => exact waitHead_makes polls

theorem Request.wait_makes (r : Request) (polls : Nat) : (r.wait f polls).Makes CallFits AnswerFits :=
  waitHead_makes polls

theorem readQueueOut_makes {t : Int64} : (readQueueOut f t).Makes CallFits AnswerFits := by
  refine ⟨trivial, fun a ha => ?_⟩
  cases a with
  | none => trivial
  | some m => exact ⟨(ha m rfl).withQueue _ t, fun done _ => by cases done <;> trivial⟩

theorem linkTail_makes {tail path : Key} (hpath : KeyFits path) : (linkTail tail path).Makes CallFits AnswerFits := by
  rw [linkTail]
  split
  · refine ⟨trivial, fun a ha => ?_⟩
    cases a with
    | none => trivial
    | some node => exact ⟨⟨(ha node rfl).1, hpath⟩, fun _ _ => trivial⟩
  · trivial

theorem writeUnder_makes {path : Key} (hpath : KeyFits path) {ioType : IoType} {t : Int64} {offset : UInt64}
    {data : List UInt8} {size : UInt64} {ionNext : Key} (hnext : KeyFits ionNext) :
    (writeUnder path f ioType t offset data size ionNext).Makes CallFits AnswerFits := by
  refine ⟨trivial, fun a ha => ?_⟩
  cases a with
  | none => trivial
  | some m =>
    have hm := ha m rfl
    refine ⟨⟨hm.tail, hnext⟩, fun done _ => ?_⟩
    cases done with
    | false => trivial
    | true =>
      refine (linkTail_makes hpath).bind fun linked => ?_
      cases linked with
      | false => trivial
      | true =>
        refine ⟨(hm.withQueue _ m.stAtime).logged hpath, fun done _ => ?_⟩
        cases done with
        | false => trivial
        | true =>
          show (putData path data size.toUInt32).Makes CallFits AnswerFits
          unfold putData
          split
          · exact ⟨trivial, fun done _ => by cases done <;> trivial⟩
          · trivial

theorem writeQueueOut_makes (hf : f.Plain) {ioType : IoType} {t : Int64} {offset : UInt64} {data : List UInt8}
    {size : UInt64} {ionNext : Key} (hnext : KeyFits ionNext) :
    (writeQueueOut f ioType t offset data size ionNext).Makes CallFits AnswerFits := by
  unfold writeQueueOut
  split
  · rename_i hlength
    exact writeUnder_makes (ionKey_keyFits hf hlength) hnext
  · trivial

theorem Request.leave_makes (hf : f.Plain) {r : Request} (hr : r.Fits) : (r.leave f).Makes CallFits AnswerFits := by
  rw [Request.Fits] at hr
  rw [Request.leave]
  cases hout : r.out with
  | read => exact readQueueOut_makes.bind fun _ => trivial
  | write offset data size ionNext =>
    rw [hout] at hr
    exact writeQueueOut_makes hf hr

/-- What is got of records that fit does, and they still do after what fits is put. -/
theorem serve_fits {c : Call} (hc : CallFits c) (hs : s.Fits) (fails : Bool) :
    AnswerFits c (serve c fails s).1 ∧ (serve c fails s).2.Fits := by
  have hupdate {α : Type} {P : α → Prop} {g : Key → Option α} {k j : Key} {o : Option α} {x : α}
      (ho : ∀ x, o = some x → P x) (hg : ∀ j x, g j = some x → P x) (h : Function.update g k o j = some x) : P x := by
    by_cases hj : j = k
    · subst hj
      exact ho x (by rwa [Function.update_self] at h)
    · exact hg j x (by rwa [Function.update_of_ne hj] at h)
  cases c with
  | mdGet f =>
    refine ⟨fun m hm => ?_, hs⟩
    cases fails
    · exact hs.md f m hm
    · cases hm
  | ionGet k =>
    refine ⟨fun node hnode => ?_, hs⟩
    cases fails
    · exact hs.ion k node hnode
    · cases hnode
  | iodGet k => exact ⟨trivial, hs⟩
  | mdPut f m =>
    cases fails
    · exact ⟨trivial, fun j x h => hupdate (fun m' hm' => Option.some.inj hm' ▸ hc) hs.md h, hs.ion⟩
    · exact ⟨trivial, hs⟩
  | ionPut k node =>
    cases fails
    · exact ⟨trivial, hs.md, fun j x h => hupdate (fun n' hn' => Option.some.inj hn' ▸ hc) hs.ion h⟩
    · exact ⟨trivial, hs⟩
  | iodPut k value =>
    cases fails
    · exact ⟨trivial, hs.md, hs.ion⟩
    · exact ⟨trivial, hs⟩
  | mdOut f =>
    refine ⟨trivial, ?_⟩
    rw [serve]
    split
    · exact hs
    · exact ⟨fun j x h => hupdate (fun m hm => absurd hm (Option.some_ne_none m).symm) hs.md h, hs.ion⟩

end Fits

/-! ### The machine -/

inductive RdbStage where
  | entering (prog : Prog tcrdb (Option UInt32))
  | leaving (prog : Prog tcrdb Exit)

/-- The client's next call, failing or not. -/
def RdbStage.turn (fails : Bool) (t : Databases) : RdbStage → Option (RdbStage × Databases)
  | .entering (.call call k) => some (.entering (k (serveRdb call fails t).1), (serveRdb call fails t).2)
  | .leaving (.call call k) => some (.leaving (k (serveRdb call fails t).1), (serveRdb call fails t).2)
  | .entering (.ret _) | .leaving (.ret _) => none

structure RdbClient where
  request : Request
  stage : RdbStage

structure RdbState where
  databases : Databases
  clients : List RdbClient

/-- The moves of the clients, which have their own structures in memory each time. -/
inductive RdbMove where
  | request (r : Request) (polls : Nat) (buffers : Buffers)
  | call (i : Nat) (fails : Bool)
  | wait (i : Nat) (polls : Nat) (buffers : Buffers)
  | leave (i : Nat) (buffers : Buffers)

def RdbState.next (f : Filename) (s : RdbState) : RdbMove → Option RdbState
  | .request r polls buffers =>
    some {s with clients := s.clients ++ [⟨r, .entering ((r.enter f polls).through (ttFunc buffers))⟩]}
  | .call i fails => do
    let c ← s.clients[i]?
    let (stage, databases) ← c.stage.turn fails s.databases
    some ⟨databases, s.clients.set i {c with stage}⟩
  | .wait i polls buffers => do
    let c ← s.clients[i]?
    match c.stage with
    | .entering (.ret none) =>
      let stage := .entering ((c.request.wait f polls).through (ttFunc buffers))
      some {s with clients := s.clients.set i {c with stage}}
    | _ => none
  | .leave i buffers => do
    let c ← s.clients[i]?
    match c.stage with
    | .entering (.ret (some 0)) =>
      let stage := .leaving ((c.request.leave f).through (ttFunc buffers))
      some {s with clients := s.clients.set i {c with stage}}
    | _ => none

/-- No clients yet, and these databases. -/
def rdbMachine (f : Filename) (t : Databases) : Machine RdbState RdbMove where
  start := (· = ⟨t, []⟩)
  step := RdbState.next f

/-- The machine of the clients on a store, from this one. -/
def storeMachine (f : Filename) (s : Store) : Machine State Move where
  start := (· = ⟨s, [], []⟩)
  step := State.next f

def rdbFits : Rule RdbState RdbMove
  | _, .request r _ _ => r.Fits
  | _, .call _ _ | _, .wait _ _ _ | _, .leave _ _ => True

def storeFits : Rule State Move
  | _, .request r _ => r.Fits
  | _, .call _ _ | _, .wait _ _ | _, .leave _ => True

/-- What a function of a client has returned. -/
inductive Result where
  | entered (r : Option UInt32)
  | left (r : Exit)
  deriving DecidableEq

def Stage.result : Stage → Option Result
  | .entering (.ret r) => some (.entered r)
  | .leaving (.ret r) => some (.left r)
  | .entering (.call _ _) | .leaving (.call _ _) => none

def RdbStage.result : RdbStage → Option Result
  | .entering (.ret r) => some (.entered r)
  | .leaving (.ret r) => some (.left r)
  | .entering (.call _ _) | .leaving (.call _ _) => none

/-! ### From the databases to the store -/

variable {f : Filename} {others : UInt32 → Key → Option (List UInt8)}

/-- The function a client is in is in the middle of a call to the store. -/
inductive StageMatches (others : UInt32 → Key → Option (List UInt8)) : RdbStage → Stage → Prop where
  | entering {q p} (buffers : Buffers) : Matches (ttFunc buffers) serve serveRdb (Held others) q p →
      p.Makes CallFits AnswerFits → StageMatches others (.entering q) (.entering p)
  | leaving {q p} (buffers : Buffers) : Matches (ttFunc buffers) serve serveRdb (Held others) q p →
      p.Makes CallFits AnswerFits → StageMatches others (.leaving q) (.leaving p)

/-- The state of the clients on a store, each perhaps a part of a call behind or ahead. -/
structure RunsAs (others : UInt32 → Key → Option (List UInt8)) (t : RdbState) (s : State) : Prop where
  held : Held others s.store t.databases
  fits : s.store.Fits
  clients : List.Forall₂ (fun c' c => c'.request = c.request ∧ c.request.Fits ∧ StageMatches others c'.stage c.stage)
    t.clients s.clients

theorem Stage.of_entered {st : Stage} {r : Option UInt32} (h : st.result = some (.entered r)) :
    st = .entering (.ret r) := by
  cases st with
  | entering p =>
    cases p with
    | ret r' =>
      cases h
      rfl
    | call call next => cases h
  | leaving p => cases p <;> cases h

theorem StageMatches.result {st' : RdbStage} {st : Stage} (h : StageMatches others st' st) {r : Result}
    (hr : st'.result = some r) : st.result = some r := by
  cases h with
  | entering buffers hm hp | leaving buffers hm hp =>
    obtain ⟨r', rfl, rfl⟩ | ⟨d, k, rfl, _⟩ := hm.goesOn (ttFunc_implements others buffers).undone hp
    · exact hr
    · cases hr

/-- A turn on the databases is one on the store, or none. -/
theorem StageMatches.turn {st' st₁' : RdbStage} {c : Client} {s : State} {i : Nat} {t t' : Databases} {fails : Bool}
    (h : StageMatches others st' c.stage) (hheld : Held others s.store t) (hfits : s.store.Fits)
    (hc : s.clients[i]? = some c) (hturn : st'.turn fails t = some (st₁', t')) :
    (Held others s.store t' ∧ StageMatches others st₁' c.stage) ∨
      ∃ fails' c₁ s', s.next f (.call i fails') = some s' ∧ s'.clients = s.clients.set i c₁ ∧ c₁.request = c.request ∧
        Held others s'.store t' ∧ s'.store.Fits ∧ StageMatches others st₁' c₁.stage := by
  obtain ⟨request, stage, pair⟩ := c
  cases h with
  | entering buffers hm hp =>
    obtain ⟨r, rfl, rfl⟩ | ⟨d, k, rfl, hgoes⟩ := hm.goesOn (ttFunc_implements others buffers).undone hp
    · cases hturn
    · cases hturn
      obtain ⟨hheld', hm'⟩ | ⟨call, next, fails', rfl, hheld', hm'⟩ := hgoes _ _ fails hheld
      · exact .inl ⟨hheld', .entering buffers hm' hp⟩
      · obtain ⟨hanswer, hfits'⟩ := serve_fits hp.1 hfits fails'
        have hstep : s.next f (.call i fails') = some ⟨(serve call fails' s.store).2,
            s.clients.set i ⟨request, .entering (next (serve call fails' s.store).1), pair.after call (serve call fails' s.store).1⟩,
            if put call (serve call fails' s.store).1 then s.pending ++ [i] else s.pending⟩ := by
          simp only [State.next, hc]
          rfl
        exact .inr ⟨fails', _, _, hstep, rfl, rfl, hheld', hfits', .entering buffers hm' (hp.2 _ hanswer)⟩
  | leaving buffers hm hp =>
    obtain ⟨r, rfl, rfl⟩ | ⟨d, k, rfl, hgoes⟩ := hm.goesOn (ttFunc_implements others buffers).undone hp
    · cases hturn
    · cases hturn
      obtain ⟨hheld', hm'⟩ | ⟨call, next, fails', rfl, hheld', hm'⟩ := hgoes _ _ fails hheld
      · exact .inl ⟨hheld', .leaving buffers hm' hp⟩
      · obtain ⟨hanswer, hfits'⟩ := serve_fits hp.1 hfits fails'
        have hstep : s.next f (.call i fails') = some ⟨(serve call fails' s.store).2,
            s.clients.set i ⟨request, .leaving (next (serve call fails' s.store).1), pair.after call (serve call fails' s.store).1⟩,
            if put call (serve call fails' s.store).1 then s.pending.erase i else s.pending⟩ := by
          simp only [State.next, hc]
          rfl
        exact .inr ⟨fails', _, _, hstep, rfl, rfl, hheld', hfits', .leaving buffers hm' (hp.2 _ hanswer)⟩

/-- A move on the databases is a move on the store, or none. -/
theorem RunsAs.step (hf : f.Plain) {t t' : RdbState} {s : State} {mv : RdbMove} (h : RunsAs others t s)
    (hr : rdbFits t mv) (hstep : t.next f mv = some t') :
    ∃ s', (s' = s ∨ ∃ mv', storeFits s mv' ∧ s.next f mv' = some s') ∧ RunsAs others t' s' := by
  cases mv with
  | request r polls buffers =>
    cases hstep
    refine ⟨_, .inr ⟨.request r polls, hr, rfl⟩, h.held, h.fits, forall₂_append_one h.clients ⟨rfl, hr, ?_⟩⟩
    exact .entering buffers (matches_through _) (queueInWait_makes polls)
  | call i fails =>
    obtain ⟨c', hc', hstep⟩ := Option.bind_eq_some_iff.mp hstep
    obtain ⟨⟨st', d⟩, hturn, hstep⟩ := Option.bind_eq_some_iff.mp hstep
    cases hstep
    obtain ⟨c, hc, hrequest, hfits, hmatches⟩ := forall₂_getElem? h.clients hc'
    obtain ⟨hheld, hm⟩ | ⟨fails', c₁, s', hnext, hclients, hsame, hheld, hfits', hm⟩ :=
      hmatches.turn (f := f) h.held h.fits hc hturn
    · refine ⟨s, .inl rfl, hheld, h.fits, ?_⟩
      have hset := forall₂_set h.clients i (x := {c' with stage := st'}) ⟨hrequest, hfits, hm⟩
      rwa [set_same hc] at hset
    · refine ⟨s', .inr ⟨.call i fails', trivial, hnext⟩, hheld, hfits', ?_⟩
      rw [hclients]
      exact forall₂_set h.clients i ⟨hrequest.trans hsame.symm, hsame ▸ hfits, hm⟩
  | wait i polls buffers =>
    obtain ⟨c', hc', hstep⟩ := Option.bind_eq_some_iff.mp hstep
    obtain ⟨c, hc, hrequest, hfits, hmatches⟩ := forall₂_getElem? h.clients hc'
    split at hstep
    · rename_i hstage'
      cases hstep
      have hresult : c.stage.result = some (.entered none) := hmatches.result (by rw [hstage']; rfl)
      have hstage := Stage.of_entered hresult
      obtain ⟨request, stage, pair⟩ := c
      cases hstage
      cases hrequest
      have hnext : s.next f (.wait i polls) = some ⟨s.store,
          s.clients.set i ⟨c'.request, .entering (c'.request.wait f polls), pair⟩, s.pending⟩ := by
        simp only [State.next, hc]
        rfl
      refine ⟨_, .inr ⟨.wait i polls, trivial, hnext⟩, h.held, h.fits, forall₂_set h.clients i ⟨rfl, hfits, ?_⟩⟩
      exact .entering buffers (matches_through _) (Request.wait_makes _ polls)
    · cases hstep
  | leave i buffers =>
    obtain ⟨c', hc', hstep⟩ := Option.bind_eq_some_iff.mp hstep
    obtain ⟨c, hc, hrequest, hfits, hmatches⟩ := forall₂_getElem? h.clients hc'
    split at hstep
    · rename_i hstage'
      cases hstep
      have hresult : c.stage.result = some (.entered (some 0)) := hmatches.result (by rw [hstage']; rfl)
      have hstage := Stage.of_entered hresult
      obtain ⟨request, stage, pair⟩ := c
      cases hstage
      cases hrequest
      have hnext : s.next f (.leave i) = some ⟨s.store,
          s.clients.set i ⟨c'.request, .leaving (c'.request.leave f), ⟨none, none⟩⟩, s.pending⟩ := by
        simp only [State.next, hc]
        rfl
      refine ⟨_, .inr ⟨.leave i, trivial, hnext⟩, h.held, h.fits, forall₂_set h.clients i ⟨rfl, hfits, ?_⟩⟩
      exact .leaving buffers (matches_through _) (Request.leave_makes hf hfits)
    · cases hstep

/-! ### And from the store to the databases -/

inductive StageLike : RdbStage → Stage → Prop where
  | entering (buffers : Buffers) {p} : p.Makes CallFits AnswerFits →
      StageLike (.entering (p.through (ttFunc buffers))) (.entering p)
  | leaving (buffers : Buffers) {p} : p.Makes CallFits AnswerFits →
      StageLike (.leaving (p.through (ttFunc buffers))) (.leaving p)

theorem StageLike.result {st' : RdbStage} {st : Stage} (h : StageLike st' st) : st'.result = st.result := by
  cases h with
  | @entering buffers p hp | @leaving buffers p hp =>
    cases p with
    | ret r => rfl
    | call c next => cases c <;> rfl

/-- The functions the clients are in are all between two calls to the store. -/
structure RunsLike (others : UInt32 → Key → Option (List UInt8)) (s : State) (t : RdbState) : Prop where
  held : Held others s.store t.databases
  fits : s.store.Fits
  clients : List.Forall₂ (fun c' c => c'.request = c.request ∧ c.request.Fits ∧ StageLike c'.stage c.stage)
    t.clients s.clients

/-- A client goes on alone to the end of a function of `tt_func.c`. -/
theorem reach_ends {t₀ : Databases} {A R : Type} {wrap : Prog tcrdb R → RdbStage}
    (hwrap : ∀ call k fails t, (wrap (.call call k)).turn fails t =
      some (wrap (k (serveRdb call fails t).1), (serveRdb call fails t).2))
    {q : Prog tcrdb A} {d d' : Databases} {a : A} (hends : Prog.Ends serveRdb q d a d') {k : A → Prog tcrdb R}
    {clients : List RdbClient} {i : Nat} {request : Request} (hc : clients[i]? = some ⟨request, wrap (q >>= k)⟩)
    (h : Reach (rdbMachine f t₀) rdbFits ⟨d, clients⟩) :
    Reach (rdbMachine f t₀) rdbFits ⟨d', clients.set i ⟨request, wrap (k a)⟩⟩ := by
  induction hends generalizing clients with
  | ret =>
    rw [Prog.ret_bind] at hc
    rwa [set_same hc]
  | @call call next d a d' fails _ ih =>
    have hstep : (rdbMachine f t₀).step ⟨d, clients⟩ (.call i fails) = some ⟨(serveRdb call fails d).2,
        clients.set i ⟨request, wrap (next (serveRdb call fails d).1 >>= k)⟩⟩ := by
      simp only [rdbMachine, RdbState.next, hc, Option.bind_eq_bind, Option.bind_some, Prog.call_bind, hwrap]
    have hdone := ih (getElem?_set_same hc _) (.step (a := .call i fails) h trivial hstep)
    rwa [List.set_set] at hdone

theorem RunsLike.step (hf : f.Plain) {t₀ : Databases} {t : RdbState} {s s' : State} {mv : Move}
    (h : RunsLike others s t) (ht : Reach (rdbMachine f t₀) rdbFits t) (hr : storeFits s mv)
    (hstep : s.next f mv = some s') : ∃ t', Reach (rdbMachine f t₀) rdbFits t' ∧ RunsLike others s' t' := by
  obtain ⟨d, clients⟩ := t
  cases mv with
  | request r polls =>
    cases hstep
    refine ⟨_, .step (a := .request r polls .clean) ht hr rfl, h.held, h.fits, ?_⟩
    exact forall₂_append_one h.clients ⟨rfl, hr, .entering .clean (queueInWait_makes polls)⟩
  | call i fails =>
    obtain ⟨c, hc, hstep⟩ := Option.bind_eq_some_iff.mp hstep
    obtain ⟨⟨request', st'⟩, hc', hrequest, hfits, hlike⟩ := forall₂_getElem? h.clients.flip hc
    obtain ⟨request, stage, pair⟩ := c
    obtain rfl : request' = request := hrequest
    cases hlike with
    | @entering buffers p hp =>
      cases p with
      | ret r => cases hstep
      | call call k =>
        cases hstep
        obtain ⟨hanswer, hfits'⟩ := serve_fits hp.1 h.fits fails
        obtain ⟨d', hends, hheld⟩ := (ttFunc_implements others buffers).complete hp.1 h.held fails
        refine ⟨_, reach_ends (fun _ _ _ _ => rfl) hends hc' ht, hheld, hfits', forall₂_set h.clients i ⟨rfl, hfits, ?_⟩⟩
        exact .entering buffers (hp.2 _ hanswer)
    | @leaving buffers p hp =>
      cases p with
      | ret r => cases hstep
      | call call k =>
        cases hstep
        obtain ⟨hanswer, hfits'⟩ := serve_fits hp.1 h.fits fails
        obtain ⟨d', hends, hheld⟩ := (ttFunc_implements others buffers).complete hp.1 h.held fails
        refine ⟨_, reach_ends (fun _ _ _ _ => rfl) hends hc' ht, hheld, hfits', forall₂_set h.clients i ⟨rfl, hfits, ?_⟩⟩
        exact .leaving buffers (hp.2 _ hanswer)
  | wait i polls =>
    obtain ⟨c, hc, hstep⟩ := Option.bind_eq_some_iff.mp hstep
    obtain ⟨⟨request', st'⟩, hc', hrequest, hfits, hlike⟩ := forall₂_getElem? h.clients.flip hc
    obtain ⟨request, stage, pair⟩ := c
    obtain rfl : request' = request := hrequest
    cases hlike with
    | leaving buffers hp => cases hstep
    | @entering buffers p hp =>
      split at hstep
      · rename_i hstage
        cases hstage
        cases hstep
        have hnext : (rdbMachine f t₀).step ⟨d, clients⟩ (.wait i polls .clean) = some ⟨d,
            clients.set i ⟨request', .entering ((request'.wait f polls).through (ttFunc .clean))⟩⟩ := by
          simp only [rdbMachine, RdbState.next, hc']
          rfl
        refine ⟨_, .step (a := .wait i polls .clean) ht trivial hnext, h.held, h.fits,
          forall₂_set h.clients i ⟨rfl, hfits, ?_⟩⟩
        exact .entering .clean (Request.wait_makes _ polls)
      · cases hstep
  | leave i =>
    obtain ⟨c, hc, hstep⟩ := Option.bind_eq_some_iff.mp hstep
    obtain ⟨⟨request', st'⟩, hc', hrequest, hfits, hlike⟩ := forall₂_getElem? h.clients.flip hc
    obtain ⟨request, stage, pair⟩ := c
    obtain rfl : request' = request := hrequest
    cases hlike with
    | leaving buffers hp => cases hstep
    | @entering buffers p hp =>
      split at hstep
      · rename_i hstage
        cases hstage
        cases hstep
        have hnext : (rdbMachine f t₀).step ⟨d, clients⟩ (.leave i .clean) = some ⟨d,
            clients.set i ⟨request', .leaving ((request'.leave f).through (ttFunc .clean))⟩⟩ := by
          simp only [rdbMachine, RdbState.next, hc']
          rfl
        refine ⟨_, .step (a := .leave i .clean) ht trivial hnext, h.held, h.fits, forall₂_set h.clients i ⟨rfl, hfits, ?_⟩⟩
        exact .leaving .clean (Request.leave_makes hf hfits)
      · cases hstep

/-! ### Both -/

/-- Every state of clients that take turns at Tokyo Tyrant has the databases and the results of
one of clients that take turns at a store, and of every such state there is one with the same. -/
theorem atomic_on_databases (hf : f.Plain) {s₀ : Store} {t₀ : Databases} (hfits : s₀.Fits) (hheld : Held others s₀ t₀) :
    (∀ t, Reach (rdbMachine f t₀) rdbFits t → ∃ s, Reach (storeMachine f s₀) storeFits s ∧
      Held others s.store t.databases ∧ List.Forall₂ (fun c' c => c'.request = c.request ∧
        ∀ r, c'.stage.result = some r → c.stage.result = some r) t.clients s.clients) ∧
    ∀ s, Reach (storeMachine f s₀) storeFits s → ∃ t, Reach (rdbMachine f t₀) rdbFits t ∧
      Held others s.store t.databases ∧ List.Forall₂ (fun c' c => c'.request = c.request ∧
        c'.stage.result = c.stage.result) t.clients s.clients := by
  constructor
  · intro t ht
    obtain ⟨s, hs, hruns⟩ : ∃ s, Reach (storeMachine f s₀) storeFits s ∧ RunsAs others t s := by
      refine ht.simulates ?_ ?_
      · rintro _ rfl
        exact ⟨_, rfl, hheld, hfits, .nil⟩
      · intro t s mv t' _ hs hruns hr hstep
        obtain ⟨s', rfl | ⟨mv', hr', hstep'⟩, hruns'⟩ := hruns.step hf hr hstep
        · exact ⟨_, hs, hruns'⟩
        · exact ⟨s', .step hs hr' hstep', hruns'⟩
    exact ⟨s, hs, hruns.held, hruns.clients.imp fun c' c hc => ⟨hc.1, fun r hr => hc.2.2.result hr⟩⟩
  · intro s hs
    obtain ⟨t, ht, hruns⟩ : ∃ t, Reach (rdbMachine f t₀) rdbFits t ∧ RunsLike others s t := by
      refine hs.simulates ?_ ?_
      · rintro _ rfl
        exact ⟨_, rfl, hheld, hfits, .nil⟩
      · intro s t mv s' _ ht hruns hr hstep
        exact hruns.step hf ht hr hstep
    exact ⟨t, ht, hruns.held, hruns.clients.imp fun c' c hc => ⟨hc.1, hc.2.2.result⟩⟩

/-- Databases with the records of a store. -/
def Databases.ofStore (s : Store) : Databases where
  db := fun port key =>
    if port = mdPort then (s.md key).map metaDataLayout.bytes
    else if port = ionPort then (s.ion key).map ioNodeLayout.bytes
    else if port = ioDataPort then s.iod key
    else none
  rdbs := 0

theorem held_ofStore {s : Store} (h : s.Fits) : Held (fun _ _ => none) s (.ofStore s) where
  md := by
    intro k
    show Option.Rel metaDataLayout.Read (s.md k) ((s.md k).map metaDataLayout.bytes)
    cases hm : s.md k with
    | none => exact .none
    | some m => exact .some (metaDataLayout.clean.read m (metaDataLayout_fits (h.md k m hm)))
  ion := by
    intro k
    show Option.Rel ioNodeLayout.Read (s.ion k) ((s.ion k).map ioNodeLayout.bytes)
    cases hnode : s.ion k with
    | none => exact .none
    | some node => exact .some (ioNodeLayout.clean.read node (ioNodeLayout_fits (h.ion k node hnode)))
  iod := rfl
  others := by
    intro port hmd hion hiod
    funext key
    simp [Databases.ofStore, hmd, hion, hiod]

theorem ofFile_fits (f : Filename) (n : Fin (maxReplicas + 1)) : (Store.ofFile f (.new n)).Fits where
  md := by
    intro k m hm
    have hnew : m = .new n := by
      by_cases hk : k = f.chars
      · subst hk
        rw [Store.ofFile_md] at hm
        exact (Option.some.inj hm).symm
      · simp [Store.ofFile, hk] at hm
    have hdigits : ∀ i : Fin maxReplicas, (Nat.toDigits 10 i).length < hostIpLen := by decide
    rw [hnew]
    exact ⟨fun i => ⟨⟨hdigits i, toDigits_plain _⟩, keyFits_nil⟩, keyFits_nil, keyFits_nil⟩
  ion := nofun

theorem atomic_on_databases_admitted : ∃ f s t, Reach (rdbMachine f (.ofStore s)) rdbFits t ∧
    t.clients.map (·.stage.result) = [some (.entered (some 0))] := by
  let f : Filename := ⟨['f'], by decide⟩
  let s₀ := Store.ofFile f (.new 1)
  have hreach : Reach (storeMachine f s₀) storeFits _ :=
    .step (a := .call 0 false) (.step (a := .call 0 false) (.step (a := .call 0 false)
      (.step (a := .request ⟨.read, 1, .read⟩ 1) (.start rfl) trivial rfl) trivial rfl) trivial rfl) trivial rfl
  have hplain : f.Plain := List.forall_mem_singleton.mpr (by decide)
  have hfits := ofFile_fits f 1
  obtain ⟨t, ht, -, hclients⟩ := (atomic_on_databases hplain hfits (held_ofStore hfits)).2 _ hreach
  refine ⟨f, s₀, t, ht, ?_⟩
  generalize t.clients = clients at hclients
  cases hclients with
  | cons h hnil =>
    cases hnil
    exact congrArg (fun r => [r]) (h.2.trans (by decide))

end CacheFs.Queue
