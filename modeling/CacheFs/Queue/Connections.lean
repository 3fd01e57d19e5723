import CacheFs.Queue.OnDatabases

/-! Remote database objects.

A function of `tt_func.c` has one object at a time and deletes it, but for an `iod_get` that
returns nothing, which clients that queue do not call. So however they take turns there are
no more objects than functions that have not returned (`objects_deleted`). -/
namespace CacheFs.Queue
open Interaction Members Transition

/-! ### Programs -/

/-- An object is made first, and the connection is its own; it is held until it is deleted. -/
def oneObject : Protocol tcrdb Bool where
  allowed := fun held call => match call with
    | .new => held = false
    | .open _ | .get _ _ | .out2 _ _ | .put _ _ _ | .del => held = true
  after := fun held call _ => match call with
    | .new => true
    | .open _ | .get _ _ | .out2 _ _ | .put _ _ _ => held
    | .del => false

/-- The calls of clients that queue. -/
def queueCalls : Protocol tt Unit where
  allowed := fun _ call => match call with
    | .mdGet _ | .mdPut _ _ | .ionGet _ | .ionPut _ _ | .iodPut _ _ => True
    | .mdOut _ | .iodGet _ => False
  after := fun _ _ _ => ()

section Programs
variable {f : Filename} {ioType : IoType} {t : Int64}

theorem ttFunc_oneObject (buffers : Buffers) (c : Call) (hc : queueCalls.allowed () c) :
    (ttFunc buffers c).Follows oneObject (fun held _ => held = false) false := by
  cases c with
  | mdOut f | iodGet k => exact hc.elim
  | mdGet f | ionGet k =>
    refine ⟨rfl, fun _ => ⟨rfl, fun opened => ?_⟩⟩
    cases opened with
    | false => exact ⟨rfl, fun _ => rfl⟩
    | true => exact ⟨rfl, fun value => by cases value <;> exact ⟨rfl, fun _ => rfl⟩⟩
  | mdPut f m | ionPut k node | iodPut k value =>
    refine ⟨rfl, fun _ => ⟨rfl, fun opened => ?_⟩⟩
    cases opened with
    | false => exact ⟨rfl, fun _ => rfl⟩
    | true => exact ⟨rfl, fun done => by cases done <;> exact ⟨rfl, fun _ => rfl⟩⟩

theorem waitHead_queueCalls (polls : Nat) : (waitHead f ioType t polls).Follows queueCalls (fun _ _ => True) () := by
  induction polls with
  | zero => trivial
  | succ polls ih =>
    refine ⟨trivial, fun a => ?_⟩
    cases a with
    | none => trivial
    | some m =>
      show Prog.Follows queueCalls (fun _ _ => True) (if _ then _ else _) ()
      split
      · trivial
      · exact ih

theorem Request.enter_queueCalls (r : Request) (polls : Nat) :
    (r.enter f polls).Follows queueCalls (fun _ _ => True) () := by
  refine ⟨trivial, fun a => ?_⟩
  cases a with
  | none => trivial
  | some m =>
    refine ⟨trivial, fun done => ?_⟩
    cases done with
    | false => trivial
    | true => exact waitHead_queueCalls polls

theorem linkTail_queueCalls (tail path : Key) :
    (linkTail tail path).Follows queueCalls (fun _ _ => True) () := by
  rw [linkTail]
  split
  · exact ⟨trivial, fun a => by cases a <;> first | trivial | exact ⟨trivial, fun _ => trivial⟩⟩
  · trivial

theorem writeUnder_queueCalls {path : Key} {offset : UInt64} {data : List UInt8} {size : UInt64} {ionNext : Key} :
    (writeUnder path f ioType t offset data size ionNext).Follows queueCalls (fun _ _ => True) () := by
  refine ⟨trivial, fun a => ?_⟩
  cases a with
  | none => trivial
  | some m =>
    refine ⟨trivial, fun done => ?_⟩
    cases done with
    | false => trivial
    | true =>
      refine (linkTail_queueCalls _ _).bind fun _ linked _ => ?_
      cases linked with
      | false => trivial
      | true =>
        refine ⟨trivial, fun done => ?_⟩
        cases done with
        | false => trivial
        | true =>
          show (putData path data size.toUInt32).Follows queueCalls (fun _ _ => True) ()
          unfold putData
          split
          · exact ⟨trivial, fun done => by cases done <;> trivial⟩
          · trivial

theorem Request.leave_queueCalls (r : Request) : (r.leave f).Follows queueCalls (fun _ _ => True) () := by
  rw [Request.leave]
  cases r.out with
  | read =>
    refine ⟨trivial, fun a => ?_⟩
    cases a with
    | none => trivial
    | some m => exact ⟨trivial, fun done => by cases done <;> trivial⟩
  | write offset data size ionNext =>
    show (writeQueueOut f r.ioType r.arriveTime offset data size ionNext).Follows queueCalls (fun _ _ => True) ()
    unfold writeQueueOut
    split
    · exact writeUnder_queueCalls
    · trivial

end Programs

/-! ### Clients -/

def RdbStage.Holding (held : Bool) : RdbStage → Prop
  | .entering q => q.Follows oneObject (fun held _ => held = false) held
  | .leaving q => q.Follows oneObject (fun held _ => held = false) held

/-- The objects there are more than there were at first are those that clients hold. -/
def Counted (t₀ : Databases) (t : RdbState) : Prop :=
  ∃ held : List Bool, List.Forall₂ (fun b c => c.stage.Holding b) held t.clients ∧
    t.databases.rdbs = t₀.rdbs + held.countP id

theorem serveRdb_rdbs {call : RdbCall} {held fails : Bool} {t : Databases} (hallowed : oneObject.allowed held call)
    (hheld : held.toNat ≤ t.rdbs) (a : RdbAnswer call) :
    (serveRdb call fails t).2.rdbs + held.toNat = t.rdbs + (oneObject.after held call a).toNat := by
  cases call with
  | new =>
    obtain rfl : held = false := hallowed
    rfl
  | «open» port | get port key => rfl
  | put port key value => cases fails <;> rfl
  | out2 port key =>
    rw [serveRdb]
    split <;> rfl
  | del =>
    obtain rfl : held = true := hallowed
    exact Nat.sub_add_cancel hheld

theorem RdbStage.Holding.turn {st st' : RdbStage} {held fails : Bool} {t t' : Databases} (h : st.Holding held)
    (hheld : held.toNat ≤ t.rdbs) (hturn : st.turn fails t = some (st', t')) :
    ∃ held', st'.Holding held' ∧ t'.rdbs + held.toNat = t.rdbs + held'.toNat := by
  cases st with
  | entering q | leaving q =>
    cases q with
    | ret r => cases hturn
    | call call k =>
      cases hturn
      exact ⟨_, h.2 _, serveRdb_rdbs h.1 hheld _⟩

/-- A client whose function has returned goes on to another. -/
theorem Counted.goes {t₀ : Databases} {t : RdbState} (h : Counted t₀ t) {i : Nat} {c : RdbClient}
    (hc : t.clients[i]? = some c) (hfree : ∀ {b}, c.stage.Holding b → b = false) {st : RdbStage}
    (hst : st.Holding false) : Counted t₀ {t with clients := t.clients.set i {c with stage := st}} := by
  obtain ⟨held, hclients, hrdbs⟩ := h
  obtain ⟨b, hb, hholding⟩ := forall₂_getElem? hclients.flip hc
  obtain rfl := hfree hholding
  have hset := forall₂_set hclients i (x := false) (y := {c with stage := st}) hst
  refine ⟨held, ?_, hrdbs⟩
  rwa [set_same hb] at hset

theorem Counted.step {f : Filename} {t₀ : Databases} {t t' : RdbState} {mv : RdbMove} (h : Counted t₀ t)
    (hstep : t.next f mv = some t') : Counted t₀ t' := by
  cases mv with
  | request r polls buffers =>
    obtain ⟨held, hclients, hrdbs⟩ := h
    cases hstep
    refine ⟨held ++ [false], forall₂_append_one hclients ?_, ?_⟩
    · exact (r.enter_queueCalls polls).through fun _ c hc => ttFunc_oneObject buffers c hc
    · rw [countP_append_one]
      exact hrdbs
  | call i fails =>
    obtain ⟨held, hclients, hrdbs⟩ := h
    obtain ⟨c, hc, hstep⟩ := Option.bind_eq_some_iff.mp hstep
    obtain ⟨⟨st', d⟩, hturn, hstep⟩ := Option.bind_eq_some_iff.mp hstep
    cases hstep
    obtain ⟨b, hb, hholding⟩ := forall₂_getElem? hclients.flip hc
    have hcount (b' : Bool) := countP_set_add (p := id) hb b'
    have hle : b.toNat ≤ t.databases.rdbs := by
      have hwithout := hcount false
      simp only [id, Bool.toNat_false] at hwithout
      omega
    obtain ⟨held', hholding', heq⟩ := RdbStage.Holding.turn hholding hle hturn
    refine ⟨held.set i held', forall₂_set hclients i hholding', ?_⟩
    have hset := hcount held'
    simp only [id] at hset
    show d.rdbs = _
    omega
  | wait i polls buffers =>
    obtain ⟨c, hc, hstep⟩ := Option.bind_eq_some_iff.mp hstep
    split at hstep
    · rename_i hstage
      cases hstep
      exact h.goes hc (by rw [hstage]; exact id)
        ((waitHead_queueCalls polls).through fun _ c hc => ttFunc_oneObject buffers c hc)
    · cases hstep
  | leave i buffers =>
    obtain ⟨c, hc, hstep⟩ := Option.bind_eq_some_iff.mp hstep
    split at hstep
    · rename_i hstage
      cases hstep
      exact h.goes hc (by rw [hstage]; exact id)
        (c.request.leave_queueCalls.through fun _ c hc => ttFunc_oneObject buffers c hc)
    · cases hstep

/-- A function that has returned holds no object. -/
theorem held_le_running {held : List Bool} {clients : List RdbClient}
    (h : List.Forall₂ (fun b c => c.stage.Holding b) held clients) :
    held.countP id ≤ clients.countP (·.stage.result.isNone) := by
  induction h with
  | nil => exact Nat.le_refl 0
  | @cons b c held clients hholding _ ih =>
    have hone : b.toNat ≤ (c.stage.result.isNone).toNat := by
      obtain ⟨request, st⟩ := c
      cases st with
      | entering q | leaving q =>
        cases q with
        | ret r =>
          obtain rfl : b = false := hholding
          exact Nat.zero_le _
        | call call k => exact b.toNat_le
    rw [List.countP_cons, List.countP_cons]
    cases b <;> cases hresult : c.stage.result.isNone <;> simp_all [Nat.le_succ_of_le]

/-- Whatever the clients do and whichever calls fail, there are at most as many objects more than
at first as there are functions that have not returned; when all have, there are none. -/
theorem objects_deleted {f : Filename} {t₀ : Databases} {t : RdbState} (h : Reachable (rdbMachine f t₀) t) :
    t₀.rdbs ≤ t.databases.rdbs ∧
      t.databases.rdbs ≤ t₀.rdbs + t.clients.countP (·.stage.result.isNone) := by
  have hcounted : Counted t₀ t := by
    refine h.invariant ?_ fun t mv t' ht _ hstep => ht.step hstep
    rintro _ rfl
    exact ⟨[], .nil, rfl⟩
  obtain ⟨held, hclients, hrdbs⟩ := hcounted
  have hle := held_le_running hclients
  omega

theorem objects_deleted_connecting : ∃ f t₀ t, Reachable (rdbMachine f t₀) t ∧ t.databases.rdbs = t₀.rdbs + 1 ∧
    t.databases.rdbs ≤ t₀.rdbs + t.clients.countP (·.stage.result.isNone) := by
  have hreach : Reachable (rdbMachine ⟨['f'], by decide⟩ ⟨fun _ _ => none, 0⟩) _ :=
    .step (a := .call 0 false) (.step (a := .request ⟨.read, 1, .read⟩ 1 .clean) (.start rfl) trivial rfl) trivial rfl
  exact ⟨_, _, _, hreach, rfl, (objects_deleted hreach).2⟩

end CacheFs.Queue
