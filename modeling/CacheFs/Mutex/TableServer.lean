import CacheFs.Mutex.Table

/-! The table-based server with clients that unlock what they hold: at most one
client has the lock of a file, in every state of every interleaving of the request
threads. -/
namespace CacheFs.Mutex.Table
open Transition Registry

/-- The server started by `main`, before any request. -/
def lockMachine : Machine (State MutexTable Nat Empty (List (Nat × FileName))) (Move Unit) :=
  machine server disciplined mutexTableInit (· = [])

/-- Every run is a run on the map of locks by name. -/
theorem lockMachine_refines {s : State MutexTable Nat Empty (List (Nat × FileName))}
    (h : Reachable lockMachine s) :
    ∃ t : State Named FileName Empty (List (Nat × FileName)), Rel lawful s t ∧ Inv disciplinedLawful t :=
  refines lawful disciplinedLawful init_clear init_view disciplined_fresh (disciplined_sound lawful h)

/-- **Mutual exclusion.** In every reachable state each file has at most one
acquisition that is not released, and so at most one client has its lock, from the
moment `p_mutex` is taken for it until it is freed. -/
theorem mutual_exclusion {s : State MutexTable Nat Empty (List (Nat × FileName))}
    (h : Reachable lockMachine s) (f : FileName) :
    holders disciplinedLawful s f ≤ 1 ∧ ∀ c₁ c₂, Holds s c₁ f → Holds s c₂ f → c₁ = c₂ := by
  obtain ⟨t, hrel, hinv⟩ := lockMachine_refines h
  have hone := hrel.holders_le_one hinv f
  exact ⟨hone, fun c₁ c₂ h₁ h₂ => h₁.eq hone h₂⟩

/-- Client 7 has locked a file that client 8 waits for. -/
theorem mutual_exclusion_waiting : ∃ s f, Reachable lockMachine s ∧ Holds s 7 f ∧ s.threads.length = 2 ∧
    ∀ c, Holds s c f → c = 7 := by
  let f : FileName := ⟨[102], by decide, by decide⟩
  obtain ⟨s, hreach, hs⟩ := Reach.exists_run (M := lockMachine) (R := always)
    [.accept ⟨mdLock, 7, f⟩, .accept ⟨mdLock, 8, f⟩, .step 0 (), .step 1 (), .step 0 (), .reply 0]
    (fun s => (7, f) ∈ s.clients && s.threads.length = 2)
    (.start (s := ⟨mutexTableInit, [], []⟩) ⟨rfl, rfl, rfl⟩) (by decide)
  simp only [Bool.and_eq_true, decide_eq_true_eq] at hs
  exact ⟨s, f, hreach, .inl hs.1, hs.2, fun c hc => (mutual_exclusion hreach f).2 c 7 hc (.inl hs.1)⟩

end CacheFs.Mutex.Table
