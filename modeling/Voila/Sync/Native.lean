import Mathlib

/-!
# Voila.Sync.Native

The natives of `sync.c` that `Once` and `WaitGroup` are made of: an atomic word, and a mutex that
knows who holds it. Every atomic operation is sequentially consistent, so each is one step.
-/

namespace Voila.Sync

/-! ### Atomic -/

/-- `vl_sync_add`: the new value, which it also returns. -/
def syncAdd (a delta : Int64) : Int64 := a + delta

/-- `vl_sync_cas`: whether the value was `expect`, and the value after it. -/
def syncCas (a expect want : Int64) : Bool × Int64 :=
  if a = expect then (true, want) else (false, a)

/-! ### Mutex -/

/-- `VlMutex`, with `PTHREAD_MUTEX_ERRORCHECK`: who holds it. -/
structure Mutex (T : Type*) where
  owner : Option T

/-- What a lock and an unlock may fail with. -/
inductive Errno
  | edeadlk
  | eperm

/-- An exception: its type, and its `msg`. -/
structure Exn where
  type : String
  msg : String
  deriving DecidableEq

/-- `lock_failed`. -/
def lockFailed (rc : Errno) (what : String) : Exn where
  type := "RuntimeError"
  msg :=
    match rc with
    | .edeadlk => what ++ ": this task already holds the lock (a Mutex is not recursive)"
    | .eperm => what ++ ": this task does not hold the lock"

variable {T : Type*} [DecidableEq T]

/-- `vl_sync_lock` by `t`. It waits for as long as another task holds the mutex. -/
def syncLock (t : T) (mu : Mutex T) : Option (Except Exn (Mutex T)) :=
  match mu.owner with
  | none => some (.ok ⟨some t⟩)
  | some u => if u = t then some (.error (lockFailed .edeadlk "Mutex.lock")) else none

/-- `vl_sync_unlock` by `t`. -/
def syncUnlock (t : T) (mu : Mutex T) : Except Exn (Mutex T) :=
  if mu.owner = some t then .ok ⟨none⟩ else .error (lockFailed .eperm "Mutex.unlock")

end Voila.Sync
