import CS416.Lib.Reach

/-!
# Threads, the scheduler and the library calls

The threads take turns on one processor.  A thread is the number of its
`my_pthread_t` object, a mutex the number of its object; thread 0 is the one
that `scheduler_init` makes for `main`.

An alarm may come between any two steps while the virtual timer runs.  What a
call does between `setitimer(pause)` and the next `setitimer(cont)` or `raise`
is one step; where the timer runs inside a call, the place is a `Pc`.

`none` is a step that is not possible: it goes through a null pointer, or the
scheduler finds no thread and loops for ever.
-/

namespace Threads

/-- `NUM_PRIORITY` -/
abbrev numPriority : Int := 5

/-- `THREAD_LIM` -/
abbrev threadLim : Int := 1000

/-- `MUTEX_LIM` -/
abbrev mutexLim : Nat := 1000

/-- `enum thread_status` -/
inductive Status
  | active
  | yield
  | waitThread
  | waitMutex
  | threadExit
  deriving DecidableEq

/-- `my_pthread_t`; a value pointer is a number. -/
structure MyPthread where
  id : Int
  priority : Int
  intervalsRun : Int
  waitId : Int
  status : Status
  ret : Nat

/-- `my_pthread_mutex_t`; the queue is the list of its threads, front first, or there is none. -/
structure Mutex where
  waiting : Option (List Nat)
  user : Option Nat

/-- Whether `getcontext` and `malloc` succeed in `my_pthread_create`. -/
inductive Resources
  | available
  | noContext
  | noStack
  deriving DecidableEq

/-- The arguments of `my_pthread_join`: the thread it is given, its ID, and whether the value
is wanted. -/
structure Target where
  thread : Nat
  id : Int
  valuePtr : Bool
  deriving DecidableEq

/-- Where a thread is: not created yet, in its own code, inside a call, or gone. -/
inductive Pc
  | unborn
  | own
  | creating (t : Nat) (res : Resources)
  | yieldRaise
  | joinScan (j : Target) (i : Nat)
  | joinTable (j : Target)
  | joinTest (j : Target)
  | joinBlock (j : Target)
  | joinRaise (j : Target)
  | joinFinish (j : Target)
  | initScan (m i : Nat)
  | initUser (m : Nat)
  | initAdd (m i : Nat)
  | initStore (m i : Nat)
  | lockRaise (m : Nat)
  | lockClaim (m : Nat)
  | lockReturn (m : Nat)
  | exited
  deriving DecidableEq

/-- The globals of the library.  `armed` is whether the virtual timer runs, `cont` whether the
saved timer value is not zero. -/
structure State where
  init : Bool
  thread : Nat → MyPthread
  pc : Nat → Pc
  running : Option Nat
  level : Int → List Nat
  currentPriority : Int
  runAtPriority : Int
  threadCount : Int
  tidList : List Int
  threadTable : Int → Option Nat
  waiting : Int → Option Nat
  done : Int → Bool
  mutex : Nat → Mutex
  mutexList : Nat → Option Nat
  armed : Bool
  cont : Bool

/-- The error codes. -/
inductive Code
  | failed
  | EAGAIN
  | EDEADLK
  | EINVAL
  | ESRCH
  | ENOMEM
  | EBUSY
  | EPERM
  deriving DecidableEq

/-- What a step of the running thread amounts to. -/
inductive Event
  | silent
  | fails (code : Code)
  | creates (t : Nat)
  | exits (value : Nat)
  /-- `my_pthread_join` returns 0; `released` is the thread whose table entry, stack and ID it
  gave back. -/
  | joins (named released : Nat) (value : Option Nat)
  | inits (m : Nat)
  | waits (m : Nat)
  | locks (m : Nat)
  | unlocks (m : Nat) (next : Option Nat)
  | destroys (m : Nat)
  deriving DecidableEq

/-- The thread whose code runs; before `scheduler_init` that is `main`. -/
def State.current (s : State) : Nat := s.running.getD 0

def State.goto (pc : Pc) (s : State) : State :=
  { s with pc := Function.update s.pc s.current pc }

def State.setThread (t : Nat) (f : MyPthread → MyPthread) (s : State) : State :=
  { s with thread := Function.update s.thread t (f (s.thread t)) }

def State.setMutex (m : Nat) (x : Mutex) (s : State) : State :=
  { s with mutex := Function.update s.mutex m x }

/-- `setitimer(ITIMER_VIRTUAL, pause, cont)` -/
def State.pauseTimer (s : State) : State := { s with cont := s.armed, armed := false }

/-- `setitimer(ITIMER_VIRTUAL, cont, NULL)` -/
def State.resumeTimer (s : State) : State := { s with armed := s.cont }

/-- `enqueue(t, priority_level[p])` -/
def enqueue (t : Nat) (p : Int) (s : State) : State :=
  { s with level := Function.update s.level p (s.level p ++ [t]) }

/-- `get_next(priority_level[p])` -/
def getNext (p : Int) (s : State) : Option Nat × State :=
  match s.level p with
  | [] => (none, s)
  | t :: rest => (some t, { s with level := Function.update s.level p rest })

/-- A thread that waited is active again and goes to the queue of its priority. -/
def activate (t : Nat) (s : State) : State :=
  enqueue t (s.thread t).priority (s.setThread t fun x => { x with status := .active })

/-- `get_ID` -/
def getId (s : State) : Int × State :=
  match s.tidList with
  | [] => (if threadLim ≤ s.threadCount then -1 else s.threadCount,
      { s with threadCount := s.threadCount + 1 })
  | tid :: rest => (if threadLim ≤ tid then -1 else tid, { s with tidList := rest })

/-- `free_ID` -/
def freeId (id : Int) (s : State) : State := { s with tidList := id :: s.tidList }

/-- `scheduler_init` -/
def schedulerInit (s : State) : State :=
  { s with
    init := true
    thread := Function.update s.thread 0
      { s.thread 0 with status := .active, priority := 0, intervalsRun := 0, id := 0 }
    running := some 0
    level := fun _ => []
    threadCount := 1
    tidList := []
    threadTable := fun _ => none
    mutexList := fun _ => none
    armed := true }

/-- The `switch` on the status of the running thread; `true` resumes it. -/
def switchStatus (r : Nat) (s : State) : State × Bool :=
  match (s.thread r).status with
  | .active =>
    let runs := (s.thread r).intervalsRun
    let s := s.setThread r fun x => { x with intervalsRun := runs + 1 }
    if runs < s.currentPriority then (s, true)
    else
      let s := s.setThread r fun x =>
        { x with intervalsRun := 0, priority := (x.priority + 1).tmod numPriority }
      (enqueue r (s.thread r).priority s, false)
  | .yield => (enqueue r (s.thread r).priority s, false)
  | .threadExit =>
    match s.waiting (s.thread r).id with
    | none => (s, false)
    | some w => (activate w s, false)
  | .waitThread | .waitMutex => (s, false)

def nextLevel (s : State) : State :=
  { s with currentPriority := (s.currentPriority + 1).tmod numPriority }

/-- The update of the priority counters. -/
def updateCounters (s : State) : State :=
  if s.runAtPriority < numPriority - s.currentPriority then { nextLevel s with runAtPriority := 0 }
  else { s with runAtPriority := s.runAtPriority + 1 }

/-- The loop that looks for a thread level by level, from the current one on; after one round
it never ends. -/
def findThread : Nat → State → Option State
  | 0, _ => none
  | n + 1, s =>
    match getNext s.currentPriority s with
    | (some t, s) => some { s with running := some t }
    | (none, s) => findThread n (nextLevel s)

/-- `scheduler_alarm_handler` -/
def schedulerAlarmHandler (s : State) : Option State :=
  match s.running with
  | none => none
  | some r =>
    let (s, resume) := switchStatus r s.pauseTimer
    if resume then some { s with armed := true }
    else (findThread 6 (updateCounters s)).map fun s => { s with armed := true }

/-- `raise(SIGVTALRM)`; the running thread goes on at `pc` when it is dispatched again. -/
def raise (pc : Pc) (s : State) : Option State := schedulerAlarmHandler (s.goto pc)

/-- The library calls. -/
inductive Call
  | create (t : Nat) (res : Resources)
  | yield
  | exit (value : Nat)
  | join (t : Nat) (valuePtr : Bool)
  | mutexInit (m : Nat) (memory : Bool)
  | lock (m : Option Nat)
  | unlock (m : Nat)
  | destroy (m : Nat)
  deriving DecidableEq

/-- `my_pthread_create`, up to the pause of the timer. -/
def myPthreadCreate (t : Nat) (res : Resources) (s : State) : Option (State × Event) :=
  some ((if s.init then s else schedulerInit s).goto (.creating t res), .silent)

/-- The new thread of `my_pthread_create`. -/
def createThread (t : Nat) (s : State) : State :=
  let (id, s) := getId s
  let s := s.setThread t fun _ =>
    { id := id, waitId := -1, priority := 0, intervalsRun := 0, ret := 0, status := .active }
  enqueue t 0
    { s with
      pc := Function.update s.pc t .own
      threadTable := Function.update s.threadTable id (some t)
      waiting := Function.update s.waiting id none
      done := Function.update s.done id false }

/-- The rest of `my_pthread_create`. -/
def creating (t : Nat) (res : Resources) (s : State) : Option (State × Event) :=
  let s := s.pauseTimer
  match res with
  | .noContext => some (s.resumeTimer.goto .own, .fails .failed)
  | .noStack => some (s.resumeTimer.goto .own, .fails .EAGAIN)
  | .available => some ((createThread t s).resumeTimer.goto .own, .creates t)

/-- `my_pthread_yield`, up to the signal. -/
def myPthreadYield (s : State) : Option (State × Event) := do
  let r ← s.running
  return ((s.setThread r fun x => { x with status := .yield }).goto .yieldRaise, .silent)

/-- `pthread_exit` -/
def pthreadExit (value : Nat) (s : State) : Option (State × Event) := do
  let r ← s.running
  let s := s.pauseTimer.setThread r fun x => { x with ret := value, status := .threadExit }
  let s ← raise .exited { s with done := Function.update s.done (s.thread r).id true }
  return (s, .exits value)

/-- `my_pthread_join` up to the scan of `waiting`; the thread is passed by value. -/
def myPthreadJoin (t : Nat) (valuePtr : Bool) (s : State) : Option (State × Event) := do
  let r ← s.running
  let thread := s.thread t
  if (s.thread r).id = thread.id then return (s, .fails .EDEADLK)
  else if thread.waitId = (s.thread r).id then return (s, .fails .EDEADLK)
  else return (s.goto (.joinScan ⟨t, thread.id, valuePtr⟩ 0), .silent)

/-- One round of the scan of `waiting`. -/
def joinScan (j : Target) (i : Nat) (s : State) : Option (State × Event) :=
  if (i : Int) < threadLim then
    match s.waiting i with
    | none => some (s.goto (.joinScan j (i + 1)), .silent)
    | some w =>
      if (s.thread w).waitId = (s.thread s.current).id then
        some (s.goto .own, .fails .EINVAL)
      else some (s.goto (.joinScan j (i + 1)), .silent)
  else some (s.goto (.joinTable j), .silent)

/-- The test of `thread_table`. -/
def joinTable (j : Target) (s : State) : Option (State × Event) :=
  if s.threadTable j.id = none then some (s.goto .own, .fails .ESRCH)
  else some (s.goto (.joinTest j), .silent)

/-- The test of `done`. -/
def joinTest (j : Target) (s : State) : Option (State × Event) :=
  if s.done j.id then some (s.goto (.joinFinish j), .silent)
  else some (s.goto (.joinBlock j), .silent)

/-- The joining thread is entered in `waiting`. -/
def joinBlock (j : Target) (s : State) : Option (State × Event) := do
  let r ← s.running
  let s := s.pauseTimer.setThread r fun x => { x with status := .waitThread, waitId := j.id }
  let s := { s with waiting := Function.update s.waiting j.id (some r) }
  return (s.resumeTimer.goto (.joinRaise j), .silent)

/-- The value is fetched and the finished thread cleaned up. -/
def joinFinish (j : Target) (s : State) : Option (State × Event) := do
  let s := s.pauseTimer
  let u ← s.threadTable j.id
  let value := if j.valuePtr then some (s.thread u).ret else none
  let s := { s with
    waiting := Function.update s.waiting j.id none
    threadTable := Function.update s.threadTable j.id none }
  return ((freeId j.id s).resumeTimer.goto .own, .joins j.thread u value)

/-- `my_pthread_mutex_init` up to the scan of `mutex_list` -/
def myPthreadMutexInit (m : Nat) (memory : Bool) (s : State) : Option (State × Event) :=
  if memory then
    some ((s.setMutex m { s.mutex m with waiting := some [] }).goto (.initScan m 0), .silent)
  else some (s.setMutex m { s.mutex m with waiting := none }, .fails .ENOMEM)

/-- One round of the scan for a mutex in use. -/
def initScan (m i : Nat) (s : State) : Option (State × Event) :=
  if i < mutexLim then
    if s.mutexList i = some m then some (s.goto .own, .fails .EBUSY)
    else some (s.goto (.initScan m (i + 1)), .silent)
  else some (s.goto (.initUser m), .silent)

def initUser (m : Nat) (s : State) : Option (State × Event) :=
  some ((s.setMutex m { s.mutex m with user := none }).goto (.initAdd m 0), .silent)

/-- One round of the search for a free place in `mutex_list`. -/
def initAdd (m i : Nat) (s : State) : Option (State × Event) :=
  if i < mutexLim then
    if s.mutexList i = none then some (s.goto (.initStore m i), .silent)
    else some (s.goto (.initAdd m (i + 1)), .silent)
  else some (s.goto .own, .inits m)

def initStore (m i : Nat) (s : State) : Option (State × Event) :=
  some ({ s with mutexList := Function.update s.mutexList i (some m) }.goto .own, .inits m)

/-- `my_pthread_mutex_lock`, up to the signal if it has to wait -/
def myPthreadMutexLock (m : Option Nat) (s : State) : Option (State × Event) :=
  let s := s.pauseTimer
  match m with
  | none => some (s.resumeTimer, .fails .EINVAL)
  | some m =>
    if (s.mutex m).user = s.running then some (s.resumeTimer, .fails .EDEADLK)
    else if (s.mutex m).user = none then
      some ((s.setMutex m { s.mutex m with user := s.running }).resumeTimer, .locks m)
    else do
      let r ← s.running
      let queue ← (s.mutex m).waiting
      let s := s.setMutex m { s.mutex m with waiting := some (queue ++ [r]) }
      let s := s.setThread r fun x => { x with status := .waitMutex }
      return (s.resumeTimer.goto (.lockRaise m), .waits m)

/-- The assignment of `user` after the signal. -/
def lockClaim (m : Nat) (s : State) : Option (State × Event) :=
  some ((s.setMutex m { s.mutex m with user := s.running }).goto (.lockReturn m), .silent)

def lockReturn (m : Nat) (s : State) : Option (State × Event) :=
  some (s.resumeTimer.goto .own, .locks m)

/-- `my_pthread_mutex_unlock` -/
def myPthreadMutexUnlock (m : Nat) (s : State) : Option (State × Event) :=
  let s := s.pauseTimer
  if (s.mutex m).user ≠ s.running then some (s.resumeTimer, .fails .EPERM)
  else do
    let queue ← (s.mutex m).waiting
    match queue with
    | [] => return ((s.setMutex m { s.mutex m with user := none }).resumeTimer, .unlocks m none)
    | w :: rest =>
      let s := activate w (s.setMutex m { waiting := some rest, user := some w })
      return (s.resumeTimer, .unlocks m (some w))

/-- `my_pthread_mutex_destroy`; the error returns leave the timer paused, and the entry of
`mutex_list` stays. -/
def myPthreadMutexDestroy (m : Nat) (s : State) : Option (State × Event) :=
  let s := s.pauseTimer
  if ∃ i ∈ List.range mutexLim, s.mutexList i = some m then
    if (s.mutex m).user = none then do
      let queue ← (s.mutex m).waiting
      let s := queue.foldl (fun s w => activate w s) s
      return ((s.setMutex m { waiting := none, user := none }).resumeTimer, .destroys m)
    else some (s, .fails .EBUSY)
  else some (s, .fails .EINVAL)

/-- A call from the thread's own code. -/
def call (c : Call) (s : State) : Option (State × Event) :=
  match c with
  | .create t res => myPthreadCreate t res s
  | .yield => myPthreadYield s
  | .exit value => pthreadExit value s
  | .join t valuePtr => myPthreadJoin t valuePtr s
  | .mutexInit m memory => myPthreadMutexInit m memory s
  | .lock m => myPthreadMutexLock m s
  | .unlock m => myPthreadMutexUnlock m s
  | .destroy m => myPthreadMutexDestroy m s

/-- The next step inside a call. -/
def advance (s : State) : Option (State × Event) :=
  match s.pc s.current with
  | .unborn | .own | .exited => none
  | .creating t res => creating t res s
  | .yieldRaise => (raise .own s).map fun s => (s, .silent)
  | .joinScan j i => joinScan j i s
  | .joinTable j => joinTable j s
  | .joinTest j => joinTest j s
  | .joinBlock j => joinBlock j s
  | .joinRaise j => (raise (.joinFinish j) s).map fun s => (s, .silent)
  | .joinFinish j => joinFinish j s
  | .initScan m i => initScan m i s
  | .initUser m => initUser m s
  | .initAdd m i => initAdd m i s
  | .initStore m i => initStore m i s
  | .lockRaise m => (raise (.lockClaim m) s).map fun s => (s, .silent)
  | .lockClaim m => lockClaim m s
  | .lockReturn m => lockReturn m s

/-- What happens next: an alarm, a call, or a step inside a call. -/
inductive Action
  | alarm
  | call (c : Call)
  | advance
  deriving DecidableEq

def exec (s : State) : Action → Option (State × Event)
  | .alarm => if s.init ∧ s.armed then (schedulerAlarmHandler s).map fun s => (s, .silent) else none
  | .call c => if s.pc s.current = .own then call c s else none
  | .advance => advance s

/-- The library before the first call; the objects may hold anything. -/
structure Initial (s : State) : Prop where
  init : s.init = false
  pc : s.pc = Function.update (fun _ => .unborn) 0 .own
  running : s.running = none
  level : s.level = fun _ => []
  currentPriority : s.currentPriority = 0
  runAtPriority : s.runAtPriority = 0
  waiting : s.waiting = fun _ => none
  done : s.done = fun _ => false
  mutex : s.mutex = fun _ => { waiting := none, user := none }
  mutexList : s.mutexList = fun _ => none
  armed : s.armed = false

/-- The library and what its threads did so far, oldest first. -/
structure World where
  state : State
  history : List (Nat × Event)

/-- One step, entered in the history under the thread that made it. -/
def WorldStep (a : World) (c : Action) (b : World) : Prop :=
  ∃ s e, exec a.state c = some (s, e) ∧ b = ⟨s, a.history ++ [(a.state.current, e)]⟩

/-- The worlds of the runs whose steps all meet `ok`. -/
def Reached (ok : World → Action → Prop) : World → Prop :=
  Runs.Reach (fun a => Initial a.state ∧ a.history = []) fun a c b => ok a c ∧ WorldStep a c b

end Threads
