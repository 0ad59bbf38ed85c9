import Xv6.Param
import Xv6.Lib.Run

/-!
# `proc.c`: processes on any number of CPUs

The steps are the acquisitions and releases of spinlocks and the updates made while holding one.  A
CPU executes on the kernel stack of a process or in its `scheduler()`.  Where a thread of control
stands is a `Code`: what it does next, and what it does after that.  A section under the lock of a
slot is `lock q o`, `act q o`, `unlock q k`: take `q->lock`, do `o`, release it and go on with `k`.
`sched()` is the pair `save k`, `load k`: `swtch` stores the registers, and then loads those of the
scheduler; when the process is resumed it goes on with `k`.
-/

namespace Xv6.Sched

open Lib Function

/-- A slot of the process table. -/
abbrev Slot : Type := Fin NPROC

/-- The process that `userinit` made. -/
def initproc : Slot := 0

/-- The slots in the order in which the loops of `proc.c` visit them. -/
abbrev slots : List Slot := List.finRange NPROC

inductive PState where
  | unused | used | sleeping | runnable | running | zombie
  deriving DecidableEq

/-- What a process sleeps on: an address.  `wait` sleeps on the address of a slot. -/
inductive Chan where
  | null | proc (p : Slot) | other (n : ℕ)
  deriving DecidableEq

/-- `p->lock`, `wait_lock`, or another spinlock. -/
inductive Lock where
  | proc (p : Slot) | wait | other (n : ℕ)
  deriving DecidableEq

/-- `struct proc`.  Of the page table and the trapframe only matters whether there is one; the saved
context is kept beside the table. -/
structure Proc where
  state : PState
  chan : Chan
  killed : Bool
  xstate : BitVec 32
  pid : BitVec 32
  parent : Option Slot
  sz : ℕ
  pagetable : Bool
  trapframe : Bool
  ofile : Fin NOFILE → Option ℕ
  cwd : Option ℕ

/-- A slot after `procinit`. -/
def Proc.zero : Proc where
  state := .unused
  chan := .null
  killed := false
  xstate := 0
  pid := 0
  parent := none
  sz := 0
  pagetable := false
  trapframe := false
  ofile := fun _ => none
  cwd := none

def freeproc (p : Proc) : Proc :=
  { p with
    trapframe := false
    pagetable := false
    sz := 0
    pid := 0
    parent := none
    chan := .null
    killed := false
    xstate := 0
    state := .unused }

mutual

/-- What the thread of a process does next. -/
inductive Code where
  /-- Code outside `proc.c`, in the kernel with the spinlocks `lks` or in user space. -/
  | run (lks : List ℕ)
  | lock (q : Slot) (o : Op)
  | act (q : Slot) (o : Op)
  | unlock (q : Slot) (k : Code)
  | save (k : Code)
  | load (k : Code)
  /-- The end of `sleep`: acquire `lk`. -/
  | relock (lk : Lock) (k : Code)
  /-- The loop of `wakeup`, with the slots that are left. -/
  | wakeup (chan : Chan) (l : List Slot) (k : Code)
  | kill (pid : BitVec 32) (l : List Slot)
  /-- `kill` returns `v`. -/
  | killRet (v : BitVec 32)
  /-- `exit` once the files are closed: acquire `wait_lock`. -/
  | exitWait (status : BitVec 32)
  | reparent (status : BitVec 32) (l : List Slot)
  /-- The loop of `allocproc`, called by `fork`. -/
  | fork (l : List Slot)
  | forkWait (np : Slot)
  | forkParent (np : Slot)
  | forkRelWait (np : Slot)
  /-- The start of `wait`: acquire `wait_lock`. -/
  | waitLock
  /-- The loop of `wait`; the flag is `havekids`. -/
  | scan (havekids : Bool) (l : List Slot)
  /-- `wait` releases `wait_lock` and returns -1, or the pid of a child whose exit status has been copied out. -/
  | waitRet (r : Option (BitVec 32 × BitVec 32))
  /-- After `sched()` in `exit`: never reached. -/
  | dead

/-- What is done in a section under the lock of a slot. -/
inductive Op where
  | yield (k : Code)
  /-- `sleep` with `p->lock` held: release `lk`. -/
  | sleep (chan : Chan) (lk : Lock) (k : Code)
  | doze (chan : Chan) (lk : Lock) (k : Code)
  | tidy (lk : Lock) (k : Code)
  | wake (chan : Chan) (k : Code)
  | kill (pid : BitVec 32) (l : List Slot)
  | setkilled
  | zombie (status : BitVec 32)
  /-- `exit` releases `wait_lock`. -/
  | exitRel
  /-- The test of `allocproc`, and its allocations. -/
  | alloc (l : List Slot)
  | mem
  /-- `uvmcopy` and the copies that follow it in `fork`. -/
  | copy
  | runnable
  /-- The test of `wait` for one child. -/
  | reap (l : List Slot)
  /-- `killed(p)` in `wait`. -/
  | killed

end

/-- What `scheduler()` does next on a CPU. -/
inductive SCode where
  | scan (i : Slot)
  | test (i : Slot)
  | swtch (i : Slot)
  /-- After `swtch` has come back from the process in slot `i`. -/
  | back (i : Slot)
  | rel (i : Slot)
  /-- `wakeup` by an interrupt handler, before slot `i` is tried. -/
  | wakeup (chan : Chan) (l : List Slot) (i : Slot)
  | wake (chan : Chan) (q : Slot) (l : List Slot) (i : Slot)
  | wakeRel (chan : Chan) (q : Slot) (l : List Slot) (i : Slot)

/-! ### Updates -/

/-- An update of a slot. -/
inductive Upd where
  | runnable (q : Slot)
  | running (q : Slot)
  | doze (q : Slot) (chan : Chan)
  | tidy (q : Slot)
  | wake (q : Slot) (chan : Chan)
  | kill (q : Slot)
  | setkilled (q : Slot)
  /-- `exit` closes the files. -/
  | close (q : Slot)
  | reparent (q : Slot)
  | zombie (q : Slot) (status : BitVec 32)
  | alloc (q : Slot) (pid : BitVec 32)
  | mem (q : Slot)
  | free (q : Slot)
  /-- The child gets what the process `x` has. -/
  | copy (q : Slot) (x : Proc)
  | parent (q p : Slot)
  /-- `exec`, `sbrk`, `open`, `close`, `chdir` change the data of the process itself. -/
  | own (q : Slot) (sz : ℕ) (ofile : Fin NOFILE → Option ℕ) (cwd : Option ℕ)

namespace Upd

/-- The slot that is changed. -/
def slot : Upd → Slot
  | runnable q | running q | doze q _ | tidy q | wake q _ | kill q | setkilled q | close q | reparent q
  | zombie q _ | alloc q _ | mem q | free q | copy q _ | parent q _ | own q _ _ _ => q

def fn : Upd → Proc → Proc
  | runnable _, x => { x with state := .runnable }
  | running _, x => { x with state := .running }
  | doze _ chan, x => { x with chan := chan, state := .sleeping }
  | tidy _, x => { x with chan := .null }
  | wake _ chan, x => if x.state = .sleeping ∧ x.chan = chan then { x with state := .runnable } else x
  | kill _, x => { x with killed := true, state := if x.state = .sleeping then .runnable else x.state }
  | setkilled _, x => { x with killed := true }
  | close _, x => { x with ofile := fun _ => none, cwd := none }
  | reparent _, x => { x with parent := some initproc }
  | zombie _ status, x => { x with xstate := status, state := .zombie }
  | alloc _ pid, x => { x with pid := pid, state := .used }
  | mem _, x => { x with trapframe := true, pagetable := true }
  | free _, x => freeproc x
  | copy _ y, x => { x with sz := y.sz, ofile := y.ofile, cwd := y.cwd }
  | parent _ p, x => { x with parent := some p }
  | own _ sz ofile cwd, x => { x with sz := sz, ofile := ofile, cwd := cwd }

end Upd

/-! ### States -/

structure State (C : Type) where
  proc : Slot → Proc
  /-- The CPU that holds a spinlock. -/
  lock : Lock → Option C
  /-- `c->proc`. -/
  cproc : C → Option Slot
  /-- The process on whose kernel stack a CPU executes; `none` in `scheduler()`. -/
  exec : C → Option Slot
  scode : C → SCode
  code : Slot → Code
  /-- All registers of the process are in `p->context`. -/
  saved : Slot → Bool
  nextpid : BitVec 32

/-- What a thread can do.  `go` is its next step; the flag is the outcome of the allocations and
copies that the step may make.  `tick` is a timer interrupt, `intr` another interrupt, whose handler
calls `wakeup`.  The others are calls of code outside `proc.c`. -/
inductive Act where
  | go (ok : Bool)
  | tick
  | intr (chan : ℕ)
  | acquire (n : ℕ)
  | release (n : ℕ)
  | sleep (chan n : ℕ)
  | wakeup (chan : ℕ)
  | kill (pid : BitVec 32)
  | setkilled
  | exit (status : BitVec 32)
  | fork
  | wait
  | own (sz : ℕ) (ofile : Fin NOFILE → Option ℕ) (cwd : Option ℕ)

/-- What a step does beside moving the thread on. -/
inductive Eff where
  | none
  | acquire (l : Lock)
  | release (l : Lock)
  | upd (u : Upd)
  | save
  | load

mutual

/-- The spinlocks that process `p` holds. -/
def Code.held (p : Slot) : Code → List Lock
  | .run lks => lks.map .other
  | .lock _ o => o.held p
  | .act q o => .proc q :: o.held p
  | .unlock q k => .proc q :: k.held p
  | .save _ | .load _ | .dead => [.proc p]
  | .wakeup _ _ k => k.held p
  | .relock _ _ | .kill _ _ | .killRet _ | .exitWait _ | .fork _ | .forkWait _ | .waitLock => []
  | .reparent _ _ | .forkParent _ | .forkRelWait _ | .scan _ _ | .waitRet _ => [.wait]

/-- The spinlocks that a process holds beside that of the slot. -/
def Op.held (p : Slot) : Op → List Lock
  | .sleep _ lk _ => [lk]
  | .wake _ k => k.held p
  | .zombie _ | .exitRel | .reap _ | .killed => [.wait]
  | .yield _ | .doze _ _ _ | .tidy _ _ | .kill _ _ | .setkilled | .alloc _ | .mem | .copy | .runnable => []

end

def SCode.held : SCode → List Lock
  | .scan _ | .wakeup _ _ _ => []
  | .test i | .swtch i | .back i | .rel i => [.proc i]
  | .wake _ q _ _ | .wakeRel _ q _ _ => [.proc q]

/-! ### Steps of a process -/

section

variable {C : Type} (s : State C) (p : Slot) (ok : Bool)

/-- In the section of slot `q`. -/
def actStep (q : Slot) : Op → Eff × Code
  | .yield k => (.upd (.runnable q), .save (.unlock q k))
  | .sleep chan lk k => (.release lk, .act q (.doze chan lk k))
  | .doze chan lk k => (.upd (.doze q chan), .save (.act q (.tidy lk k)))
  | .tidy lk k => (.upd (.tidy q), .unlock q (.relock lk k))
  | .wake chan k => (.upd (.wake q chan), .unlock q k)
  | .kill pid l =>
    if (s.proc q).pid = pid then (.upd (.kill q), .unlock q (.killRet 0))
    else (.none, .unlock q (.kill pid l))
  | .setkilled => (.upd (.setkilled q), .unlock q (.run []))
  | .zombie status => (.upd (.zombie q status), .act q .exitRel)
  | .exitRel => (.release .wait, .save .dead)
  | .alloc l =>
    if (s.proc q).state = .unused then (.upd (.alloc q s.nextpid), .act q .mem)
    else (.none, .unlock q (.fork l))
  | .mem => if ok then (.upd (.mem q), .act q .copy) else (.upd (.free q), .unlock q (.run []))
  | .copy =>
    if ok then (.upd (.copy q (s.proc p)), .unlock q (.forkWait q))
    else (.upd (.free q), .unlock q (.run []))
  | .runnable => (.upd (.runnable q), .unlock q (.run []))
  | .reap l =>
    if (s.proc q).state = .zombie then
      -- `copyout` of the exit status
      if ok then (.upd (.free q), .unlock q (.waitRet (some ((s.proc q).pid, (s.proc q).xstate))))
      else (.none, .unlock q (.waitRet none))
    else (.none, .unlock q (.scan true l))
  | .killed =>
    (.none, .unlock q (if (s.proc q).killed then .waitRet none
      else .lock q (.sleep (.proc q) .wait (.scan false slots))))

/-- The channel of `wakeup(p->parent)`. -/
def parentChan : Option Slot → Chan
  | some p => .proc p
  | none => .null

/-- The next step of the thread. -/
def go : Code → Option (Eff × Code)
  | .run _ | .dead => none
  | .lock q o => some (.acquire (.proc q), .act q o)
  | .act q o => some (actStep s p ok q o)
  | .unlock q k => some (.release (.proc q), k)
  | .save k => some (.save, .load k)
  | .load k => some (.load, k)
  | .relock lk k => some (.acquire lk, k)
  | .wakeup _ [] k => some (.none, k)
  | .wakeup chan (q :: l) k =>
    if q = p then some (.none, .wakeup chan l k)
    else some (.none, .lock q (.wake chan (.wakeup chan l k)))
  | .kill _ [] => some (.none, .killRet (-1))
  | .kill pid (q :: l) => some (.none, .lock q (.kill pid l))
  | .killRet _ => some (.none, .run [])
  | .exitWait status => some (.acquire .wait, .reparent status slots)
  | .reparent status [] =>
    some (.none, .wakeup (parentChan (s.proc p).parent) slots (.lock p (.zombie status)))
  | .reparent status (q :: l) =>
    if (s.proc q).parent = some p then
      some (.upd (.reparent q), .wakeup (.proc initproc) slots (.reparent status l))
    else some (.none, .reparent status l)
  | .fork [] => some (.none, .run [])
  | .fork (q :: l) => some (.none, .lock q (.alloc l))
  | .forkWait np => some (.acquire .wait, .forkParent np)
  | .forkParent np => some (.upd (.parent np p), .forkRelWait np)
  | .forkRelWait np => some (.release .wait, .lock np .runnable)
  | .waitLock => some (.acquire .wait, .scan false slots)
  | .scan havekids [] => some (.none, if havekids then .lock p .killed else .waitRet none)
  | .scan havekids (q :: l) =>
    if (s.proc q).parent = some p then some (.none, .lock q (.reap l))
    else some (.none, .scan havekids l)
  | .waitRet _ => some (.release .wait, .run [])

/-- What code outside `proc.c` does, when it holds the spinlocks `lks`. -/
def call (lks : List ℕ) : Act → Option (Eff × Code)
  | .go _ | .tick | .intr _ => none
  | .acquire n => some (.acquire (.other n), .run (n :: lks))
  | .release n => if n ∈ lks then some (.release (.other n), .run (lks.erase n)) else none
  | .sleep chan n =>
    if lks = [n] then some (.none, .lock p (.sleep (.other chan) (.other n) (.run [n]))) else none
  | .wakeup chan => some (.none, .wakeup (.other chan) slots (.run lks))
  | .kill pid => if lks = [] then some (.none, .kill pid slots) else none
  | .setkilled => if lks = [] then some (.none, .lock p .setkilled) else none
  | .exit status => if lks = [] ∧ p ≠ initproc then some (.upd (.close p), .exitWait status) else none
  | .fork => if lks = [] then some (.none, .fork slots) else none
  | .wait => if lks = [] then some (.none, .waitLock) else none
  | .own sz ofile cwd => some (.upd (.own p sz ofile cwd), .run lks)

/-- What process `p` does at `k`.  Interrupts are off while a spinlock is held. -/
def next (a : Act) (k : Code) : Option (Eff × Code) :=
  match a with
  | .go ok => go s p ok k
  | .tick => if k.held p = [] then some (.none, .lock p (.yield k)) else none
  | .intr chan => if k.held p = [] then some (.none, .wakeup (.other chan) slots k) else none
  | a =>
    match k with
    | .run lks => call p lks a
    | _ => none

end

section

variable {C : Type} [DecidableEq C] (s : State C)

def State.setLock (l : Lock) (x : Option C) : State C := { s with lock := update s.lock l x }

def State.setCode (p : Slot) (k : Code) : State C := { s with code := update s.code p k }

def State.setScode (c : C) (k : SCode) : State C := { s with scode := update s.scode c k }

/-- An update.  `allocpid` counts on; `allocproc` sets up a context that starts in `forkret`, which
releases `p->lock`. -/
def State.upd (u : Upd) : State C :=
  { s with
    proc := update s.proc u.slot (u.fn (s.proc u.slot))
    nextpid :=
      match u with
      | .alloc _ _ => s.nextpid + 1
      | _ => s.nextpid
    code :=
      match u with
      | .mem q => update s.code q (.unlock q (.run []))
      | _ => s.code
    saved :=
      match u with
      | .mem q => update s.saved q true
      | _ => s.saved }

/-- A step of process `p` on CPU `c`; a release by another CPU would panic. -/
def State.effect (c : C) (p : Slot) : Eff → Option (State C)
  | .none => some s
  | .acquire l => if s.lock l = none then some (s.setLock l (some c)) else none
  | .release l => if s.lock l = some c then some (s.setLock l none) else none
  | .upd u => some (s.upd u)
  | .save => some { s with saved := update s.saved p true }
  | .load => some { s with exec := update s.exec c none }

def procStep (c : C) (p : Slot) (a : Act) : Option (State C) :=
  (next s p a (s.code p)).bind fun r => (s.effect c p r.1).map fun s' => s'.setCode p r.2

/-! ### Steps of `scheduler()` -/

def acquireStep (c : C) (q : Slot) (k : SCode) : Option (State C) :=
  if s.lock (.proc q) = none then some ((s.setLock (.proc q) (some c)).setScode c k) else none

def releaseStep (c : C) (q : Slot) (k : SCode) : Option (State C) :=
  if s.lock (.proc q) = some c then some ((s.setLock (.proc q) none).setScode c k) else none

def schedGo (c : C) : Option (State C) :=
  match s.scode c with
  | .scan i => acquireStep s c i (.test i)
  | .test i =>
    if (s.proc i).state = .runnable then
      some (({ s with cproc := update s.cproc c (some i) }.upd (.running i)).setScode c (.swtch i))
    else some (s.setScode c (.rel i))
  | .swtch i =>
    some ({ s with
      exec := update s.exec c (some i)
      saved := update s.saved i false }.setScode c (.back i))
  | .back i => some ({ s with cproc := update s.cproc c none }.setScode c (.rel i))
  | .rel i => releaseStep s c i (.scan (i + 1))
  | .wakeup _ [] i => some (s.setScode c (.scan i))
  | .wakeup chan (q :: l) i => acquireStep s c q (.wake chan q l i)
  | .wake chan q l i => some ((s.upd (.wake q chan)).setScode c (.wakeRel chan q l i))
  | .wakeRel chan q l i => releaseStep s c q (.wakeup chan l i)

def schedStep (c : C) : Act → Option (State C)
  | .go _ => schedGo s c
  | .intr chan =>
    match s.scode c with
    | .scan i => some (s.setScode c (.wakeup (.other chan) slots i))
    | _ => none
  | _ => none

/-- A step of CPU `c`. -/
def step (a : C × Act) : Option (State C) :=
  match s.exec a.1 with
  | some p => procStep s a.1 p a.2
  | none => schedStep s a.1 a.2

end

/-- After `userinit`: the first process is ready to run, and every CPU enters `scheduler()`. -/
def init (C : Type) : State C where
  proc p :=
    if p = initproc then
      { Proc.zero with state := .runnable, pid := 1, sz := 4096, pagetable := true, trapframe := true, cwd := some 0 }
    else Proc.zero
  lock _ := none
  cproc _ := none
  exec _ := none
  scode _ := .scan 0
  code p := if p = initproc then .unlock p (.run []) else .dead
  saved p := p = initproc
  nextpid := 2

end Xv6.Sched
