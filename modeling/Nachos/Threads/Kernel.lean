/-
# Processes (`threads/ptable.cc`, `threads/pcb.cc`)

The kernel as the threads of user processes see it: the process table with
its bitmap, the PCBs and their semaphores, the ready list, and for every
thread the place its kernel code stands at. A thread runs without being
interrupted from one point where `SetLevel` re-enables interrupts to the
next: the end of a `P`, a `V` or a `Fork`, and any user instruction. So a
step (`Kernel.run` and the system calls) is the code between two such
points, and at such a point (`Pc.at_`) any ready thread may be switched in.
A thread that calls `P` stands in its loop (`Pc.inP`): each pass is a step,
and no switch comes between the call and the first pass. `Halt`, a failed
`ASSERT` and a dereference of a bad pointer have no next step.

The fields marked as history record, for the statements, what no code reads.

Key definitions: `PCB`, `currentThreadId`, `Cont`, `Kernel`, `Kernel.execLocked`,
`Kernel.joinUpdate`, `Kernel.exitUpdate`, `Kernel.remove`, `Kernel.step`.
-/
import Mathlib
import Nachos.Base.Runs
import Nachos.Threads.Semaphore
import Nachos.Userprog.AddrSpace

namespace Nachos

open Bytes (Byte Store)

/-- A C string, without its end. -/
abbrev CString := List Byte

/-- `"main"`, the name of the first thread. -/
def mainName : CString := [109, 97, 105, 110]

/-- `MAX_PROCESS`. -/
def maxProcess : ℕ := 10

/-- The address of a `PCB`, by the order of allocation. -/
abbrev Ptr := ℕ

/-- `class PCB`, its semaphores apart. -/
structure PCB where
  exitcode : ℤ
  numwait : ℤ
  thread : Option Tid
  file : Option CString
  pid : ℕ
  parentID : ℤ
  /-- history: the thread whose `ExecUpdate` allocated it -/
  creator : Tid

/-- `PCB::PCB(int id)`. -/
def PCB.new (id : ℕ) (creator : Tid) : PCB := ⟨0, 0, none, none, id, -1, creator⟩

/-- The loop of `PTable::GetCurrentThreadId` over the slots left: `none` is the
`strcmp` with the file name of a PCB that has none. -/
def searchSlots (pcb : ℕ → Option Ptr) (file : Ptr → Option CString) (name : CString) :
    List ℕ → Option ℤ
  | [] => some (-1)
  | i :: is =>
    match pcb i with
    | none => searchSlots pcb file name is
    | some q =>
      match file q with
      | none => none
      | some n => if n = name then some i else searchSlots pcb file name is

/-- `PTable::GetCurrentThreadId` in a thread called `name`. -/
def currentThreadId (pcb : ℕ → Option Ptr) (file : Ptr → Option CString) (name : CString) :
    Option ℤ :=
  if name = mainName then some 0 else searchSlots pcb file name (List.range' 1 (maxProcess - 1))

/-- The semaphores: `bmsem` of the process table, `addrLock` of the kernel, and
three for each PCB. -/
inductive SemId
  | bmsem | addrLock | joinsem (p : Ptr) | exitsem (p : Ptr) | mutex (p : Ptr)
  deriving DecidableEq

/-- Where kernel code goes on after a point at which interrupts come back;
the arguments are the locals still used. -/
inductive Cont
  /-- a thread's first step, into `AddrSpace::Load` -/
  | begin_
  /-- `Load` has `addrLock` -/
  | loadLocked (h : NoffHeader) (file : List Byte)
  /-- `Load` returns -/
  | loadRet (ok : Bool)
  /-- user code -/
  | user
  /-- `ExecUpdate` has `bmsem` -/
  | execLocked (name : Option CString)
  /-- `PCB::Exec` has `mutex` -/
  | execPcb (p : Ptr) (f : ℕ) (name : CString)
  /-- `PCB::Exec` after `Fork` -/
  | execForked (p : Ptr) (f : ℕ)
  /-- `ExecUpdate` after `PCB::Exec` -/
  | execDone (p : Ptr) (f : ℕ)
  /-- `IncNumWait` of `m` has `mutex` -/
  | incNumWait (cur id : ℕ) (m : Ptr)
  /-- `JoinUpdate` at `JoinWait` -/
  | joinWait (cur id : ℕ)
  /-- `JoinUpdate` at `DecNumWait`, after `JoinWait` of `q` -/
  | joinDec (cur id : ℕ) (q : Ptr)
  /-- `DecNumWait` of `m` has `mutex` -/
  | decNumWait (id : ℕ) (m : Ptr)
  /-- `JoinUpdate` at `ExitRelease` -/
  | exitRelease (id : ℕ)
  /-- `JoinUpdate` at its `return` -/
  | joinRet (id : ℕ)
  /-- `ExitUpdate` at `ExitWait` -/
  | exitWait (cur : ℕ+)
  /-- `ExitUpdate` at `Remove`, after `ExitWait` of `q` -/
  | exitRemove (cur : ℕ+) (q : Ptr)

/-- The semaphore whose `P` leads there, if one does. -/
def Cont.sem : Cont → Option SemId
  | .loadLocked _ _ => some .addrLock
  | .execLocked _ => some .bmsem
  | .execPcb p _ _ => some (.mutex p)
  | .incNumWait _ _ m => some (.mutex m)
  | .joinDec _ _ q => some (.joinsem q)
  | .decNumWait _ m => some (.mutex m)
  | .exitRemove _ q => some (.exitsem q)
  | _ => none

/-- Where a thread stands: at a point where it may be switched out, in the
loop of the `P` before one, or at its end. -/
inductive Pc
  | at_ (k : Cont)
  | inP (k : Cont)
  | finished

/-- `class Thread`; `space` is the address space its `Load` filled. -/
structure Thread where
  name : CString
  pc : Pc
  space : Option AddrSpace
  /-- the scheduler has deleted the thread -/
  destroyed : Bool
  /-- history: the slot and the PCB it was created for -/
  slot : ℕ
  own : Ptr
  /-- history: the status it called `ExitUpdate` with -/
  status : Option ℤ
  /-- history: the pids its `ExecUpdate`s returned and the threads they created, last first -/
  kids : List (ℕ × Tid)
  /-- history: for every `JoinUpdate` that returned its argument, the child of the last
  `ExecUpdate` that had returned it, and the value -/
  joins : List (ℕ × Option Tid × ℤ)

/-- `Thread::Thread`, for slot `f` and PCB `p`. -/
def Thread.new (name : CString) (f : ℕ) (p : Ptr) : Thread :=
  ⟨name, .at_ .begin_, none, false, f, p, none, [], []⟩

/-- The kernel: scheduler, process table and physical memory. -/
structure Kernel where
  current : Option Tid
  readyList : List Tid
  toBeDestroyed : Option Tid
  threads : Tid → Option Thread
  nthreads : ℕ
  pcbs : Ptr → PCB
  npcbs : ℕ
  sem : SemId → Semaphore
  psize : ℤ
  bm : Bitmap
  pcb : ℕ → Option Ptr
  gPhysPageBitMap : Bitmap
  mainMemory : Store

namespace Kernel

/-- What happens next. -/
inductive Label
  /-- the `k`-th ready thread is switched in; the scheduler's choice is `k = 0` -/
  | switch (k : ℕ)
  /-- the current thread's kernel code goes on -/
  | run
  /-- a new thread calls `Load`; its file opens with these bytes, or does not -/
  | load (file : Option (List Byte)) (stack : ℕ → Byte)
  /-- `ExecUpdate` goes on; its file opens or does not -/
  | locked (found : Bool)
  /-- system calls -/
  | exec (name : Option CString)
  | join (id : ℤ)
  | exit (status : ℤ)

def setThread (s : Kernel) (t : Tid) (th : Thread) : Kernel :=
  { s with threads := Function.update s.threads t (some th) }

def setPcb (s : Kernel) (p : Ptr) (b : PCB) : Kernel :=
  { s with pcbs := Function.update s.pcbs p b }

/-- One pass of the loop of `P`; a thread that must wait gives up the CPU. -/
def p (s : Kernel) (t : Tid) (th : Thread) (x : SemId) (k : Cont) : Kernel :=
  let r := (s.sem x).pTest t
  { s with
    sem := Function.update s.sem x r.1
    threads := Function.update s.threads t (some { th with pc := if r.2 then .at_ k else .inP k })
    current := if r.2 then s.current else none }

/-- `V`. -/
def v (s : Kernel) (x : SemId) : Kernel :=
  { s with
    sem := Function.update s.sem x (s.sem x).v.1
    readyList := s.readyList ++ (s.sem x).v.2.toList }

/-- `PTable::GetCurrentThreadId` in thread `th`. -/
def getCurrentThreadId (s : Kernel) (th : Thread) : Option ℤ :=
  Nachos.currentThreadId s.pcb (fun q => (s.pcbs q).file) th.name

/-! ### Exec -/

/-- How the checks of `ExecUpdate` end. -/
inductive Decision
  | refuse
  | alloc (cur f : ℕ) (name : CString)

/-- The checks of `ExecUpdate`, to `GetFreeSlot`. -/
def execChecks (s : Kernel) (th : Thread) (name : Option CString) (found : Bool) :
    Option Decision :=
  match name with
  | none => some .refuse
  | some n =>
    if found = false then some .refuse
    else (s.getCurrentThreadId th).bind fun cur =>
      -- `pcb[-1]`
      if cur < 0 then none
      else (s.pcb cur.toNat).bind fun q => (s.pcbs q).file.map fun file =>
        if file = n then .refuse
        else if s.bm.findAndSet.2 = -1 then .refuse
        else .alloc cur.toNat s.bm.findAndSet.2.toNat n

/-- The semaphores of a new PCB. -/
def newSems (sem : SemId → Semaphore) (p : Ptr) : SemId → Semaphore :=
  Function.update (Function.update (Function.update sem (.joinsem p) (Semaphore.new 0))
    (.exitsem p) (Semaphore.new 0)) (.mutex p) (Semaphore.new 1)

/-- `ExecUpdate` with `bmsem` held, to the `P` of `PCB::Exec`. -/
def execLocked (s : Kernel) (t : Tid) (th : Thread) (name : Option CString) (found : Bool) :
    Option Kernel :=
  (s.execChecks th name found).map fun
    | .refuse => (s.setThread t { th with pc := .at_ .user }).v .bmsem
    | .alloc cur f n =>
      { s with
        bm := s.bm.findAndSet.1
        pcb := Function.update s.pcb f (some s.npcbs)
        pcbs := Function.update s.pcbs s.npcbs { PCB.new f t with parentID := cur }
        npcbs := s.npcbs + 1
        sem := newSems s.sem s.npcbs
        threads :=
          Function.update s.threads t (some { th with pc := .inP (.execPcb s.npcbs f n) }) }

/-- `PCB::Exec` with `mutex` held: the thread is created and forked. -/
def execPcb (s : Kernel) (t : Tid) (th : Thread) (p : Ptr) (f : ℕ) (name : CString) : Kernel :=
  { s with
    pcbs := Function.update s.pcbs p
      { s.pcbs p with pid := f, file := some name, thread := some s.nthreads }
    threads :=
      Function.update (Function.update s.threads t (some { th with pc := .at_ (.execForked p f) }))
      s.nthreads (some (Thread.new name f p))
    nthreads := s.nthreads + 1
    readyList := s.readyList ++ [s.nthreads] }

/-- The end of `ExecUpdate`: `psize++; bmsem->V(); return _pid`. -/
def execDone (s : Kernel) (t : Tid) (th : Thread) (p : Ptr) (f : ℕ) : Kernel :=
  { s.setThread t { th with
      pc := .at_ .user
      kids := ((s.pcbs p).thread.map fun c => (f, c)).toList ++ th.kids } with
    psize := s.psize + 1 }.v .bmsem

/-! ### Join -/

/-- `PTable::IsExist`. -/
def isExist (s : Kernel) (pid : ℤ) : Bool :=
  if pid < 0 ∨ (maxProcess : ℤ) ≤ pid then false else (s.pcb pid.toNat).isSome

/-- `PTable::JoinUpdate` to the `P` of `IncNumWait`; the checks return -1. -/
def joinUpdate (s : Kernel) (t : Tid) (th : Thread) (id : ℤ) : Option Kernel :=
  (s.getCurrentThreadId th).bind fun cur =>
    if s.isExist id = false then some s
    else if id = cur then some s
    else (s.pcb id.toNat).bind fun q =>
      if (s.pcbs q).parentID ≠ cur then some s
      else if cur < 0 then none
      else (s.pcb cur.toNat).map fun m =>
        s.setThread t { th with pc := .inP (.incNumWait cur.toNat id.toNat m) }

/-- `return pcb[id]->GetExitCode()`. -/
def joinRet (s : Kernel) (t : Tid) (th : Thread) (id : ℕ) : Option Kernel :=
  (s.pcb id).map fun q => s.setThread t { th with
    pc := .at_ .user
    joins := (id, th.kids.lookup id, (s.pcbs q).exitcode) :: th.joins }

/-! ### Exit -/

/-- `PTable::ExitUpdate` to `JoinRelease`. -/
def exitUpdate (s : Kernel) (t : Tid) (th : Thread) (exitcode : ℤ) : Option Kernel :=
  (s.getCurrentThreadId th).bind fun cur =>
    -- otherwise `Halt()`, or `pcb[-1]`
    if h : 0 < cur then (s.pcb cur.toNat).map fun q =>
      ((s.setPcb q { s.pcbs q with exitcode := exitcode }).setThread t
        { th with pc := .at_ (.exitWait ⟨cur.toNat, by omega⟩), status := some exitcode }).v
        (.joinsem q)
    else none

/-- `PTable::Remove(cur)`. The destructor of the PCB calls `Finish`, which
asserts that the PCB's thread is the current one and never returns: the lines
after the `delete` are not reached. A PCB whose `Exec` is still going on has
no thread yet and is freed under it, which is undefined. -/
def remove (s : Kernel) (t : Tid) (th : Thread) (cur : ℕ+) : Option Kernel :=
  match s.pcb cur with
  | none => some (s.setThread t { th with pc := .at_ .user })
  | some q =>
    if (s.pcbs q).thread = some t then
      some { s.setThread t { th with pc := .finished } with
        bm := s.bm.clear cur
        current := none
        toBeDestroyed := some t }
    else none

/-! ### Steps -/

/-- A new thread in `Load`, to the `P` of `addrLock`. A file that does not
open, or is no NOFF file, ends in `Halt` or an `ASSERT`. -/
def beginLoad (s : Kernel) (t : Tid) (th : Thread) (file : Option (List Byte)) (stack : ℕ → Byte) :
    Option Kernel :=
  file.bind fun f =>
    if (readHeader f stack).noffMagic ≠ noffMagicNumber then none
    else some (s.setThread t { th with pc := .inP (.loadLocked (readHeader f stack) f) })

/-- `Load` with `addrLock` held, to its `V`. -/
def loadStep (s : Kernel) (t : Tid) (th : Thread) (h : NoffHeader) (file : List Byte) :
    Option Kernel :=
  match Nachos.loadLocked h file s.gPhysPageBitMap s.mainMemory with
  | .noMemory => some ((s.setThread t { th with pc := .at_ (.loadRet false) }).v .addrLock)
  | .fault _ => none
  | .ok sp bm mem =>
    some ({ s.setThread t { th with pc := .at_ (.loadRet true), space := some sp } with
      gPhysPageBitMap := bm, mainMemory := mem }.v .addrLock)

/-- The current thread's kernel code, to its next point. -/
def run (s : Kernel) (t : Tid) (th : Thread) : Option Kernel :=
  match th.pc with
  | .inP k => k.sem.map fun x => s.p t th x k
  | .at_ (.loadLocked h file) => s.loadStep t th h file
  -- a load that failed ends in `Halt` or an `ASSERT`
  | .at_ (.loadRet ok) => if ok then some (s.setThread t { th with pc := .at_ .user }) else none
  | .at_ (.execPcb p f name) => some (s.execPcb t th p f name)
  | .at_ (.execForked p f) =>
    some ((s.setThread t { th with pc := .at_ (.execDone p f) }).v (.mutex p))
  | .at_ (.execDone p f) => some (s.execDone t th p f)
  | .at_ (.incNumWait cur id m) =>
    some (((s.setPcb m { s.pcbs m with numwait := (s.pcbs m).numwait + 1 }).setThread t
      { th with pc := .at_ (.joinWait cur id) }).v (.mutex m))
  | .at_ (.joinWait cur id) =>
    (s.pcb id).map fun q => s.setThread t { th with pc := .inP (.joinDec cur id q) }
  | .at_ (.joinDec cur id _) =>
    (s.pcb cur).map fun m => s.setThread t { th with pc := .inP (.decNumWait id m) }
  | .at_ (.decNumWait id m) =>
    some (((s.setPcb m { s.pcbs m with numwait := (s.pcbs m).numwait - 1 }).setThread t
      { th with pc := .at_ (.exitRelease id) }).v (.mutex m))
  | .at_ (.exitRelease id) =>
    (s.pcb id).map fun q => (s.setThread t { th with pc := .at_ (.joinRet id) }).v (.exitsem q)
  | .at_ (.joinRet id) => s.joinRet t th id
  | .at_ (.exitWait cur) =>
    (s.pcb cur).map fun q => s.setThread t { th with pc := .inP (.exitRemove cur q) }
  | .at_ (.exitRemove cur _) => s.remove t th cur
  | _ => none

/-- A step of the current thread `t`. -/
def stepOf (s : Kernel) (t : Tid) (th : Thread) : Label → Option Kernel
  | .switch _ => none
  | .run => s.run t th
  | .load file stack =>
    match th.pc with
    | .at_ .begin_ => s.beginLoad t th file stack
    | _ => none
  | .locked found =>
    match th.pc with
    | .at_ (.execLocked name) => s.execLocked t th name found
    | _ => none
  | .exec name =>
    match th.pc with
    | .at_ .user => some (s.setThread t { th with pc := .inP (.execLocked name) })
    | _ => none
  | .join id =>
    match th.pc with
    | .at_ .user => s.joinUpdate t th id
    | _ => none
  | .exit status =>
    match th.pc with
    | .at_ .user => s.exitUpdate t th status
    | _ => none

/-- `Scheduler::CheckToBeDestroyed`. -/
def checkToBeDestroyed (s : Kernel) : Kernel :=
  match s.toBeDestroyed with
  | none => s
  | some d =>
    { s with
      threads :=
        Function.update s.threads d ((s.threads d).map fun th => { th with destroyed := true })
      toBeDestroyed := none }

/-- `Scheduler::Run(next)`. -/
def dispatch (s : Kernel) (t : Tid) : Kernel := { s.checkToBeDestroyed with current := some t }

/-- The current thread is at a point where it may yield. -/
def mayYield (s : Kernel) (t : Tid) : Bool :=
  match s.threads t with
  | some th => match th.pc with
    | .at_ _ => true
    | _ => false
  | none => false

/-- `Yield`, or the end of `Sleep` when no thread runs. -/
def switch (s : Kernel) (k : ℕ) : Option Kernel :=
  s.readyList[k]?.bind fun u =>
    match s.current with
    | none => some ({ s with readyList := s.readyList.eraseIdx k }.dispatch u)
    | some t =>
      if s.mayYield t then some ({ s with readyList := s.readyList.eraseIdx k ++ [t] }.dispatch u)
        else none

def step (s : Kernel) : Label → Option Kernel
  | .switch k => s.switch k
  | l => s.current.bind fun t => (s.threads t).bind fun th => s.stepOf t th l

/-- The kernel after `LoadMainThread(userProgName, currentThread)`. -/
def initial (userProgName : CString) : Kernel where
  current := some 0
  readyList := []
  toBeDestroyed := none
  threads := fun t => if t = 0 then some (Thread.new mainName 0 0) else none
  nthreads := 1
  pcbs := fun _ => { PCB.new 0 0 with file := some userProgName, thread := some 0 }
  npcbs := 1
  sem := fun
    | .bmsem => Semaphore.new 1
    | .addrLock => Semaphore.new 1
    | .joinsem _ => Semaphore.new 0
    | .exitsem _ => Semaphore.new 0
    | .mutex _ => Semaphore.new 1
  psize := 1
  bm := (Bitmap.new maxProcess).mark 0
  pcb := fun i => if i = 0 then some 0 else none
  gPhysPageBitMap := Bitmap.new numPhysPages
  mainMemory := fun _ => 0

/-- The kernel has just started some program. -/
def IsInitial (s : Kernel) : Prop := ∃ userProgName, s = initial userProgName

end Kernel
end Nachos
