/-
# The producer and the consumer (`test/producer.c`, `test/consumer.c`)

Two user programs that hand items over in the file `items.txt`: the content is a
digit for each item and an `e`. Three named semaphores coordinate them, one for
the file, one that counts the items and one that counts the room for items.

A program is a command over its variables, and its system calls are steps on
what the kernel keeps for all programs (`World`). Which descriptor the host
gives is a parameter. `Write` to the console puts one character at a time, and
another program may run in between. A program that has come to its `Halt()`,
which exits, has ended here.

Key definitions: `World`, `World.wait`, `World.signal`, `producerPass`, `producer`, `consumerPass`,
`consumer`.
-/
import Mathlib
import Nachos.Base.Programs
import Nachos.Userprog.FileStore

namespace Nachos

open Bytes (Byte)
open Programs (Cmd Outcome)

namespace Items

/-! ### Texts -/

/-- `"items.txt"`. -/
def itemsTxt : List Byte := [105, 116, 101, 109, 115, 46, 116, 120, 116]
/-- `"accessItem"`. -/
def accessItem : List Byte := [97, 99, 99, 101, 115, 115, 73, 116, 101, 109]
/-- `"empty"`: the items there are. -/
def empty : List Byte := [101, 109, 112, 116, 121]
/-- `"full"`: the items there is room for. -/
def full : List Byte := [102, 117, 108, 108]
/-- `"Produce:"`. -/
def produceText : List Byte := [80, 114, 111, 100, 117, 99, 101, 58]
/-- `"Consume:"`. -/
def consumeText : List Byte := [67, 111, 110, 115, 117, 109, 101, 58]
def newline : Byte := 10
def char0 : Byte := 48
def char9 : Byte := 57
def charE : Byte := 101

/-! ### The kernel -/

/-- The two programs. -/
inductive Party
  | producer | consumer
  deriving DecidableEq

instance : Fintype Party := ⟨{.producer, .consumer}, fun p => by cases p <;> decide⟩

/-- What the programs share. -/
structure World where
  files : FileStore
  console : List Byte
  /-- the semaphores by name -/
  sems : List Byte → Option ℤ
  /-- the `Wait`s of each program that have returned 0, less its `Signal`s -/
  held : Party → List Byte → ℤ

namespace World

def setSem (s : World) (p : Party) (name : List Byte) (value change : ℤ) : World :=
  { s with
    sems := Function.update s.sems name (some value)
    held := Function.update s.held p (Function.update (s.held p) name (s.held p name + change)) }

/-- `Wait`. The thread sleeps while the value is 0. -/
def wait (s : World) (p : Party) (name : List Byte) : Outcome (World × ℤ) :=
  match s.sems name with
  | none => .next (s, -1)
  | some value => if value = 0 then .blocked else .next (s.setSem p name (value - 1) 1, 0)

/-- `Signal`. -/
def signal (s : World) (p : Party) (name : List Byte) : Outcome (World × ℤ) :=
  match s.sems name with
  | none => .next (s, -1)
  | some value => .next (s.setSem p name (value + 1) (-1), 0)

end World

section Calls

variable {σ : Type}

def sysWait (p : Party) (name : List Byte) : Cmd σ World :=
  .call fun l s => (s.wait p name).map fun r => (l, r.1)

def sysSignal (p : Party) (name : List Byte) : Cmd σ World :=
  .call fun l s => (s.signal p name).map fun r => (l, r.1)

/-- A call on the files and the console. -/
def io (a : σ → FileStore → List Byte → Outcome (σ × FileStore × List Byte)) : Cmd σ World :=
  .call fun l s => (a l s.files s.console).map fun r =>
    (r.1, { s with files := r.2.1, console := r.2.2 })

/-- A call on the files that gives a result. -/
def onFiles (a : σ → FileStore → Outcome (FileStore × ℤ)) (set : σ → ℤ → σ) : Cmd σ World :=
  io fun l fs console => (a l fs).map fun r => (set l r.2, r.1, console)

/-- One character of `Write` to the console, which stops at a zero. -/
def putChar (c : σ → Byte) : Cmd σ World :=
  io fun l fs console => .next (l, fs, console ++ FileDescriptor.cstr [c l])

/-- `Write` of a text to the console. -/
def print (text : List Byte) : Cmd σ World := .block (text.map fun c => putChar fun _ => c)

end Calls

/-- `a[i] = b`. -/
def store (a : List Byte) (i : ℕ) (b : Byte) : Option (List Byte) :=
  if i < a.length then some (a.set i b) else none

/-! ### `producer.c` -/

def maxItemsProduce : ℕ := 20

/-- The variables of `producer.c`. -/
structure ProducerVars where
  file_id : ℤ
  num_item : ℕ
  c : Byte
  list_items : List Byte
  new_item : Byte
  num_item_produced : ℕ
  last_item : ℤ
  /-- the result of the last `Read` -/
  numRead : ℤ

/-- The test for an item in the file. -/
def isItem (c : Byte) : Bool := c ≠ charE ∧ char0.toInt ≤ c.toInt ∧ c.toInt ≤ char9.toInt

section Programs

variable (newFd : FileStore → ℤ)

/-- `Open("items.txt", type)`. -/
def openItems {σ : Type} (type : ℤ) (set : σ → ℤ → σ) : Cmd σ World :=
  onFiles (fun _ fs => .next (fs.open_ itemsTxt type (newFd fs))) set

/-- `Close`, `Remove("items.txt")`, `Create("items.txt")` and `Open` again. -/
def replaceItems {σ : Type} (id : σ → ℤ) (set : σ → ℤ → σ) : List (Cmd σ World) :=
  [onFiles (fun l fs => .next (fs.close (id l))) fun l _ => l,
   onFiles (fun _ fs => .next (fs.remove itemsTxt)) fun l _ => l,
   onFiles (fun _ fs => .next (fs.create itemsTxt)) fun l _ => l,
   openItems newFd readWriteFile set]

/-- `Read(&c, 1, file_id)`; a program reads no more than a file here. -/
def readChar : Cmd ProducerVars World :=
  io fun l fs console => (fs.read (fun _ => 0) [l.c] l.file_id).map fun r =>
    ({ l with c := r.2.1.headD 0, numRead := r.2.2 }, r.1, console)

/-- `list_items[num_item++] = b`. -/
def push (l : ProducerVars) (b : Byte) : Option ProducerVars :=
  (store l.list_items l.num_item b).map fun a =>
    { l with list_items := a, num_item := l.num_item + 1 }

/-- The item after the last one. -/
def succItem (last : ℤ) : Byte :=
  if char9.toInt < (BitVec.ofInt 8 (last + 1)).toInt then char0 else BitVec.ofInt 8 (last + 1)

/-- The body of the loop over the file. -/
def scanItem : List (Cmd ProducerVars World) :=
  [.ite (fun l => some (isItem l.c)) (.assign fun l => push l l.c) .skip,
   readChar]

/-- The new item and the `e` behind it. -/
def makeItem : Cmd ProducerVars World :=
  .ite (fun l => some (l.num_item = 0))
    (.assign fun l => do
      let l ← push l char0
      let l ← push l charE
      some { l with new_item := char0 })
    (.assign fun l => do
      let last ← l.list_items[l.num_item - 1]?
      let l := { l with last_item := last.toInt, new_item := succItem last.toInt }
      let l ← push l l.new_item
      push l charE)

/-- One pass of the loop of `producer.c`. -/
def producerPass : List (Cmd ProducerVars World) :=
  [sysWait .producer full,
   sysWait .producer accessItem,
   openItems newFd readWriteFile fun l id => { l with file_id := id },
   onFiles (fun l fs => fs.seek 0 l.file_id) fun l _ => l,
   .assign fun l => some { l with num_item := 0 },
   readChar,
   .while (fun l => some (0 < l.numRead)) (.block scanItem),
   makeItem,
   print produceText,
   putChar fun l => l.new_item,
   print [newline]] ++
  (replaceItems newFd (fun l => l.file_id) (fun l id => { l with file_id := id }) ++
  [onFiles (fun l fs => fs.write (l.list_items.take l.num_item) l.file_id) fun l _ => l,
   .assign fun l => some { l with num_item_produced := l.num_item_produced + 1 },
   onFiles (fun l fs => .next (fs.close l.file_id)) fun l _ => l,
   sysSignal .producer accessItem,
   sysSignal .producer empty])

/-- `main` of `producer.c`, to the final `Halt()`, which is left out: the system
call is a `SysExit(0)`, and the shared state stays. The test that ends the
`while (1)` comes first in its body. -/
def producer : Cmd ProducerVars World :=
  .while (fun l => some (l.num_item_produced < maxItemsProduce)) (.block (producerPass newFd))

/-! ### `consumer.c` -/

def maxItemConsume : ℕ := 10

/-- The variables of `consumer.c`. -/
structure ConsumerVars where
  used_item : Byte
  i : ℕ
  file_id : ℤ
  item : List Byte
  num_new : ℕ
  num_item_consumed : ℕ

/-- One step of the loop that moves the items forward. -/
def shiftItem : Cmd ConsumerVars World :=
  .assign fun l => do
    let next ← l.item[l.i + 1]?
    let item ← store l.item l.i next
    some { l with item := item, i := l.i + 1 }

/-- One pass of the loop of `consumer.c`. -/
def consumerPass : List (Cmd ConsumerVars World) :=
  [sysWait .consumer empty,
   sysWait .consumer accessItem,
   openItems newFd readFile fun l id => { l with file_id := id },
   io fun l fs console => (fs.read (fun _ => 0) l.item l.file_id).map fun r =>
     ({ l with item := r.2.1 }, r.1, console),
   .assign fun l => l.item[0]?.map fun c => { l with used_item := c },
   print consumeText,
   putChar fun l => l.used_item,
   print [newline],
   .assign fun l => some { l with i := 0 },
   .while (fun l => l.item[l.i]?.map (· ≠ charE)) shiftItem,
   .assign fun l => some { l with num_new := l.i }] ++
  (replaceItems newFd (fun l => l.file_id) (fun l id => { l with file_id := id }) ++
  [onFiles (fun l fs => fs.write (l.item.take l.num_new) l.file_id) fun l _ => l,
   onFiles (fun l fs => .next (fs.close l.file_id)) fun l _ => l,
   .assign fun l => some { l with num_item_consumed := l.num_item_consumed + 1 },
   sysSignal .consumer accessItem,
   sysSignal .consumer full])

/-- `main` of `consumer.c`, to the final `Halt()` again. -/
def consumer : Cmd ConsumerVars World :=
  .while (fun l => some (l.num_item_consumed < maxItemConsume)) (.block (consumerPass newFd))

end Programs

end Items

end Nachos
