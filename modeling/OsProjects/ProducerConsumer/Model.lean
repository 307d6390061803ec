import OsProjects.Framework.Machine
import OsProjects.Framework.Mutex
import OsProjects.Framework.Stack

/-!
# The producer/consumer buffer

`produce_consume.c`: threads that run `produce` or `consume`, any number of
each, on one buffer and its mutex `stop`. A step is one line of the program; the
random numbers it draws are in the label. `buffer.entries` is not initialised, and
`pop` leaves an entry where it is.

A run also keeps books that the program does not: every entry made gets a number
of its own (`Job.id`), and there is a history of what went onto the stack and
what was handed to a consumer, and a list of the jobs whose round of the loop is
over.
-/

namespace OsProjects.ProducerConsumer

open Framework

def BUFFSIZE : Int := 32

/-- `struct buffer_entry` -/
structure Entry where
  num : Int
  workTime : Int
deriving DecidableEq, Repr

/-- `struct buffer_arr`, without the mutex. -/
structure Buffer where
  entries : Int → Entry
  size : Int

inductive Printed where
  | stackFull                      -- "error, stack full"
  | cannotPop                      -- "cannot pop. empty stack"
  | produced (num wait : Int)
  | consumed (workTime num : Int)
deriving DecidableEq, Repr

def push (b : Buffer) (e : Entry) : Buffer × Option Printed :=
  if b.size < BUFFSIZE then (⟨Function.update b.entries b.size e, b.size + 1⟩, none)
  else (b, some .stackFull)

def pop (b : Buffer) : Buffer × Entry × Option Printed :=
  if 0 < b.size then ({ b with size := b.size - 1 }, b.entries (b.size - 1), none)
  else (b, b.entries b.size, some .cannotPop)

/-- `abs`, which leaves the most negative `int` as it is. -/
def wrapAbs (raw : BitVec 32) : Int := (if raw.msb then -raw else raw).toInt

/-- `random_num`, from the 32 bits that `rdrand` or `genrand_int32` gave. -/
def randomNum (min max : Int) (raw : BitVec 32) : Int :=
  let tmp := (wrapAbs raw).tmod (max - min)
  if tmp < min then min else tmp

/-! ## Threads -/

/-- An entry a producer has made, its number, and how long the producer slept. -/
structure Job where
  id : Nat
  entry : Entry
  wait : Int
deriving DecidableEq, Repr

/-- What a producer does next. -/
inductive ProducePc where
  | start                    -- draw `wait`
  | asleep (wait : Int)      -- draw `e`
  | ready (job : Job)        -- `pthread_mutex_lock`
  | locked (job : Job)       -- `if (b->size < BUFFSIZE)`
  | pushing (job : Job)      -- `push`
  | printing (job : Job)     -- `printf`
  | leaving (job : Job)      -- `pthread_mutex_unlock`
deriving DecidableEq, Repr

/-- What a consumer does next. -/
inductive ConsumePc where
  | start                    -- `pthread_mutex_lock`
  | locked                   -- `if (b->size > 0)`
  | popping                  -- `pop`
  | working (e : Entry)      -- `sleep`, `printf`
  | leaving                  -- `pthread_mutex_unlock`
deriving DecidableEq, Repr

inductive Pc where
  | produce (p : ProducePc)
  | consume (c : ConsumePc)
deriving DecidableEq, Repr

structure State (T : Type) where
  buffer : Buffer
  stop : Option T                  -- the mutex
  pc : T → Pc
  printed : List Printed           -- latest first
  made : Nat                       -- how many entries have been made
  log : List (StackOp Job Entry)   -- latest first
  ended : List Job                 -- jobs whose round is over, latest first

/-- A thread moves; `raw` and `raw'` are the random bits, if it draws any. -/
structure Label (T : Type) where
  tid : T
  raw : BitVec 32
  raw' : BitVec 32

section Steps

variable {T : Type} [DecidableEq T]

def State.goto (s : State T) (t : T) (pc : Pc) : State T :=
  { s with pc := Function.update s.pc t pc }

def stepProduce (s : State T) (t : T) (raw raw' : BitVec 32) : ProducePc → Option (State T)
  | .start => some (s.goto t (.produce (.asleep (randomNum 3 7 raw))))
  | .asleep wait =>
      let e : Entry := ⟨randomNum 0 10 raw', randomNum 2 9 raw⟩
      some (State.goto { s with made := s.made + 1 } t (.produce (.ready ⟨s.made, e, wait⟩)))
  | .ready job =>
      if s.stop = none then
        some (State.goto { s with stop := some t } t (.produce (.locked job)))
      else none
  | .locked job =>
      if s.buffer.size < BUFFSIZE then some (s.goto t (.produce (.pushing job)))
      else some (s.goto t (.produce (.leaving job)))
  | .pushing job =>
      match push s.buffer job.entry with
      | (b, none) =>
          some (State.goto { s with buffer := b, log := .push job :: s.log } t
            (.produce (.printing job)))
      | (b, some err) =>
          some (State.goto { s with buffer := b, printed := err :: s.printed } t
            (.produce (.printing job)))
  | .printing job =>
      some (State.goto { s with printed := .produced job.entry.num job.wait :: s.printed } t
        (.produce (.leaving job)))
  | .leaving job =>
      some (State.goto { s with stop := none, ended := job :: s.ended } t (.produce .start))

def stepConsume (s : State T) (t : T) : ConsumePc → Option (State T)
  | .start =>
      if s.stop = none then some (State.goto { s with stop := some t } t (.consume .locked))
      else none
  | .locked =>
      if 0 < s.buffer.size then some (s.goto t (.consume .popping))
      else some (s.goto t (.consume .leaving))
  | .popping =>
      match pop s.buffer with
      | (b, e, err) =>
          let printed := err.toList ++ s.printed
          some (State.goto { s with buffer := b, log := .take e :: s.log, printed := printed } t
            (.consume (.working e)))
  | .working e =>
      some (State.goto { s with printed := .consumed e.workTime e.num :: s.printed } t
        (.consume .leaving))
  | .leaving => some (State.goto { s with stop := none } t (.consume .start))

def next (s : State T) (a : Label T) : Option (State T) :=
  match s.pc a.tid with
  | .produce p => stepProduce s a.tid a.raw a.raw' p
  | .consume c => stepConsume s a.tid c

/-- The buffer is initialised and every thread is at the top of its function. -/
structure Booted (s : State T) : Prop where
  size : s.buffer.size = 0
  stop : s.stop = none
  pc : ∀ t, s.pc t = .produce .start ∨ s.pc t = .consume .start
  printed : s.printed = []
  made : s.made = 0
  log : s.log = []
  ended : s.ended = []

def machine (T : Type) [DecidableEq T] : Machine (State T) (Label T) := ⟨Booted, next⟩

end Steps

end OsProjects.ProducerConsumer
