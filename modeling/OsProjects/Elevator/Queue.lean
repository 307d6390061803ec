import OsProjects.Framework.Machine
import OsProjects.Framework.Ring

/-!
# The elevator's queue

`sstf-iosched.c`: the requests of an I/O scheduler on one circular list.
`add_req` looks for a place with two cursors, forwards or backwards from the head
of the list; a cursor that reaches the head is taken for a request there, and
what stands where its sector would be is whatever happens to be in memory
(`stray`, a value for each comparison). The loop then may not end, so it is given
fuel, and `none` is a call that has not returned.

A run is any sequence of the operations on an empty queue. Links of requests
that are not queued belong to others, who may change them at any time
(`relink`); `elv_dispatch_sort`, for one, puts what it is handed on another list.
The log of a run, latest event first, says which requests are pending.
-/

namespace OsProjects.Elevator

open Framework

variable {Req : Type} [DecidableEq Req]

/-- Where a `struct list_head` is: in `struct sstf_data` or in a request. -/
inductive ListHead (Req : Type) where
  | queue
  | queuelist (r : Req)
deriving DecidableEq, Repr

/-! ## `add_req` -/

/-- `blk_rq_pos(list_entry(x, struct request, queuelist))` -/
def blkRqPos (pos : Req → Nat) (stray : Nat) : ListHead Req → Nat
  | .queue => stray
  | .queuelist r => pos r

section Search

variable (pos : Req → Nat) (l : Links (ListHead Req)) (p : Nat) (stray : Nat → Nat)

/-- `while (blk_rq_pos(req) > blk_rq_pos(next)) { prev = next; … }`: what `prev`
is in the end. `n` counts the comparisons. -/
def forwardLoop : Nat → Nat → ListHead Req → ListHead Req → Option (ListHead Req)
  | 0, _, _, _ => none
  | fuel + 1, n, prev, next =>
      if p > blkRqPos pos (stray n) next then forwardLoop fuel (n + 1) next (l.next next)
      else some prev

/-- `while (blk_rq_pos(req) > blk_rq_pos(prev)) { next = prev; … }`: what `next`
is in the end. -/
def backwardLoop : Nat → Nat → ListHead Req → ListHead Req → Option (ListHead Req)
  | 0, _, _, _ => none
  | fuel + 1, n, prev, next =>
      if p > blkRqPos pos (stray n) prev then backwardLoop fuel (n + 1) (l.prev prev) prev
      else some next

end Search

/-- `list_for_each_entry(iter, &nd->queue, queuelist)`, from `x` on. -/
def entries (l : Links (ListHead Req)) : Nat → ListHead Req → Option (List Req)
  | 0, _ => none
  | _ + 1, .queue => some []
  | fuel + 1, .queuelist r => (entries l fuel (l.next (.queuelist r))).map (r :: ·)

/-- The node `add_req` adds its request after, in a list that is not empty. -/
def findPlace (pos : Req → Nat) (l : Links (ListHead Req)) (req : Req) (stray : Nat → Nat)
    (fuel : Nat) : Option (ListHead Req) :=
  let next := l.next .queue
  let prev := l.prev .queue
  if pos req > blkRqPos pos (stray 0) next then forwardLoop pos l (pos req) stray fuel 0 prev next
  else backwardLoop pos l (pos req) stray fuel 0 prev next

/-- `add_req`: the links it leaves and the positions it prints. -/
def addReq (pos : Req → Nat) (l : Links (ListHead Req)) (req : Req) (stray : Nat → Nat)
    (fuel : Nat) : Option (Links (ListHead Req) × List Nat) :=
  if listEmpty l .queue then some (listAdd l (.queuelist req) .queue, [])
  else
    match findPlace pos l req stray fuel with
    | none => none
    | some p =>
        let l' := listAdd l (.queuelist req) p
        (entries l' fuel (l'.next .queue)).map fun rs => (l', rs.map pos)

/-! ## The other operations -/

/-- `list_entry(x, struct request, queuelist)`, or `NULL` at the head. -/
def entry : ListHead Req → Option Req
  | .queue => none
  | .queuelist r => some r

def formerReq (l : Links (ListHead Req)) (req : Req) : Option Req :=
  entry (l.prev (.queuelist req))

def latterReq (l : Links (ListHead Req)) (req : Req) : Option Req :=
  entry (l.next (.queuelist req))

/-- `merge_req`, which only uses `next`. -/
def mergeReq (l : Links (ListHead Req)) (next : Req) : Links (ListHead Req) :=
  listDelInit l (.queuelist next)

/-- `dispatch_req`: the links it leaves, what it hands to `elv_dispatch_sort`, and
what it returns. -/
def dispatchReq (l : Links (ListHead Req)) : Links (ListHead Req) × Option Req × Nat :=
  match l.next .queue with
  | .queue => (l, none, 0)
  | .queuelist r => (listDelInit l (.queuelist r), some r, 1)

/-- `BUG_ON(!list_empty(&data->queue))` in `exit_sstf`. -/
def exitBug (l : Links (ListHead Req)) : Bool := !listEmpty l .queue

/-! ## Runs -/

inductive Event (Req : Type) where
  | added (r : Req)
  | merged (r : Req)
  | dispatched (r : Req)   -- handed to `elv_dispatch_sort`
deriving DecidableEq, Repr

/-- Added, and not merged or dispatched since. -/
def pending : List (Event Req) → Req → Bool
  | [], _ => false
  | .added q :: log, r => if q = r then true else pending log r
  | .merged q :: log, r => if q = r then false else pending log r
  | .dispatched q :: log, r => if q = r then false else pending log r

structure State (Req : Type) where
  links : Links (ListHead Req)
  log : List (Event Req)

inductive Label (Req : Type) where
  | add (req : Req) (stray : Nat → Nat) (fuel : Nat)
  | merge (next : Req)
  | dispatch
  | relink (req : Req) (next prev : ListHead Req)

/-- One call. Only requests that are not queued are added, and only queued ones
are merged. -/
def next (pos : Req → Nat) (s : State Req) : Label Req → Option (State Req)
  | .add req stray fuel =>
      if pending s.log req then none
      else (addReq pos s.links req stray fuel).map fun out => ⟨out.1, .added req :: s.log⟩
  | .merge r =>
      if pending s.log r then some ⟨mergeReq s.links r, .merged r :: s.log⟩ else none
  | .dispatch =>
      match dispatchReq s.links with
      | (_, none, _) => some s
      | (l, some r, _) => some ⟨l, .dispatched r :: s.log⟩
  | .relink req nx pv =>
      if pending s.log req then none
      else some { s with links :=
        { next := Function.update s.links.next (.queuelist req) nx
          prev := Function.update s.links.prev (.queuelist req) pv } }

/-- `init_sstf` leaves the queue empty; the requests' links are anything. -/
def machine (pos : Req → Nat) : Machine (State Req) (Label Req) :=
  ⟨fun s => ∃ l, s = ⟨initListHead l .queue, []⟩, next pos⟩

end OsProjects.Elevator
