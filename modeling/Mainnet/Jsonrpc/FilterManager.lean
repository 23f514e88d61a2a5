import Mainnet.Jsonrpc.TimeHeap
import Mainnet.Lib.Run

namespace Mainnet.Jsonrpc

open Lib

/-- Where the worker of `Run` is, with the filter it has found next in the heap, if any. In
`selecting` it is parked in its `select`, the only place where it takes a signal. -/
inductive Worker
  | top
  | picked (filterID : Option String)
  | selecting (filterID : Option String)
  | woken (filterID : Option String)
  | dispatching
  | closing (closedFilterIDs : List String)
  | stopped
deriving DecidableEq

structure FilterManager where
  timeouts : TimeHeap
  filters : List String
  created : List String
  /-- The filters of the calls of `GetFilterChanges` that have yet to refresh them. -/
  reading : List String
  worker : Worker
  /-- The filter for which the timer in `timeoutCh` was set, while it has not fired. -/
  timer : Option String

def defaultTimeout : ℕ := 60000000000

namespace FilterManager

def newFilterManager : FilterManager where
  timeouts := ⟨[], fun _ ↦ ⟨noIndexInHeap, 0, false⟩⟩
  filters := []
  created := []
  reading := []
  worker := .top
  timer := none

/-- A signal that is sent while the worker is not in its `select` is lost. -/
def emitSignalToUpdateCh (m : FilterManager) : FilterManager :=
  { m with
    worker :=
      match m.worker with
      | .selecting _ => .top
      | worker => worker }

def addFilterTimeout (m : FilterManager) (id : String) (now : ℕ) : FilterManager :=
  let bases := Function.update m.timeouts.bases id
    { m.timeouts.bases id with expiresAt := now + defaultTimeout }
  { m with timeouts := { m.timeouts with bases }.addFilter id }.emitSignalToUpdateCh

def addFilter (m : FilterManager) (id : String) (ws : Bool) (now : ℕ) : FilterManager :=
  let bases := Function.update m.timeouts.bases id ⟨noIndexInHeap, 0, ws⟩
  let m :=
    { m with
      timeouts := { m.timeouts with bases }
      filters := id :: m.filters
      created := id :: m.created }
  if ws then m else m.addFilterTimeout id now

def removeFilterByID (m : FilterManager) (id : String) : FilterManager :=
  if id ∈ m.filters then
    let (timeouts, removed) := m.timeouts.removeFilter id
    let m := { m with filters := m.filters.erase id, timeouts }
    if removed then m.emitSignalToUpdateCh else m
  else m

def refreshFilterTimeout (m : FilterManager) (id : String) (now : ℕ) : FilterManager :=
  { m with timeouts := (m.timeouts.removeFilter id).1 }.addFilterTimeout id now

def nextTimeoutFilter (m : FilterManager) : Option String := m.timeouts.items.head?

/-- What runs without interruption: a section under the manager's lock, or a move of the worker
between two of them. The new ids of `uuid` and the time come from outside. -/
inductive Section
  | newFilter (id : String) (ws : Bool) (now : ℕ)
  | getFilterAndChanges (id : String)
  | refresh (id : String) (now : ℕ)
  | uninstall (id : String)
  | removeFilterByWs (id : String)
  | nextTimeout
  | park
  | fire
  | expire
  | dispatchEvent
  | flushWsFilters (broken : List String)
  | removeClosed
  | close

/-- One section. One that cannot run now does nothing; in particular no id is used twice. -/
def step (m : FilterManager) : Section → FilterManager
  | .newFilter id ws now => if id ∈ m.created then m else m.addFilter id ws now
  | .getFilterAndChanges id =>
    if id ∈ m.filters ∧ (m.timeouts.bases id).ws = false then
      { m with reading := id :: m.reading }
    else m
  | .refresh id now =>
    if id ∈ m.reading then
      { m with reading := m.reading.erase id }.refreshFilterTimeout id now
    else m
  | .uninstall id => m.removeFilterByID id
  | .removeFilterByWs id => m.removeFilterByID id
  | .nextTimeout =>
    match m.worker, m.nextTimeoutFilter with
    | .top, some id => { m with worker := .picked (some id), timer := some id }
    -- without a filter the timer of an earlier turn stays in `timeoutCh`
    | .top, none => { m with worker := .picked none }
    | _, _ => m
  | .park =>
    match m.worker with
    | .picked filterID => { m with worker := .selecting filterID }
    | _ => m
  | .fire =>
    match m.worker, m.timer with
    | .selecting filterID, some _ => { m with worker := .woken filterID, timer := none }
    | _, _ => m
  | .expire =>
    match m.worker with
    | .woken (some id) => { m with worker := .top }.removeFilterByID id
    | .woken none => { m with worker := .top }
    | _ => m
  | .dispatchEvent =>
    match m.worker with
    | .selecting _ => { m with worker := .dispatching }
    | _ => m
  | .flushWsFilters broken =>
    match m.worker with
    | .dispatching =>
      { m with
        worker := .closing (m.filters.filter fun id ↦ (m.timeouts.bases id).ws && id ∈ broken) }
    | _ => m
  | .removeClosed =>
    match m.worker with
    | .closing ids => ids.foldl removeFilterByID { m with worker := .top }
    | _ => m
  | .close =>
    match m.worker with
    | .selecting _ => { m with worker := .stopped }
    | _ => m

/-- The heap has the base of each installed filter without web socket once, and each base in it
knows its place. -/
structure TimeoutsExact (m : FilterManager) : Prop where
  mem_iff : ∀ id, id ∈ m.timeouts.items ↔ id ∈ m.filters ∧ (m.timeouts.bases id).ws = false
  nodup : m.timeouts.items.Nodup
  heapIndex : ∀ (k : ℕ) id, m.timeouts.items[k]? = some id → (m.timeouts.bases id).heapIndex = k

def RefreshesInstalled (m : FilterManager) : Section → Prop
  | .refresh id _ => id ∈ m.reading → id ∈ m.filters
  | _ => True

/-- A client does not remove the filter that the worker has just found in the heap, when the signal
is lost, nor the last one in the heap while a timer is set, which then stays set. -/
def RemovesUnawaited (m : FilterManager) : Section → Prop
  | .uninstall id | .removeFilterByWs id =>
    m.worker ≠ .picked (some id) ∧ (m.timer.isSome → m.timeouts.items ≠ [id])
  | _ => True

end FilterManager

end Mainnet.Jsonrpc
