/-
A fair lock with shared and exclusive holders. Whoever asks joins the end of one queue, and the
queue is served from its head only: a reader that comes after a waiting writer waits behind it.
Holders and waiters are known by tickets, which nobody uses twice.

It stands for the `RwLock` of a `CachedSource`. Of that the documented behaviour is assumed: it is
held by any number of readers or by one writer; its queue is first in, first out, and a read lock is
not given out before all write locks that were asked for earlier were held and given back; who stops
waiting loses the place; a guard that goes away gives the lock back.
-/
import Collate.Strand

set_option autoImplicit false

namespace Collate

/-- How a lock is held. -/
inductive Hold where
  | shared
  | exclusive
  deriving DecidableEq, Repr

/-- Someone who waits for a lock: by which ticket, how it is to be held, and who is to be called. -/
structure Waiter where
  ticket : Nat
  hold : Hold
  strand : Strand
  deriving DecidableEq, Repr

/-- The holders of a lock and those waiting for it. -/
structure Lock where
  /-- Holders that share the lock. -/
  readers : List Nat := []
  /-- The holder that has the lock for itself. -/
  writer : Option Nat := none
  /-- Those waiting, first come first. -/
  queue : List Waiter := []
  deriving DecidableEq, Repr, Inhabited

namespace Lock

/-- Lets waiters in from the head of the queue for as long as the head is compatible with the
holders. -/
def serve (readers : List Nat) (writer : Option Nat) : List Waiter → Lock
  | [] => ⟨readers, writer, []⟩
  | ⟨ticket, .shared, strand⟩ :: rest =>
    if writer.isNone then serve (readers ++ [ticket]) writer rest
    else ⟨readers, writer, ⟨ticket, .shared, strand⟩ :: rest⟩
  | ⟨ticket, .exclusive, strand⟩ :: rest =>
    -- A writer at the head that cannot go on keeps everybody behind it waiting.
    if writer.isNone && readers.isEmpty then ⟨readers, some ticket, rest⟩
    else ⟨readers, writer, ⟨ticket, .exclusive, strand⟩ :: rest⟩

/-- Asks for the lock; the ticket holds it at once if nobody is in the way. -/
def request (l : Lock) (waiter : Waiter) : Lock :=
  serve l.readers l.writer (l.queue ++ [waiter])

/-- Gives the lock back, or gives up waiting for it, and lets in whoever can go on now. -/
def release (l : Lock) (ticket : Nat) : Lock :=
  serve (l.readers.filter (· ≠ ticket)) (l.writer.filter (· ≠ ticket))
    (l.queue.filter (·.ticket ≠ ticket))

/-- Whether the ticket holds the lock. -/
def holds (l : Lock) (ticket : Nat) : Bool := l.readers.contains ticket || l.writer = some ticket

/-- Whether the ticket waits for the lock. -/
def awaits (l : Lock) (ticket : Nat) : Bool := l.queue.any (·.ticket = ticket)

/-- Asks for the lock unless the ticket holds it or waits for it already. -/
def ensureRequested (l : Lock) (waiter : Waiter) : Lock :=
  if l.holds waiter.ticket || l.awaits waiter.ticket then l else l.request waiter

/-- Those who waited for the lock and hold it after a change, first come first. -/
def admitted (before after : Lock) : List Strand :=
  (before.queue.filter fun waiter => after.holds waiter.ticket).map fun waiter => waiter.strand

end Lock

end Collate
