/-
The life of a change feed as its readers see it. A feed is subscribed by the first lookup that needs
it, runs once its first window was applied, and ends by being complete or by failing. Lookups wait
for it until it runs or has ended, but no longer than until a deadline that is set when it is
subscribed.

`Lifecycle` is `AutoCacheState`: `isReady` is its `is_ready`, and `isFinished` is what `finished` of
an `AutoCacheStatus` waits for. `FeedStatus` adds the deadline that an `AutoCache` sets in
`ensure_started`. The state is shared by a `watch` channel. Of that the documented behaviour is
assumed: it holds the latest value and no history; who waits for a value looks at the latest one
before waiting, and is woken by every change; who waits after the last sender is gone learns of it
(`dropped`).
-/
import Collate.Error
import Collate.Strand

set_option autoImplicit false

namespace Collate

/-- How far a change feed has come. -/
inductive Lifecycle where
  /-- Nobody needed the feed yet. -/
  | unstarted
  /-- The feed is subscribed; none of its windows was applied yet. -/
  | starting
  /-- The first window was applied. -/
  | running
  /-- The feed is complete; what it brought stays. -/
  | stopped
  /-- The feed failed, and every lookup fails for the same reason. -/
  | failed (reason : Error)
  deriving DecidableEq, Repr, Inhabited

namespace Lifecycle

/-- Whether lookups need not wait any more. -/
def isReady : Lifecycle → Bool
  | unstarted => false
  | starting => false
  | _ => true

/-- Whether nothing follows any more. -/
def isFinished : Lifecycle → Bool
  | stopped => true
  | failed _ => true
  | _ => false

/-- The reason of a failure. -/
def failure? : Lifecycle → Option Error
  | failed reason => some reason
  | _ => none

end Lifecycle

/-- What is known about a feed by all who need it. -/
structure FeedStatus where
  lifecycle : Lifecycle := .unstarted
  /-- Until when lookups wait for the feed. It is set when the feed is subscribed. -/
  readyBy : Nat := 0
  /-- Whether the feed and everything that could change its lifecycle is gone. -/
  dropped : Bool := false
  /-- Those who wait for the lifecycle to change, first come first. -/
  watchers : List Strand := []
  deriving DecidableEq, Repr, Inhabited

/-- Whether a lookup can go on, as far as a feed is concerned. -/
inductive Readiness where
  | ready
  | waiting
  | failed (reason : Error)
  deriving DecidableEq, Repr

namespace FeedStatus

/-- The status after subscribing at `now`, which only happens once. -/
def subscribe (status : FeedStatus) (now initTimeout : Nat) : FeedStatus :=
  match status.lifecycle with
  | .unstarted => { status with lifecycle := .starting, readyBy := now + initTimeout }
  | _ => status

/-- Whether a lookup can go on at `now`. -/
def readiness (status : FeedStatus) (now : Nat) : Readiness :=
  match status.lifecycle with
  | .failed reason => .failed reason
  | .running => .ready
  | .stopped => .ready
  | .unstarted => if status.readyBy ≤ now then .ready else .waiting
  | .starting => if status.readyBy ≤ now then .ready else .waiting

end FeedStatus

end Collate
