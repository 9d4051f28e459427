/-
Cache layers. A layer is a store, wrapped any number of times: by an observer, who is told of the
layer's successful calls, or by a change feed that keeps the store up to date. A layer with a feed
knows all children there are, so whatever it does not hold does not exist: it never passes an id on.

A bare layer is a `StoreCache`; what is put around it is an `ObservableCache` or an `AutoCache`.
-/
import Collate.Store

set_option autoImplicit false

namespace Collate

/-- A feed a layer depends on, and how long lookups wait for it after subscribing. -/
structure FeedRef where
  feed : Nat
  initTimeout : Nat
  deriving DecidableEq, Repr

/-- Someone who is told of a layer's calls. -/
structure Observer where
  /-- The log that is written to. -/
  bucket : Nat
  /-- The name the layer goes by in the log. -/
  name : String
  /-- The calls that are written down. -/
  calls : List Call
  deriving DecidableEq, Repr

/-- What is put around a layer. -/
inductive Wrap where
  | observed (observer : Observer)
  | fed (feed : FeedRef)
  deriving DecidableEq, Repr

/-- A store and its wraps, the outermost in front. -/
structure Layer where
  wraps : List Wrap
  store : Nat
  deriving DecidableEq, Repr

namespace Layer

/-- The feeds a lookup has to wait for, in the order it does. -/
def feeds (layer : Layer) : List FeedRef :=
  layer.wraps.filterMap fun
    | .fed feed => some feed
    | .observed _ => none

/-- Whether the layer knows all children there are. -/
def isAuthoritative (layer : Layer) : Bool := !layer.feeds.isEmpty

/-- The observers of a call, the innermost first: that is the order in which they are told. -/
def observers (layer : Layer) (call : Call) : List Observer :=
  layer.wraps.reverse.filterMap fun
    | .observed observer => if call ∈ observer.calls then some observer else none
    | .fed _ => none

/-- The layer without its observers. -/
def unobserved (layer : Layer) : Layer :=
  { layer with wraps := layer.wraps.filter fun
      | .observed _ => false
      | .fed _ => true }

end Layer

end Collate
