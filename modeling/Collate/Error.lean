/-
Causes of failure. A resolution, a cache layer or a feed fails for one of five reasons; the reason
is the value and the wording is one function of it, so that a failure published by a feed and the
failure a lookup returns later can be compared as values.

The causes are those of `AssemblyError`, in its order, and the wording is that of its texts.
`source_failed` and `store_failed` make the first two.
-/
set_option autoImplicit false

namespace Collate

/-- Why an answer could not be given. The text inside is the one given by whatever failed. -/
inductive Error where
  /-- A call of a data source failed. -/
  | source (cause : String)
  /-- A store behind a cache layer refused a read or a write. -/
  | store (cause : String)
  /-- A change feed failed before the first of its windows was applied cleanly. -/
  | feedInit (cause : String)
  /-- A change feed failed later than that. -/
  | feed (cause : String)
  /-- A change feed went away without saying how it ended. -/
  | feedTerminated
  deriving DecidableEq, Repr, Inhabited

namespace Error

/-- The text shown to a reader. -/
def message : Error → String
  | source cause => "data source failed: " ++ cause
  | store cause => "cache store failed: " ++ cause
  | feedInit cause => "auto-cache could not be initialised: " ++ cause
  | feed cause => "auto-cache change event feed failed: " ++ cause
  | feedTerminated => "auto-cache background task terminated unexpectedly"

end Error

end Collate
