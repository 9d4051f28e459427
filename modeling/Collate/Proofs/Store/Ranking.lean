/-
Keys ranked by use.

What a bounded store does, said without slots and links. The keys stand in a line, the one used last
in front. A use puts a key first, a removal takes it out, and a batch of writes, once it is done, cuts
the line to the store's capacity and counts what it cut off. A ranking answers the same calls as a
shelf, so the two can be compared call by call.
-/
import Collate.Proofs.Entries
import Collate.Store

set_option autoImplicit false

namespace Collate

variable {κ ν : Type}

/-! ## 1. Calls -/

/-- A call of a store with all that it is given. The pairs of a batch are in the order in which they
are walked. -/
inductive BatchRequest (κ ν : Type) where
  | get (keys : List κ)
  | put (batch : List (κ × ν))
  | remove (keys : List κ)
  | update (batch : List (κ × ν)) (removals : List κ)

/-- What a call answers. -/
inductive BatchReply (κ ν : Type) where
  | found (entries : Entries κ ν)
  | removed (count : Nat)
  | written

/-- Makes calls one after the other, on anything that answers them. -/
def serveAll {σ : Type} (serve : σ → BatchRequest κ ν → BatchReply κ ν × σ) :
    σ → List (BatchRequest κ ν) → List (BatchReply κ ν) × σ
  | s, [] => ([], s)
  | s, request :: rest =>
    let (reply, s) := serve s request
    let (replies, s) := serveAll serve s rest
    (reply :: replies, s)

variable [DecidableEq κ]

/-- A shelf answers a call. -/
def Shelf.serve (shelf : Shelf κ ν) : BatchRequest κ ν → BatchReply κ ν × Shelf κ ν
  | .get keys => (.found (shelf.get keys).1, (shelf.get keys).2)
  | .put batch => (.written, shelf.put batch)
  | .remove keys => (.removed (shelf.remove keys).1, (shelf.remove keys).2)
  | .update batch removals => (.written, shelf.update batch removals)

/-! ## 2. Pairs with distinct keys -/

namespace Entries

theorem dropIn_of_not_mem {k : κ} {l : List (κ × ν)} (h : k ∉ l.map Prod.fst) : dropIn k l = l := by
  induction l with
  | nil => rfl
  | cons p rest ih =>
    rw [List.map_cons, List.mem_cons, not_or] at h
    rw [dropIn, if_neg (Ne.symm h.1), ih h.2]

theorem dropIn_append (k : κ) (xs ys : List (κ × ν)) :
    dropIn k (xs ++ ys) = dropIn k xs ++ dropIn k ys := by
  induction xs with
  | nil => rfl
  | cons p rest ih =>
    by_cases hk : p.1 = k
    · simp only [List.cons_append, dropIn, hk, if_true, ih]
    · simp only [List.cons_append, dropIn, hk, if_false, ih]

/-- A key that is listed once leaves the others as they are. -/
theorem dropIn_middle {xs ys : List (κ × ν)} {k : κ} {v : ν}
    (h : ((xs ++ (k, v) :: ys).map Prod.fst).Nodup) :
    dropIn k (xs ++ (k, v) :: ys) = xs ++ ys := by
  rw [List.map_append, List.map_cons] at h
  have hparts := List.nodup_append.1 h
  have hx : k ∉ xs.map Prod.fst := fun hm => hparts.2.2 _ hm _ (List.mem_cons_self ..) rfl
  have hy : k ∉ ys.map Prod.fst := (List.nodup_cons.1 hparts.2.1).1
  rw [dropIn_append, dropIn_of_not_mem hx, dropIn, if_pos rfl, dropIn_of_not_mem hy]

end Entries

/-! ## 3. The ranking -/

/-- Keys with their values, the one used last in front, and how many keys were cut off so far. -/
structure Ranking (κ ν : Type) where
  entries : Entries κ ν := .empty
  evictions : Nat := 0

namespace Ranking

/-- Gives a key a value and the first place. -/
def use (ranking : Ranking κ ν) (key : κ) (value : ν) : Ranking κ ν where
  entries := {
    pairs := (key, value) :: Entries.dropIn key ranking.entries.pairs
    distinct := List.nodup_cons.2 ⟨fun h => (Entries.fst_mem_dropIn.1 h).1 rfl,
      Entries.nodup_dropIn key ranking.entries.distinct⟩ }
  evictions := ranking.evictions

/-- Gives a key the first place, if it has one at all. -/
def touch (ranking : Ranking κ ν) (key : κ) : Ranking κ ν :=
  match ranking.entries.get? key with
  | none => ranking
  | some value => ranking.use key value

/-- Takes a key out. -/
def forget (ranking : Ranking κ ν) (key : κ) : Ranking κ ν :=
  { ranking with entries := ranking.entries.erase key }

omit [DecidableEq κ] in
/-- Cuts off all but the first `capacity` keys and counts what was cut off. -/
def cut (ranking : Ranking κ ν) (capacity : Nat) : Ranking κ ν where
  entries := {
    pairs := ranking.entries.pairs.take capacity
    distinct := ranking.entries.distinct.sublist ((List.take_sublist ..).map _) }
  evictions := ranking.evictions + (ranking.entries.size - capacity)

/-- Uses the keys of a batch one after the other. -/
def useAll (ranking : Ranking κ ν) (batch : List (κ × ν)) : Ranking κ ν :=
  batch.foldl (fun ranking p => ranking.use p.1 p.2) ranking

/-- Takes keys out. -/
def forgetAll (ranking : Ranking κ ν) (keys : List κ) : Ranking κ ν := keys.foldl forget ranking

/-- A ranking of so many keys answers a call. -/
def serve (capacity : Nat) (ranking : Ranking κ ν) : BatchRequest κ ν → BatchReply κ ν × Ranking κ ν
  | .get keys => (.found (ranking.entries.restrict keys), keys.foldl touch ranking)
  | .put batch => (.written, (ranking.useAll batch).cut capacity)
  | .remove keys => (.removed (ranking.entries.size - (ranking.forgetAll keys).entries.size),
      ranking.forgetAll keys)
  | .update batch removals => (.written, ((ranking.forgetAll removals).useAll batch).cut capacity)

/-- A use leaves the values of the others as they are. -/
theorem get?_use (ranking : Ranking κ ν) (key : κ) (value : ν) (k : κ) :
    (ranking.use key value).entries.get? k
      = if key = k then some value else ranking.entries.get? k := by
  show Entries.lookupIn k ((key, value) :: Entries.dropIn key ranking.entries.pairs) = _
  rw [Entries.lookupIn, Entries.lookupIn_dropIn]
  by_cases hk : key = k
  · rw [if_pos hk, if_pos hk]
  · rw [if_neg hk, if_neg hk, if_neg hk]
    rfl

/-- To be looked at changes no value. -/
theorem get?_touch (ranking : Ranking κ ν) (key k : κ) :
    (ranking.touch key).entries.get? k = ranking.entries.get? k := by
  unfold touch
  cases h : ranking.entries.get? key with
  | none => rfl
  | some value =>
    rw [get?_use]
    by_cases hk : key = k
    · rw [if_pos hk, ← hk, h]
    · rw [if_neg hk]

end Ranking

end Collate
