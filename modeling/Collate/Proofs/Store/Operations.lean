/-
Operations one by one.

A call of a bounded shelf is a number of operations on its list of uses, made one after the other
(`Shelf.serve_operations`), and so is a run of calls. What holds after any operations at all
therefore holds at any moment of any run, in the middle of a batch as well as between two calls; and
whatever operations are made, the list of uses stays that of some ranking.
-/
import Collate.Proofs.Store.Uses

set_option autoImplicit false

namespace Collate

variable {κ ν : Type} [DecidableEq κ]

namespace Recency

/-! ## 1. Operations -/

/-- What can be done to a list of uses at a time. -/
inductive Operation (κ ν : Type) where
  | get (key : κ)
  | insert (key : κ) (value : ν)
  | forget (key : κ)
  | evict (capacity : Nat)

/-- Does it. -/
def operate (r : Recency κ ν) : Operation κ ν → Recency κ ν
  | .get key => (r.get key).2
  | .insert key value => r.insert key value
  | .forget key => (r.forget key).2
  | .evict capacity => r.evict capacity

/-- Makes operations one after the other. -/
def operateAll (r : Recency κ ν) (operations : List (Operation κ ν)) : Recency κ ν :=
  operations.foldl operate r

theorem operateAll_cons (r : Recency κ ν) (operation : Operation κ ν)
    (rest : List (Operation κ ν)) :
    r.operateAll (operation :: rest) = (r.operate operation).operateAll rest := rfl

theorem operateAll_append (r : Recency κ ν) (before after : List (Operation κ ν)) :
    r.operateAll (before ++ after) = (r.operateAll before).operateAll after := List.foldl_append ..

variable {r : Recency κ ν} {ranking : Ranking κ ν}

theorem Follows.operate (h : Follows r ranking) (operation : Operation κ ν) :
    ∃ next, Follows (r.operate operation) next := by
  cases operation with
  | get key => exact ⟨_, (h.get key).2⟩
  | insert key value => exact ⟨_, h.insert key value⟩
  | forget key => exact ⟨_, (h.forget key).1⟩
  | evict capacity => exact ⟨_, h.evict capacity⟩

theorem Follows.operateAll (h : Follows r ranking) (operations : List (Operation κ ν)) :
    ∃ next, Follows (r.operateAll operations) next := by
  induction operations generalizing r ranking with
  | nil => exact ⟨ranking, h⟩
  | cons operation rest ih =>
    obtain ⟨next, hnext⟩ := h.operate operation
    exact ih hnext

/-! ## 2. Batches as operations -/

theorem operateAll_get (r : Recency κ ν) (keys : List κ) :
    r.operateAll (keys.map .get) = (r.getAll keys).2 := by
  have hstep : ∀ (acc : Entries κ ν × Recency κ ν) key, (acc.2.get key).2 = (find acc key).2 := by
    intro acc key
    rw [find]
    rcases acc.2.get key with ⟨_ | _, next⟩ <;> rfl
  rw [getAll_eq_foldl, operateAll, List.foldl_map]
  exact @List.foldl_hom _ _ _ Prod.snd find (fun r key => (r.get key).2) keys (.empty, r) hstep

theorem operateAll_insert (r : Recency κ ν) (batch : List (κ × ν)) :
    r.operateAll (batch.map fun p => .insert p.1 p.2) = r.insertAll batch := by
  rw [operateAll, List.foldl_map]
  rfl

theorem operateAll_forget (r : Recency κ ν) (keys : List κ) :
    r.operateAll (keys.map .forget) = (r.forgetAll keys).2 := by
  have hstep : ∀ (counted : Nat × Recency κ ν) key,
      (counted.2.forget key).2 = (forgetNext counted key).2 := by
    intro counted key
    rw [forgetNext]
    rcases counted.2.forget key with ⟨_ | _, next⟩ <;> rfl
  rw [forgetAll_eq_foldl, operateAll, List.foldl_map]
  exact @List.foldl_hom _ _ _ Prod.snd forgetNext (fun r key => (r.forget key).2) keys (0, r) hstep

end Recency

/-! ## 3. Calls as operations -/

/-- What a call does to the list of uses of a shelf for so many keys. -/
def BatchRequest.operations (capacity : Nat) :
    BatchRequest κ ν → List (Recency.Operation κ ν)
  | .get keys => keys.map .get
  | .put batch => batch.map (fun p => .insert p.1 p.2) ++ [.evict capacity]
  | .remove keys => keys.map .forget
  | .update batch removals =>
    removals.map .forget ++ (batch.map (fun p => .insert p.1 p.2) ++ [.evict capacity])

namespace Shelf

/-- **A call is its operations.** -/
theorem serve_operations (r : Recency κ ν) (capacity : Nat) (request : BatchRequest κ ν) :
    ((bounded capacity r).serve request).2
      = bounded capacity (r.operateAll (request.operations capacity)) := by
  cases request with
  | get keys =>
    rw [BatchRequest.operations, Recency.operateAll_get]
    rfl
  | put batch =>
    rw [BatchRequest.operations, Recency.operateAll_append, Recency.operateAll_insert]
    rfl
  | remove keys =>
    rw [BatchRequest.operations, Recency.operateAll_forget]
    rfl
  | update batch removals =>
    rw [BatchRequest.operations, Recency.operateAll_append, Recency.operateAll_forget,
      Recency.operateAll_append, Recency.operateAll_insert]
    rfl

/-- **A run is the operations of its calls.** -/
theorem serveAll_operations (r : Recency κ ν) (capacity : Nat)
    (requests : List (BatchRequest κ ν)) :
    (serveAll serve (bounded capacity r) requests).2
      = bounded capacity (r.operateAll (requests.flatMap (BatchRequest.operations capacity))) := by
  induction requests generalizing r with
  | nil => rfl
  | cons request rest ih =>
    rw [List.flatMap_cons, Recency.operateAll_append, ← ih, ← serve_operations]
    rfl

end Shelf

end Collate
