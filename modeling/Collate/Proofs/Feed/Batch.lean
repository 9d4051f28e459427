/-
What a window of changes does to a map of entries.

A window is applied in three moves: the entries of the ids concerned are read, the changes are folded
into the copies, and the copies are written back, empty ones as removals. Seen from one id that is
the fold of the id's own changes over its own entry, and an id that no change concerns keeps what it
has. `get?_applyAllTo` says so for the fold, `get?_update_continued` for all three moves together.

The entry an id has after a whole history is `folded?`; two histories in a row are one history
(`applyAll_append`), and that is all that windows need to be put together.
-/
import Collate.Feed.Consumer
import Collate.Proofs.Calls

set_option autoImplicit false

namespace Collate

variable {ι α : Type}

/-! ## 1. Items in front of the first failure -/

namespace FeedItem

theorem failure?_append (xs ys : List (FeedItem α)) :
    failure? (xs ++ ys) = (failure? xs).or (failure? ys) := by
  induction xs with
  | nil => simp [failure?]
  | cons x rest ih => cases x <;> simp [failure?, ih]

/-- Behind a failure nothing counts; without one all changes do. -/
theorem changes_append (xs ys : List (FeedItem α)) :
    changes (xs ++ ys) = changes xs ++ if (failure? xs).isSome then [] else changes ys := by
  induction xs with
  | nil => rfl
  | cons x rest ih =>
    cases x with
    | error cause => rfl
    | ok change =>
      rw [show changes (.ok change :: rest ++ ys) = change :: changes (rest ++ ys) from rfl, ih]
      rfl

end FeedItem

/-! ## 2. One id -/

namespace Merge

theorem applyAll_append (m : Merge ι α) (entry : List α) (xs ys : List (Change α)) :
    m.applyAll entry (xs ++ ys) = m.applyAll (m.applyAll entry xs) ys := by
  rw [applyAll, List.foldl_append, applyAll, applyAll]

theorem mem_idsOf_cons (m : Merge ι α) (id : ι) (change : Change α) (rest : List (Change α)) :
    id ∈ m.idsOf (change :: rest) ↔ id = m.key change.child ∨ id ∈ m.idsOf rest :=
  List.mem_cons

variable [DecidableEq ι]

/-- The changes of one id, in their order. -/
def changesOf (m : Merge ι α) (id : ι) (changes : List (Change α)) : List (Change α) :=
  changes.filter fun change => m.key change.child = id

theorem changesOf_append (m : Merge ι α) (id : ι) (xs ys : List (Change α)) :
    m.changesOf id (xs ++ ys) = m.changesOf id xs ++ m.changesOf id ys :=
  List.filter_append ..

theorem changesOf_eq_nil (m : Merge ι α) (id : ι) (changes : List (Change α)) :
    m.changesOf id changes = [] ↔ id ∉ m.idsOf changes := by
  simp [changesOf, idsOf, List.filter_eq_nil_iff]

/-- The entry of an id after a history, which began without one. An id left without children has no
entry. -/
def folded? (m : Merge ι α) (changes : List (Change α)) (id : ι) : Option (List α) :=
  match m.applyAll [] (m.changesOf id changes) with
  | [] => none
  | child :: rest => some (child :: rest)

/-- No entry and an empty one are the same beginning. -/
theorem getD_folded? (m : Merge ι α) (changes : List (Change α)) (id : ι) :
    (m.folded? changes id).getD [] = m.applyAll [] (m.changesOf id changes) := by
  unfold folded?
  cases m.applyAll [] (m.changesOf id changes) <;> rfl

theorem folded?_append (m : Merge ι α) (xs ys : List (Change α)) (id : ι) :
    m.folded? (xs ++ ys) id
      = match m.applyAll ((m.folded? xs id).getD []) (m.changesOf id ys) with
        | [] => none
        | child :: rest => some (child :: rest) := by
  rw [getD_folded?, ← applyAll_append, ← changesOf_append]
  rfl

/-- A change of another id is no change. -/
theorem folded?_append_of_not_mem (m : Merge ι α) (xs : List (Change α)) {ys : List (Change α)}
    {id : ι} (h : id ∉ m.idsOf ys) : m.folded? (xs ++ ys) id = m.folded? xs id := by
  unfold folded?
  rw [changesOf_append, (changesOf_eq_nil m id ys).2 h, List.append_nil]

/-! ## 3. A window -/

/-- Folding changes into a map folds the changes of each id into its entry. -/
theorem get?_applyAllTo (m : Merge ι α) (entries : Entries ι (List α)) (changes : List (Change α))
    (id : ι) :
    (m.applyAllTo entries changes).get? id
      = if id ∈ m.idsOf changes
        then some (m.applyAll ((entries.get? id).getD []) (m.changesOf id changes))
        else entries.get? id := by
  induction changes generalizing entries with
  | nil => simp [applyAllTo, idsOf]
  | cons change rest ih =>
    rw [show m.applyAllTo entries (change :: rest)
      = m.applyAllTo (m.applyTo entries change) rest from rfl, ih, applyTo, Entries.get?_insert]
    by_cases hk : m.key change.child = id
    · subst hk
      have hfold : m.changesOf (m.key change.child) (change :: rest)
          = change :: m.changesOf (m.key change.child) rest := by simp [changesOf]
      rw [hfold, if_pos ((mem_idsOf_cons ..).2 (Or.inl rfl)), if_pos rfl]
      by_cases hrest : m.key change.child ∈ m.idsOf rest
      · rw [if_pos hrest]
        rfl
      · rw [if_neg hrest, (changesOf_eq_nil m _ rest).2 hrest]
        rfl
    · have hfold : m.changesOf id (change :: rest) = m.changesOf id rest := by
        simp [changesOf, hk]
      rw [hfold, if_neg hk]
      simp only [mem_idsOf_cons, Ne.symm hk, false_or]

/-- The entry of an id after a history, over a map of entries that it began with. An id left without
children has no entry. -/
def continued? (m : Merge ι α) (entries : Entries ι (List α)) (changes : List (Change α)) (id : ι) :
    Option (List α) :=
  if id ∈ m.idsOf changes then
    match m.applyAll ((entries.get? id).getD []) (m.changesOf id changes) with
    | [] => none
    | child :: rest => some (child :: rest)
  else entries.get? id

/-- A history goes on from what came before. -/
theorem continued?_append (m : Merge ι α) (entries : Entries ι (List α))
    (xs ys : List (Change α)) (id : ι) :
    m.continued? entries (xs ++ ys) id
      = if id ∈ m.idsOf ys then
          match m.applyAll ((m.continued? entries xs id).getD []) (m.changesOf id ys) with
          | [] => none
          | child :: rest => some (child :: rest)
        else m.continued? entries xs id := by
  have hids : id ∈ m.idsOf (xs ++ ys) ↔ id ∈ m.idsOf xs ∨ id ∈ m.idsOf ys := by
    simp only [idsOf, List.map_append, List.mem_append]
  have hbefore : (m.continued? entries xs id).getD []
      = m.applyAll ((entries.get? id).getD []) (m.changesOf id xs) := by
    unfold continued?
    by_cases hx : id ∈ m.idsOf xs
    · rw [if_pos hx]
      cases m.applyAll ((entries.get? id).getD []) (m.changesOf id xs) <;> rfl
    · rw [if_neg hx, (changesOf_eq_nil m id xs).2 hx]
      rfl
  by_cases hy : id ∈ m.idsOf ys
  · rw [if_pos hy, hbefore, ← applyAll_append, ← changesOf_append, continued?,
      if_pos (hids.2 (Or.inr hy))]
  · unfold continued?
    rw [if_neg hy, changesOf_append, (changesOf_eq_nil m id ys).2 hy, List.append_nil]
    simp only [hids, hy, or_false]

/-- The entries a window writes back. -/
def updatesOf (m : Merge ι α) (hits : Entries ι (List α)) (changes : List (Change α)) :
    Entries ι (List α) :=
  (m.applyAllTo hits changes).filter fun _ entry => !entry.isEmpty

/-- The ids whose entries a window removes. -/
def removalsOf (m : Merge ι α) (hits : Entries ι (List α)) (changes : List (Change α)) : List ι :=
  ((m.applyAllTo hits changes).filter fun _ entry => entry.isEmpty).keys

theorem mem_removalsOf (m : Merge ι α) (hits : Entries ι (List α)) (changes : List (Change α))
    (id : ι) : id ∈ m.removalsOf hits changes ↔ (m.applyAllTo hits changes).get? id = some [] := by
  rw [removalsOf, Entries.mem_keys, Entries.contains_eq_true]
  simp [Entries.get?_filter, Option.filter_eq_some_iff]

theorem get?_updatesOf (m : Merge ι α) (hits : Entries ι (List α)) (changes : List (Change α))
    (id : ι) :
    (m.updatesOf hits changes).get? id
      = match (m.applyAllTo hits changes).get? id with
        | some (child :: rest) => some (child :: rest)
        | _ => none := by
  rw [updatesOf, Entries.get?_filter]
  cases (m.applyAllTo hits changes).get? id with
  | none => rfl
  | some entry => cases entry <;> rfl

end Merge

/-! ## 4. A window on an unbounded shelf -/

variable [DecidableEq ι]

theorem Shelf.get?_update_unbounded {κ ν : Type} [DecidableEq κ] {shelf : Shelf κ ν}
    (h : shelf.capacity? = none) {batch : List (κ × ν)} {updates : Entries κ ν}
    (hp : batch.Perm updates.pairs) (removals : List κ) (k : κ) :
    (shelf.update batch removals).contents.get? k
      = (updates.get? k).or (if k ∈ removals then none else shelf.contents.get? k) := by
  rw [Shelf.eq_unbounded h]
  refine (Entries.get?_insertAll_pairs _ updates hp k).trans ?_
  rw [Entries.get?_eraseAll]
  rfl

/-- **A window, seen from one id**: reading the entries concerned, folding the changes in and writing
the outcome back continues the entry of every id on an unbounded shelf. -/
theorem Shelf.get?_update_continued {m : Merge ι α} {shelf : Shelf ι (List α)}
    (hcap : shelf.capacity? = none) {changes : List (Change α)} {hits : Entries ι (List α)}
    (hhits : ∀ id, hits.get? id
      = if id ∈ distinct (m.idsOf changes) then shelf.contents.get? id else none)
    {batch : List (ι × List α)} (hp : batch.Perm (m.updatesOf hits changes).pairs) (id : ι) :
    (shelf.update batch (m.removalsOf hits changes)).contents.get? id
      = m.continued? shelf.contents changes id := by
  have hfold : (m.applyAllTo hits changes).get? id
      = if id ∈ m.idsOf changes
        then some (m.applyAll ((shelf.contents.get? id).getD []) (m.changesOf id changes))
        else none := by
    rw [Merge.get?_applyAllTo, hhits]
    by_cases hid : id ∈ m.idsOf changes <;> simp [hid]
  have hrem := Merge.mem_removalsOf m hits changes id
  rw [Shelf.get?_update_unbounded hcap hp, Merge.get?_updatesOf, Merge.continued?]
  rw [hfold] at hrem ⊢
  by_cases hid : id ∈ m.idsOf changes
  · rw [if_pos hid] at hrem ⊢
    rw [if_pos hid]
    cases h : m.applyAll ((shelf.contents.get? id).getD []) (m.changesOf id changes) with
    | nil => simp [hrem.2 (by rw [h])]
    | cons child rest => simp
  · rw [if_neg hid] at hrem ⊢
    rw [if_neg hid]
    simp [mt hrem.1 (by simp)]

/-- On a shelf that holds the entries of a history, they become those of the longer one. -/
theorem Shelf.get?_update_folded {m : Merge ι α} {shelf : Shelf ι (List α)}
    (hcap : shelf.capacity? = none) {before changes : List (Change α)}
    (hshelf : ∀ id, shelf.contents.get? id = m.folded? before id) {hits : Entries ι (List α)}
    (hhits : ∀ id, hits.get? id
      = if id ∈ distinct (m.idsOf changes) then shelf.contents.get? id else none)
    {batch : List (ι × List α)} (hp : batch.Perm (m.updatesOf hits changes).pairs) (id : ι) :
    (shelf.update batch (m.removalsOf hits changes)).contents.get? id
      = m.folded? (before ++ changes) id := by
  rw [Shelf.get?_update_continued hcap hhits hp, Merge.continued?, hshelf]
  by_cases hid : id ∈ m.idsOf changes
  · rw [if_pos hid, Merge.folded?_append]
  · rw [if_neg hid, Merge.folded?_append_of_not_mem m before hid]

end Collate
