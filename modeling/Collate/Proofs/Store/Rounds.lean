/-
Evicting, round by round.

An eviction goes on as long as there are more keys than there is room for and the list of uses has an
end; each round forgets the key that the slot at this end names, and counts it. Nothing in a round
compares that key with the map: if it were not held, nothing would be forgotten, and the rounds would
go on for ever. So rounds are followed here without a bound on their number (`Rounds`), from any list
of uses that can come about. Every round then takes out the last key in line, which makes the line
shorter by one, and the rounds stop where the line fits.
-/
import Collate.Proofs.Store.Operations
import Collate.Proofs.Store.Batches

set_option autoImplicit false

namespace Collate

variable {κ ν : Type} [DecidableEq κ]

namespace Recency

/-! ## 1. Rounds -/

/-- What makes an eviction go on: there are too many keys, and the list of uses has an end. -/
def GoesOn (r : Recency κ ν) (capacity : Nat) : Prop := capacity < r.size ∧ r.oldest ≠ none

/-- One round of an eviction, in which the slot at the end of the list of uses names `key`. -/
structure Round (capacity : Nat) (r : Recency κ ν) (key : κ) (next : Recency κ ν) : Prop where
  goesOn : r.GoesOn capacity
  last : ∃ slot link, r.oldest = some slot ∧ r.links[slot]? = some link ∧ link.key = key
  next_eq : next = r.evictKey key

/-- Any number of rounds one after the other, with the keys named in them. -/
inductive Rounds (capacity : Nat) : Recency κ ν → List κ → Recency κ ν → Prop where
  | none (r : Recency κ ν) : Rounds capacity r [] r
  | more {r next final : Recency κ ν} {key : κ} {keys : List κ} (hround : Round capacity r key next)
      (hrest : Rounds capacity next keys final) : Rounds capacity r (key :: keys) final

variable {r after final : Recency κ ν} {ranking : Ranking κ ν} {uses init : List (κ × Held ν)}
  {key : κ} {keys : List κ} {held : Held ν} {capacity : Nat}

theorem Round.evictOne (h : Round capacity r key after) : r.evictOne capacity = some after := by
  obtain ⟨⟨hmore, _⟩, ⟨slot, link, holdest, hlink, rfl⟩, rfl⟩ := h
  rw [Recency.evictOne, if_pos hmore, holdest, Option.bind_some, hlink]
  rfl

theorem evictOne_of_not_goesOn (h : ¬ r.GoesOn capacity) : r.evictOne capacity = none := by
  rw [Recency.evictOne]
  by_cases hmore : capacity < r.size
  · have hend : r.oldest = none := Classical.not_not.1 fun hend => h ⟨hmore, hend⟩
    rw [if_pos hmore, hend]
    rfl
  · rw [if_neg hmore]

/-- A bound on the number of rounds does not matter once it is large enough for those that there
are. -/
theorem Rounds.evictRounds (h : Rounds capacity r keys final) (hstop : ¬ final.GoesOn capacity)
    {rounds : Nat} (hrounds : keys.length ≤ rounds) : evictRounds capacity rounds r = final := by
  induction h generalizing rounds with
  | none =>
    cases rounds with
    | zero => rfl
    | succ rounds => rw [Recency.evictRounds, evictOne_of_not_goesOn hstop]
  | more hround _ ih =>
    obtain ⟨rounds, rfl⟩ : ∃ n, rounds = n + 1 := ⟨rounds - 1, by
      rw [List.length_cons] at hrounds
      omega⟩
    rw [Recency.evictRounds, hround.evictOne]
    exact ih hstop (Nat.le_of_succ_le_succ hrounds)

/-! ## 2. Rounds on a list of uses -/

theorem entries_evictKey (r : Recency κ ν) (key : κ) :
    (r.evictKey key).entries = r.entries.erase key := entries_forget r key

/-- As long as there are too many keys, the next round takes out the last of them. -/
theorem Ranks.round (h : Ranks r (init ++ [(key, held)])) (hmore : capacity < r.size) :
    Round capacity r key (r.evictKey key) := by
  obtain ⟨holdest, link, hlink, hkey⟩ := h.oldest
  exact ⟨⟨hmore, by simp [holdest]⟩, ⟨held.slot, link, holdest, hlink, hkey⟩, rfl⟩

/-- Whatever round there is, it takes out the last key, and counts it. -/
theorem Round.ranks (h : Round capacity r key after) (hranks : Ranks r uses) :
    ∃ init held, uses = init ++ [(key, held)] ∧ Ranks after init
      ∧ after.evictions = r.evictions + 1 ∧ after.entries = r.entries.erase key := by
  obtain ⟨⟨hmore, _⟩, ⟨slot, link, holdest, hlink, rfl⟩, rfl⟩ := h
  rcases List.eq_nil_or_concat uses with rfl | ⟨init, ⟨key, held⟩, rfl⟩
  · rw [hranks.size] at hmore
    exact absurd hmore (Nat.not_lt_zero _)
  · rw [List.concat_eq_append] at hranks ⊢
    obtain ⟨holdest', link', hlink', rfl⟩ := hranks.oldest
    obtain rfl : held.slot = slot := Option.some.inj (holdest'.symm.trans holdest)
    obtain rfl : link' = link := Option.some.inj (hlink'.symm.trans hlink)
    obtain ⟨_, hnext, hcount⟩ := hranks.evictOne hmore
    exact ⟨init, held, rfl, hnext, hcount, entries_evictKey r link'.key⟩

/-- **Rounds take keys out from the end of the line**, one each, and count them. -/
theorem Rounds.ranks (h : Rounds capacity r keys final) (hranks : Ranks r uses) :
    ∃ left gone, uses = left ++ gone ∧ keys = (gone.map Prod.fst).reverse ∧ Ranks final left
      ∧ final.evictions = r.evictions + keys.length ∧ final.entries = r.entries.eraseAll keys := by
  induction h generalizing uses with
  | none => exact ⟨uses, [], (List.append_nil _).symm, rfl, hranks, rfl, rfl⟩
  | more hround _ ih =>
    obtain ⟨init, held, rfl, hnext, hcount, hentries⟩ := hround.ranks hranks
    obtain ⟨left, gone, rfl, rfl, hfinal, hcounted, herased⟩ := ih hnext
    refine ⟨left, gone ++ [(_, held)], List.append_assoc .., by simp, hfinal, ?_, ?_⟩
    · rw [hcounted, hcount, List.length_cons]
      omega
    · rw [herased, hentries]
      rfl

/-- **The rounds come to an end**, where as many keys are left as there is room for. The induction is
on the line from its end, since that is where keys are taken out. -/
theorem Ranks.exists_rounds (h : Ranks r uses) (capacity : Nat) :
    ∃ final, Rounds capacity r ((uses.map Prod.fst).drop capacity).reverse final
      ∧ Ranks final (uses.take capacity) := by
  induction uses using List.reverseRecOn generalizing r with
  | nil =>
    rw [List.map_nil, List.drop_nil, List.take_nil]
    exact ⟨r, .none r, h⟩
  | append_singleton init p ih =>
    have hsize := h.size
    rw [List.length_append, List.length_singleton] at hsize
    by_cases hmore : capacity < r.size
    · have hfits : capacity ≤ init.length := by omega
      obtain ⟨final, hrounds, hfinal⟩ := ih (h.evictOne hmore).2.1
      rw [List.map_append, List.drop_append_of_le_length (by rwa [List.length_map]),
        List.reverse_append, List.take_append_of_le_length hfits]
      exact ⟨final, .more (h.round hmore) hrounds, hfinal⟩
    · have hfits : (init ++ [p]).length ≤ capacity := by
        rw [List.length_append, List.length_singleton]
        omega
      rw [List.drop_eq_nil_of_le (by rwa [List.length_map]), List.take_of_length_le hfits]
      exact ⟨r, .none r, h⟩

/-- Two runs of rounds that came to an end are the same. -/
theorem Rounds.unique {final' : Recency κ ν} {keys' : List κ} (h : Rounds capacity r keys final)
    (hstop : ¬ final.GoesOn capacity) (h' : Rounds capacity r keys' final')
    (hstop' : ¬ final'.GoesOn capacity) : keys' = keys ∧ final' = final := by
  induction h generalizing keys' with
  | none =>
    cases h' with
    | none => exact ⟨rfl, rfl⟩
    | more hround => exact absurd hround.goesOn hstop
  | more hround _ ih =>
    cases h' with
    | none => exact absurd hround.goesOn hstop'
    | more hround' hrest' =>
      obtain ⟨_, ⟨slot, link, holdest, hlink, rfl⟩, rfl⟩ := hround
      obtain ⟨_, ⟨slot', link', holdest', hlink', rfl⟩, rfl⟩ := hround'
      obtain rfl : slot = slot' := Option.some.inj (holdest.symm.trans holdest')
      obtain rfl : link = link' := Option.some.inj (hlink.symm.trans hlink')
      obtain ⟨rfl, rfl⟩ := ih hstop hrest'
      exact ⟨rfl, rfl⟩

/-! ## 3. Evictions -/

/-- The list of uses has an end, and the slot there is the slot of a key that is held. The next round
takes out this key and nothing else, and counts it. -/
def LosesLast (r : Recency κ ν) (capacity : Nat) : Prop :=
  ∃ slot link held, r.oldest = some slot ∧ r.links[slot]? = some link
    ∧ r.entries.get? link.key = some held ∧ held.slot = slot
    ∧ Round capacity r link.key (r.evictKey link.key)
    ∧ (r.evictKey link.key).entries = r.entries.erase link.key
    ∧ (r.evictKey link.key).size + 1 = r.size
    ∧ (r.evictKey link.key).evictions = r.evictions + 1

/-- What an eviction down to so many keys does to a list of uses. -/
structure Evicts (r : Recency κ ν) (capacity : Nat) : Prop where
  /-- It makes rounds that name the keys behind the first `capacity` ones in line, the last first, -/
  rounds : Rounds capacity r (r.line.drop capacity).reverse (r.evict capacity)
  /-- after which it does not go on. -/
  stops : ¬ (r.evict capacity).GoesOn capacity
  /-- These are as many rounds as there are keys too many, -/
  count : (r.line.drop capacity).length = r.size - capacity
  /-- and there is no other way to go on to where it does not go on. -/
  only : ∀ keys final, Rounds capacity r keys final → ¬ final.GoesOn capacity →
    keys = (r.line.drop capacity).reverse ∧ final = r.evict capacity
  /-- As many keys are left as fit. -/
  size : (r.evict capacity).size = min r.size capacity
  /-- After any rounds there is a key fewer and an eviction more for each of them. -/
  counted : ∀ keys final, Rounds capacity r keys final →
    final.size + keys.length = r.size ∧ final.evictions = r.evictions + keys.length
      ∧ final.entries = r.entries.eraseAll keys
  /-- As long as there are too many keys, the next round takes out the last one. -/
  loses : ∀ keys now, Rounds capacity r keys now → capacity < now.size → now.LosesLast capacity

theorem Ranks.not_goesOn (h : Ranks r uses) (hfits : uses.length ≤ capacity) :
    ¬ r.GoesOn capacity := by
  rintro ⟨hmore, _⟩
  rw [h.size] at hmore
  omega

theorem Ranks.losesLast (h : Ranks r uses) (hmore : capacity < r.size) : r.LosesLast capacity := by
  rcases List.eq_nil_or_concat uses with rfl | ⟨init, ⟨key, held⟩, rfl⟩
  · rw [h.size] at hmore
    exact absurd hmore (Nat.not_lt_zero _)
  · rw [List.concat_eq_append] at h
    obtain ⟨holdest, link, hlink, rfl⟩ := h.oldest
    obtain ⟨_, hnext, hcount⟩ := h.evictOne hmore
    have hheld : r.entries.get? link.key = some held := (h.entries link.key held).2 (by simp)
    have hsize : (r.evictKey link.key).size + 1 = r.size := by
      rw [hnext.size, h.size, List.length_append, List.length_singleton]
    exact ⟨held.slot, link, held, holdest, hlink, hheld, rfl, h.round hmore,
      entries_evictKey r link.key, hsize, hcount⟩

theorem Ranks.evicts (h : Ranks r uses) (capacity : Nat) : r.Evicts capacity := by
  obtain ⟨final, hrounds, hfinal⟩ := h.exists_rounds capacity
  have hstop : ¬ final.GoesOn capacity := hfinal.not_goesOn (List.length_take_le ..)
  rw [← h.line_eq] at hrounds
  have hcount : (r.line.drop capacity).length = r.size - capacity := by
    rw [h.line_eq, List.length_drop, List.length_map, h.size]
  -- As many rounds as there are keys are more than are made.
  have hevict : r.evict capacity = final := by
    refine hrounds.evictRounds hstop ?_
    rw [List.length_reverse, hcount]
    exact Nat.sub_le ..
  refine {
    rounds := hevict ▸ hrounds
    stops := hevict ▸ hstop
    count := hcount
    only := fun keys other hr hs => hevict ▸ hrounds.unique hstop hr hs
    size := ?_
    counted := fun keys now hr => ?_
    loses := fun keys now hr hmore => ?_ }
  · rw [hevict, hfinal.size, h.size, List.length_take, Nat.min_comm]
  · obtain ⟨left, gone, rfl, rfl, hleft, hcounted, herased⟩ := hr.ranks h
    refine ⟨?_, hcounted, herased⟩
    rw [hleft.size, h.size, List.length_reverse, List.length_map, List.length_append]
  · obtain ⟨left, _, _, _, hleft, _⟩ := hr.ranks h
    exact hleft.losesLast hmore

/-- **An eviction stops at the right size.** Let a bounded store that began empty have had any calls,
and let any operations have been made on its list of uses since, as in the middle of a batch. Then
evicting down to any number of keys makes exactly as many rounds as there are keys too many, each of
which takes out and counts one key, the last in line, and it leaves as many keys as fit. -/
theorem evicts_in_rounds (capacity : Nat) (requests : List (BatchRequest κ ν)) :
    ∃ r, (serveAll Shelf.serve (.freshBounded capacity) requests).2 = .bounded (max capacity 1) r
      ∧ ∀ (operations : List (Operation κ ν)) (room : Nat), (r.operateAll operations).Evicts room := by
  refine ⟨_, Shelf.serveAll_operations .., fun operations room => ?_⟩
  obtain ⟨_, hstore⟩ := (follows_empty (κ := κ) (ν := ν)).operateAll
    (requests.flatMap (BatchRequest.operations (max capacity 1)))
  obtain ⟨_, hbatch⟩ := hstore.operateAll operations
  obtain ⟨uses, hranks, _⟩ := hbatch.ranked
  exact hranks.evicts room

/-- Key 2 was used longest ago and key 3 after it, so they go in this order. -/
example :
    let r := (empty : Recency Nat Nat).operateAll
      [.insert 1 10, .insert 2 20, .insert 3 30, .get 1]
    (r.line.drop 1).reverse = [2, 3] ∧ (r.evict 1).line = [1] ∧ (r.evict 1).evictions = 2 := by
  decide

end Recency

end Collate
