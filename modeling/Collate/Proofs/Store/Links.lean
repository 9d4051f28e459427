/-
The list of uses, link by link.

A list of nodes is linked when every slot holds its key and knows the slots next to it (`Linked`). The
two ends are open: what the first node takes for its newer neighbour and the last for its older one
are parameters, so that a list can be cut in two and put together again (`linked_append`). Taking a
node out changes one end of what is in front of it and one end of what is behind it, and putting a
node in front changes one end of the rest; nobody else is touched, because no slot occurs twice.
-/
import Mathlib.Data.List.Nodup
import Collate.Proofs.Contents

set_option autoImplicit false

namespace Collate

variable {κ ν : Type}

/-! ## 1. Linked nodes -/

/-- The slot a list of nodes begins with, if it has one, and otherwise what comes behind it. -/
def frontSlot (older : Option Nat) : List (Nat × κ) → Option Nat
  | [] => older
  | node :: _ => some node.1

/-- The slot a list of nodes ends with, if it has one, and otherwise what is in front of it. -/
def backSlot (newer : Option Nat) : List (Nat × κ) → Option Nat
  | [] => newer
  | node :: rest => backSlot (some node.1) rest

theorem frontSlot_append (older : Option Nat) (xs ys : List (Nat × κ)) :
    frontSlot older (xs ++ ys) = frontSlot (frontSlot older ys) xs := by
  cases xs <;> rfl

theorem backSlot_append (newer : Option Nat) (xs ys : List (Nat × κ)) :
    backSlot newer (xs ++ ys) = backSlot (backSlot newer xs) ys := by
  induction xs generalizing newer with
  | nil => rfl
  | cons node rest ih => exact ih _

@[simp] theorem backSlot_concat (newer : Option Nat) (xs : List (Nat × κ)) (node : Nat × κ) :
    backSlot newer (xs ++ [node]) = some node.1 := by
  rw [backSlot_append]
  rfl

/-- The nodes follow each other: each slot holds its key and knows its two neighbours, of which the
first node's newer one is `newer` and the last node's older one is `older`. -/
def Linked (links : Array (Link κ)) : Option Nat → List (Nat × κ) → Option Nat → Prop
  | _, [], _ => True
  | newer, node :: rest, older =>
    links[node.1]? = some ⟨node.2, newer, frontSlot older rest⟩
      ∧ Linked links (some node.1) rest older

variable {links links' : Array (Link κ)} {newer older : Option Nat}

theorem linked_append {xs ys : List (Nat × κ)} :
    Linked links newer (xs ++ ys) older
      ↔ Linked links newer xs (frontSlot older ys) ∧ Linked links (backSlot newer xs) ys older := by
  induction xs generalizing newer with
  | nil => simp [Linked, backSlot]
  | cons node rest ih =>
    simp only [List.cons_append, Linked, backSlot, frontSlot_append, ih, and_assoc]

/-- Only the nodes' own slots matter. -/
theorem Linked.frame {nodes : List (Nat × κ)} (h : Linked links newer nodes older)
    (hsame : ∀ node ∈ nodes, links'[node.1]? = links[node.1]?) :
    Linked links' newer nodes older := by
  induction nodes generalizing newer with
  | nil => trivial
  | cons node rest ih =>
    refine ⟨(hsame node (List.mem_cons_self ..)).trans h.1, ih h.2 fun other ho => ?_⟩
    exact hsame other (List.mem_cons_of_mem _ ho)

theorem Linked.exists_link {nodes : List (Nat × κ)} (h : Linked links newer nodes older)
    {node : Nat × κ} (hn : node ∈ nodes) :
    ∃ link, links[node.1]? = some link ∧ link.key = node.2 := by
  induction nodes generalizing newer with
  | nil => cases hn
  | cons first rest ih =>
    rcases List.mem_cons.1 hn with rfl | hn
    · exact ⟨_, h.1, rfl⟩
    · exact ih h.2 hn

/-- The last node may be told of another older neighbour. -/
theorem Linked.setOlder {init : List (Nat × κ)} {node : Nat × κ}
    (h : Linked links newer (init ++ [node]) older)
    (hd : ((init ++ [node]).map Prod.fst).Nodup) (older' : Option Nat) :
    Linked (links.modify node.1 fun l => { l with older := older' }) newer (init ++ [node])
      older' := by
  rw [linked_append] at h ⊢
  rw [List.map_append, List.nodup_append] at hd
  refine ⟨h.1.frame fun other ho => ?_, ?_, trivial⟩
  · have hne : node.1 ≠ other.1 := fun he =>
      hd.2.2 _ (List.mem_map_of_mem ho) _ (List.mem_singleton_self node.1) he.symm
    rw [Array.getElem?_modify, if_neg hne]
  · rw [Array.getElem?_modify, if_pos rfl, h.2.1]
    rfl

/-- The first node may be told of another newer neighbour. -/
theorem Linked.setNewer {node : Nat × κ} {rest : List (Nat × κ)}
    (h : Linked links newer (node :: rest) older)
    (hd : ((node :: rest).map Prod.fst).Nodup) (newer' : Option Nat) :
    Linked (links.modify node.1 fun l => { l with newer := newer' }) newer' (node :: rest)
      older := by
  rw [List.map_cons, List.nodup_cons] at hd
  refine ⟨?_, h.2.frame fun other ho => ?_⟩
  · rw [Array.getElem?_modify, if_pos rfl, h.1]
    rfl
  · have hne : node.1 ≠ other.1 := fun he => hd.1 (he ▸ List.mem_map_of_mem ho)
    rw [Array.getElem?_modify, if_neg hne]

namespace Recency

variable {r : Recency κ ν}

/-! ## 2. Threads -/

/-- The nodes are those of the list of uses, the most recently used one in front. -/
structure Threads (r : Recency κ ν) (nodes : List (Nat × κ)) : Prop where
  linked : Linked r.links none nodes none
  newest : r.newest = frontSlot none nodes
  oldest : r.oldest = backSlot none nodes
  distinct : (nodes.map Prod.fst).Nodup

theorem threads_empty : Threads (empty : Recency κ ν) [] :=
  ⟨trivial, rfl, rfl, List.nodup_nil⟩

/-- What is in front of a gap gets a new end. -/
theorem linked_joinOlder {xs : List (Nat × κ)} {end₀ : Option Nat}
    (h : Linked r.links none xs end₀) (hd : (xs.map Prod.fst).Nodup)
    (hnewest : xs ≠ [] → r.newest = frontSlot none xs) (older : Option Nat) :
    Linked (r.joinOlder (backSlot none xs) older).links none xs older
    ∧ (r.joinOlder (backSlot none xs) older).newest = frontSlot older xs
    ∧ (r.joinOlder (backSlot none xs) older).oldest = r.oldest
    ∧ ∀ slot, slot ∉ xs.map Prod.fst →
        (r.joinOlder (backSlot none xs) older).links[slot]? = r.links[slot]? := by
  rcases List.eq_nil_or_concat xs with rfl | ⟨init, node, rfl⟩
  · exact ⟨trivial, rfl, rfl, fun _ _ => rfl⟩
  · rw [List.concat_eq_append] at *
    rw [backSlot_concat]
    refine ⟨h.setOlder hd older, ?_, rfl, fun slot hslot => ?_⟩
    · refine (hnewest (by simp)).trans ?_
      cases init <;> rfl
    · have hne : node.1 ≠ slot := fun he => hslot (he ▸ List.mem_map_of_mem (by simp))
      exact (Array.getElem?_modify ..).trans (if_neg hne)

/-- What is behind a gap gets a new beginning. -/
theorem linked_joinNewer {ys : List (Nat × κ)} {front₀ : Option Nat}
    (h : Linked r.links front₀ ys none) (hd : (ys.map Prod.fst).Nodup)
    (holdest : ys ≠ [] → r.oldest = backSlot none ys) (newer : Option Nat) :
    Linked (r.joinNewer newer (frontSlot none ys)).links newer ys none
    ∧ (r.joinNewer newer (frontSlot none ys)).newest = r.newest
    ∧ (r.joinNewer newer (frontSlot none ys)).oldest = backSlot newer ys
    ∧ ∀ slot, slot ∉ ys.map Prod.fst →
        (r.joinNewer newer (frontSlot none ys)).links[slot]? = r.links[slot]? := by
  cases ys with
  | nil => exact ⟨trivial, rfl, rfl, fun _ _ => rfl⟩
  | cons node rest =>
    refine ⟨h.setNewer hd newer, rfl, holdest (by simp), fun slot hslot => ?_⟩
    have hne : node.1 ≠ slot := fun he => hslot (he ▸ List.mem_map_of_mem (by simp))
    exact (Array.getElem?_modify ..).trans (if_neg hne)

/-- **Taking a node out** leaves the others threaded, and the slot with its key. -/
theorem Threads.detach {xs ys : List (Nat × κ)} {node : Nat × κ}
    (h : Threads r (xs ++ node :: ys)) :
    Threads (r.detach node.1) (xs ++ ys)
    ∧ (r.detach node.1).links[node.1]? = some ⟨node.2, none, none⟩ := by
  obtain ⟨hlinked, hnewest, holdest, hd⟩ := h
  obtain ⟨hxs, hlink, hys⟩ := linked_append.1 hlinked
  rw [List.map_append, List.map_cons, List.nodup_middle, List.nodup_cons, List.mem_append,
    not_or] at hd
  obtain ⟨⟨hnx, hny⟩, hd⟩ := hd
  have hparts := List.nodup_append.1 hd
  -- First what is in front of the node, then what is behind it.
  obtain ⟨hxs₁, hnewest₁, holdest₁, hframe₁⟩ := linked_joinOlder hxs hparts.1 (fun hne => by
    rw [hnewest]
    cases xs with
    | nil => exact absurd rfl hne
    | cons => rfl) (frontSlot none ys)
  have hys₁ := hys.frame fun other ho => hframe₁ other.1 fun hm =>
    hparts.2.2 _ hm _ (List.mem_map_of_mem ho) rfl
  obtain ⟨hys₂, hnewest₂, holdest₂, hframe₂⟩ := linked_joinNewer hys₁ hparts.2.1 (fun hne => by
    rw [holdest₁, holdest, backSlot_append]
    cases ys with
    | nil => exact absurd rfl hne
    | cons => rfl) (backSlot none xs)
  have hxs₂ := hxs₁.frame fun other ho => hframe₂ other.1 fun hm =>
    hparts.2.2 _ (List.mem_map_of_mem ho) _ hm rfl
  have hdetach : r.detach node.1
      = ((r.joinOlder (backSlot none xs) (frontSlot none ys)).joinNewer (backSlot none xs)
        (frontSlot none ys)).setLink node.1 fun l => { l with newer := none, older := none } := by
    rw [Recency.detach, hlink]
  rw [hdetach]
  refine ⟨⟨?_, ?_, ?_, ?_⟩, ?_⟩
  · refine Linked.frame (linked_append.2 ⟨hxs₂, hys₂⟩) fun other ho => ?_
    have hne : node.1 ≠ other.1 := by
      rintro he
      rcases List.mem_append.1 ho with ho | ho
      · exact hnx (he ▸ List.mem_map_of_mem ho)
      · exact hny (he ▸ List.mem_map_of_mem ho)
    exact (Array.getElem?_modify ..).trans (if_neg hne)
  · rw [frontSlot_append]
    exact hnewest₂.trans hnewest₁
  · rw [backSlot_append]
    exact holdest₂
  · rwa [List.map_append]
  · refine (Array.getElem?_modify ..).trans ?_
    rw [if_pos rfl, hframe₂ _ hny, hframe₁ _ hnx, hlink]
    rfl

/-- **Putting a slot in front.** -/
theorem Threads.pushFront {nodes : List (Nat × κ)} (h : Threads r nodes) {slot : Nat} {link : Link κ}
    (hlink : r.links[slot]? = some link) (hslot : slot ∉ nodes.map Prod.fst) :
    Threads (r.pushFront slot) ((slot, link.key) :: nodes) := by
  obtain ⟨hlinked, hnewest, holdest, hd⟩ := h
  have hne : ∀ node ∈ nodes, slot ≠ node.1 := by
    rintro node hn rfl
    exact hslot (List.mem_map_of_mem hn)
  have hsame : ∀ node ∈ nodes, (r.setLink slot fun l =>
      { l with newer := none, older := r.newest }).links[node.1]? = r.links[node.1]? :=
    fun node hn => (Array.getElem?_modify ..).trans (if_neg (hne node hn))
  have hrest := hlinked.frame hsame
  have hfirst : (r.setLink slot fun l => { l with newer := none, older := r.newest }).links[slot]?
      = some ⟨link.key, none, r.newest⟩ := by
    refine (Array.getElem?_modify ..).trans ?_
    rw [if_pos rfl, hlink]
    rfl
  refine ⟨?_, by cases hn : r.newest <;> simp [Recency.pushFront, hn, frontSlot], ?_,
    List.nodup_cons.2 ⟨hslot, hd⟩⟩
  · rw [hnewest] at hfirst hrest
    cases nodes with
    | nil =>
      simp only [Recency.pushFront, hnewest, frontSlot]
      exact ⟨hfirst, trivial⟩
    | cons node rest =>
      simp only [Recency.pushFront, hnewest, frontSlot]
      refine ⟨?_, hrest.setNewer hd (some slot)⟩
      have hother : node.1 ≠ slot := fun he => hne node (List.mem_cons_self ..) he.symm
      exact (Array.getElem?_modify ..).trans ((if_neg hother).trans hfirst)
  · have hsame : (r.pushFront slot).oldest = r.oldest.or (some slot) := by
      cases hn : r.newest <;> simp [Recency.pushFront, hn, setLink]
    rw [hsame, holdest]
    rcases List.eq_nil_or_concat nodes with rfl | ⟨init, node, rfl⟩
    · rfl
    · rw [List.concat_eq_append, ← List.cons_append, backSlot_concat, backSlot_concat]
      rfl

/-- **Making a node the most recently used one.** -/
theorem Threads.promote {xs ys : List (Nat × κ)} {node : Nat × κ}
    (h : Threads r (xs ++ node :: ys)) : Threads (r.promote node.1) (node :: (xs ++ ys)) := by
  have hslot : node.1 ∉ (xs ++ ys).map Prod.fst := by
    have hd := h.distinct
    rw [List.map_append, List.map_cons, List.nodup_middle, List.nodup_cons] at hd
    rw [List.map_append]
    exact hd.1
  obtain ⟨hrest, hlink⟩ := h.detach
  exact hrest.pushFront hlink hslot

/-! ## 3. Slots that are not threaded -/

theorem mem_of_frontSlot {nodes : List (Nat × κ)} {slot : Nat}
    (h : frontSlot none nodes = some slot) : slot ∈ nodes.map Prod.fst := by
  cases nodes with
  | nil => cases h
  | cons node rest =>
    cases h
    exact List.mem_cons_self ..

theorem mem_of_backSlot {nodes : List (Nat × κ)} {slot : Nat}
    (h : backSlot none nodes = some slot) : slot ∈ nodes.map Prod.fst := by
  rcases List.eq_nil_or_concat nodes with rfl | ⟨init, node, rfl⟩
  · cases h
  · rw [List.concat_eq_append, backSlot_concat] at h
    cases h
    simp

theorem links_joinOlder {newer : Option Nat} {slot : Nat} (h : newer ≠ some slot)
    (older : Option Nat) : (r.joinOlder newer older).links[slot]? = r.links[slot]? := by
  cases newer with
  | none => rfl
  | some other => exact (Array.getElem?_modify ..).trans (if_neg fun he => h (congrArg some he))

theorem links_joinNewer {older : Option Nat} {slot : Nat} (h : older ≠ some slot)
    (newer : Option Nat) : (r.joinNewer newer older).links[slot]? = r.links[slot]? := by
  cases older with
  | none => rfl
  | some other => exact (Array.getElem?_modify ..).trans (if_neg fun he => h (congrArg some he))

theorem links_detach {place slot : Nat} {link : Link κ} (hlink : r.links[place]? = some link)
    (hne : place ≠ slot) (hnewer : link.newer ≠ some slot) (holder : link.older ≠ some slot) :
    (r.detach place).links[slot]? = r.links[slot]? := by
  unfold detach
  rw [hlink]
  refine (Array.getElem?_modify ..).trans ?_
  rw [if_neg hne, links_joinNewer holder, links_joinOlder hnewer]

theorem links_pushFront {place slot : Nat} (hne : place ≠ slot) (hnewest : r.newest ≠ some slot) :
    (r.pushFront place).links[slot]? = r.links[slot]? := by
  have hfirst : (r.setLink place fun l => { l with newer := none, older := r.newest }).links[slot]?
      = r.links[slot]? := (Array.getElem?_modify ..).trans (if_neg hne)
  unfold pushFront
  cases hn : r.newest with
  | none =>
    rw [hn] at hfirst
    exact hfirst
  | some next =>
    rw [hn] at hfirst hnewest
    exact (Array.getElem?_modify ..).trans
      ((if_neg fun he => hnewest (congrArg some he)).trans hfirst)

/-- Whatever is used, a slot that is not threaded stays as it is. -/
theorem Threads.links_promote {xs ys : List (Nat × κ)} {node : Nat × κ}
    (h : Threads r (xs ++ node :: ys)) {slot : Nat}
    (hslot : slot ∉ (xs ++ node :: ys).map Prod.fst) :
    (r.promote node.1).links[slot]? = r.links[slot]? := by
  rw [List.map_append, List.map_cons, List.mem_append, List.mem_cons, not_or, not_or] at hslot
  obtain ⟨hxs, hnode, hys⟩ := hslot
  have hlink := (linked_append.1 h.linked).2.1
  have hnewest : (r.detach node.1).newest ≠ some slot := by
    rw [h.detach.1.newest]
    intro he
    rcases List.mem_append.1 (List.map_append ▸ mem_of_frontSlot he) with hm | hm
    · exact hxs hm
    · exact hys hm
  rw [Recency.promote, links_pushFront (Ne.symm hnode) hnewest]
  exact links_detach hlink (Ne.symm hnode) (fun he => hxs (mem_of_backSlot he))
    fun he => hys (mem_of_frontSlot he)

end Recency

end Collate
