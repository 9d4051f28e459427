/-
What the entry of one id comes to after any history of its changes, said without folding.

Where an id has many children, the entry is cut in two. In front stand the elements it began with
that were never removed, in the places they had; behind them stand all others, each where its first
upsert since its last removal put it. Wherever an element stands it stands as its newest version: an
upsert of an element that is there replaces it in place. So an element is in the entry if the last
change that concerns it was an upsert, and by its last item (`mem_applyAll`); and once, because
an upsert looks for the element before it appends.

Both facts are inductions on the history with one more change at its end. Only the last change of an
element says whether it is there, so a history played again over its own outcome changes no element.
-/
import Mathlib.Data.List.Basic
import Mathlib.Data.List.Induction
import Collate.Proofs.Feed.Batch

set_option autoImplicit false

namespace Collate

variable {ι α : Type}

/-! ## 1. The changes of one element -/

/-- The item of an upsert. -/
def Change.upserted? : Change α → Option α
  | .updated child => some child
  | .removed _ => none

namespace Merge

/-- The changes of the element that `x` is a version of, in their order. -/
def concerning (same : α → α → Bool) (x : α) (changes : List (Change α)) : List (Change α) :=
  changes.filter fun change => same change.child x

/-- Whether the element of `x` was removed at any time. -/
def isRemoved (same : α → α → Bool) (x : α) (changes : List (Change α)) : Bool :=
  (concerning same x changes).any fun change => change.upserted?.isNone

/-- Whether the last change of the element of `x` was an upsert. -/
def isUpserted (same : α → α → Bool) (x : α) (changes : List (Change α)) : Bool :=
  ((concerning same x changes).getLast?.bind Change.upserted?).isSome

/-- Whether a change leaves the element of `x` where it is: all do but its removal. -/
def spares (same : α → α → Bool) (change : Change α) (x : α) : Bool :=
  change.upserted?.isSome || !same change.child x

/-- The last upserted version of the element of `x`; without one, `x` itself. -/
def newest (same : α → α → Bool) (changes : List (Change α)) (x : α) : α :=
  (((concerning same x changes).filterMap Change.upserted?).getLast?).getD x

/-- The elements of an entry that were never removed. -/
def kept (same : α → α → Bool) (entry : List α) (changes : List (Change α)) : List α :=
  entry.filter fun x => !isRemoved same x changes

/-- The item of the change at a place of a history, if it is the first upsert of its element since
the element was last removed, and the element is none of those that kept their places. -/
def arrival? (same : α → α → Bool) (entry : List α) (changes : List (Change α)) (i : Nat) :
    Option α :=
  (changes[i]?.bind Change.upserted?).filter fun child =>
    !isRemoved same child (changes.drop (i + 1))
      && !isUpserted same child (changes.take i)
      && !(kept same entry changes).any fun x => same x child

/-- The elements that came to an entry by an upsert and were not removed since, in the order they
came. -/
def arrivals (same : α → α → Bool) (entry : List α) (changes : List (Change α)) : List α :=
  (List.range changes.length).filterMap (arrival? same entry changes)

variable {same : α → α → Bool}

theorem upserted?_eq_some {change : Change α} {child : α} :
    change.upserted? = some child ↔ change = .updated child := by
  cases change <;> simp [Change.upserted?]

/-- What a comparison of element ids is at the least: symmetric and transitive. An element id may
differ from itself, as what is not a number does. -/
structure Compares (same : α → α → Bool) : Prop where
  symm {x y : α} (h : same x y = true) : same y x = true
  trans {x y z : α} (h : same x y = true) (h' : same y z = true) : same x z = true

theorem Compares.of_equivalence (hs : Equivalence fun x y => same x y = true) : Compares same :=
  ⟨hs.symm, hs.trans⟩

theorem Compares.comm (hs : Compares same) (x y : α) : same x y = same y x :=
  Bool.eq_iff_iff.2 ⟨hs.symm, hs.symm⟩

theorem Compares.congr (hs : Compares same) {x y : α} (h : same x y = true) (z : α) :
    same z x = same z y :=
  Bool.eq_iff_iff.2 ⟨fun hz => hs.trans hz h, fun hz => hs.trans hz (hs.symm h)⟩

theorem same_comm (hs : Equivalence fun x y => same x y = true) (x y : α) :
    same x y = same y x :=
  (Compares.of_equivalence hs).comm x y

theorem same_congr (hs : Equivalence fun x y => same x y = true) {x y : α} (h : same x y = true)
    (z : α) : same z x = same z y :=
  (Compares.of_equivalence hs).congr h z

theorem concerning_snoc (x : α) (changes : List (Change α)) (change : Change α) :
    concerning same x (changes ++ [change])
      = concerning same x changes ++ if same change.child x then [change] else [] := by
  rw [concerning, List.filter_append]
  cases h : same change.child x <;> simp [concerning, h]

/-- Versions of one element have one history. -/
theorem concerning_congr (hs : Equivalence fun x y => same x y = true) {x y : α}
    (h : same x y = true) (changes : List (Change α)) :
    concerning same x changes = concerning same y changes :=
  List.filter_congr fun change _ => same_congr hs h change.child

theorem isRemoved_snoc (x : α) (changes : List (Change α)) (change : Change α) :
    isRemoved same x (changes ++ [change])
      = (isRemoved same x changes || !spares same change x) := by
  rw [isRemoved, concerning_snoc, List.any_append, spares]
  cases same change.child x <;> cases change <;> simp [isRemoved, Change.upserted?]

theorem newest_snoc (x : α) (changes : List (Change α)) (change : Change α) :
    newest same (changes ++ [change]) x
      = if same change.child x then change.upserted?.getD (newest same changes x)
        else newest same changes x := by
  rw [newest, concerning_snoc]
  by_cases hx : same change.child x = true
  · cases hchange : change.upserted? <;> simp [hx, hchange, newest]
  · simp [hx, newest]

/-- The newest version is a version of the element. -/
theorem same_newest (hs : Equivalence fun x y => same x y = true) (changes : List (Change α))
    (x : α) : same (newest same changes x) x = true := by
  induction changes using List.reverseRecOn with
  | nil => exact hs.refl x
  | append_singleton changes change ih =>
    rw [newest_snoc]
    by_cases hx : same change.child x = true
    · rw [if_pos hx]
      cases change with
      | updated child => exact hx
      | removed child => exact ih
    · rw [if_neg hx]
      exact ih

theorem isUpserted_iff {x : α} {changes : List (Change α)} :
    isUpserted same x changes = true
      ↔ ∃ y, (concerning same x changes).getLast? = some (.updated y) := by
  rw [isUpserted, Option.isSome_iff_exists]
  refine exists_congr fun y => ?_
  rw [Option.bind_eq_some_iff]
  constructor
  · rintro ⟨change, hlast, hup⟩
    rw [hlast, upserted?_eq_some.1 hup]
  · intro hlast
    exact ⟨_, hlast, rfl⟩

/-- The last change of an element brought a version of it. -/
theorem same_of_getLast? {x : α} {changes : List (Change α)} {change : Change α}
    (h : (concerning same x changes).getLast? = some change) : same change.child x = true :=
  (List.mem_filter.1 (List.mem_of_getLast? h)).2

/-! ## 2. One upsert -/

/-- In an entry an element stands once: no two items are versions of one element. -/
abbrev Apart (same : α → α → Bool) (entry : List α) : Prop :=
  entry.Pairwise fun x y => same x y = false

theorem replaceOrAppend_of_absent {child : α} {entry : List α}
    (h : ∀ x ∈ entry, same x child = false) :
    replaceOrAppend same child entry = entry ++ [child] := by
  induction entry with
  | nil => rfl
  | cons existing rest ih =>
    rw [replaceOrAppend, if_neg (by simp [h existing (List.mem_cons_self ..)]),
      ih fun x hx => h x (List.mem_cons_of_mem _ hx), List.cons_append]

/-- An element that is there is replaced where it stands. -/
theorem replaceOrAppend_of_present (hs : Compares same) {child : α} {entry : List α}
    (ha : Apart same entry) (h : ∃ x ∈ entry, same x child = true) :
    replaceOrAppend same child entry
      = entry.map fun x => if same x child then child else x := by
  induction entry with
  | nil => simp at h
  | cons existing rest ih =>
    obtain ⟨hfirst, hrest⟩ := List.pairwise_cons.1 ha
    rw [replaceOrAppend, List.map_cons]
    by_cases hx : same existing child = true
    · -- Nothing behind it is a version of it, so nothing else is replaced.
      have hothers : rest.map (fun x => if same x child then child else x) = rest := by
        refine (List.map_congr_left fun x hxr => ?_).trans (List.map_id rest)
        rw [← hs.congr hx x, hs.comm, hfirst x hxr]
        rfl
      rw [if_pos hx, if_pos hx, hothers]
    · obtain ⟨x, hxr, hxc⟩ := h
      have hin : x ∈ rest := (List.mem_cons.1 hxr).resolve_left (by rintro rfl; exact hx hxc)
      rw [if_neg hx, if_neg hx, ih hrest ⟨x, hin, hxc⟩]

/-- The item is in, and with it what is no version of its element. -/
theorem mem_replaceOrAppend (hs : Compares same) {child : α} {entry : List α}
    (ha : Apart same entry) (x : α) :
    x ∈ replaceOrAppend same child entry ↔ x = child ∨ x ∈ entry ∧ same x child = false := by
  by_cases h : ∃ y ∈ entry, same y child = true
  · rw [replaceOrAppend_of_present hs ha h, List.mem_map]
    constructor
    · rintro ⟨y, hy, rfl⟩
      by_cases hyc : same y child = true
      · exact Or.inl (if_pos hyc)
      · rw [if_neg hyc]
        exact Or.inr ⟨hy, by simpa using hyc⟩
    · rintro (rfl | ⟨hx, hxc⟩)
      · obtain ⟨y, hy, hyc⟩ := h
        exact ⟨y, hy, if_pos hyc⟩
      · exact ⟨x, hx, by simp [hxc]⟩
  · have habsent : ∀ y ∈ entry, same y child = false := fun y hy =>
      Bool.eq_false_iff.2 fun hyc => h ⟨y, hy, hyc⟩
    rw [replaceOrAppend_of_absent habsent, List.mem_append, List.mem_singleton, or_comm]
    exact or_congr_right ⟨fun hx => ⟨hx, habsent x hx⟩, And.left⟩

theorem apart_replaceOrAppend (hs : Compares same) {child : α} {entry : List α}
    (ha : Apart same entry) : Apart same (replaceOrAppend same child entry) := by
  induction entry with
  | nil => exact List.pairwise_singleton ..
  | cons existing rest ih =>
    obtain ⟨hfirst, hrest⟩ := List.pairwise_cons.1 ha
    rw [replaceOrAppend]
    by_cases hx : same existing child = true
    · rw [if_pos hx]
      refine List.pairwise_cons.2 ⟨fun y hy => ?_, hrest⟩
      rw [hs.comm, ← hs.congr hx, hs.comm]
      exact hfirst y hy
    · rw [if_neg hx]
      refine List.pairwise_cons.2 ⟨fun y hy => ?_, ih hrest⟩
      rcases (mem_replaceOrAppend hs hrest y).1 hy with rfl | ⟨hyr, -⟩
      · exact Bool.eq_false_iff.2 hx
      · exact hfirst y hyr

/-! ## 3. Which elements an entry has -/

theorem applyAll_snoc (m : Merge ι α) (entry : List α) (changes : List (Change α))
    (change : Change α) :
    m.applyAll entry (changes ++ [change]) = m.apply (m.applyAll entry changes) change :=
  applyAll_append ..

section Many

variable {m : Merge ι α} (hm : m.sameElement = some same)
  (hs : Equivalence fun x y => same x y = true)

include hm

theorem apply_updated (entry : List α) (child : α) :
    m.apply entry (.updated child) = replaceOrAppend same child entry := by
  rw [apply, upsert, hm]

theorem apply_removed (entry : List α) (child : α) :
    m.apply entry (.removed child) = entry.filter fun x => !same x child := by
  rw [apply, remove, hm]

include hs

/-- An element is never in an entry twice. -/
theorem apart_applyAll {entry : List α} (ha : Apart same entry) (changes : List (Change α)) :
    Apart same (m.applyAll entry changes) := by
  induction changes using List.reverseRecOn with
  | nil => exact ha
  | append_singleton changes change ih =>
    rw [applyAll_snoc]
    cases change with
    | updated child =>
      rw [apply_updated hm]
      exact apart_replaceOrAppend (.of_equivalence hs) ih
    | removed child =>
      rw [apply_removed hm]
      exact ih.filter _

/-- **Membership**: an item is in the entry if it is what the last change of its element brought, or
if nothing ever happened to it and it was there. -/
theorem mem_applyAll {entry : List α} (ha : Apart same entry) (changes : List (Change α))
    (x : α) :
    x ∈ m.applyAll entry changes
      ↔ (concerning same x changes).getLast? = some (.updated x)
        ∨ concerning same x changes = [] ∧ x ∈ entry := by
  induction changes using List.reverseRecOn with
  | nil => simp [concerning, applyAll]
  | append_singleton changes change ih =>
    rw [applyAll_snoc, concerning_snoc]
    cases change with
    | updated child =>
      rw [apply_updated hm,
        mem_replaceOrAppend (.of_equivalence hs) (apart_applyAll hm hs ha changes),
        same_comm hs x child]
      by_cases hx : same child x = true
      · simp [Change.child, hx, @eq_comm _ x child]
      · have hne : x ≠ child := by
          rintro rfl
          exact hx (hs.refl x)
        simp [Change.child, hx, hne, ih]
    | removed child =>
      rw [apply_removed hm, List.mem_filter, same_comm hs x child]
      by_cases hx : same child x = true <;> simp [Change.child, hx, ih]

/-- An element is in an entry if its last change was an upsert, or if it kept its place. -/
theorem present_iff {entry : List α} (ha : Apart same entry) (changes : List (Change α)) (x : α) :
    (∃ y ∈ m.applyAll entry changes, same y x = true)
      ↔ isUpserted same x changes = true
        ∨ ((kept same entry changes).any fun y => same y x) = true := by
  constructor
  · rintro ⟨y, hy, hyx⟩
    rcases (mem_applyAll hm hs ha changes y).1 hy with hlast | ⟨hnone, hin⟩
    · left
      rw [isUpserted, ← concerning_congr hs hyx, hlast]
      rfl
    · right
      refine List.any_eq_true.2 ⟨y, List.mem_filter.2 ⟨hin, ?_⟩, hyx⟩
      rw [isRemoved, hnone]
      rfl
  · have hupserted : ∀ y z, same y x = true →
        (concerning same y changes).getLast? = some (.updated z) →
        ∃ y ∈ m.applyAll entry changes, same y x = true := by
      intro y z hyx hlast
      have hzy : same z y = true := same_of_getLast? hlast
      rw [← concerning_congr hs hzy] at hlast
      exact ⟨z, (mem_applyAll hm hs ha changes z).2 (Or.inl hlast), hs.trans hzy hyx⟩
    rintro (hup | hkept)
    · obtain ⟨z, hlast⟩ := isUpserted_iff.1 hup
      exact hupserted x z (hs.refl x) hlast
    · obtain ⟨y, hy, hyx⟩ := List.any_eq_true.1 hkept
      obtain ⟨hin, hnever⟩ := List.mem_filter.1 hy
      cases hlast : (concerning same y changes).getLast? with
      | none =>
        exact ⟨y, (mem_applyAll hm hs ha changes y).2
          (Or.inr ⟨List.getLast?_eq_none_iff.1 hlast, hin⟩), hyx⟩
      | some change =>
        cases change with
        | updated z => exact hupserted y z hyx hlast
        | removed z =>
          have hremoved : isRemoved same y changes = true :=
            List.any_eq_true.2 ⟨_, List.mem_of_getLast? hlast, rfl⟩
          simp [hremoved] at hnever

end Many

/-! ## 4. In which order -/

theorem kept_snoc (entry : List α) (changes : List (Change α)) (change : Change α) :
    kept same entry (changes ++ [change])
      = (kept same entry changes).filter (spares same change) := by
  rw [kept, kept, List.filter_filter]
  refine List.filter_congr fun x _ => ?_
  rw [isRemoved_snoc, Bool.not_or, Bool.not_not, Bool.and_comm]

theorem spares_congr (hs : Equivalence fun x y => same x y = true) {x y : α}
    (h : same x y = true) (change : Change α) : spares same change x = spares same change y := by
  rw [spares, spares, same_congr hs h]

/-- Among what a change spares a version of an element is found if it was found before and the
element is spared. -/
theorem any_filter_spares (hs : Equivalence fun x y => same x y = true) (entry : List α)
    (change : Change α) (x : α) :
    ((entry.filter (spares same change)).any fun y => same y x)
      = ((entry.any fun y => same y x) && spares same change x) := by
  rw [Bool.eq_iff_iff, Bool.and_eq_true, List.any_eq_true, List.any_eq_true]
  constructor
  · rintro ⟨y, hy, hyx⟩
    obtain ⟨hin, hspared⟩ := List.mem_filter.1 hy
    exact ⟨⟨y, hin, hyx⟩, spares_congr hs hyx change ▸ hspared⟩
  · rintro ⟨⟨y, hin, hyx⟩, hspared⟩
    exact ⟨y, List.mem_filter.2 ⟨hin, spares_congr hs hyx change ▸ hspared⟩, hyx⟩

/-- One change more at the end undoes an arrival before it if it removes the element, and makes no
other difference to it. -/
theorem arrival?_snoc (hs : Equivalence fun x y => same x y = true) (entry : List α)
    (changes : List (Change α)) (change : Change α) {i : Nat} (hi : i < changes.length) :
    arrival? same entry (changes ++ [change]) i
      = (arrival? same entry changes i).filter (spares same change) := by
  unfold arrival?
  rw [List.getElem?_append_left hi, List.drop_append_of_le_length hi,
    List.take_append_of_le_length (Nat.le_of_lt hi), Option.filter_filter]
  congr 1
  funext x
  rw [kept_snoc, any_filter_spares hs, isRemoved_snoc]
  cases spares same change x <;> simp

theorem arrivals_snoc (hs : Equivalence fun x y => same x y = true) (entry : List α)
    (changes : List (Change α)) (change : Change α) :
    arrivals same entry (changes ++ [change])
      = (arrivals same entry changes).filter (spares same change)
        ++ (arrival? same entry (changes ++ [change]) changes.length).toList := by
  have hbefore : (List.range changes.length).filterMap
      (arrival? same entry (changes ++ [change]))
      = (arrivals same entry changes).filter (spares same change) := by
    rw [arrivals, List.filter_filterMap]
    exact List.filterMap_congr fun i hi =>
      arrival?_snoc hs entry changes change (List.mem_range.1 hi)
  rw [arrivals, List.length_append, List.length_singleton, List.range_succ, List.filterMap_append,
    hbefore]
  cases h : arrival? same entry (changes ++ [change]) changes.length <;> simp [h]

/-- The last change of a history is an arrival if it is an upsert of an element that was not
there. -/
theorem arrival?_last (entry : List α) (changes : List (Change α)) (child : α) :
    arrival? same entry (changes ++ [.updated child]) changes.length
      = if isUpserted same child changes = true
            ∨ ((kept same entry changes).any fun x => same x child) = true
        then none else some child := by
  have hkept : kept same entry (changes ++ [.updated child]) = kept same entry changes := by
    rw [kept_snoc]
    exact List.filter_eq_self.2 fun x _ => rfl
  unfold arrival?
  rw [List.getElem?_concat_length, hkept, List.drop_of_length_le (by simp), List.take_left' rfl]
  change Option.filter _ (some child) = _
  rw [Option.filter_some]
  cases isUpserted same child changes <;>
    cases ((kept same entry changes).any fun x => same x child) <;>
    simp [isRemoved, concerning]

/-- Nothing arrives by a removal. -/
theorem arrival?_last_removed (entry : List α) (changes : List (Change α)) (child : α) :
    arrival? same entry (changes ++ [.removed child]) changes.length = none := by
  rw [arrival?, List.getElem?_concat_length]
  rfl

section Many

variable {m : Merge ι α} (hm : m.sameElement = some same)
  (hs : Equivalence fun x y => same x y = true)

include hm hs

/-- **The order of an entry**: what was there and was never removed, then what came, each as its
newest version. -/
theorem applyAll_eq {entry : List α} (ha : Apart same entry) (changes : List (Change α)) :
    m.applyAll entry changes
      = (kept same entry changes ++ arrivals same entry changes).map (newest same changes) := by
  induction changes using List.reverseRecOn with
  | nil =>
    have hkept : kept same entry [] = entry := List.filter_eq_self.2 fun x _ => rfl
    rw [hkept, show arrivals same entry [] = [] from rfl, List.append_nil]
    exact (List.map_id entry).symm
  | append_singleton changes change ih =>
    have hapart := apart_applyAll hm hs ha changes
    have hsame : ∀ x y, same (newest same changes x) y = same y x := fun x y => by
      rw [same_comm hs, same_congr hs (same_newest hs changes x)]
    rw [applyAll_snoc, kept_snoc, arrivals_snoc hs, ← List.append_assoc, ← List.filter_append]
    cases change with
    | removed child =>
      have hnewest : newest same (changes ++ [.removed child]) = newest same changes := by
        funext x
        rw [newest_snoc]
        exact ite_self _
      rw [apply_removed hm, ih, arrival?_last_removed, hnewest, Option.toList_none,
        List.append_nil, List.filter_map]
      refine congrArg _ (List.filter_congr fun x _ => ?_)
      rw [Function.comp_apply, hsame]
      rfl
    | updated child =>
      have hpresent := present_iff hm hs ha changes child
      have hspared : ∀ entry : List α, entry.filter (spares same (.updated child)) = entry :=
        fun entry => List.filter_eq_self.2 fun x _ => rfl
      have hnewest : ∀ x, newest same (changes ++ [.updated child]) x
          = if same child x then child else newest same changes x := fun x => newest_snoc ..
      rw [apply_updated hm, hspared, arrival?_last]
      by_cases hthere : ∃ x ∈ m.applyAll entry changes, same x child = true
      · rw [replaceOrAppend_of_present (.of_equivalence hs) hapart hthere, if_pos (hpresent.1 hthere), ih,
          List.map_map, Option.toList_none, List.append_nil]
        refine List.map_congr_left fun x _ => ?_
        rw [Function.comp_apply, hsame, hnewest]
      · have habsent : ∀ x ∈ m.applyAll entry changes, same x child = false := fun x hx =>
          Bool.eq_false_iff.2 fun hxc => hthere ⟨x, hx, hxc⟩
        rw [replaceOrAppend_of_absent habsent, if_neg (mt hpresent.2 hthere), Option.toList_some,
          List.map_append, List.map_singleton, hnewest, if_pos (hs.refl child), ih]
        refine congrArg (· ++ [child]) (List.map_congr_left fun x hx => ?_)
        have hxc : same child x = false := by
          rw [← hsame]
          exact habsent _ (ih ▸ List.mem_map_of_mem hx)
        rw [hnewest, hxc]
        rfl

end Many

/-! ## 5. The entry after a history -/

/-- Where an id has one child, its last change says all there is to say. -/
theorem applyAll_single {m : Merge ι α} (hm : m.sameElement = none) (entry : List α)
    (changes : List (Change α)) :
    m.applyAll entry changes
      = match changes.getLast? with
        | none => entry
        | some (.updated child) => [child]
        | some (.removed _) => [] := by
  induction changes using List.reverseRecOn with
  | nil => rfl
  | append_singleton changes change _ =>
    rw [applyAll_snoc, List.getLast?_concat]
    cases change <;> simp only [apply, upsert, remove, hm]

/-- A history that is played again over its own outcome adds nothing and takes nothing. -/
theorem applyAll_again {m : Merge ι α} {entry : List α}
    (h : ∀ same, m.sameElement = some same →
      Equivalence (fun x y => same x y = true) ∧ Apart same entry) (changes : List (Change α)) :
    (m.applyAll (m.applyAll entry changes) changes).Perm (m.applyAll entry changes) := by
  cases hm : m.sameElement with
  | none =>
    rw [applyAll_single hm, applyAll_single hm entry]
    cases changes.getLast? with
    | none => exact .refl _
    | some change => cases change <;> exact .refl _
  | some same =>
    obtain ⟨hs, ha⟩ := h same hm
    have hapart := apart_applyAll hm hs ha changes
    have hnodup : ∀ {items : List α}, Apart same items → items.Nodup := fun h =>
      h.imp fun {x y} hxy => by
        rintro rfl
        exact absurd (hs.refl x) (by simp [hxy])
    refine (List.perm_ext_iff_of_nodup (hnodup (apart_applyAll hm hs hapart changes))
      (hnodup hapart)).2 fun x => ?_
    rw [mem_applyAll hm hs hapart, mem_applyAll hm hs ha]
    cases concerning same x changes with
    | nil => simp
    | cons change rest => simp

/-- **An entry in closed form.** Let an entry hold no element twice. After any history of its
changes, where an id may have many children, the elements it began with that were never removed
stand in front in their old order, and behind them all others by their first upsert since their last
removal; each as its newest version and none twice; and an item is there if it is what the last change
of its element brought, or was there and had no change. Where an id has one child the last change
decides. Either way, playing the history again over its outcome leaves the same elements. -/
theorem entry_in_closed_form (m : Merge ι α) {entry : List α}
    (h : ∀ same, m.sameElement = some same →
      Equivalence (fun x y => same x y = true) ∧ Apart same entry) (changes : List (Change α)) :
    (∀ same, m.sameElement = some same →
      m.applyAll entry changes
        = (kept same entry changes ++ arrivals same entry changes).map (newest same changes)
      ∧ Apart same (m.applyAll entry changes)
      ∧ ∀ x, x ∈ m.applyAll entry changes
        ↔ (concerning same x changes).getLast? = some (.updated x)
          ∨ concerning same x changes = [] ∧ x ∈ entry)
    ∧ (m.sameElement = none →
      m.applyAll entry changes
        = match changes.getLast? with
          | none => entry
          | some (.updated child) => [child]
          | some (.removed _) => [])
    ∧ (m.applyAll (m.applyAll entry changes) changes).Perm (m.applyAll entry changes) := by
  refine ⟨fun same hm => ?_, fun hm => applyAll_single hm entry changes, applyAll_again h changes⟩
  obtain ⟨hs, ha⟩ := h same hm
  exact ⟨applyAll_eq hm hs ha changes, apart_applyAll hm hs ha changes,
    mem_applyAll hm hs ha changes⟩

/-- Children that are numbered, and known by their number. -/
def numbered : Merge Unit (Nat × Nat) :=
  { key := fun _ => (), sameElement := some fun x y => x.1 == y.1 }

/-- Two is replaced where it stands, four comes, one goes and comes back behind it, and three comes
back and goes again. -/
theorem entry_in_closed_form_numbered :
    let entry := [(1, 0), (2, 0), (3, 0)]
    let changes : List (Change (Nat × Nat)) :=
      [.updated (4, 0), .updated (2, 1), .removed (1, 0), .updated (4, 1), .updated (1, 2),
        .removed (3, 0), .updated (3, 1), .removed (3, 1), .updated (2, 2), .updated (1, 3)]
    (∀ same, numbered.sameElement = some same →
      Equivalence (fun x y => same x y = true) ∧ Apart same entry)
    ∧ numbered.applyAll entry changes = [(2, 2), (4, 1), (1, 3)]
    ∧ (numbered.applyAll [(2, 2), (4, 1), (1, 3)] changes).Perm [(2, 2), (4, 1), (1, 3)]
    ∧ { numbered with sameElement := none }.applyAll entry changes = [(1, 3)] := by
  intro entry changes
  have hsame : ∀ same, numbered.sameElement = some same →
      Equivalence (fun x y => same x y = true) ∧ Apart same entry := by
    rintro same ⟨⟩
    refine ⟨⟨fun x => beq_self_eq_true x.1, fun hxy => ?_, fun hxy hyz => ?_⟩, by decide⟩
    · exact beq_iff_eq.2 (beq_iff_eq.1 hxy).symm
    · exact beq_iff_eq.2 ((beq_iff_eq.1 hxy).trans (beq_iff_eq.1 hyz))
  have hplain : ∀ same, { numbered with sameElement := none }.sameElement = some same →
      Equivalence (fun x y => same x y = true) ∧ Apart same entry := by
    rintro same ⟨⟩
  have hmany := entry_in_closed_form numbered hsame changes
  have hone := entry_in_closed_form { numbered with sameElement := none } hplain changes
  have hentry : numbered.applyAll entry changes = [(2, 2), (4, 1), (1, 3)] :=
    (hmany.1 _ rfl).1.trans (by decide)
  exact ⟨hsame, hentry, hentry ▸ hmany.2.2, (hone.2.1 rfl).trans rfl⟩

end Merge

end Collate
