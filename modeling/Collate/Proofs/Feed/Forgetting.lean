/-
A feed over a store that forgets.

The consumer folds the changes of a window into the entries its store still holds, and an id without
an entry begins with an empty one. Over a store that evicts, that is not always the first beginning:
what is put together for an id afterwards is made of the id's later changes alone. So an entry that
is found is the fold of some last stretch of the id's changes (`Merge.Recalls`), which is all there
is where an entry is one child, and short of what came before where an entry may be many. As long as
nothing was evicted entries are whole.
-/
import Collate.Proofs.Feed.Snapshots
import Collate.Proofs.Store.Evictions

set_option autoImplicit false

namespace Collate

variable {ι α : Type} [DecidableEq ι]

/-! ## 1. What is remembered of a history -/

namespace Merge

/-- The entry is what the last changes of the id come to when all changes before them are
forgotten. -/
def Recalls (m : Merge ι α) (changes : List (Change α)) (id : ι) (entry : List α) : Prop :=
  entry ≠ [] ∧ ∃ earlier later, m.changesOf id changes = earlier ++ later
    ∧ entry = m.applyAll [] later

omit [DecidableEq ι] in
/-- Where an id has one child its last change says all there is to say. -/
theorem applyAll_of_one {m : Merge ι α} (hm : m.sameElement = none) (entry : List α)
    {changes : List (Change α)} (h : changes ≠ []) :
    m.applyAll entry changes = m.applyAll [] changes := by
  obtain ⟨rest, change, rfl⟩ := List.eq_nil_or_concat changes |>.resolve_left h
  have hlast : ∀ entry', m.apply entry' change = m.apply [] change := by
    intro entry'
    cases change <;> simp only [apply, upsert, remove, hm]
  rw [List.concat_eq_append, applyAll_append, applyAll_append]
  exact (hlast _).trans (hlast _).symm

theorem Recalls.folded_of_one {m : Merge ι α} (hm : m.sameElement = none)
    {changes : List (Change α)} {id : ι} {entry : List α} (h : m.Recalls changes id entry) :
    m.folded? changes id = some entry := by
  obtain ⟨hne, earlier, later, hsplit, rfl⟩ := h
  have hlater : later ≠ [] := by
    rintro rfl
    exact hne rfl
  have hfold : m.applyAll [] (m.changesOf id changes) = m.applyAll [] later := by
    rw [hsplit, applyAll_append, applyAll_of_one hm _ hlater]
  unfold folded?
  rw [hfold]
  cases hentry : m.applyAll [] later with
  | nil => exact absurd hentry hne
  | cons child rest => rfl

end Merge

/-- All entries of a layer's store are recalled from a history. -/
def Layer.Recalls (layer : Layer) (m : Merge ι α) (changes : List (Change α)) (sys : System ι α) :
    Prop :=
  ∀ id entry, (sys.stores.get layer.store).shelf.contents.get? id = some entry →
    m.Recalls changes id entry

/-- What a shelf holds after a window continues what it held, whatever it evicts. -/
theorem Shelf.continued_of_update {m : Merge ι α} {shelf : Shelf ι (List α)}
    {changes : List (Change α)} {hits : Entries ι (List α)}
    (hhits : ∀ id, hits.get? id
      = if id ∈ distinct (m.idsOf changes) then shelf.contents.get? id else none)
    {batch : List (ι × List α)} (hp : batch.Perm (m.updatesOf hits changes).pairs) {id : ι}
    {entry : List α}
    (hentry : (shelf.update batch (m.removalsOf hits changes)).contents.get? id = some entry) :
    m.continued? shelf.contents changes id = some entry := by
  have hcap : (Shelf.unbounded shelf.contents).capacity? = none := rfl
  refine (Shelf.get?_update_continued hcap hhits hp id).symm.trans ?_
  exact (shelf.update_spec batch (m.removalsOf hits changes)).1 id entry hentry

/-- **A window over what is left**: whatever a shelf has forgotten, what it holds after a window is
recalled from the longer history. -/
theorem Shelf.recalls_update {m : Merge ι α} {shelf : Shelf ι (List α)}
    {before changes : List (Change α)}
    (hshelf : ∀ id entry, shelf.contents.get? id = some entry → m.Recalls before id entry)
    {hits : Entries ι (List α)}
    (hhits : ∀ id, hits.get? id
      = if id ∈ distinct (m.idsOf changes) then shelf.contents.get? id else none)
    {batch : List (ι × List α)} (hp : batch.Perm (m.updatesOf hits changes).pairs) {id : ι}
    {entry : List α}
    (hentry : (shelf.update batch (m.removalsOf hits changes)).contents.get? id = some entry) :
    m.Recalls (before ++ changes) id entry := by
  have hkept := Shelf.continued_of_update hhits hp hentry
  unfold Merge.continued? at hkept
  by_cases hid : id ∈ m.idsOf changes
  · rw [if_pos hid] at hkept
    cases hnew : m.applyAll ((shelf.contents.get? id).getD []) (m.changesOf id changes) with
    | nil =>
      rw [hnew] at hkept
      cases hkept
    | cons child rest =>
      obtain rfl : child :: rest = entry := by simpa [hnew] using hkept
      refine ⟨List.cons_ne_nil _ _, ?_⟩
      rw [← hnew, Merge.changesOf_append]
      cases hold : shelf.contents.get? id with
      | none => exact ⟨m.changesOf id before, m.changesOf id changes, rfl, rfl⟩
      | some old =>
        obtain ⟨_, earlier, later, hsplit, rfl⟩ := hshelf id old hold
        refine ⟨earlier, later ++ m.changesOf id changes, ?_, ?_⟩
        · rw [hsplit, List.append_assoc]
        · rw [Merge.applyAll_append]
          rfl
  · rw [if_neg hid] at hkept
    obtain ⟨hne, earlier, later, hsplit, heq⟩ := hshelf id entry hkept
    refine ⟨hne, earlier, later, ?_, heq⟩
    rw [Merge.changesOf_append, (Merge.changesOf_eq_nil m id changes).2 hid, List.append_nil, hsplit]

/-- A window that nothing is evicted with makes whole entries out of whole entries. -/
theorem Shelf.get?_update_whole {m : Merge ι α} {shelf : Shelf ι (List α)}
    {before changes : List (Change α)}
    (hshelf : ∀ id, shelf.contents.get? id = m.folded? before id) {hits : Entries ι (List α)}
    (hhits : ∀ id, hits.get? id
      = if id ∈ distinct (m.idsOf changes) then shelf.contents.get? id else none)
    {batch : List (ι × List α)} (hp : batch.Perm (m.updatesOf hits changes).pairs)
    (hsame : (shelf.update batch (m.removalsOf hits changes)).evicted = shelf.evicted) (id : ι) :
    (shelf.update batch (m.removalsOf hits changes)).contents.get? id
      = m.folded? (before ++ changes) id := by
  rcases (shelf.update_spec batch (m.removalsOf hits changes)).2 with ⟨hall, _⟩ | hlt
  · rw [hall]
    have hcap : (Shelf.unbounded shelf.contents).capacity? = none := rfl
    exact Shelf.get?_update_folded hcap hshelf hhits hp id
  · exact absurd hsame (Nat.ne_of_gt hlt)

/-! ## 2. What is known at each stage -/

/-- What is known at a stage when so many windows were taken up: none of those done with has failed,
and what is read or about to be written is what becomes of the last one. -/
def Stage.Carries (m : Merge ι α) (layer : Layer) (taken : List (List (FeedItem α)))
    (sys : System ι α) : Stage ι α → Prop
  | .gathering => FeedItem.failure? taken.flatten = none
  | .reading lookup changes failure => lookup.layer = layer
    ∧ lookup.ids = distinct (m.idsOf changes) ∧ ∃ rest window, taken = rest ++ [window]
    ∧ FeedItem.failure? rest.flatten = none ∧ failure = FeedItem.failure? window
    ∧ changes = FeedItem.changes window
  | .writing updates removals failure => ∃ rest window hits, taken = rest ++ [window]
    ∧ FeedItem.failure? rest.flatten = none ∧ failure = FeedItem.failure? window
    ∧ (∀ id, hits.get? id = if id ∈ distinct (m.idsOf (FeedItem.changes window))
        then (sys.stores.get layer.store).shelf.contents.get? id else none)
    ∧ updates = m.updatesOf hits (FeedItem.changes window)
    ∧ removals = m.removalsOf hits (FeedItem.changes window)
  | .applied failure => ∃ rest window, taken = rest ++ [window]
    ∧ FeedItem.failure? rest.flatten = none ∧ failure = FeedItem.failure? window
  | .ended => True

theorem Stage.Carries.of_contents {stage : Stage ι α} {m : Merge ι α} {layer : Layer}
    {taken : List (List (FeedItem α))} {sys sys' : System ι α}
    (h : stage.Carries m layer taken sys)
    (hcontents : (sys'.stores.get layer.store).shelf.contents
      = (sys.stores.get layer.store).shelf.contents) : stage.Carries m layer taken sys' := by
  cases stage with
  | gathering | reading | applied | ended => exact h
  | writing updates removals failure =>
    obtain ⟨rest, window, hits, htaken, hrest, hfailure, hhits, hupdates, hremovals⟩ := h
    refine ⟨rest, window, hits, htaken, hrest, hfailure, fun id => ?_, hupdates, hremovals⟩
    rw [hcontents]
    exact hhits id

theorem Lookup.sameEntries_step (l : Lookup ι) (sys : System ι α) (n : Nat) :
    System.SameEntries n sys (l.step sys).2 := by
  have h := l.stepped sys
  generalize l.step sys = out at h
  obtain ⟨p, sys'⟩ := out
  dsimp only at h ⊢
  cases h with
  | stalls | watches | passes | refused => exact .of_shelf rfl
  | reads => exact System.sameEntries_read ..

/-- **What a step of a consumer does to its store**: nothing, and nothing is counted; or a window is
taken up, which counts as applied if it holds no changes; or a window is written. -/
theorem Consumer.Stepped.on_store {c c' : Consumer ι α} {sys sys' : System ι α}
    {window? : Option (List (FeedItem α))} {isApplied : Bool}
    (h : c.Stepped sys window? isApplied c' sys') :
    (window? = none ∧ isApplied = false ∧ System.SameEntries c.backing.store sys sys')
    ∨ (∃ window, c.stage = .gathering ∧ window? = some window
      ∧ isApplied = (FeedItem.changes window).isEmpty ∧ sys' = sys)
    ∨ ∃ updates removals failure batch, c.stage = .writing updates removals failure
      ∧ window? = none ∧ isApplied = true ∧ batch.Perm updates.pairs
      ∧ (sys'.stores.get c.backing.store).shelf
        = (sys.stores.get c.backing.store).shelf.update batch removals := by
  cases h with
  | sleeps | gathers | rests => exact Or.inl ⟨rfl, rfl, .of_shelf rfl⟩
  | @accepts hstage _ window => exact Or.inr (Or.inl ⟨window, hstage, rfl, rfl, rfl⟩)
  | completes => exact Or.inl ⟨rfl, rfl, (System.SameEntries.of_shelf rfl).publish _ _⟩
  | stalls | looks | read => exact Or.inl ⟨rfl, rfl, Lookup.sameEntries_step ..⟩
  | unread => exact Or.inl ⟨rfl, rfl, (Lookup.sameEntries_step ..).publish _ _⟩
  | @unwritten updates removals failure e hstage hupdate =>
    rcases System.update_cases sys c.backing updates removals with
      ⟨_, _, hshelf⟩ | ⟨_, _, hok, _⟩
    · exact Or.inl ⟨rfl, rfl, (System.SameEntries.of_shelf hshelf).publish _ _⟩
    · rw [hok] at hupdate
      cases hupdate
  | @written updates removals failure hstage hupdate =>
    rcases System.update_cases sys c.backing updates removals with
      ⟨_, herror, _⟩ | ⟨batch, hperm, _, hshelf⟩
    · rw [herror] at hupdate
      cases hupdate
    · exact Or.inr (Or.inr ⟨updates, removals, failure, batch, hstage, rfl, rfl, hperm, hshelf⟩)
  | publishes =>
    refine Or.inl ⟨rfl, rfl, ?_⟩
    split
    · exact .of_shelf rfl
    · exact (System.SameEntries.of_shelf rfl).publish _ _

theorem Lookup.Stepped.ids {l l' : Lookup ι} {sys sys' : System ι α}
    (h : l.Stepped sys (.going l') sys') : l'.ids = l.ids := by
  generalize hp : (Progress.going l' : Progress (Lookup ι) (Except Error (Found ι α))) = p at h
  cases h with
  | stalls | refused | reads => cases hp
  | watches | passes =>
    cases hp
    rfl

/-- **A step of a consumer** keeps what is known at its stage. -/
theorem Stage.Carries.stepped {m : Merge ι α} {layer : Layer} {taken : List (List (FeedItem α))}
    {c c' : Consumer ι α} {sys sys' : System ι α} {window? : Option (List (FeedItem α))}
    {isApplied : Bool} (hmerge : c.merge = m) (hbacking : c.backing = layer)
    (h : c.stage.Carries m layer taken sys) (hs : c.Stepped sys window? isApplied c' sys') :
    c'.stage.Carries m layer (taken ++ window?.toList) sys' := by
  cases hs with
  | sleeps | rests => simpa using h
  | gathers hstage => simpa [hstage, Stage.Carries] using h
  | @accepts hstage _ window =>
    rw [hstage] at h
    unfold Consumer.accept
    dsimp only
    cases hchanges : FeedItem.changes window with
    | nil => exact ⟨taken, window, rfl, h, rfl⟩
    | cons change changes =>
      exact ⟨hbacking, hmerge ▸ rfl, taken, window, rfl, h, rfl, hchanges.symm⟩
  | completes | unread | unwritten => trivial
  | stalls => simpa using h.of_contents ((Lookup.stepped ..).contents layer.store)
  | @looks lookup lookup' changes failure hstage hstep =>
    have hlookup := lookup.stepped sys
    rw [hstep] at hlookup
    rw [hstage] at h
    obtain ⟨hlayer, hids, hwindow⟩ := h
    exact ⟨hlookup.awaiting.1.trans hlayer, hlookup.ids.trans hids, by simpa using hwindow⟩
  | @read lookup changes failure found hstage hstep =>
    have hlookup := lookup.stepped sys
    rw [hstep] at hlookup
    rw [hstage] at h
    obtain ⟨hlayer, hids, rest, window, htaken, hrest, hfailure, rfl⟩ := h
    refine ⟨rest, window, found.hits, by simpa using htaken, hrest, hfailure, fun id => ?_, ?_, ?_⟩
    · rw [hlookup.found.1 id, hids, hlayer, hlookup.contents layer.store]
    · rw [hmerge]
    · rw [hmerge]
  | written hstage =>
    rw [hstage] at h
    obtain ⟨rest, window, _, htaken, hrest, hfailure, _⟩ := h
    exact ⟨rest, window, by simpa using htaken, hrest, hfailure⟩
  | @publishes failure hstage =>
    rw [hstage] at h
    obtain ⟨rest, window, htaken, hrest, hfailure⟩ := h
    cases failure with
    | some text => trivial
    | none =>
      show FeedItem.failure? (taken ++ []).flatten = none
      rw [List.append_nil, htaken, List.flatten_append, List.flatten_singleton,
        FeedItem.failure?_append, hrest, ← hfailure]
      rfl

namespace Service

/-- The changes in front of the first failure of the windows in the layer. -/
def history (t : Service ι α) : List (Change α) :=
  FeedItem.changes (t.taken.take t.applied).flatten

/-- Nobody but the consumer writes its store: what happens elsewhere changes neither what it holds
or has forgotten nor how it answers. -/
structure Unshared (c : Consumer ι α) (sys sys' : System ι α) : Prop
    extends Undisturbed c sys sys' where
  evicted : (sys'.stores.get c.backing.store).shelf.evicted
    = (sys.stores.get c.backing.store).shelf.evicted

/-- What is kept along a run over any store. -/
structure Recalled (c₀ : Consumer ι α) (t : Service ι α) : Prop where
  merge : t.consumer.merge = c₀.merge
  backing : t.consumer.backing = c₀.backing
  unfed : c₀.backing.feeds = []
  recalls : c₀.backing.Recalls c₀.merge t.history t.system
  whole : (t.system.stores.get c₀.backing.store).shelf.evicted = 0 →
    c₀.backing.Holds c₀.merge t.history t.system
  stage : t.consumer.stage.Carries c₀.merge c₀.backing t.taken t.system

variable {c₀ c : Consumer ι α} {ref : FeedRef} {t t' : Service ι α} {v : Visit ι}
  {sys : System ι α} {window? : Option (List (FeedItem α))} {isApplied : Bool}

/-- Where neither the store nor the history differs. -/
theorem Recalled.of_same (h : Recalled c₀ t) (hmerge : t'.consumer.merge = t.consumer.merge)
    (hbacking : t'.consumer.backing = t.consumer.backing) (hhistory : t'.history = t.history)
    (hcontents : (t'.system.stores.get c₀.backing.store).shelf.contents
      = (t.system.stores.get c₀.backing.store).shelf.contents)
    (hevicted : (t'.system.stores.get c₀.backing.store).shelf.evicted
      = (t.system.stores.get c₀.backing.store).shelf.evicted)
    (hstage : t'.consumer.stage.Carries c₀.merge c₀.backing t'.taken t'.system) :
    Recalled c₀ t' := by
  refine ⟨hmerge.trans h.merge, hbacking.trans h.backing, h.unfed, fun id entry hentry => ?_,
    fun hzero id => ?_, hstage⟩
  · rw [hcontents] at hentry
    rw [hhistory]
    exact h.recalls id entry hentry
  · rw [hcontents, hhistory]
    exact h.whole (hevicted ▸ hzero) id

theorem Recalled.moveTo (h : Recalled c₀ t)
    (hcontents : (sys.stores.get c₀.backing.store).shelf.contents
      = (t.system.stores.get c₀.backing.store).shelf.contents)
    (hevicted : (sys.stores.get c₀.backing.store).shelf.evicted
      = (t.system.stores.get c₀.backing.store).shelf.evicted) : Recalled c₀ (t.moveTo sys) :=
  h.of_same rfl rfl rfl hcontents hevicted (h.stage.of_contents hcontents)

theorem Recalled.withVisits (h : Recalled c₀ t) (visits : List (Visit ι)) :
    Recalled c₀ { t with visits := visits } :=
  ⟨h.merge, h.backing, h.unfed, h.recalls, h.whole, h.stage⟩

/-! ## 3. Steps of the consumer -/

omit [DecidableEq ι] in
theorem history_consumed_none (t : Service ι α) (c : Consumer ι α) (sys : System ι α) :
    (t.consumed none false c sys).history = t.history := by
  simp [history]

omit [DecidableEq ι] in
/-- With the last window applied the history is that of all windows. -/
theorem history_of_all {rest : List (List (FeedItem α))} {window : List (FeedItem α)}
    (htaken : t.taken = rest ++ [window]) (hrest : FeedItem.failure? rest.flatten = none)
    (happlied : t.applied = t.taken.length) :
    t.history = FeedItem.changes rest.flatten ++ FeedItem.changes window := by
  rw [history, happlied, List.take_length, htaken, List.flatten_append, List.flatten_singleton,
    FeedItem.changes_append, hrest]
  rfl

omit [DecidableEq ι] in
/-- While the last window is worked on the history is that of those before it. -/
theorem history_of_rest {rest : List (List (FeedItem α))} {window : List (FeedItem α)}
    (htaken : t.taken = rest ++ [window]) (happlied : t.applied = rest.length) :
    t.history = FeedItem.changes rest.flatten := by
  rw [history, happlied, htaken, List.take_left]

/-- A window that is taken up is not seen, unless there is nothing to see. -/
theorem Recalled.accepts (h : Recalled c₀ t) (hstage : t.consumer.stage = .gathering)
    (happlied : t.applied = t.taken.length) (window : List (FeedItem α)) :
    (t.consumed (some window) (FeedItem.changes window).isEmpty c sys).history = t.history := by
  have hclean := h.stage
  rw [hstage] at hclean
  have hall : t.history = FeedItem.changes t.taken.flatten := by
    rw [history, happlied, List.take_length]
  cases hchanges : FeedItem.changes window with
  | nil =>
    refine (history_of_all rfl hclean (by simp [happlied])).trans ?_
    rw [hall, hchanges, List.append_nil]
  | cons change changes => exact (history_of_rest rfl (by simp [happlied])).trans hall.symm

/-- What is about to be written is what becomes of the last window, and with it the history goes on
by the changes of that window. -/
theorem Recalled.window (h : Recalled c₀ t) (hsound : Sound ref t) {updates : Entries ι (List α)}
    {removals : List ι} {failure : Option String}
    (hstage : t.consumer.stage = .writing updates removals failure) :
    ∃ window hits, (∀ id, hits.get? id = if id ∈ distinct (c₀.merge.idsOf (FeedItem.changes window))
        then (t.system.stores.get c₀.backing.store).shelf.contents.get? id else none)
      ∧ updates = c₀.merge.updatesOf hits (FeedItem.changes window)
      ∧ removals = c₀.merge.removalsOf hits (FeedItem.changes window)
      ∧ ∀ c sys, (t.consumed none true c sys).history = t.history ++ FeedItem.changes window := by
  have hcarries := h.stage
  have hfits := hsound.stage
  rw [hstage] at hcarries hfits
  obtain ⟨rest, window, hits, htaken, hrest, hfailure, hhits, hupdates, hremovals⟩ := hcarries
  obtain ⟨rest', window', htaken', _, happlied, _⟩ := hfits
  obtain ⟨rfl, _⟩ : rest = rest' ∧ _ := List.append_inj' (htaken.symm.trans htaken') rfl
  refine ⟨window, hits, hhits, hupdates, hremovals, fun c sys => ?_⟩
  rw [history_of_rest htaken happlied]
  exact history_of_all (by simpa using htaken) hrest (by simp [happlied, htaken])

/-- What was folded is written. -/
theorem Recalled.writes (h : Recalled c₀ t) {updates : Entries ι (List α)} {removals : List ι}
    {failure : Option String} (hstage : t.consumer.stage = .writing updates removals failure)
    (hsound : Sound ref t) {batch : List (ι × List α)} (hperm : batch.Perm updates.pairs)
    (hshelf : (sys.stores.get c₀.backing.store).shelf
      = (t.system.stores.get c₀.backing.store).shelf.update batch removals)
    (hmerge : c.merge = c₀.merge) (hbacking : c.backing = c₀.backing)
    (hcarries' : c.stage.Carries c₀.merge c₀.backing (t.taken ++ []) sys) :
    Recalled c₀ (t.consumed none true c sys) := by
  obtain ⟨window, hits, hhits, rfl, rfl, hafter⟩ := h.window hsound hstage
  refine ⟨hmerge, hbacking, h.unfed, fun id entry hentry => ?_, fun hzero id => ?_, hcarries'⟩
  · rw [hafter]
    rw [system_consumed, hshelf] at hentry
    exact Shelf.recalls_update h.recalls hhits hperm hentry
  · rw [system_consumed, hshelf] at hzero
    have hle : (t.system.stores.get c₀.backing.store).shelf.evicted = 0 := by
      rcases ((t.system.stores.get c₀.backing.store).shelf.update_spec batch
        (c₀.merge.removalsOf hits (FeedItem.changes window))).2 with ⟨_, hsame⟩ | hlt
      · rw [← hsame, hzero]
      · rw [hzero] at hlt
        exact absurd hlt (Nat.not_lt_zero _)
    rw [hafter, system_consumed, hshelf]
    exact Shelf.get?_update_whole (h.whole hle) hhits hperm (hzero.trans hle.symm) id

/-- **A step of the consumer.** A window that is taken up is not seen, and reading changes nothing;
what is written continues what is held, and an id that is not held begins anew. -/
theorem Recalled.consume (h : Recalled c₀ t) (hsound : Sound ref t) : Recalled c₀ t.consume := by
  have hs := t.consumer.stepped t.system
  obtain ⟨_, hmerge, hbacking⟩ := hs.same
  have hcarries := Stage.Carries.stepped h.merge h.backing h.stage hs
  have hstore := hs.on_store
  unfold Service.consume
  rw [h.backing] at hstore
  rcases hstore with ⟨hnone, hfalse, hsame⟩ | ⟨window, hstage, hsome, hempty, hsys⟩
    | ⟨updates, removals, failure, batch, hstage, hnone, htrue, hperm, hshelf⟩
  · rw [hnone] at hcarries
    rw [hnone, hfalse]
    exact h.of_same hmerge hbacking (history_consumed_none ..) hsame.contents hsame.evicted hcarries
  · have hfits := hsound.stage
    rw [hstage] at hfits
    rw [hsome, hsys] at hcarries
    rw [hsome, hempty, hsys]
    exact h.of_same hmerge hbacking (h.accepts hstage hfits.1 window) rfl rfl hcarries
  · rw [hnone] at hcarries
    rw [hnone, htrue]
    exact h.writes hstage hsound hperm hshelf (hmerge.trans h.merge) (hbacking.trans h.backing)
      hcarries

/-! ## 4. Whole runs -/

theorem Recalled.start (h : c.Unbegun ref sys) (hunfed : c.backing.feeds = [])
    (hempty : ∀ id, (sys.stores.get c.backing.store).shelf.contents.get? id = none) :
    Recalled c (start c sys) := by
  refine ⟨rfl, rfl, hunfed, fun id entry hentry => ?_, fun _ => hempty, ?_⟩
  · have hnone : (sys.stores.get c.backing.store).shelf.contents.get? id = some entry := hentry
    rw [hempty] at hnone
    cases hnone
  · show c.stage.Carries c.merge c.backing [] sys
    rw [h.stage]
    rfl

theorem Recalled.step (h : Recalled c₀ t) (hsound : Sound ref t)
    (hstep : Step ref (Unshared c₀) t t') : Recalled c₀ t' := by
  cases hstep with
  | comes => exact h.withVisits _
  | @looks before behind v =>
    have hsame := v.lookup.sameEntries_step t.system c₀.backing.store
    exact (h.moveTo hsame.contents hsame.evicted).withVisits _
  | @drops before behind v =>
    refine (h.moveTo ?_ ?_).withVisits _ <;>
    · obtain ⟨feeds, hu⟩ := Lookup.unwatch_eq v.lookup t.system
      rw [hu]
  | consumes => exact h.consume hsound
  | receives => exact ⟨h.merge, h.backing, h.unfed, h.recalls, h.whole, h.stage⟩
  | beside hb => exact h.moveTo hb.contents hb.evicted

theorem Recalled.of_leads (h : Recalled c₀ t) (hfeed : c₀.feed = ref.feed) (hsound : Sound ref t)
    (hrun : Leads ref (Unshared c₀) t t') : Sound ref t' ∧ Recalled c₀ t' := by
  have helsewhere : ∀ {sys sys' : System ι α}, Unshared c₀ sys sys' →
      Elsewhere ref.feed sys sys' := fun hb => hfeed ▸ hb.toElsewhere
  induction hrun with
  | refl => exact ⟨hsound, h⟩
  | tail _ hstep ih => exact ⟨ih.1.step helsewhere hstep, ih.2.step ih.1 hstep⟩

/-! ## 5. What a lookup finds -/

/-- What the store of a feed gives for ids when it may have forgotten some of them. -/
structure Remembers (c : Consumer ι α) (t : Service ι α) (ids : List ι) (hits : Entries ι (List α)) :
    Prop where
  /-- Only ids that were asked for are there, and what is there is recalled. -/
  recalls : ∀ id entry, hits.get? id = some entry → id ∈ ids ∧ c.merge.Recalls t.history id entry
  /-- Where an id has one child, what is there is all there is to know of the id. -/
  single : c.merge.sameElement = none → ∀ id entry, hits.get? id = some entry →
    c.merge.folded? t.history id = some entry
  /-- As long as nothing was forgotten everything is there, and whole. -/
  whole : (t.system.stores.get c.backing.store).shelf.evicted = 0 → ∀ id ∈ ids,
    hits.get? id = c.merge.folded? t.history id

theorem Recalled.remembers (h : Recalled c₀ t) (hsound : Sound ref t) (hv : v ∈ t.visits)
    {found : Found ι α} (hfound : (v.lookup.step t.system).1 = .finished (.ok found)) :
    Remembers c₀ t v.lookup.ids found.hits := by
  have hstep := v.lookup.stepped t.system
  rw [hfound] at hstep
  have hstore : v.lookup.layer.store = c₀.backing.store :=
    (hsound.visits v hv).place.store.trans (congrArg Layer.store h.backing)
  have hhits := hstep.found.1
  rw [hstore] at hhits
  have hrecalls : ∀ id entry, found.hits.get? id = some entry →
      id ∈ v.lookup.ids ∧ c₀.merge.Recalls t.history id entry := by
    intro id entry hentry
    rw [hhits] at hentry
    by_cases hid : id ∈ v.lookup.ids
    · rw [if_pos hid] at hentry
      exact ⟨hid, h.recalls id entry hentry⟩
    · rw [if_neg hid] at hentry
      cases hentry
  refine ⟨hrecalls, fun hone id entry hentry => (hrecalls id entry hentry).2.folded_of_one hone,
    fun hzero id hid => ?_⟩
  rw [hhits, if_pos hid]
  exact h.whole hzero id

/-- **What is found of a feed whose store forgets.** In every run of a feed over a store that was
empty at first, whatever its bound, and with any grouping of what the feed brings: an entry that is
found is the fold of the last changes of its id. Where an id has one child it is the fold of all of
them; where it may have many it is so as long as nothing was evicted. -/
theorem hits_recalled (h : c.Unbegun ref sys) (hunfed : c.backing.feeds = [])
    (hempty : ∀ id, (sys.stores.get c.backing.store).shelf.contents.get? id = none)
    (hrun : Leads ref (Unshared c) (start c sys) t) (hv : v ∈ t.visits) {found : Found ι α}
    (hfound : (v.lookup.step t.system).1 = .finished (.ok found)) :
    Remembers c t v.lookup.ids found.hits := by
  obtain ⟨hsound, hrecalled⟩ := (Recalled.start h hunfed hempty).of_leads h.feed (Sound.start h) hrun
  exact hrecalled.remembers hsound hv hfound

/-! ## 6. A store for one id -/

theorem Leads.consumes {elsewhere : System ι α → System ι α → Prop} (hrun : Leads ref elsewhere t t')
    (n : Nat) : Leads ref elsewhere t (n.repeat consume t') := by
  induction n with
  | zero => exact hrun
  | succ n ih => exact ih.tail .consumes

theorem exists_found {l : Lookup ι} {id : ι} {entry : List α}
    (hawaiting : l.awaiting = [])
    (hhit : (sys.read l.layer l.ids).1.toOption.bind (·.hits.get? id) = some entry) :
    ∃ found, (l.step sys).1 = .finished (.ok found) ∧ found.hits.get? id = some entry := by
  rw [Lookup.step_read hawaiting]
  cases hread : (sys.read l.layer l.ids).1 with
  | error e =>
    rw [hread] at hhit
    cases hhit
  | ok found =>
    rw [hread] at hhit
    exact ⟨found, rfl, hhit⟩

/-- Windows of one change: 1 gets a child, 2 gets one, and 1 gets another. -/
def oneByOne (merge : Merge Nat (Nat × Nat)) : Consumer Nat (Nat × Nat) :=
  { feed := 0, merge := merge, backing := ⟨[], 0⟩
    inlet := .channel [.ok (.updated (1, 10)), .ok (.updated (2, 20)), .ok (.updated (1, 11))]
      true false
    collector := .ofSettings { maxSize := 1 } }

/-- The store holds one entry. -/
def narrow : System Nat (Nat × Nat) := { stores := .ofList .fresh [.freshBounded 1] }

/-- A lookup for 1 is let past the feed when all windows are in the layer. -/
def outgrown (merge : Merge Nat (Nat × Nat)) : Service Nat (Nat × Nat) :=
  let l : Lookup Nat := .start ⟨[.fed ⟨0, 500⟩], 0⟩ [1]
  (Nat.repeat consume 12 (((start (oneByOne merge) narrow).come l).look [] ⟨l, 0⟩ [])).look []
    ⟨{ l with alarm := some ⟨500, 0, .step⟩ }, 0⟩ []

theorem unbegun_oneByOne (merge : Merge Nat (Nat × Nat)) :
    (oneByOne merge).Unbegun ⟨0, 500⟩ narrow :=
  ⟨rfl, by simp [oneByOne, Layer.feeds], rfl, Nat.ne_of_gt (Nat.le_max_right ..), rfl, rfl⟩

theorem leads_outgrown (merge : Merge Nat (Nat × Nat)) :
    Leads ⟨0, 500⟩ (Unshared (oneByOne merge)) (start (oneByOne merge) narrow) (outgrown merge) := by
  have hcomes : Leads ⟨0, 500⟩ (Unshared (oneByOne merge)) (start (oneByOne merge) narrow)
      ((start (oneByOne merge) narrow).come (.start ⟨[.fed ⟨0, 500⟩], 0⟩ [1])) :=
    .single (.comes ⟨rfl, List.suffix_rfl, List.suffix_rfl⟩ rfl)
  exact (Leads.consumes (hcomes.tail (.looks rfl)) 12).tail (.looks rfl)

/-- The child that 2 has got pushed 1 out. What 1 is found with is its last child, and that is all
there is of an id with one child. -/
theorem hits_recalled_of_one :
    let c := oneByOne ⟨Prod.fst, none⟩
    let t := outgrown ⟨Prod.fst, none⟩
    c.Unbegun ⟨0, 500⟩ narrow ∧ Leads ⟨0, 500⟩ (Unshared c) (start c narrow) t
    ∧ (t.system.stores.get 0).shelf.evicted = 2
    ∧ ∃ v ∈ t.visits, v.lookup.ids = [1]
      ∧ ∃ found, (v.lookup.step t.system).1 = .finished (.ok found)
        ∧ found.hits.get? 1 = some [(1, 11)] ∧ c.merge.folded? t.history 1 = some [(1, 11)] := by
  intro c t
  have hbegun := unbegun_oneByOne ⟨Prod.fst, none⟩
  have hrun := leads_outgrown ⟨Prod.fst, none⟩
  have hevicted : (t.system.stores.get 0).shelf.evicted = 2 := by decide +kernel
  have hreads : ∀ v ∈ t.visits, v.lookup.awaiting = [] ∧ v.lookup.ids = [1]
      ∧ (t.system.read v.lookup.layer v.lookup.ids).1.toOption.bind (·.hits.get? 1)
        = some [(1, 11)] := by decide +kernel
  obtain ⟨v, hv⟩ := List.exists_mem_of_ne_nil t.visits (List.length_pos_iff.1 (by decide +kernel))
  obtain ⟨hawaiting, hids, hread⟩ := hreads v hv
  obtain ⟨found, hfound, hhit⟩ := exists_found hawaiting hread
  have hremembers := hits_recalled hbegun rfl (fun _ => rfl) hrun hv hfound
  exact ⟨hbegun, hrun, hevicted, v, hv, hids, found, hfound, hhit, hremembers.single rfl 1 _ hhit⟩

/-- **A part of an entry that looks whole**: an id that may have many children is found with its last
one only, though the one before was never removed. -/
theorem hits_short_of_forgotten :
    let c := oneByOne ⟨Prod.fst, some fun old new => old.2 == new.2⟩
    let t := outgrown ⟨Prod.fst, some fun old new => old.2 == new.2⟩
    c.Unbegun ⟨0, 500⟩ narrow ∧ Leads ⟨0, 500⟩ (Unshared c) (start c narrow) t
    ∧ (narrow.stores.get 0).shelf.capacity? = some 1
    ∧ ∃ v ∈ t.visits, v.lookup.ids = [1]
      ∧ ∃ found, (v.lookup.step t.system).1 = .finished (.ok found)
        ∧ found.hits.get? 1 = some [(1, 11)]
        ∧ c.merge.folded? t.history 1 = some [(1, 10), (1, 11)] := by
  intro c t
  have hreads : ∀ v ∈ t.visits, v.lookup.awaiting = [] ∧ v.lookup.ids = [1]
      ∧ (t.system.read v.lookup.layer v.lookup.ids).1.toOption.bind (·.hits.get? 1)
        = some [(1, 11)] := by decide +kernel
  have hfolded : c.merge.folded? t.history 1 = some [(1, 10), (1, 11)] := by decide +kernel
  obtain ⟨v, hv⟩ := List.exists_mem_of_ne_nil t.visits (List.length_pos_iff.1 (by decide +kernel))
  obtain ⟨hawaiting, hids, hread⟩ := hreads v hv
  obtain ⟨found, hfound, hhit⟩ := exists_found hawaiting hread
  exact ⟨unbegun_oneByOne _, leads_outgrown _, rfl, v, hv, hids, found, hfound, hhit, hfolded⟩

end Service

end Collate
