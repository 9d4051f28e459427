/-
How the ids of a window are batched into calls of the sources.

A walk asks its origin in one step, and no step leads back to it, so a window has each origin called
at most once, whatever happens meanwhile. If nobody else touches what its paths go along, it can be
told from the windows before what is asked for: the ids none of them had.
-/
import Collate.Proofs.Novelty
import Collate.Proofs.Proceedings

set_option autoImplicit false

namespace Collate

variable {ι α β π γ : Type} [DecidableEq ι]

/-! ## 1. At most one call -/

omit [DecidableEq ι] in
/-- At most one call, with some of these ids in their order. -/
def AtMostOnce (ids : List ι) (calls : List (List ι)) : Prop :=
  calls = [] ∨ ∃ asked, calls = [asked] ∧ asked ≠ [] ∧ asked.Sublist ids

theorem System.sublist_missesOf (layer : Layer) (ids : List ι) (hits : Entries ι (List α)) :
    (missesOf layer ids hits).Sublist ids := by
  unfold missesOf
  split
  · exact List.nil_sublist _
  · exact List.filter_sublist

namespace Walk

omit [DecidableEq ι] in
/-- What a walk still wants is among what it was sent for, and it does not ask a second time. -/
def AsksOnce (ids : List ι) (calls : List (List ι)) : Walk ι α → Prop
  | .descending lookup _ _ => calls = [] ∧ lookup.ids.Sublist ids
  | .asking inner _ => calls = [] ∧ inner.Sublist ids
  | .waiting _ _ _ => AtMostOnce ids calls
  | .returning _ _ => AtMostOnce ids calls

variable {origin : Origin ι α} {walk walk' : Walk ι α} {ids : List ι} {calls : List (List ι)}
  {sys sys' : System ι α}

omit [DecidableEq ι] in
theorem asksOnce_start {inner : List ι} (h : inner.Sublist ids) (layers : List Layer)
    (frames : List (Frame ι α)) : (start layers inner frames).AsksOnce ids [] := by
  cases layers <;> exact ⟨rfl, h⟩

omit [DecidableEq ι] in
theorem AsksOnce.atMostOnce (h : walk.AsksOnce ids calls) : AtMostOnce ids calls := by
  cases walk with
  | descending | asking => exact Or.inl h.1
  | waiting | returning => exact h

theorem Stepped.asksOnce {layers : List Layer} (h : Stepped origin walk sys (.going walk') sys')
    (hr : walk.Regular layers) (hw : walk.AsksOnce ids calls) :
    walk'.AsksOnce ids (walk.asks.toList ++ calls) := by
  cases h with
  | looks h => exact ⟨hw.1, (h.going hr.1).2.1 ▸ hw.2⟩
  | found h hm => exact Or.inl hw.1
  | missed h hm =>
    obtain ⟨rfl, hsub⟩ := hw
    refine asksOnce_start ?_ _ _
    rw [h.found.2]
    exact (System.sublist_missesOf ..).trans hsub
  | spared => exact Or.inl hw.1
  | asked hids =>
    -- The only step that asks, and it does not lead back to where walks ask.
    obtain ⟨rfl, hsub⟩ := hw
    rw [asks_asking hids]
    exact Or.inr ⟨_, rfl, hids, hsub⟩
  | answered | written => exact hw

end Walk

namespace Resolution

omit [DecidableEq ι] in
/-- A resolution asks while it walks, and not a second time. -/
def AsksOnce (r : Resolution ι α) (calls : List (List ι)) : Prop :=
  match r.phase with
  | .walking walk => walk.AsksOnce r.ids calls
  | _ => calls = []

variable {r r' : Resolution ι α} {calls : List (List ι)} {sys sys' : System ι α}

omit [DecidableEq ι] in
theorem asksOnce_start (path : Path ι α) (ids : List ι) (sys : System ι α) :
    (start path ids sys).1.AsksOnce [] := by
  unfold start AsksOnce
  dsimp only
  cases path.layers.isEmpty with
  | false => rfl
  | true => exact ⟨rfl, List.Sublist.refl ids⟩

omit [DecidableEq ι] in
theorem AsksOnce.atMostOnce (h : r.AsksOnce calls) : AtMostOnce r.ids calls := by
  unfold AsksOnce at h
  split at h
  · exact h.atMostOnce
  · exact Or.inl h

theorem Stepped.asksOnce (h : r.Stepped sys (.going r') sys') (hr : r.Regular)
    (hr' : r.AsksOnce calls) : r'.AsksOnce (r.asks.toList ++ calls) := by
  cases h with
  | shares hp | overshoots hp | looks hp | missed hp =>
    rw [AsksOnce, hp] at hr'
    rw [asks, hp]
    exact hr'
  | enters hp =>
    rw [AsksOnce, hp] at hr'
    rw [asks, hp, hr']
    exact Walk.asksOnce_start (List.Sublist.refl _) _ _
  | walks hp h =>
    rw [AsksOnce, hp] at hr'
    rw [Regular, hp] at hr
    rw [asks, hp]
    exact h.asksOnce hr hr'

end Resolution

omit [DecidableEq ι] in
/-- Asking at most once for some of these ids. -/
def Conduct.once (ids : List ι) : Conduct ι α where
  going r _ calls := r.ids = ids ∧ r.AsksOnce calls
  done _ _ calls := AtMostOnce ids calls
  failed calls := AtMostOnce ids calls

/-- Nobody asks twice, whatever happens elsewhere, to layers and to feeds. -/
theorem Conduct.kept_once (ids : List ι) :
    (once ids : Conduct ι α).Kept (fun path other => path.origin.bucket ≠ other.origin.bucket)
      fun _ _ => True where
  symm h := h.symm
  buckets h := h
  goes hr hg hs := by
    obtain ⟨⟨phase, rfl⟩, _⟩ := hs.going hr
    exact ⟨hg.1, hs.asksOnce hr hg.2⟩
  waits _ hg _ := hg
  ends _ hg _ := hg.1 ▸ hg.2.atMostOnce
  fails _ hg _ := hg.1 ▸ hg.2.atMostOnce
  going_aside hg _ := hg
  done_aside hd _ := hd

omit [DecidableEq ι] in
theorem Conduct.Holds.atMostOnce {ids : List ι} {path : Path ι α} {sys : System ι α}
    {calls : List (List ι)} {branch : Branch ι α}
    (h : (Conduct.once ids).Holds path sys calls branch) : AtMostOnce ids calls := by
  cases branch with
  | pending r => exact h.2.2.1 ▸ h.2.2.2.atMostOnce
  | resolved grouped => exact h

/-- **A window asks each origin at most once**, for ids of its parents in the order in which they
first occur, whatever happens elsewhere. -/
theorem Assembler.atMostOnce_of_leads {assembler : Assembler ι α β π γ} {parents : List π}
    {sys : System ι α} {t : Proceeding ι α π γ}
    (hown : (assembler.paths.map fun path => path.origin.bucket).Nodup)
    (h : assembler.Leads (fun _ _ => True) (assembler.begin parents sys) t) :
    ∀ path ∈ assembler.paths,
      AtMostOnce (distinct (parents.map assembler.key)) (callsIn path.origin.bucket t.written) := by
  intro path hp
  by_cases hparents : parents = []
  · subst hparents
    rw [h.of_nil.1]
    exact Or.inl rfl
  · have hbegin : (Conduct.once (distinct (parents.map assembler.key))).Window assembler.paths parents
        (assembler.begin parents sys) :=
      Conduct.window_begin hparents fun path _ sys₁ tickets =>
        ⟨rfl, Resolution.asksOnce_start path _ sys₁⟩
    have hwindow := (Conduct.kept_once _).window (List.pairwise_map.1 hown) hparents hbegin h
    obtain ⟨standing, sys', written⟩ := t
    cases standing with
    | waiting task =>
      obtain ⟨branch, hb⟩ := Conduct.exists_of_forall₂ hwindow.2 path hp
      exact hb.atMostOnce
    | finished result =>
      cases result with
      | ok aggregates => exact hwindow path hp
      | error e =>
        rcases hwindow.1 path hp with hfailed | ⟨_, _, _, hb⟩
        · exact hfailed
        · exact hb.atMostOnce

/-! ## 2. Just one call -/

/-- Paths that have nothing in common but a source. -/
structure Path.Apart (path other : Path ι α) : Prop where
  bucket : path.origin.bucket ≠ other.origin.bucket
  lock : path.lock ≠ other.lock
  stores : ∀ layer ∈ path.layers, ∀ layer' ∈ other.layers, layer.store ≠ layer'.store

omit [DecidableEq ι] in
theorem Path.Apart.symm {path other : Path ι α} (h : path.Apart other) : other.Apart path :=
  ⟨h.bucket.symm, h.lock.symm, fun layer hl layer' hl' => (h.stores layer' hl' layer hl).symm⟩

omit [DecidableEq ι] in
/-- Who keeps to a path leaves those apart from it untouched. -/
theorem Path.KeepsTo.untouched {path other : Path ι α} {sys sys' : System ι α}
    {calls : List (List ι)} (h : other.KeepsTo calls sys sys') (hapart : path.Apart other) :
    path.Untouched sys sys' := by
  have hstores : ∀ layer ∈ path.layers,
      sys'.stores.get layer.store = sys.stores.get layer.store := fun layer hl =>
    h.advanced.stores layer.store fun layer' hl' => (hapart.stores layer hl layer' hl').symm
  refine ⟨h.locks path.lock hapart.lock, fun layer hl => ?_, fun layer hl => ?_, fun layer hl => ?_,
    h.advanced.replies⟩ <;> rw [hstores layer hl]

/-- What makes no difference to any of some paths. -/
def Path.AllUntouched (paths : List (Path ι α)) (sys sys' : System ι α) : Prop :=
  ∀ path ∈ paths, path.Untouched sys sys'

omit [DecidableEq ι] in
theorem Traffic.Passes.untouched {sys sys' : System ι α} (h : Traffic.Passes sys sys')
    (paths : List (Path ι α)) : Path.AllUntouched paths sys sys' := by
  obtain ⟨now, _, rfl⟩ := h
  exact fun path _ => ⟨rfl, fun _ _ => rfl, fun _ _ => rfl, fun _ _ => rfl, fun _ => rfl⟩

omit [DecidableEq ι] in
theorem Aside.untouched {paths : List (Path ι α)} {path : Path ι α} {sys sys' : System ι α}
    (h : Aside Path.Apart (Path.AllUntouched paths) path sys sys') (hp : path ∈ paths) :
    path.Untouched sys sys' := by
  cases h with
  | along hapart h => exact h.untouched hapart
  | elsewhere h => exact h path hp

namespace Conduct

variable {paths : List (Path ι α)} {seen ids : List ι}

/-- Asking for just what is wanted, along some paths whose layers know just what was seen. -/
def exact (paths : List (Path ι α)) (seen ids : List ι) : Conduct ι α where
  going r sys calls := r.ids = ids ∧ r.path ∈ paths ∧ r.path.Plain sys ∧ r.Exact seen sys calls
  done path sys calls := path ∈ paths ∧ path.Settled sys (seen ++ ids)
    ∧ calls = callFor (path.wanted seen ids)
  failed _ := False

/-- Nobody asks for anything else, as long as nobody else touches the paths. -/
theorem kept_exact (paths : List (Path ι α)) (seen : List ι) (hids : ids.Nodup) :
    (exact paths seen ids).Kept Path.Apart (Path.AllUntouched paths) where
  symm h := h.symm
  buckets h := h.bucket
  goes hr hg hs := by
    obtain ⟨rfl, hp, hplain, hexact⟩ := hg
    obtain ⟨⟨phase, rfl⟩, _⟩ := hs.going hr
    exact ⟨rfl, hp, hplain.advanced (hs.advanced hr), hs.exact hr hplain hids hexact⟩
  waits hr hg hs := by
    obtain ⟨rfl, _⟩ := hs.waits_for_answer hr hg.2.2.1 hg.2.2.2
    exact hg
  ends hr hg hs := by
    obtain ⟨rfl, hp, hplain, hexact⟩ := hg
    obtain ⟨hcalls, hsettled⟩ := hs.exact_done hr hplain hexact
    exact ⟨hp, hsettled, hcalls⟩
  fails hr hg hs := Resolution.Stepped.unfailing_of_exact hr hg.2.2.1 hg.2.2.2 hs
  going_aside hg ha := by
    obtain ⟨hids, hp, hplain, hexact⟩ := hg
    have hu := ha.untouched hp
    exact ⟨hids, hp, hplain.congr hu.capacity hu.faults hu.replies,
      hexact.congr hu.lock hu.contents⟩
  done_aside hd ha := ⟨hd.1, hd.2.1.untouched (ha.untouched hd.1), hd.2.2⟩

end Conduct

/-! ## 3. Windows one after the other -/

/-- Some ids in the order in which they first occur, each once, and at least one. -/
structure InOrder (ids asked : List ι) : Prop where
  nonempty : asked ≠ []
  nodup : asked.Nodup
  sublist : asked.Sublist (distinct ids)
  order : asked.Pairwise fun a b => ids.idxOf a < ids.idxOf b

/-- Values that are not repeated come in the order in which they first occur. -/
theorem pairwise_distinctFrom (seen xs : List ι) :
    (distinctFrom seen xs).Pairwise fun a b => xs.idxOf a < xs.idxOf b := by
  induction xs generalizing seen with
  | nil => exact .nil
  | cons x rest ih =>
    -- All others come later than the first one.
    have hlater : ∀ {others}, x ∈ others →
        (distinctFrom others rest).Pairwise fun a b => (x :: rest).idxOf a < (x :: rest).idxOf b := by
      intro others hx
      have hne : ∀ a ∈ distinctFrom others rest, x ≠ a := by
        rintro a ha rfl
        exact (mem_distinctFrom.1 ha).2 hx
      refine (ih others).imp_of_mem fun {a b} ha hb hab => ?_
      rw [List.idxOf_cons_ne _ (hne a ha), List.idxOf_cons_ne _ (hne b hb)]
      exact Nat.succ_lt_succ hab
    unfold distinctFrom
    split
    · exact hlater ‹_›
    · refine List.pairwise_cons.2 ⟨fun a ha => ?_, hlater (List.mem_cons_self ..)⟩
      have hne : x ≠ a := by
        rintro rfl
        exact (mem_distinctFrom.1 ha).2 (List.mem_cons_self ..)
      rw [List.idxOf_cons_self, List.idxOf_cons_ne _ hne]
      exact Nat.succ_pos _

theorem AtMostOnce.inOrder {ids : List ι} {calls : List (List ι)}
    (h : AtMostOnce (distinct ids) calls) :
    calls = [] ∨ ∃ asked, calls = [asked] ∧ InOrder ids asked := by
  refine h.imp_right ?_
  rintro ⟨asked, hcalls, hne, hsub⟩
  exact ⟨asked, hcalls, hne, (nodup_distinct ids).sublist hsub, hsub,
    (pairwise_distinctFrom [] ids).sublist hsub⟩

namespace Assembler

/-- An assembler nobody has used yet: each rule has a path of its own, along layers that keep
everything and hold nothing, in front of a source that never fails. -/
structure Fresh (assembler : Assembler ι α β π γ) (sys : System ι α) : Prop where
  apart : assembler.paths.Pairwise Path.Apart
  plain : ∀ path ∈ assembler.paths, path.Plain sys
  idle : ∀ path ∈ assembler.paths, sys.locks.get path.lock = {}
  empty : ∀ path ∈ assembler.paths, ∀ layer ∈ path.layers, ∀ id,
    (sys.stores.get layer.store).shelf.contents.get? id = none

/-- Windows were processed one after the other, each to its end, and nobody else touched the paths
meanwhile. -/
inductive Successive (assembler : Assembler ι α β π γ) (sys₀ : System ι α) :
    List (List π) → System ι α → Prop where
  | none : Successive assembler sys₀ [] sys₀
  | beside {past : List (List π)} {sys sys' : System ι α} (h : Successive assembler sys₀ past sys)
      (hbeside : Path.AllUntouched assembler.paths sys sys') : Successive assembler sys₀ past sys'
  | window {past : List (List π)} {sys : System ι α} {parents : List π}
      {t : Proceeding ι α π γ} {result : Except Error (List γ)}
      (h : Successive assembler sys₀ past sys)
      (hleads : assembler.Leads (Path.AllUntouched assembler.paths) (assembler.begin parents sys) t)
      (hend : t.standing = .finished result) :
      Successive assembler sys₀ (past ++ [parents]) t.system

/-- The ids of some windows. -/
def idsOf (assembler : Assembler ι α β π γ) (windows : List (List π)) : List ι :=
  windows.flatMap fun parents => parents.map assembler.key

variable {assembler : Assembler ι α β π γ} {sys₀ sys : System ι α} {past : List (List π)}
  {parents : List π} {t : Proceeding ι α π γ}

theorem Fresh.settled (h : assembler.Fresh sys) : ∀ path ∈ assembler.paths, path.Settled sys [] := by
  refine fun path hp => ⟨h.plain path hp, h.idle path hp, fun layer hl id => ?_⟩
  rw [System.knows_iff, h.empty path hp layer hl id]
  simp

/-- The resolutions of a window ask for just what is wanted. -/
theorem window_exact {seen : List ι} (hapart : assembler.paths.Pairwise Path.Apart)
    (hsettled : ∀ path ∈ assembler.paths, path.Settled sys seen) (hparents : parents ≠ [])
    (hleads : assembler.Leads (Path.AllUntouched assembler.paths) (assembler.begin parents sys) t) :
    (Conduct.exact assembler.paths seen (distinct (parents.map assembler.key))).Window
      assembler.paths parents t := by
  refine (Conduct.kept_exact _ _ (nodup_distinct _)).window hapart hparents ?_ hleads
  refine Conduct.window_begin hparents fun path hp before tickets => ?_
  exact ⟨rfl, hp, (hsettled path hp).plain.congr (fun _ _ => rfl) (fun _ _ => rfl) fun _ => rfl,
    Resolution.exact_start (hsettled path hp) _ before tickets⟩

/-- **A window comes to an end** with time, and with a good one. -/
theorem exists_ended_exact {seen : List ι} (hapart : assembler.paths.Pairwise Path.Apart)
    (hsettled : ∀ path ∈ assembler.paths, path.Settled sys seen)
    (hleads : assembler.Leads (Path.AllUntouched assembler.paths) (assembler.begin parents sys) t) :
    ∃ t' aggregates, assembler.Leads Traffic.Passes t t'
      ∧ t'.standing = .finished (.ok aggregates) := by
  by_cases hparents : parents = []
  · subst hparents
    obtain ⟨standing, sys', written⟩ := t
    obtain ⟨_, _, rfl | rfl⟩ := hleads.of_nil
    · have hturn : assembler.Step Traffic.Passes ⟨.waiting ⟨[], []⟩, sys', written⟩
          ⟨.finished (.ok []), sys', [] ++ written⟩ := .turns rfl
      exact ⟨_, [], .single hturn, rfl⟩
    · exact ⟨_, [], .refl, rfl⟩
  · have hkept := Conduct.kept_exact assembler.paths seen
      (nodup_distinct (parents.map assembler.key))
    have hwindow := window_exact hapart hsettled hparents hleads
    obtain ⟨t', result, hlater, hend⟩ := hkept.exists_ended hapart
      (fun sys sys' h => h.untouched assembler.paths)
      (fun r sys ⟨hr, ⟨sys', hs⟩, calls, hg⟩ => (hs.waits_for_answer hr hg.2.2.1 hg.2.2.2).2)
      hparents hwindow
    have hwindow' := hkept.window hapart hparents hwindow
      (hlater.mono fun sys sys' h => h.untouched assembler.paths)
    obtain ⟨standing, sys', written⟩ := t'
    obtain rfl : standing = .finished result := hend
    cases result with
    | error e => exact absurd hwindow'.2 fun ⟨_, _, hf⟩ => hf
    | ok aggregates => exact ⟨_, aggregates, hlater, rfl⟩

/-- **A window that is over** did not fail; each source was called for what was wanted, and the layers
know the window's ids from then on. -/
theorem ended_exact {seen : List ι} (hapart : assembler.paths.Pairwise Path.Apart)
    (hsettled : ∀ path ∈ assembler.paths, path.Settled sys seen)
    (hleads : assembler.Leads (Path.AllUntouched assembler.paths) (assembler.begin parents sys) t)
    {result : Except Error (List γ)} (hend : t.standing = .finished result) :
    (∃ aggregates, result = .ok aggregates) ∧ ∀ path ∈ assembler.paths,
      path.Settled t.system (seen ++ distinct (parents.map assembler.key))
      ∧ callsIn path.origin.bucket t.written
        = callFor (path.wanted seen (distinct (parents.map assembler.key))) := by
  by_cases hparents : parents = []
  · subst hparents
    obtain ⟨hwritten, hbeside, hstanding⟩ := hleads.of_nil
    have hresult : result = .ok [] := by
      rcases hstanding with hs | hs <;> rw [hend] at hs <;> cases hs
      rfl
    refine ⟨⟨[], hresult⟩, fun path hp => ⟨?_, ?_⟩⟩
    · -- Nothing but what is beside the window has happened.
      have hids : seen ++ distinct (List.map assembler.key []) = seen := List.append_nil seen
      rw [hids]
      generalize t.system = sys' at hbeside
      induction hbeside with
      | refl => exact hsettled path hp
      | tail _ hu ih => exact ih.untouched (hu path hp)
    · have hwanted : path.wanted seen (distinct (List.map assembler.key [])) = [] := by
        unfold Path.wanted
        split <;> rfl
      rw [hwritten, hwanted]
      rfl
  · have hwindow := window_exact hapart hsettled hparents hleads
    obtain ⟨standing, sys', written⟩ := t
    obtain rfl : standing = .finished result := hend
    cases result with
    | error e =>
      -- A window fails with one of its rules, and none of them does.
      exact absurd hwindow.2 fun ⟨_, _, hf⟩ => hf
    | ok aggregates => exact ⟨⟨aggregates, rfl⟩, fun path hp => (hwindow path hp).2⟩

/-- Between two windows the layers know just the ids of those that are over. -/
theorem Successive.settled (h : assembler.Successive sys₀ past sys) (hfresh : assembler.Fresh sys₀) :
    ∀ path ∈ assembler.paths, path.Settled sys (assembler.idsOf past) := by
  induction h with
  | none => exact hfresh.settled
  | beside _ hbeside ih => exact fun path hp => (ih path hp).untouched (hbeside path hp)
  | window _ hleads hend ih =>
    intro path hp
    refine ((ended_exact hfresh.apart ih hleads hend).2 path hp).1.of_mem_iff fun id => ?_
    simp [idsOf]

/-- **Source calls are batched**, and just once per window and id. Each rule has its calls written
down in a bucket of its own. Whatever layers and feeds the rules have and whatever happens meanwhile,
a window has each origin called at most once: with some of its ids, at least one, each once and in
the order in which they first occur. Where windows are processed one after the other by an assembler
nobody has used yet, whose layers keep everything and whose sources never fail, every window comes to
an end, and to a good one; by then each rule without layers has called its source for all of the
window's ids, and each rule with layers for those that occurred in no earlier window, and neither
has called it for nothing. -/
theorem calls_of_windows (assembler : Assembler ι α β π γ)
    (hown : (assembler.paths.map fun path => path.origin.bucket).Nodup) :
    (∀ parents sys t, assembler.Leads (fun _ _ => True) (assembler.begin parents sys) t →
      ∀ path ∈ assembler.paths, callsIn path.origin.bucket t.written = []
        ∨ ∃ asked, callsIn path.origin.bucket t.written = [asked]
          ∧ InOrder (parents.map assembler.key) asked)
    ∧ ∀ sys₀ past sys, assembler.Fresh sys₀ → assembler.Successive sys₀ past sys →
      ∀ parents t,
        assembler.Leads (Path.AllUntouched assembler.paths) (assembler.begin parents sys) t →
        (∀ result, t.standing = .finished result →
          (∃ aggregates, result = .ok aggregates) ∧ ∀ path ∈ assembler.paths,
            (path.layers = [] → callsIn path.origin.bucket t.written
              = callFor (distinct (parents.map assembler.key)))
            ∧ (path.layers ≠ [] → callsIn path.origin.bucket t.written
              = callFor ((distinct (parents.map assembler.key)).filter
                  fun id => id ∉ assembler.idsOf past)))
        ∧ ∃ t' aggregates, assembler.Leads Traffic.Passes t t'
          ∧ t'.standing = .finished (.ok aggregates) := by
  refine ⟨fun parents sys t hleads path hp => ?_,
    fun sys₀ past sys hfresh hpast parents t hleads => ⟨fun result hend => ?_, ?_⟩⟩
  · exact (atMostOnce_of_leads hown hleads path hp).inOrder
  · obtain ⟨hresult, hcalls⟩ := ended_exact hfresh.apart (hpast.settled hfresh) hleads hend
    refine ⟨hresult, fun path hp => ⟨fun hnone => ?_, fun hsome => ?_⟩⟩
    · rw [(hcalls path hp).2, Path.wanted, hnone]
      rfl
    · rw [(hcalls path hp).2, Path.wanted, if_neg fun h => hsome (List.isEmpty_iff.1 h)]
  · exact exists_ended_exact hfresh.apart (hpast.settled hfresh) hleads

/-- A window after its first turn. -/
def firstTurn (assembler : Assembler ι α β π γ) (parents : List π) (sys : System ι α) :
    Proceeding ι α π γ :=
  let (task, sys) := assembler.start parents sys
  let (standing, sys') := assembler.run task sys
  ⟨standing, sys', sys'.log.take (sys'.log.length - sys.log.length)⟩

theorem leads_firstTurn {elsewhere : System ι α → System ι α → Prop}
    (hlog : (assembler.firstTurn parents sys).system.log
      = (assembler.firstTurn parents sys).written ++ (assembler.start parents sys).2.log) :
    assembler.Leads elsewhere (assembler.begin parents sys) (assembler.firstTurn parents sys) := by
  have hturn : assembler.Step elsewhere (assembler.begin parents sys) _ := .turns hlog
  rw [List.append_nil] at hturn
  exact .single hturn

/-- A rule without layers and one with two, in front of one source. Nothing has the id three. -/
def sideBySide : Assembler Nat Nat Nat Nat (List Nat) where
  rules := [⟨⟨0, [], .source 0 0 (· / 10)⟩, .one id fun _ => 0⟩,
    ⟨⟨1, [⟨[], 0⟩, ⟨[], 1⟩], .source 0 1 (· / 10)⟩, .one id fun _ => 0⟩]
  key := id
  construct _ fields := fields

/-- The source answers at once, and with more than it was asked for. -/
def answering : System Nat Nat :=
  { sources := .filled { reply := fun _ _ => ⟨0, [.ok 10, .ok 20]⟩ } }

theorem fresh_sideBySide : sideBySide.Fresh answering where
  apart := by
    refine List.pairwise_pair.2 ⟨by decide, by decide, fun layer hl => ?_⟩
    cases hl
  plain path hp := by
    obtain rfl | rfl : path = _ ∨ path = _ := by simpa [paths, sideBySide] using hp
    all_goals exact ⟨by simp [Path.Unfed, Layer.feeds], fun _ _ => rfl, fun _ _ _ _ => rfl,
      ⟨_, _, _, rfl⟩, fun _ _ _ => ⟨[10, 20], rfl⟩⟩
  idle path hp := by
    obtain rfl | rfl : path = _ ∨ path = _ := by simpa [paths, sideBySide] using hp
    all_goals rfl
  empty path hp layer hl id := rfl

/-- A window of theirs, -/
def firstOfTwo : Proceeding Nat Nat Nat (List Nat) := sideBySide.firstTurn [3, 1, 3] answering

/-- and the one that comes next. -/
def secondOfTwo : Proceeding Nat Nat Nat (List Nat) :=
  sideBySide.firstTurn [3, 2, 1, 2] firstOfTwo.system

/-- What was asked for before is asked for again only where there are no layers, and it makes no
difference that nothing has the id three. -/
theorem calls_of_windows_side_by_side :
    callsIn 0 secondOfTwo.written = [[3, 2, 1]] ∧ callsIn 1 secondOfTwo.written = [[2]] := by
  have hfirst : sideBySide.Successive answering ([] ++ [[3, 1, 3]]) firstOfTwo.system :=
    .window .none (leads_firstTurn rfl) rfl
  have hcalls := (((calls_of_windows sideBySide (by decide)).2 answering _ _ fresh_sideBySide hfirst
    [3, 2, 1, 2] secondOfTwo (leads_firstTurn rfl)).1 _ rfl).2
  exact ⟨(hcalls _ (List.mem_cons_self ..)).1 rfl,
    (hcalls _ (List.mem_cons_of_mem _ (List.mem_cons_self ..))).2 (by simp)⟩

end Assembler

end Collate
