/-
Chains with an authoritative layer.

A layer with a feed knows all children there are, so it misses nothing, whatever it holds and
whichever way its feed went. A walk that comes to such a layer turns round there: no layer behind it
and no origin is ever reached. What a walk carries back is made of what the layers on its way held,
so an id that none of them has children for has none in the result either, and a layer that fails
ends the resolution before anything is written in front of it.

One invariant says so for walks, one for resolutions, and neither reads the shared state: whatever
happens there, a walk that has not passed the authoritative layer cannot pass it.
-/
import Collate.Proofs.Errands
import Collate.Proofs.Fields
import Collate.Feed.Consumer

set_option autoImplicit false

namespace Collate

variable {ι α β : Type}

/-! ## 1. In front of a layer -/

namespace Act

/-- It keeps to an authoritative layer and what is in front of it, and writes only what is in front
of it. -/
def Within (front : List Layer) (authority : Layer) : Act ι α → Prop
  | .looked layer _ _ => layer ∈ front ++ [authority]
  | .wrote layer _ => layer ∈ front
  | .asked _ => False

/-- What is seen of the id is no child: there is no entry, or one without children. -/
def Bare [DecidableEq ι] (id : ι) : Act ι α → Prop
  | .looked _ held _ => (held.get? id).getD [] = []
  | _ => True

instance [DecidableEq ι] (id : ι) : (act : Act ι α) → Decidable (act.Bare id)
  | .looked _ held _ => inferInstanceAs (Decidable ((held.get? id).getD [] = []))
  | .wrote _ _ => inferInstanceAs (Decidable True)
  | .asked _ => inferInstanceAs (Decidable True)

theorem Within.not_reaches {front : List Layer} {authority : Layer} {act : Act ι α}
    (h : act.Within front authority) {n : Nat}
    (hn : ∀ layer ∈ front ++ [authority], layer.store ≠ n) : ¬act.Reaches n := by
  cases act with
  | looked layer held failure? => exact hn layer h
  | wrote layer entries => exact hn layer (List.mem_append_left _ h)
  | asked ids => exact fun hreaches => hreaches

end Act

variable [DecidableEq ι]

/-! ## 2. Up to the authoritative layer and back -/

section Shielded

variable {front behind : List Layer} {authority : Layer} {latest earlier acts : List (Act ι α)}

/-- A list of acts has seen no child of the id. -/
def AllBare (acts : List (Act ι α)) (id : ι) : Prop := ∀ act ∈ acts, act.Bare id

/-- What is found has no children for ids that none were seen of. -/
def Entries.TracedTo (acts : List (Act ι α)) (found : Entries ι (List α)) : Prop :=
  ∀ id, AllBare acts id → (found.get? id).getD [] = []

theorem Entries.TracedTo.mono {found : Entries ι (List α)} (h : found.TracedTo acts)
    {more : List (Act ι α)} (hsub : acts ⊆ more) : found.TracedTo more :=
  fun id hid => h id fun act ha => hid act (hsub ha)

/-- Entries put together of what was traced, and of none for what was missed, are traced as well. -/
theorem Entries.TracedTo.writeBack {frame : Frame ι α} {fetched : Entries ι (List α)}
    (hhits : frame.hits.TracedTo acts) (hfetched : fetched.TracedTo acts) :
    (frame.hits.insertAll (Walk.writeBack frame fetched).pairs).TracedTo acts := by
  intro id hid
  have hh := hhits id hid
  have hf := hfetched id hid
  rw [Entries.get?_insertAll_pairs _ _ (List.Perm.refl _), Walk.writeBack, Entries.get?_fill]
  cases hget : fetched.get? id with
  | some found =>
    rw [hget] at hf
    exact hf
  | none =>
    by_cases hm : id ∈ frame.misses
    · simp [hm]
    · simpa [hm] using hh

/-- What a lookup has found is what it saw. -/
theorem Lookup.traced_found {l : Lookup ι} {sys sys' : System ι α} {found : Found ι α}
    (h : l.Stepped sys (.finished (.ok found)) sys') (failure? : Option Error) :
    found.hits.TracedTo
      [.looked l.layer (sys.stores.get l.layer.store).shelf.contents failure?] := by
  intro id hid
  have hheld : ((sys.stores.get l.layer.store).shelf.contents.get? id).getD [] = [] :=
    hid _ (List.mem_singleton_self _)
  rw [h.found.1 id]
  split
  · exact hheld
  · rfl

/-- On its way in a walk has not passed the authoritative layer; on its way back it has nothing but
layers in front of it to write. -/
def Walk.Shielded (front behind : List Layer) (authority : Layer) (acts : List (Act ι α)) :
    Walk ι α → Prop
  | .descending lookup rest frames =>
    lookup.Regular ∧ (∃ inner, inner <:+ front ∧ lookup.layer :: rest = inner ++ authority :: behind)
    ∧ (∀ frame ∈ frames, frame.layer ∈ front ∧ frame.hits.TracedTo acts)
    ∧ ∀ act ∈ acts, ¬act.IsWrite
  | .returning fetched frames =>
    fetched.TracedTo acts ∧ ∀ frame ∈ frames, frame.layer ∈ front ∧ frame.hits.TracedTo acts
  | .asking _ _ => False
  | .waiting _ _ _ => False

/-- What follows of a step of a walk, given the act of the step and those before. -/
def Walk.Kept (front behind : List Layer) (authority : Layer) (now acts : List (Act ι α)) :
    Progress (Walk ι α) (Except Error (Entries ι (List α))) → Prop
  | .blocked => now = []
  | .going walk => (∀ act ∈ now, ∀ e, ¬act.IsFailure e)
    ∧ walk.Shielded front behind authority (now ++ acts)
  | .finished (.ok grouped) => now = [] ∧ grouped.TracedTo acts
  | .finished (.error e) => ∀ act ∈ now, ∀ cause, act.IsFailure cause →
    cause = e ∧ ∀ act ∈ now ++ acts, ¬act.IsWrite

theorem Walk.shielded_start (ids : List ι) {inner : List Layer} (hinner : inner <:+ front)
    {frames : List (Frame ι α)}
    (hframes : ∀ frame ∈ frames, frame.layer ∈ front ∧ frame.hits.TracedTo acts)
    (hunwritten : ∀ act ∈ acts, ¬act.IsWrite) :
    (Walk.start (inner ++ authority :: behind) ids frames).Shielded front behind authority acts := by
  cases inner with
  | nil => exact ⟨List.suffix_rfl, ⟨[], hinner, rfl⟩, hframes, hunwritten⟩
  | cons first inner =>
    exact ⟨List.suffix_rfl, ⟨first :: inner, hinner, rfl⟩, hframes, hunwritten⟩

/-- The layer a walk looks into is authoritative or in front. -/
theorem Walk.Shielded.layer_mem {lookup : Lookup ι} {rest : List Layer}
    {frames : List (Frame ι α)}
    (h : (Walk.descending lookup rest frames).Shielded front behind authority acts) :
    lookup.layer ∈ front ++ [authority] := by
  obtain ⟨inner, hinner, heq⟩ := h.2.1
  cases inner with
  | nil => simp [(List.cons.inj heq).1]
  | cons first inner =>
    obtain rfl := (List.cons.inj heq).1
    exact List.mem_append_left _ (hinner.subset (List.mem_cons_self ..))

/-- A walk does nothing outside. -/
theorem Walk.Shielded.within {walk : Walk ι α} (h : walk.Shielded front behind authority acts)
    (sys : System ι α) : ∀ act ∈ walk.act? sys, act.Within front authority := by
  intro act hact
  cases walk with
  | descending lookup rest frames =>
    have hlayer := h.layer_mem
    unfold act? Lookup.act? at hact
    dsimp only at hact
    split at hact
    · cases hact
      exact hlayer
    · cases hact
      exact hlayer
    · cases hact
  | asking | waiting => exact h.elim
  | returning fetched frames =>
    cases frames with
    | nil => cases hact
    | cons frame frames =>
      cases hact
      exact (h.2 frame (List.mem_cons_self ..)).1

/-- **A step of a walk**: the walk turns round at the authoritative layer, and what it brings back
was seen on the way. -/
theorem Walk.Shielded.step {walk : Walk ι α} (h : walk.Shielded front behind authority acts)
    (hauth : authority.isAuthoritative = true) (origin : Origin ι α) (sys : System ι α) :
    Kept front behind authority (walk.act? sys).toList acts (walk.step origin sys).1 := by
  cases walk with
  | descending lookup rest frames =>
    obtain ⟨hregular, ⟨inner, hinner, heq⟩, hframes, hunwritten⟩ := h
    have hs := lookup.stepped sys
    unfold Walk.step act? Lookup.act?
    dsimp only
    generalize lookup.step sys = out at hs ⊢
    obtain ⟨_ | lookup' | e | found, sys'⟩ := out
    · rfl
    · obtain ⟨hlayer, _, hregular', _⟩ := hs.going hregular
      exact ⟨by simp, hregular', ⟨inner, hinner, hlayer ▸ heq⟩, hframes, hunwritten⟩
    · intro act hact cause hcause
      obtain rfl := List.mem_singleton.1 hact
      refine ⟨(Option.some.inj hcause).symm, fun act hact => ?_⟩
      rcases List.mem_cons.1 hact with rfl | hact
      · exact id
      · exact hunwritten act hact
    · -- What the layer held is seen now; what the frames hold was seen before.
      let now : Act ι α := .looked lookup.layer (sys.stores.get lookup.layer.store).shelf.contents none
      have hfound : found.hits.TracedTo (now :: acts) :=
        (Lookup.traced_found hs none).mono (List.cons_subset_cons _ (List.nil_subset _))
      have hbehind : ∀ frame ∈ frames, frame.layer ∈ front ∧ frame.hits.TracedTo (now :: acts) :=
        fun frame hf => ⟨(hframes frame hf).1, (hframes frame hf).2.mono (List.subset_cons_self ..)⟩
      have hunfailed : ∀ act ∈ [now], ∀ e, ¬act.IsFailure e := by simp [now, Act.IsFailure]
      dsimp only
      split
      · exact ⟨hunfailed, hfound, hbehind⟩
      · rename_i hmisses
        refine ⟨hunfailed, ?_⟩
        cases inner with
        | nil =>
          -- The authoritative layer misses nothing.
          obtain ⟨rfl, _⟩ := List.cons.inj heq
          have hnone : found.misses = [] := by rw [hs.found.2, System.missesOf, if_pos hauth]
          rw [hnone] at hmisses
          exact absurd rfl hmisses
        | cons first inner =>
          obtain ⟨hfirst, rfl⟩ := List.cons.inj heq
          have hinner' : inner <:+ front := (List.suffix_cons first inner).trans hinner
          have hlayer : lookup.layer ∈ front := hfirst ▸ hinner.subset (List.mem_cons_self ..)
          have hframes' : ∀ frame ∈ ⟨lookup.layer, found.hits, found.misses⟩ :: frames,
              frame.layer ∈ front ∧ frame.hits.TracedTo (now :: acts) :=
            List.forall_mem_cons.2 ⟨⟨hlayer, hfound⟩, hbehind⟩
          have hunwritten' : ∀ act ∈ now :: acts, ¬act.IsWrite :=
            List.forall_mem_cons.2 ⟨id, hunwritten⟩
          exact Walk.shielded_start _ hinner' hframes' hunwritten'
  | asking | waiting => exact h.elim
  | returning fetched frames =>
    cases frames with
    | nil => exact ⟨rfl, h.1⟩
    | cons frame frames =>
      unfold Walk.step act?
      dsimp only
      generalize sys.write frame.layer (writeBack frame fetched) = out
      obtain ⟨e | _, sys'⟩ := out
      · intro act hact cause hcause
        obtain rfl := List.mem_singleton.1 hact
        exact hcause.elim
      · have hframe := h.2 frame (List.mem_cons_self ..)
        refine ⟨fun act hact => ?_, (hframe.2.writeBack h.1).mono (List.subset_append_right ..),
          fun other ho => ?_⟩
        · obtain rfl := List.mem_singleton.1 hact
          exact fun e he => he
        · have hother := h.2 other (List.mem_cons_of_mem _ ho)
          exact ⟨hother.1, hother.2.mono (List.subset_append_right ..)⟩

/-- A resolution keeps to the authoritative layer and what is in front of it. Of its first look,
which is thrown away when it misses something, at most one act remains. -/
def Resolution.Shielded (front behind : List Layer) (authority : Layer) (acts : List (Act ι α))
    (r : Resolution ι α) : Prop :=
  match r.phase with
  | .wantsShared => acts = []
  | .peeking lookup => acts = [] ∧ lookup.Regular ∧ lookup.layer ∈ front ++ [authority]
  | .wantsExclusive => acts.length ≤ 1 ∧ ∀ act ∈ acts, ¬act.IsWrite
  | .walking walk => ∃ latest earlier, acts = latest ++ earlier ∧ earlier.length ≤ 1
    ∧ (∀ act ∈ earlier, ¬act.IsWrite) ∧ walk.Shielded front behind authority latest

/-- A resolution under way along the path has done nothing outside and met no failure. -/
structure Errand.Shielded (path : Path ι α) (front behind : List Layer) (authority : Layer)
    (e : Errand ι α) : Prop where
  path : e.resolution.path = path
  within : ∀ act ∈ e.acts, act.Within front authority
  unfailed : ∀ act ∈ e.acts, ∀ cause, ¬act.IsFailure cause
  phase : e.resolution.Shielded front behind authority e.acts

/-- A resolution that has ended did nothing outside. If it met a failure it has failed with it and
has written nothing. What it found otherwise was seen, by its last acts, one perhaps apart. -/
structure Account.Shielded (front : List Layer) (authority : Layer) (account : Account ι α) :
    Prop where
  within : ∀ act ∈ account.acts, act.Within front authority
  failed : ∀ act ∈ account.acts, ∀ cause, act.IsFailure cause →
    account.result = .error cause ∧ ∀ act ∈ account.acts, ¬act.IsWrite
  traced : ∀ grouped, account.result = .ok grouped → ∃ latest earlier,
    account.acts = latest ++ earlier ∧ earlier.length ≤ 1 ∧ grouped.TracedTo latest

theorem Resolution.Shielded.within {r : Resolution ι α}
    (h : r.Shielded front behind authority acts) (sys : System ι α) :
    ∀ act ∈ r.act? sys, act.Within front authority := by
  intro act hact
  unfold Resolution.Shielded at h
  unfold act? at hact
  cases hp : r.phase with
  | wantsShared | wantsExclusive =>
    rw [hp] at hact
    cases hact
  | peeking lookup =>
    rw [hp] at h hact
    unfold Lookup.act? at hact
    dsimp only at hact
    split at hact
    · cases hact
      exact h.2.2
    · cases hact
      exact h.2.2
    · cases hact
  | walking walk =>
    rw [hp] at h hact
    obtain ⟨latest, earlier, _, _, _, hwalk⟩ := h
    exact hwalk.within sys act hact

variable {path : Path ι α}

/-- A resolution begins with no acts. -/
theorem Errand.shielded_start (hlayers : path.layers = front ++ authority :: behind)
    (ids : List ι) (sys : System ι α) :
    Shielded path front behind authority ⟨(Resolution.start path ids sys).1, []⟩ := by
  refine ⟨rfl, by simp, by simp, ?_⟩
  have hphase : (Resolution.start path ids sys).1.phase = .wantsShared := by
    unfold Resolution.start
    dsimp only
    rw [hlayers, List.isEmpty_eq_false_iff.2 (by simp)]
    rfl
  unfold Resolution.Shielded
  rw [hphase]

theorem Errand.Shielded.within_after {e : Errand ι α}
    (h : e.Shielded path front behind authority) (sys : System ι α) :
    ∀ act ∈ e.actsAfter sys, act.Within front authority := by
  intro act hact
  rcases List.mem_append.1 hact with hact | hact
  · exact h.phase.within sys act (Option.mem_toList.1 hact)
  · exact h.within act hact

/-- Steps that are no acts leave all that was remembered as it is. -/
theorem Errand.Shielded.quiet {e : Errand ι α} {r : Resolution ι α}
    (h : e.Shielded path front behind authority) {sys : System ι α}
    (hnone : e.resolution.act? sys = none) (hpath : r.path = path)
    (hphase : r.Shielded front behind authority e.acts) :
    Shielded path front behind authority ⟨r, e.actsAfter sys⟩ := by
  have hacts : e.actsAfter sys = e.acts := by rw [actsAfter, hnone, Option.toList_none,
    List.nil_append]
  rw [hacts]
  exact ⟨hpath, h.within, h.unfailed, hphase⟩

/-- What follows of a step of a resolution, given the act of the step and those before. -/
def Errand.Kept (path : Path ι α) (front behind : List Layer) (authority : Layer)
    (e : Errand ι α) (sys : System ι α) :
    Progress (Resolution ι α) (Except Error (Entries ι (List α))) → Prop
  | .blocked => Shielded path front behind authority ⟨e.resolution, e.actsAfter sys⟩
  | .going r => Shielded path front behind authority ⟨r, e.actsAfter sys⟩
  | .finished result => Account.Shielded front authority ⟨e.resolution.ids, e.actsAfter sys, result⟩

/-- Asking for a lock is no act. The first layer is looked into next, and then the walk begins. -/
theorem Errand.Shielded.step_asking {e : Errand ι α} (h : e.Shielded path front behind authority)
    (hlayers : path.layers = front ++ authority :: behind)
    (hp : e.resolution.phase = .wantsShared ∨ e.resolution.phase = .wantsExclusive)
    (sys : System ι α) :
    e.Kept path front behind authority sys (e.resolution.step sys).1 := by
  have hphase := h.phase
  have hnow : e.resolution.act? sys = none := by
    rcases hp with hp | hp <;> simp only [Resolution.act?, hp]
  unfold Resolution.step
  rcases hp with hp | hp <;> simp only [hp]
  · obtain ⟨first, rest, hfirst, hmem⟩ : ∃ first rest, e.resolution.path.layers = first :: rest
        ∧ first ∈ front ++ [authority] := by
      rw [h.path, hlayers]
      cases front with
      | nil => exact ⟨authority, behind, rfl, by simp⟩
      | cons first rest => exact ⟨first, _, rfl, by simp⟩
    have hacts : e.acts = [] := by
      simp only [Resolution.Shielded, hp] at hphase
      exact hphase
    generalize sys.acquire e.resolution.path.lock e.resolution.ticket .shared = out
    obtain ⟨_ | _, sys'⟩ := out
    · exact h.quiet hnow h.path hphase
    · simp only [hfirst]
      exact h.quiet hnow h.path ⟨hacts, List.suffix_rfl, hmem⟩
  · generalize sys.acquire e.resolution.path.lock e.resolution.ticket .exclusive = out
    obtain ⟨_ | _, sys'⟩ := out
    · exact h.quiet hnow h.path hphase
    · simp only [Resolution.Shielded, hp] at hphase
      refine h.quiet hnow h.path ⟨[], e.acts, rfl, hphase.1, hphase.2, ?_⟩
      rw [h.path, hlayers]
      exact Walk.shielded_start _ List.suffix_rfl (by simp) (by simp)

/-- The first look ends the resolution, or is the one act that is remembered of it. -/
theorem Errand.Shielded.step_peeking {e : Errand ι α} (h : e.Shielded path front behind authority)
    {lookup : Lookup ι} (hp : e.resolution.phase = .peeking lookup) (sys : System ι α) :
    e.Kept path front behind authority sys (e.resolution.step sys).1 := by
  have hphase := h.phase
  have hwithin := h.within_after sys
  have hact : e.resolution.act? sys = lookup.act? sys := by simp only [Resolution.act?, hp]
  simp only [Resolution.Shielded, hp] at hphase
  obtain ⟨hacts, hregular, hmem⟩ := hphase
  have hs := lookup.stepped sys
  have hafter : e.actsAfter sys = (lookup.act? sys).toList := by
    rw [Errand.actsAfter, hact, hacts, List.append_nil]
  unfold Resolution.step
  simp only [hp]
  unfold Lookup.act? at hact hafter
  generalize lookup.step sys = out at hs hact hafter ⊢
  obtain ⟨_ | lookup' | e' | found, sys'⟩ := out
  · exact h.quiet hact h.path h.phase
  · obtain ⟨hlayer, _, hregular', _⟩ := hs.going hregular
    exact h.quiet hact h.path ⟨hacts, hregular', hlayer ▸ hmem⟩
  · refine ⟨hwithin, fun act ha cause hcause => ?_, fun grouped hgrouped => ?_⟩
    · rw [hafter] at ha
      obtain rfl := List.mem_singleton.1 ha
      obtain rfl := Option.some.inj hcause
      refine ⟨rfl, ?_⟩
      dsimp only
      rw [hafter]
      simp [Act.IsWrite]
    · cases hgrouped
  · have hlooked : ∀ act ∈ e.actsAfter sys, (∀ cause, ¬act.IsFailure cause) ∧ ¬act.IsWrite := by
      rw [hafter]
      simp [Act.IsFailure, Act.IsWrite]
    dsimp only
    split
    · refine ⟨hwithin, fun act ha cause hcause => ?_, fun grouped hgrouped => ?_⟩
      · exact absurd hcause ((hlooked act ha).1 cause)
      · obtain rfl := Except.ok.inj hgrouped
        exact ⟨_, [], by rw [hafter, List.append_nil]; rfl, Nat.zero_le _,
          Lookup.traced_found hs none⟩
    · refine ⟨h.path, hwithin, fun act ha => (hlooked act ha).1, ?_⟩
      refine ⟨?_, fun act ha => (hlooked act ha).2⟩
      dsimp only
      rw [hafter]
      exact Nat.le_refl 1

/-- A step of its walk is a step of the resolution. -/
theorem Errand.Shielded.step_walking {e : Errand ι α} (h : e.Shielded path front behind authority)
    (hauth : authority.isAuthoritative = true) {walk : Walk ι α}
    (hp : e.resolution.phase = .walking walk) (sys : System ι α) :
    e.Kept path front behind authority sys (e.resolution.step sys).1 := by
  have hphase := h.phase
  have hwithin := h.within_after sys
  have hact : e.resolution.act? sys = walk.act? sys := by simp only [Resolution.act?, hp]
  simp only [Resolution.Shielded, hp] at hphase
  obtain ⟨latest, earlier, hacts, hearlier, hunwritten, hwalk⟩ := hphase
  have hstep := hwalk.step hauth e.resolution.path.origin sys
  have hafter : e.actsAfter sys = ((walk.act? sys).toList ++ latest) ++ earlier := by
    rw [Errand.actsAfter, hact, hacts, List.append_assoc]
  unfold Resolution.step
  simp only [hp]
  generalize walk.step e.resolution.path.origin sys = out at hstep ⊢
  obtain ⟨_ | walk' | cause | grouped, sys'⟩ := out
  · have hnone : walk.act? sys = none := Option.toList_eq_nil_iff.1 hstep
    exact h.quiet (hact.trans hnone) h.path h.phase
  · obtain ⟨hnone, hwalk'⟩ := hstep
    refine ⟨h.path, hwithin, ?_, (walk.act? sys).toList ++ latest, earlier, hafter, hearlier,
      hunwritten, hwalk'⟩
    dsimp only
    rw [Errand.actsAfter, hact]
    exact List.forall_mem_append.2 ⟨hnone, h.unfailed⟩
  · refine ⟨hwithin, fun act ha cause' hcause => ?_, fun grouped hgrouped => ?_⟩
    · rw [Errand.actsAfter, hact] at ha
      rcases List.mem_append.1 ha with ha | ha
      · obtain ⟨rfl, hnone⟩ := hstep act ha cause' hcause
        refine ⟨rfl, ?_⟩
        dsimp only
        rw [hafter]
        exact List.forall_mem_append.2 ⟨hnone, hunwritten⟩
      · exact absurd hcause (h.unfailed act ha cause')
    · cases hgrouped
  · obtain ⟨hnow, htraced⟩ := hstep
    have hsame : e.actsAfter sys = e.acts := by rw [hafter, hnow, List.nil_append, hacts]
    refine ⟨hwithin, fun act ha cause hcause => ?_, fun found hfound => ?_⟩
    · exact absurd hcause (h.unfailed act (hsame ▸ ha) cause)
    · obtain rfl := Except.ok.inj hfound
      exact ⟨latest, earlier, hsame.trans hacts, hearlier, htraced⟩

/-- **A step of a resolution** keeps to the authoritative layer and what is in front of it. -/
theorem Errand.Shielded.step {e : Errand ι α} (h : e.Shielded path front behind authority)
    (hlayers : path.layers = front ++ authority :: behind)
    (hauth : authority.isAuthoritative = true) (sys : System ι α) :
    e.Kept path front behind authority sys (e.resolution.step sys).1 := by
  cases hp : e.resolution.phase with
  | wantsShared => exact h.step_asking hlayers (Or.inl hp) sys
  | peeking lookup => exact h.step_peeking hp sys
  | wantsExclusive => exact h.step_asking hlayers (Or.inr hp) sys
  | walking walk => exact h.step_walking hauth hp sys

end Shielded

/-! ## 3. Runs -/

/-- What is traced to acts that have seen no child of an id gives it the rule's default. -/
theorem Shape.get_resolved_of_traced (shape : Shape ι α β) {grouped : Entries ι (List α)}
    {acts : List (Act ι α)} (h : grouped.TracedTo acts) {id : ι} (hid : AllBare acts id) :
    (shape.resolved grouped).get id = shape.default id := by
  have hanswers : Answers (fun id => (grouped.get? id).getD []) [id] grouped :=
    ⟨fun id found hfound => by simp [hfound], fun id _ hnone => by simp [hnone]⟩
  rw [shape.get_resolved hanswers (List.mem_singleton_self id), Shape.field, h id hid,
    shape.value?_nil]
  rfl

namespace Errands

/-- Those under way and those who have ended never got past the authoritative layer. -/
structure Shielded (path : Path ι α) (front behind : List Layer) (authority : Layer)
    (t : Errands ι α) : Prop where
  underway : ∀ e ∈ t.underway, e.Shielded path front behind authority
  accounts : ∀ account ∈ t.accounts, account.Shielded front authority

variable {path : Path ι α} {front behind : List Layer} {authority : Layer} {t : Errands ι α}

theorem Shielded.after (h : t.Shielded path front behind authority)
    (hlayers : path.layers = front ++ authority :: behind)
    (hauth : authority.isAuthoritative = true) (move : Move ι α) :
    (t.after path move).Shielded path front behind authority := by
  have hset : ∀ place e, e.Shielded path front behind authority →
      ∀ other ∈ t.underway.set place e, other.Shielded path front behind authority := by
    intro place e he other hother
    rcases List.mem_or_eq_of_mem_set hother with hother | rfl
    · exact h.underway other hother
    · exact he
  have herase : ∀ place, ∀ other ∈ t.underway.eraseIdx place,
      other.Shielded path front behind authority := fun place other hother =>
    h.underway other (List.mem_of_mem_eraseIdx hother)
  cases move with
  | begin ids =>
    refine ⟨fun e he => ?_, h.accounts⟩
    rcases List.mem_append.1 he with he | he
    · exact h.underway e he
    · obtain rfl := List.mem_singleton.1 he
      exact Errand.shielded_start hlayers ids t.system
  | beside change => exact ⟨h.underway, h.accounts⟩
  | drop place =>
    simp only [Errands.after]
    split
    · exact h
    · exact ⟨herase place, h.accounts⟩
  | step place =>
    simp only [Errands.after]
    split
    · exact h
    · rename_i e he
      have hstep := (h.underway e (List.mem_of_getElem? he)).step hlayers hauth t.system
      generalize e.resolution.step t.system = out at hstep ⊢
      obtain ⟨_ | r | result, sys'⟩ := out
      · exact ⟨hset place _ hstep, h.accounts⟩
      · exact ⟨hset place _ hstep, h.accounts⟩
      · exact ⟨herase place, List.forall_mem_cons.2 ⟨hstep, h.accounts⟩⟩

theorem Shielded.play (h : t.Shielded path front behind authority)
    (hlayers : path.layers = front ++ authority :: behind)
    (hauth : authority.isAuthoritative = true) (moves : List (Move ι α)) :
    (t.play path moves).Shielded path front behind authority := by
  induction moves generalizing t with
  | nil => exact h
  | cons move rest ih => exact ih (h.after hlayers hauth move)

/-- **A layer with a feed is authoritative wherever it stands.** Let any number of resolutions go
along a rule's path in any interleaving, with any ids, while anything at all happens in the shared
state. None of them calls a source, reaches a store other than those of the layer with the feed and
of the layers in front of it, looks into a layer behind it, or writes any but those in front. One
whose look into a layer fails has failed with it and has written nothing. And one that succeeds gives
the rule's default for every id that no layer it looked into had children for; of those looks one
at most is left out of account, the first one, whose outcome was thrown away. -/
theorem nothing_behind_authority {rule : Rule ι α β}
    (hlayers : rule.path.layers = front ++ authority :: behind)
    (hauth : authority.isAuthoritative = true) (sys : System ι α) (moves : List (Move ι α)) :
    let t := (start sys).play rule.path moves
    (∀ e ∈ t.underway,
      (e.resolution.step t.system).2.sources = t.system.sources
      ∧ (∀ n, (∀ layer ∈ front ++ [authority], layer.store ≠ n) →
        (e.resolution.step t.system).2.stores.get n = t.system.stores.get n)
      ∧ (∀ act ∈ e.acts, act.Within front authority)
      ∧ ∀ act ∈ e.acts, ∀ cause, ¬act.IsFailure cause)
    ∧ ∀ account ∈ t.accounts,
      (∀ act ∈ account.acts, act.Within front authority)
      ∧ (∀ act ∈ account.acts, ∀ cause, act.IsFailure cause →
        account.result = .error cause ∧ ∀ act ∈ account.acts, ¬act.IsWrite)
      ∧ ∀ grouped, account.result = .ok grouped → ∃ latest earlier,
        account.acts = latest ++ earlier ∧ earlier.length ≤ 1
        ∧ ∀ id, AllBare latest id →
          (rule.shape.resolved grouped).get id = rule.shape.default id := by
  intro t
  have hstart : (start sys).Shielded rule.path front behind authority := ⟨by simp [start],
    by simp [start]⟩
  have ht : t.Shielded rule.path front behind authority := hstart.play hlayers hauth moves
  refine ⟨fun e he => ?_, fun account ha => ?_⟩
  · have hshielded := ht.underway e he
    have hnext := hshielded.phase.within t.system
    refine ⟨e.resolution.sources_step_of_act t.system fun ids hasked => ?_,
      fun n hn => e.resolution.stores_step t.system fun act hact => ?_, hshielded.within,
      hshielded.unfailed⟩
    · exact hnext _ hasked
    · exact (hnext act hact).not_reaches hn
  · have hshielded := ht.accounts account ha
    refine ⟨hshielded.within, hshielded.failed, fun grouped hgrouped => ?_⟩
    obtain ⟨latest, earlier, hacts, hearlier, htraced⟩ := hshielded.traced grouped hgrouped
    exact ⟨latest, earlier, hacts, hearlier,
      fun id hid => rule.shape.get_resolved_of_traced htraced hid⟩

/-- A layer with a feed between two others. The resolution misses both ids in front, waits until the
feed's first window is there, and turns round: one id has the child the feed brought, the other,
which the feed never mentions, gets the default, although the source and the layer behind would have
had children for it. -/
theorem nothing_behind_authority_between_layers :
    let ref : FeedRef := ⟨0, 500⟩
    let authority : Layer := ⟨[.fed ref], 1⟩
    let rule : Rule Nat (Nat × Nat) Nat :=
      { path := ⟨0, [⟨[], 0⟩, authority, ⟨[], 2⟩], .source 0 0 Prod.fst⟩
        shape := .one Prod.snd fun _ => 0 }
    let behind : Store Nat (List (Nat × Nat)) :=
      { shelf := .unbounded (.ofList [(5, [(5, 50)])]) }
    let sys : System Nat (Nat × Nat) :=
      { stores := (Table.filled .fresh).set 2 behind
        sources := .filled { reply := fun _ ids => { items := ids.map fun id => .ok (id, 70) } } }
    let c : Consumer Nat (Nat × Nat) :=
      { feed := 0, merge := ⟨Prod.fst, none⟩, backing := ⟨[], 1⟩
        inlet := .channel [.ok (.updated (1, 10))] true false, collector := .ofSettings {} }
    let moves : List (Move Nat (Nat × Nat)) :=
      [.begin [1, 5], .step 0, .step 0, .step 0, .step 0, .step 0, .step 0,
        .beside fun sys => (c.run 4 sys).2, .step 0, .step 0, .step 0, .step 0]
    let t := (start sys).play rule.path moves
    rule.path.layers = [⟨[], 0⟩] ++ authority :: [⟨[], 2⟩] ∧ authority.isAuthoritative = true
    ∧ ∃ account ∈ t.accounts, ∃ grouped, account.result = .ok grouped
      ∧ (rule.shape.resolved grouped).get 1 = 10 ∧ (rule.shape.resolved grouped).get 5 = 0 := by
  intro ref authority rule behind sys c moves t
  have hauth : authority.isAuthoritative = true := rfl
  have hlayers : rule.path.layers = [⟨[], 0⟩] ++ authority :: [⟨[], 2⟩] := rfl
  have hshields := (nothing_behind_authority hlayers hauth sys moves).2
  obtain ⟨account, haccount⟩ := List.exists_mem_of_ne_nil t.accounts
    (List.length_pos_iff.1 (by decide +kernel))
  have hbare : ∀ account ∈ t.accounts, ∀ act ∈ account.acts, act.Bare 5 := by decide +kernel
  have hok : ∀ account ∈ t.accounts, account.result.toOption.map
      (fun grouped => (rule.shape.resolved grouped).get 1) = some 10 := by decide +kernel
  have hfirst := hok account haccount
  cases hresult : account.result with
  | error e =>
    rw [hresult] at hfirst
    cases hfirst
  | ok grouped =>
    rw [hresult] at hfirst
    obtain ⟨latest, earlier, hacts, _, hdefault⟩ :=
      (hshields account haccount).2.2 grouped hresult
    refine ⟨hlayers, hauth, account, haccount, grouped, hresult,
      Option.some.inj hfirst, hdefault 5 fun act hact => hbare account haccount act ?_⟩
    rw [hacts]
    exact List.mem_append_left _ hact

end Errands

end Collate
