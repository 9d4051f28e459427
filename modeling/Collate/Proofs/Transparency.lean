/-
Caches change no answer.

Traffic along a path in front of a source that is consistent per id keeps every layer coherent, and
every resolution that returns well has answered for its ids. This holds for every order of steps, for
sources and stores that fail when they like, and with resolutions dropped anywhere. Nobody is stuck
on the way either: those under way know the lock's holders, and whoever holds it can go on, so some
resolution can always take a step once its source has had its time.
-/
import Collate.Proofs.Fields
import Collate.Proofs.Traffic
import Collate.Proofs.Waiting

set_option autoImplicit false

namespace Collate

variable {ι α β : Type} [DecidableEq ι]

namespace Traffic

/-! ## 1. What is found -/

/-- Every layer is coherent, everybody under way knows what it needs, and those who returned well
have answered for their ids. -/
structure Coherent (children : ι → List α) (path : Path ι α) (t : Traffic ι α) : Prop where
  regular : Regular path t
  layers : path.Coherent children t.system
  sound : ∀ r ∈ t.underway, r.Sound children
  answered : ∀ ticket ids grouped, .returned ticket ids (.ok grouped) ∈ t.history →
    Answers children ids grouped

variable {children : ι → List α} {path : Path ι α} {t t' : Traffic ι α}

theorem Coherent.start {sys : System ι α} (h : path.Coherent children sys) :
    Coherent children path (Traffic.start sys) := by
  refine ⟨regular_start path sys, h, ?_, ?_⟩ <;> simp [Traffic.start]

/-- **Every step keeps the layers coherent and the answers right.** -/
theorem Coherent.step (ht : Coherent children path t) (hu : path.Unfed)
    (h : Step path List.Nodup (Elsewhere path.lock path.layers) t t') :
    Coherent children path t' := by
  have hregular := ht.regular.step (fun _ _ he => he.tickets) h
  obtain ⟨hreg, hlayers, hsound, hanswered⟩ := ht
  cases h with
  | @begins _ ids h =>
    refine ⟨hregular, ⟨hlayers.entries, hlayers.origin.of_replies fun _ => rfl⟩, fun r hr => ?_,
      hanswered⟩
    rcases List.mem_append.1 hr with hr | hr
    · exact hsound r hr
    · obtain rfl := List.mem_singleton.1 hr
      exact Resolution.sound_start path h t.system
  | @waits before behind r sys sys' history h =>
    have hs := r.stepped sys
    rw [h] at hs
    have hr : r ∈ before ++ r :: behind := by simp
    have hpath := hreg.path r hr
    have hc := hs.coherent (hsound r hr) (hreg.regular r hr) (hpath.symm ▸ hlayers)
    exact ⟨hregular, hpath ▸ hc, hsound, hanswered⟩
  | @goes before behind r r' sys sys' history h =>
    have hs := r.stepped sys
    rw [h] at hs
    have hr : r ∈ before ++ r :: behind := by simp
    have hpath := hreg.path r hr
    have hc := hs.coherent (hsound r hr) (hreg.regular r hr) (hpath.symm ▸ hlayers)
    refine ⟨hregular, hpath ▸ hc, forall_replace hsound ?_, fun ticket ids grouped hm => ?_⟩
    · exact hs.sound (hsound r hr) (hreg.regular r hr) (hpath.symm ▸ hlayers) (hpath.symm ▸ hu)
    · rcases List.mem_append.1 hm with hm | hm
      · obtain ⟨_, _, heq⟩ := Resolution.mem_marks.1 hm
        cases heq
      · exact hanswered ticket ids grouped hm
  | @returns before behind r sys sys' history result h =>
    have hs := r.stepped sys
    rw [h] at hs
    have hr : r ∈ before ++ r :: behind := by simp
    have hpath := hreg.path r hr
    have hc := hs.coherent (hsound r hr) (hreg.regular r hr) (hpath.symm ▸ hlayers)
    refine ⟨hregular, hpath ▸ hc, fun x hx => hsound x (mem_of_mem_rest hx),
      fun ticket ids grouped hm => ?_⟩
    rcases List.mem_cons.1 hm with heq | hm
    · cases heq
      exact hs.answers (hsound r hr) (hreg.regular r hr) (hpath.symm ▸ hlayers) (hpath.symm ▸ hu)
    · exact hanswered ticket ids grouped hm
  | @drops before behind r sys history =>
    obtain ⟨feeds, ready, _, hcancel⟩ := r.cancel_eq sys
    refine ⟨hregular, ?_, fun x hx => hsound x (mem_of_mem_rest hx), fun ticket ids grouped hm => ?_⟩
    · show path.Coherent children (r.cancel sys)
      rw [hcancel]
      exact ⟨hlayers.entries, hlayers.origin.of_replies fun _ => rfl⟩
    · rcases List.mem_cons.1 hm with heq | hm
      · cases heq
      · exact hanswered ticket ids grouped hm
  | @beside _ sys h =>
    refine ⟨hregular, ⟨fun layer hl => ?_, hlayers.origin.of_replies h.replies⟩, hsound, hanswered⟩
    rw [h.contents layer hl]
    exact hlayers.entries layer hl

theorem Coherent.of_leads (ht : Coherent children path t) (hu : path.Unfed)
    (h : Leads path List.Nodup (Elsewhere path.lock path.layers) t t') :
    Coherent children path t' := by
  induction h with
  | refl => exact ht
  | tail _ hstep ih => exact ih.step hu hstep

/-! ## 2. Who can go on -/

section Minding

variable {admits : List ι → Prop} {elsewhere : System ι α → System ι α → Prop}

/-- Those under way mind the lock of their path. -/
theorem minded_step (ht : Minded path.lock t.underway t.system) (hreg : Regular path t)
    (he : ∀ sys sys', elsewhere sys sys' → sys'.locks.get path.lock = sys.locks.get path.lock)
    (h : Step path admits elsewhere t t') : Minded path.lock t'.underway t'.system := by
  cases h with
  | begins h => exact ht.mono rfl (List.subset_append_left _ _)
  | @waits before behind r sys sys' history h =>
    have hs := r.stepped sys
    rw [h] at hs
    exact ht.step hs
  | @goes before behind r r' sys sys' history h =>
    have hs := r.stepped sys
    rw [h] at hs
    obtain ⟨⟨phase, rfl⟩, _⟩ := hs.going (hreg.regular r (by simp))
    exact (ht.step hs).replace rfl rfl
  | @returns before behind r sys sys' history result h =>
    have hs := r.stepped sys
    rw [h] at hs
    exact (ht.step hs).leave hs.released
  | drops => exact ht.cancel
  | beside h => exact ht.mono (he _ _ h) (List.Subset.refl _)

theorem minded_of_leads (ht : Minded path.lock t.underway t.system) (hreg : Regular path t)
    (h : Leads path admits (Elsewhere path.lock path.layers) t t') :
    Minded path.lock t'.underway t'.system := by
  have hboth : Minded path.lock t'.underway t'.system ∧ Regular path t' := by
    induction h with
    | refl => exact ⟨ht, hreg⟩
    | tail _ hstep ih =>
      exact ⟨minded_step ih.1 ih.2 (fun _ _ he => he.lock) hstep,
        ih.2.step (fun _ _ he => he.tickets) hstep⟩
  exact hboth.1

end Minding

omit [DecidableEq ι] in
/-- Nothing but time passes. -/
def Passes (sys sys' : System ι α) : Prop := ∃ now, sys.now ≤ now ∧ sys' = { sys with now := now }

/-- **Whoever is under way can come to an end.** Those under way need nobody but each other and the
time their source takes: there is a run on which all of them return. -/
theorem exists_settled (ht : Minded path.lock t.underway t.system) (hreg : Regular path t)
    (hu : path.Unfed) :
    ∃ t', Leads path (fun _ => False) Passes t t' ∧ t'.underway = [] ∧ t.history ⊆ t'.history
      ∧ ∀ r ∈ t.underway, ∃ result, .returned r.ticket r.ids result ∈ t'.history := by
  -- The steps left of all of them together become fewer.
  generalize hleft : (t.underway.map Resolution.left).sum = left
  induction left using Nat.strongRecOn generalizing t with
  | ind left ih =>
    by_cases hne : t.underway = []
    · exact ⟨t, .refl, hne, List.Subset.refl _, fun r hr => absurd hr (by simp [hne])⟩
    · obtain ⟨r, hr, due, hgo⟩ := ht.exists_going hne hreg.path hreg.regular hu
      obtain ⟨before, behind, hsplit⟩ := List.append_of_mem hr
      obtain ⟨underway, sys, history⟩ := t
      obtain rfl : underway = before ++ r :: behind := hsplit
      have hpass : Step path (fun _ => False) Passes ⟨before ++ r :: behind, sys, history⟩
          ⟨before ++ r :: behind, { sys with now := max sys.now due }, history⟩ :=
        .beside ⟨_, Nat.le_max_left _ _, rfl⟩
      have hgo' := hgo (max sys.now due) (Nat.le_max_right _ _)
      have hpasses : ∀ sys₁ sys₂ : System ι α, Passes sys₁ sys₂ → sys₁.tickets ≤ sys₂.tickets
          ∧ sys₂.locks.get path.lock = sys₁.locks.get path.lock := by
        rintro sys₁ _ ⟨now, _, rfl⟩
        exact ⟨Nat.le_refl _, rfl⟩
      -- A step taken at that time leads on, and the rest follows by induction.
      have hon : ∀ t₁, Step path (fun _ => False) Passes
          ⟨before ++ r :: behind, { sys with now := max sys.now due }, history⟩ t₁ →
          (t₁.underway.map Resolution.left).sum < left →
          ∃ t', Leads path (fun _ => False) Passes ⟨before ++ r :: behind, sys, history⟩ t'
            ∧ t'.underway = [] ∧ t₁.history ⊆ t'.history
            ∧ ∀ x ∈ t₁.underway, ∃ result, .returned x.ticket x.ids result ∈ t'.history := by
        intro t₁ hstep hlt
        have hreg' := hreg.step (fun _ _ h => (hpasses _ _ h).1) hpass
        have hminded' := minded_step ht hreg (fun _ _ h => (hpasses _ _ h).2) hpass
        obtain ⟨t', hleads, hend⟩ := ih _ hlt
          (minded_step hminded' hreg' (fun _ _ h => (hpasses _ _ h).2) hstep)
          (hreg'.step (fun _ _ h => (hpasses _ _ h).1) hstep) rfl
        exact ⟨t', .head hpass (.head hstep hleads), hend⟩
      have hsum : left = (before.map Resolution.left).sum
          + (r.left + (behind.map Resolution.left).sum) := by
        rw [← hleft]
        simp
      rcases hs : r.step { sys with now := max sys.now due } with ⟨_ | r' | result, sys'⟩
      · exact absurd (congrArg Prod.fst hs) hgo'
      · have hstepped := r.stepped { sys with now := max sys.now due }
        rw [hs] at hstepped
        obtain ⟨⟨phase, rfl⟩, _, hlt⟩ := hstepped.going (hreg.regular r hr)
        obtain ⟨t', hleads, hempty, hhistory, hall⟩ := hon _ (.goes hs) (by
          simp only [List.map_append, List.map_cons, List.sum_append, List.sum_cons]
          omega)
        refine ⟨t', hleads, hempty, fun m hm => hhistory (List.mem_append_right _ hm), ?_⟩
        have hr' : ∃ result, .returned r.ticket r.ids result ∈ t'.history :=
          hall (r.into phase) (by simp)
        intro x hx
        rcases eq_or_mem_rest hx with rfl | hx
        · exact hr'
        · exact hall x (mem_of_mem_rest hx)
      · have hpos := r.left_pos
        obtain ⟨t', hleads, hempty, hhistory, hall⟩ := hon _ (.returns hs) (by
          simp only [List.map_append, List.sum_append]
          omega)
        refine ⟨t', hleads, hempty, fun m hm => hhistory (List.mem_cons_of_mem _ hm), ?_⟩
        intro x hx
        rcases eq_or_mem_rest hx with rfl | hx
        · exact ⟨result, hhistory (List.mem_cons_self ..)⟩
        · exact hall x hx

/-! ## 3. What follows -/

/-- **Caches change no answer.** A rule's source is consistent per id, and any of its calls may fail
anywhere. Its layers are stores without feeds, of any number, bounded or not, observed or not, with
calls that may fail; they are empty at first and nobody else writes to them. Then, on every run of
any resolutions side by side: whatever a layer holds of an id are all its children; whoever returns
fails, or gives for each of its ids the field value that the rule gives without its layers; and
all those under way can come to an end. -/
theorem cached_as_uncached {rule : Rule ι α β} {children : ι → List α} {sys : System ι α}
    (hu : rule.path.Unfed) (horigin : rule.path.origin.PerId children sys)
    (hempty : ∀ layer ∈ rule.path.layers, ∀ id,
      (sys.stores.get layer.store).shelf.contents.get? id = none)
    (hidle : sys.locks.get rule.path.lock = {}) {t : Traffic ι α}
    (h : Leads rule.path List.Nodup (Elsewhere rule.path.lock rule.path.layers)
      (Traffic.start sys) t) :
    (∀ layer ∈ rule.path.layers, ∀ id found,
      (t.system.stores.get layer.store).shelf.contents.get? id = some found → found = children id)
    ∧ (∀ ticket ids result, .returned ticket ids result ∈ t.history →
      (∃ e, result = .error e) ∨ ∃ grouped, result = .ok grouped ∧ ∀ id ∈ ids,
        (rule.shape.resolved grouped).get id = rule.shape.field children id
        ∧ ∀ alone value, (∀ n, (alone.sources.get n).reply = (sys.sources.get n).reply) →
          rule.uncached.single id alone = some (.ok value) →
          (rule.shape.resolved grouped).get id = value)
    ∧ ∃ t', Leads rule.path (fun _ => False) Passes t t' ∧ t'.underway = []
      ∧ ∀ r ∈ t.underway, ∃ result, .returned r.ticket r.ids result ∈ t'.history := by
  have hstart : rule.path.Coherent children sys := by
    refine ⟨fun layer hl id found hf => ?_, horigin⟩
    rw [hempty layer hl id] at hf
    cases hf
  have ht := (Coherent.start hstart).of_leads hu h
  have hminded := minded_of_leads (Minded.idle hidle []) (regular_start rule.path sys) h
  refine ⟨ht.layers.entries, fun ticket ids result hm => ?_, ?_⟩
  · cases result with
    | error e => exact Or.inl ⟨e, rfl⟩
    | ok grouped =>
      refine Or.inr ⟨grouped, rfl, fun id hid => ?_⟩
      have hfield := rule.shape.get_resolved (ht.answered ticket ids grouped hm) hid
      refine ⟨hfield, fun alone value hreplies hsingle => ?_⟩
      rw [hfield, Rule.field_of_single (horigin.of_replies hreplies) hsingle]
  · obtain ⟨t', hleads, hend, _, hall⟩ := exists_settled hminded ht.regular hu
    exact ⟨t', hleads, hend, hall⟩

/-- A rule with two layers; the children of an id are the numbers that have it as their tens. -/
def twoLayers : Rule Nat Nat Nat :=
  ⟨⟨0, [⟨[.observed ⟨1, "outer", [.get]⟩], 0⟩, ⟨[], 1⟩], .source 0 0 (· / 10)⟩,
    .one (· + 1) fun _ => 0⟩

/-- The outer layer has room for one id, the inner one cannot be written the first time, and the
first call of the source fails on the way. -/
def troubled : System Nat Nat :=
  { stores := .ofList .fresh [.freshBounded 1,
      { shelf := .fresh, faults := fun call n => if call = .put ∧ n = 1 then some "full" else none }]
    sources := .filled
      { reply := fun n _ => ⟨0, if n = 1 then [.ok 10, .error "down"] else [.ok 10, .ok 20]⟩ } }

/-- Three resolutions, of which the last returns well. -/
def threeTries : List (Move Nat) :=
  .begin [1, 2] :: List.replicate 7 (.step 0) ++ .begin [2, 3] :: List.replicate 8 (.step 0)
    ++ .begin [3, 2] :: List.replicate 10 (.step 0)

theorem perId_troubled : twoLayers.path.origin.PerId
    (fun id => [10, 20].filter fun child => child / 10 = id) troubled := by
  intro n ids delivered _ hitems id _
  have hitems' : (if n = 1 then [.ok 10, .error "down"] else [.ok 10, .ok 20])
      = delivered.map (Except.ok : Nat → Except String Nat) := hitems
  by_cases hn : n = 1
  · rw [if_pos hn] at hitems'
    have hm : Except.error "down" ∈ delivered.map (Except.ok : Nat → Except String Nat) := by
      rw [← hitems']
      simp
    simp at hm
  · rw [if_neg hn] at hitems'
    have hinj : Function.Injective (Except.ok : Nat → Except String Nat) :=
      fun a b h => Except.ok.inj h
    obtain rfl : [10, 20] = delivered := List.map_injective_iff.2 hinj hitems'
    rfl

theorem cached_as_uncached_three_tries :
    (((Traffic.start troubled).play twoLayers.path threeTries).history.map Mark.isFailure
      = [false, false, true, false, true, false])
    ∧ ∀ layer ∈ twoLayers.path.layers, ∀ id found,
      (((Traffic.start troubled).play twoLayers.path threeTries).system.stores.get
        layer.store).shelf.contents.get? id = some found →
      found = [10, 20].filter fun child => child / 10 = id := by
  have hleads : Leads twoLayers.path List.Nodup
      (Elsewhere twoLayers.path.lock twoLayers.path.layers) (Traffic.start troubled)
      ((Traffic.start troubled).play twoLayers.path threeTries) := by
    refine leads_play (elsewhere_passTo _ _) _ fun ids hids => ?_
    obtain rfl | rfl | rfl : ids = [1, 2] ∨ ids = [2, 3] ∨ ids = [3, 2] := by
      simpa [threeTries] using hids
    all_goals decide
  have hempty : ∀ layer ∈ twoLayers.path.layers, ∀ id,
      (troubled.stores.get layer.store).shelf.contents.get? id = none := by
    intro layer hl id
    obtain rfl | rfl : layer = _ ∨ layer = _ := by simpa [twoLayers] using hl
    all_goals rfl
  exact ⟨by decide, (cached_as_uncached (by simp [Path.Unfed, twoLayers, Layer.feeds])
    perId_troubled hempty rfl hleads).1⟩

end Traffic

end Collate
