/-
Resolutions of several strands that leave no call unheard.

Each resolution under way belongs to a strand. Whoever waits for its lock is in the queue under its
strand, and whoever waits for an answer has set an alarm for its strand; so when it can go on, its
strand is called. A resolution is heeded if it waits with good reason or its strand is called. Runs
of the others keep it heeded, and if nobody is called then some alarm is still to ring: no call is
lost, and nobody waits for good.
-/
import Mathlib.Data.List.Nodup
import Collate.Proofs.Unfailing
import Collate.Proofs.Waiting

set_option autoImplicit false

namespace Collate

variable {ι α : Type}

/-! ## 1. Waiting with good reason -/

/-- Whoever is kept waiting by the holders of its lock, or has an alarm that is still to ring. -/
def Resolution.Resting (sys : System ι α) (r : Resolution ι α) : Prop :=
  ((sys.locks.get r.path.lock).awaits r.ticket = true
    ∧ (sys.locks.get r.path.lock).holds r.ticket = false)
  ∨ ∃ alarm ∈ r.alarms, sys.now < alarm.due

/-- A resolution under way and the strand it belongs to. -/
structure Member (ι α : Type) where
  strand : Strand
  resolution : Resolution ι α

namespace Member

/-- Whatever the resolution waits for, its strand is the one that will be called. -/
structure Strung (sys : System ι α) (m : Member ι α) : Prop where
  waiter : ∀ waiter ∈ (sys.locks.get m.resolution.path.lock).queue,
    waiter.ticket = m.resolution.ticket → waiter.strand = m.strand
  alarm : ∀ alarm ∈ m.resolution.alarms, alarm.strand = m.strand

/-- It waits with good reason, or its strand is called. -/
def Heeded (sys : System ι α) (m : Member ι α) : Prop :=
  m.resolution.Resting sys ∨ m.strand ∈ sys.ready

/-- Time moves on, and whoever's alarm rings meanwhile is called. -/
theorem Heeded.later {sys sys' : System ι α} {m : Member ι α} (h : m.Heeded sys)
    (hlock : sys'.locks.get m.resolution.path.lock = sys.locks.get m.resolution.path.lock)
    (hcalled : m.strand ∈ sys.ready → m.strand ∈ sys'.ready)
    (hrung : ∀ alarm ∈ m.resolution.alarms, sys.now < alarm.due → alarm.due ≤ sys'.now →
      m.strand ∈ sys'.ready) : m.Heeded sys' := by
  rcases h with (hwait | ⟨alarm, halarm, hdue⟩) | hready
  · refine Or.inl (Or.inl ?_)
    rw [hlock]
    exact hwait
  · by_cases hlate : alarm.due ≤ sys'.now
    · exact Or.inr (hrung alarm halarm hdue hlate)
    · exact Or.inl (Or.inr ⟨alarm, halarm, Nat.lt_of_not_le hlate⟩)
  · exact Or.inr (hcalled hready)

theorem Heeded.still {sys sys' : System ι α} {m : Member ι α} (h : m.Heeded sys)
    (hnow : sys'.now = sys.now)
    (hlock : sys'.locks.get m.resolution.path.lock = sys.locks.get m.resolution.path.lock)
    (hcalled : m.strand ∈ sys.ready → m.strand ∈ sys'.ready) : m.Heeded sys' := by
  refine h.later hlock hcalled fun alarm _ hfuture hdue => ?_
  rw [hnow] at hdue
  exact absurd hdue (Nat.not_le_of_lt hfuture)

end Member

variable [DecidableEq ι]

/-! ## 2. One step -/

omit [DecidableEq ι] in
theorem Walk.alarms_start (layers : List Layer) (ids : List ι) (frames : List (Frame ι α)) :
    (Walk.start layers ids frames).alarms = [] := by
  cases layers <;> rfl

namespace Resolution

variable {r r' : Resolution ι α} {sys sys' : System ι α}
  {p : Progress (Resolution ι α) (Except Error (Entries ι (List α)))}

omit [DecidableEq ι] in
theorem alarms_start (path : Path ι α) (ids : List ι) (sys : System ι α) :
    (start path ids sys).1.alarms = [] := by
  unfold start alarms
  cases path.layers.isEmpty <;> rfl

/-- New alarms are alarms of the strand whose turn it is. -/
theorem Stepped.alarms (h : r.Stepped sys (.going r') sys') (hr : r.Regular) (hu : r.path.Unfed) :
    ∀ alarm ∈ r'.alarms, alarm.strand = sys.strand := by
  have hlooks : ∀ {l l' : Lookup ι} {sys'' : System ι α}, l.Regular → l.layer.feeds = [] →
      ¬l.Stepped sys (.going l') sys'' := by
    intro l l' sys'' hl hf h
    generalize hp : (Progress.going l' : Progress (Lookup ι) (Except Error (Found ι α))) = p at h
    cases h with
    | stalls | refused | reads => cases hp
    | watches feeds ready hready hw => exact hw (hl.awaiting hf)
    | passes feeds ready hready hw =>
      rw [hl.awaiting hf] at hw
      cases hw
  intro alarm halarm
  cases h with
  | shares | overshoots | missed => cases halarm
  | looks hp h =>
    rw [Regular, hp] at hr
    exact absurd h (hlooks hr.1 (hu _ hr.2))
  | enters hp h =>
    have hm : alarm ∈ (Walk.start r.path.layers r.ids ([] : List (Frame ι α))).alarms := halarm
    rw [Walk.alarms_start] at hm
    cases hm
  | @walks walk walk' hp _ h =>
    rw [Regular, hp] at hr
    have hm : alarm ∈ walk'.alarms := halarm
    cases h with
    | looks h => exact absurd h (hlooks hr.1 (hu _ hr.2.1))
    | found | spared | answered | written => cases hm
    | missed =>
      rw [Walk.alarms_start] at hm
      cases hm
    | asked hids =>
      obtain ⟨sources, log, _, hask⟩ := System.ask_eq sys r.path.origin _
      rw [Walk.alarms, List.mem_singleton] at hm
      rw [hm, hask]
      rfl

/-- Whoever is new in the queue waits under the strand whose turn it is. -/
theorem Stepped.queue (h : r.Stepped sys p sys') :
    ∀ waiter ∈ (sys'.locks.get r.path.lock).queue, waiter ∈ (sys.locks.get r.path.lock).queue
      ∨ waiter.strand = sys.strand ∧ waiter.ticket = r.ticket := by
  intro waiter hw
  rcases h.locking with ⟨hold, rfl⟩ | hlocks | ⟨sys₁, hlocks, rfl⟩
  · rw [System.acquire_eq, Table.get_set_self] at hw
    rcases Lock.mem_queue_ensureRequested hw with hw | rfl
    · exact Or.inl hw
    · exact Or.inr ⟨rfl, rfl⟩
  · rw [hlocks] at hw
    exact Or.inl hw
  · rw [System.locks_release, Table.get_set_self, hlocks] at hw
    exact Or.inl (Lock.queue_release_subset _ _ hw)

/-- **No call is lost**: whoever was kept waiting is kept waiting still, or is called. -/
theorem Stepped.kept (h : r.Stepped sys p sys') (hs : (sys.locks.get r.path.lock).Served)
    {ticket : Nat} (hne : ticket ≠ r.ticket) {strand : Strand}
    (hstrand : ∀ waiter ∈ (sys.locks.get r.path.lock).queue, waiter.ticket = ticket →
      waiter.strand = strand)
    (ha : (sys.locks.get r.path.lock).awaits ticket = true)
    (hh : (sys.locks.get r.path.lock).holds ticket = false) :
    ((sys'.locks.get r.path.lock).awaits ticket = true
      ∧ (sys'.locks.get r.path.lock).holds ticket = false)
    ∨ strand ∈ sys'.ready := by
  rcases h.locking with ⟨hold, rfl⟩ | hlocks | ⟨sys₁, hlocks, rfl⟩
  · rw [System.acquire_eq, Table.get_set_self]
    exact Or.inl (Lock.awaits_ensureRequested hs ha hh)
  · rw [hlocks]
    exact Or.inl ⟨ha, hh⟩
  · obtain ⟨ready, hmem, hrelease⟩ := System.release_eq sys₁ r.path.lock r.ticket
    rw [hlocks] at hmem hrelease
    rw [hrelease]
    rcases Lock.awaits_release ha hne with hwait | ⟨waiter, hw, hticket, hadmitted⟩
    · rw [Table.get_set_self]
      exact Or.inl hwait
    · rw [hstrand waiter hw hticket] at hadmitted
      exact Or.inr ((hmem strand).2 (Or.inr hadmitted))

/-- Whoever is blocked waits with good reason, and nobody was called. -/
theorem Stepped.resting (h : r.Stepped sys .blocked sys') (hr : r.Regular) (hu : r.path.Unfed) :
    r.Resting sys' ∧ sys'.ready = sys.ready := by
  rcases h.blocked hr hu with ⟨hold, _, hfalse, rfl⟩ | ⟨rfl, alarm, halarm, hdue⟩
  · have hh : ((sys.acquire r.path.lock r.ticket hold).2.locks.get r.path.lock).holds r.ticket
        = false := by
      rw [← System.acquire_fst]
      exact hfalse
    have hknown : r.ticket ∈ ((sys.acquire r.path.lock r.ticket hold).2.locks.get
        r.path.lock).tickets := by
      rw [System.acquire_eq, Table.get_set_self]
      exact Lock.mem_tickets_ensureRequested.2 (Or.inr rfl)
    rcases Lock.mem_tickets.1 hknown with hholds | hawaits
    · rw [hh] at hholds
      cases hholds
    · exact ⟨Or.inl ⟨hawaits, hh⟩, rfl⟩
  · exact ⟨Or.inr ⟨alarm, halarm, hdue⟩, rfl⟩

end Resolution

/-! ## 3. All of them together -/

/-- Nothing fails on the paths, each resolution has a ticket of its own, the locks know nobody but
them, and each is called when it can go on. -/
structure Harmony (children : Path ι α → ι → List α) (paths : List (Path ι α))
    (crew : List (Member ι α)) (sys : System ι α) : Prop where
  sturdy : Sturdy children paths sys
  fit : ∀ m ∈ crew, m.resolution.Fit children paths
  distinct : (crew.map fun m => m.resolution.ticket).Nodup
  issued : ∀ m ∈ crew, m.resolution.ticket < sys.tickets
  minded : ∀ path ∈ paths, Minded path.lock (crew.map fun m => m.resolution) sys
  strung : ∀ m ∈ crew, m.Strung sys

/-- What the others notice of a turn: nothing that they waited for passes them by. -/
structure Undisturbed (paths : List (Path ι α)) (others : List (Member ι α))
    (sys sys' : System ι α) : Prop where
  advanced : System.Advanced (paths.flatMap Path.layers) sys sys'
  heeded : ∀ m ∈ others, m.Heeded sys → m.Heeded sys'

omit [DecidableEq ι] in
theorem Undisturbed.refl (paths : List (Path ι α)) (others : List (Member ι α))
    (sys : System ι α) : Undisturbed paths others sys sys :=
  ⟨.refl _ _, fun _ _ h => h⟩

omit [DecidableEq ι] in
theorem Undisturbed.trans {paths : List (Path ι α)} {others : List (Member ι α)}
    {sys sys' sys'' : System ι α} (h : Undisturbed paths others sys sys')
    (h' : Undisturbed paths others sys' sys'') : Undisturbed paths others sys sys'' :=
  ⟨h.advanced.trans h'.advanced, fun m hm hh => h'.heeded m hm (h.heeded m hm hh)⟩

omit [DecidableEq ι] in
theorem Undisturbed.mono {paths : List (Path ι α)} {others others' : List (Member ι α)}
    {sys sys' : System ι α} (h : Undisturbed paths others sys sys') (hs : others' ⊆ others) :
    Undisturbed paths others' sys sys' :=
  ⟨h.advanced, fun m hm => h.heeded m (hs hm)⟩

namespace Harmony

variable {children : Path ι α → ι → List α} {paths : List (Path ι α)}
  {crew before behind : List (Member ι α)} {strand : Strand} {r r' : Resolution ι α}
  {sys sys' : System ι α} {p : Progress (Resolution ι α) (Except Error (Entries ι (List α)))}

/-- What is not theirs may change. -/
theorem later (h : Harmony children paths crew sys) (htickets : sys.tickets ≤ sys'.tickets)
    (hlocks : ∀ path ∈ paths, sys'.locks.get path.lock = sys.locks.get path.lock)
    (hsturdy : Sturdy children paths sys') : Harmony children paths crew sys' := by
  refine ⟨hsturdy, h.fit, h.distinct, fun m hm => Nat.lt_of_lt_of_le (h.issued m hm) htickets,
    fun path hp => (h.minded path hp).mono (hlocks path hp) (List.Subset.refl _), fun m hm => ?_⟩
  refine ⟨?_, (h.strung m hm).alarm⟩
  rw [hlocks _ (h.fit m hm).path]
  exact (h.strung m hm).waiter

/-- Stores, sources and locks are as they were. -/
theorem elsewhere (h : Harmony children paths crew sys) (hstores : sys'.stores = sys.stores)
    (hsources : sys'.sources = sys.sources) (hlocks : sys'.locks = sys.locks)
    (htickets : sys.tickets ≤ sys'.tickets) : Harmony children paths crew sys' :=
  h.later htickets (fun _ _ => by rw [hlocks]) (h.sturdy.elsewhere hstores hsources)

/-- The one in the middle has a ticket of its own. -/
theorem ticket_ne (h : Harmony children paths (before ++ ⟨strand, r⟩ :: behind) sys)
    {m : Member ι α} (hm : m ∈ before ++ behind) : m.resolution.ticket ≠ r.ticket := by
  have hd := h.distinct
  rw [List.map_append, List.map_cons, List.nodup_middle, List.nodup_cons, ← List.map_append] at hd
  intro heq
  exact hd.1 (heq ▸ List.mem_map_of_mem hm)

/-- What a step of one of them leaves is still in harmony, itself apart. -/
theorem stepped (h : Harmony children paths (before ++ ⟨strand, r⟩ :: behind) sys)
    (hs : r.Stepped sys p sys') (hstrand : sys.strand = strand) :
    Harmony children paths (before ++ ⟨strand, r⟩ :: behind) sys' := by
  have hfit : r.Fit children paths := h.fit ⟨strand, r⟩ (by simp)
  have hadv := hs.advanced hfit.regular
  refine ⟨hs.sturdy hfit h.sturdy, h.fit, h.distinct, fun m hm => ?_, fun path hp => ?_,
    fun m hm => ⟨fun waiter hw hticket => ?_, (h.strung m hm).alarm⟩⟩
  · rw [hadv.tickets]
    exact h.issued m hm
  · have hminded := h.minded path hp
    rw [List.map_append, List.map_cons] at hminded ⊢
    exact hminded.step hs
  · by_cases hlock : m.resolution.path.lock = r.path.lock
    · rw [hlock] at hw
      rcases hs.queue waiter hw with hw | ⟨hnew, hown⟩
      · rw [← hlock] at hw
        exact (h.strung m hm).waiter waiter hw hticket
      · rcases List.mem_append.1 hm with hb | hb
        · exact absurd (hticket.symm.trans hown) (h.ticket_ne (List.mem_append_left _ hb))
        · rcases List.mem_cons.1 hb with rfl | hb
          · exact hnew.trans hstrand
          · exact absurd (hticket.symm.trans hown) (h.ticket_ne (List.mem_append_right _ hb))
    · rw [hs.other_locks hlock] at hw
      exact (h.strung m hm).waiter waiter hw hticket

/-- The others are heeded as before. -/
theorem heeded (h : Harmony children paths (before ++ ⟨strand, r⟩ :: behind) sys)
    (hs : r.Stepped sys p sys') : Undisturbed paths (before ++ behind) sys sys' := by
  have hfit : r.Fit children paths := h.fit ⟨strand, r⟩ (by simp)
  have hadv := hs.advanced hfit.regular
  have hlayers : r.path.layers ⊆ paths.flatMap Path.layers := fun layer hl =>
    List.mem_flatMap.2 ⟨r.path, hfit.path, hl⟩
  refine ⟨hadv.mono hlayers, fun m hm hheeded => ?_⟩
  have hmem : m ∈ before ++ ⟨strand, r⟩ :: behind := by
    rcases List.mem_append.1 hm with hb | hb <;> simp [hb]
  rcases hheeded with (⟨hawaits, hholds⟩ | ⟨alarm, halarm, hdue⟩) | hready
  · by_cases hlock : m.resolution.path.lock = r.path.lock
    · have hserved := (h.minded r.path hfit.path).served
      have hwaiter := (h.strung m hmem).waiter
      rw [hlock] at hawaits hholds hwaiter
      rcases hs.kept hserved (h.ticket_ne hm) hwaiter hawaits hholds with hkept | hcalled
      · refine Or.inl (Or.inl ?_)
        rw [hlock]
        exact hkept
      · exact Or.inr hcalled
    · refine Or.inl (Or.inl ?_)
      rw [hs.other_locks hlock]
      exact ⟨hawaits, hholds⟩
  · refine Or.inl (Or.inr ⟨alarm, halarm, ?_⟩)
    rw [hadv.now]
    exact hdue
  · exact Or.inr (hadv.ready hready)

theorem going (h : Harmony children paths (before ++ ⟨strand, r⟩ :: behind) sys)
    (hs : r.Stepped sys (.going r') sys') (hstrand : sys.strand = strand) :
    Harmony children paths (before ++ ⟨strand, r'⟩ :: behind) sys' := by
  have hfit : r.Fit children paths := h.fit ⟨strand, r⟩ (by simp)
  have hfit' := hs.fit hfit h.sturdy
  have halarms := hs.alarms hfit.regular (h.sturdy.unfed r.path hfit.path)
  obtain ⟨hsturdy, hfits, hdistinct, hissued, hminded, hstrung⟩ := h.stepped hs hstrand
  obtain ⟨⟨phase, rfl⟩, _⟩ := hs.going hfit.regular
  simp only [List.forall_mem_append, List.forall_mem_cons] at hfits hissued hstrung
  refine ⟨hsturdy, ?_, ?_, ?_, fun path hp => ?_, ?_⟩
  · simp only [List.forall_mem_append, List.forall_mem_cons]
    exact ⟨hfits.1, hfit', hfits.2.2⟩
  · rw [List.map_append, List.map_cons] at hdistinct ⊢
    exact hdistinct
  · simp only [List.forall_mem_append, List.forall_mem_cons]
    exact hissued
  · have hm := hminded path hp
    rw [List.map_append, List.map_cons] at hm ⊢
    exact hm.replace rfl rfl
  · simp only [List.forall_mem_append, List.forall_mem_cons]
    exact ⟨hstrung.1, ⟨hstrung.2.1.waiter, fun alarm ha => (halarms alarm ha).trans hstrand⟩,
      hstrung.2.2⟩

theorem leaves {result : Except Error (Entries ι (List α))}
    (h : Harmony children paths (before ++ ⟨strand, r⟩ :: behind) sys)
    (hs : r.Stepped sys (.finished result) sys') (hstrand : sys.strand = strand) :
    Harmony children paths (before ++ behind) sys' := by
  obtain ⟨hsturdy, hfits, hdistinct, hissued, hminded, hstrung⟩ := h.stepped hs hstrand
  simp only [List.forall_mem_append, List.forall_mem_cons] at hfits hissued hstrung
  refine ⟨hsturdy, ?_, ?_, ?_, fun path hp => ?_, ?_⟩
  · exact List.forall_mem_append.2 ⟨hfits.1, hfits.2.2⟩
  · rw [List.map_append, List.map_cons, List.nodup_middle, List.nodup_cons,
      ← List.map_append] at hdistinct
    exact hdistinct.2
  · exact List.forall_mem_append.2 ⟨hissued.1, hissued.2.2⟩
  · have hm := hminded path hp
    rw [List.map_append, List.map_cons] at hm
    rw [List.map_append]
    exact hm.leave hs.released
  · exact List.forall_mem_append.2 ⟨hstrung.1, hstrung.2.2⟩

/-- A resolution that begins joins the others: nobody knows of its ticket yet. -/
theorem join (h : Harmony children paths crew sys) {path : Path ι α} (hp : path ∈ paths)
    {ids : List ι} (hids : ids.Nodup) (strand : Strand) :
    Harmony children paths (crew ++ [⟨strand, (Resolution.start path ids sys).1⟩])
      (Resolution.start path ids sys).2 := by
  have hnew : ∀ m ∈ crew, m.resolution.ticket ≠ sys.tickets := fun m hm =>
    Nat.ne_of_lt (h.issued m hm)
  have hfit : (Resolution.start path ids sys).1.Fit children paths :=
    Resolution.fit_start hp hids sys
  have hlater : Harmony children paths crew (Resolution.start path ids sys).2 :=
    h.elsewhere rfl rfl rfl (Nat.le_succ _)
  refine ⟨hlater.sturdy, ?_, ?_, ?_, fun other ho => ?_, ?_⟩
  · exact List.forall_mem_append.2 ⟨hlater.fit, by simpa using hfit⟩
  · rw [List.map_append, List.map_singleton]
    refine List.nodup_append.2 ⟨hlater.distinct, by simp, fun ticket ht other ho => ?_⟩
    obtain ⟨m, hm, rfl⟩ := List.mem_map.1 ht
    rw [List.mem_singleton.1 ho]
    exact hnew m hm
  · refine List.forall_mem_append.2 ⟨hlater.issued, ?_⟩
    intro m hm
    rw [List.mem_singleton.1 hm]
    exact Nat.lt_succ_self _
  · refine (hlater.minded other ho).mono rfl ?_
    rw [List.map_append]
    exact List.subset_append_left _ _
  · refine List.forall_mem_append.2 ⟨hlater.strung, ?_⟩
    intro m hm
    rw [List.mem_singleton.1 hm]
    refine ⟨fun waiter hw hticket => ?_, fun alarm halarm => ?_⟩
    · have hknown : waiter.ticket ∈ (sys.locks.get path.lock).tickets :=
        Lock.mem_tickets.2 (Or.inr (Lock.awaits_iff.2 ⟨waiter, hw, rfl⟩))
      obtain ⟨r, hr, _, hrt⟩ := (h.minded path hp).known _ hknown
      obtain ⟨m, hm, rfl⟩ := List.mem_map.1 hr
      exact absurd (hrt.trans hticket) (hnew m hm)
    · rw [Resolution.alarms_start] at halarm
      cases halarm

/-! ## 4. Turns -/

/-- What holds of a resolution after some steps of a turn. -/
private structure Onward (children : Path ι α → ι → List α) (paths : List (Path ι α))
    (before behind : List (Member ι α)) (strand : Strand) (start : Resolution ι α × System ι α)
    (r : Resolution ι α) (sys : System ι α) : Prop where
  harmony : Harmony children paths (before ++ ⟨strand, r⟩ :: behind) sys
  others : Undisturbed paths (before ++ behind) start.2 sys
  same : r.path = start.1.path ∧ r.ids = start.1.ids
  further : r.left < start.1.left ∨ r = start.1 ∧ sys = start.2

private theorem Onward.of_leads (h : Harmony children paths (before ++ ⟨strand, r⟩ :: behind) sys)
    (hstrand : sys.strand = strand)
    (hl : Relation.ReflTransGen (Leads Resolution.step) (r, sys) (r', sys')) :
    Onward children paths before behind strand (r, sys) r' sys' := by
  generalize hb : (r', sys') = b at hl
  induction hl generalizing r' sys' with
  | refl =>
    obtain ⟨rfl, rfl⟩ := Prod.mk.inj hb
    exact ⟨h, .refl _ _ _, ⟨rfl, rfl⟩, Or.inr ⟨rfl, rfl⟩⟩
  | @tail c _ _ hstep ih =>
    obtain ⟨r₁, sys₁⟩ := c
    obtain rfl := hb
    obtain ⟨hharmony, hothers, ⟨hpath, hids⟩, hfurther⟩ := ih rfl
    have hs := r₁.stepped sys₁
    rw [show r₁.step sys₁ = (.going r', sys') from hstep] at hs
    have hfit : r₁.Fit children paths := hharmony.fit ⟨strand, r₁⟩ (by simp)
    have hturn : sys₁.strand = strand := hothers.advanced.strand.trans hstrand
    have hgoing := hharmony.going hs hturn
    obtain ⟨⟨phase, rfl⟩, _, hless⟩ := hs.going hfit.regular
    refine ⟨hgoing, hothers.trans (hharmony.heeded hs), ⟨hpath, hids⟩, Or.inl ?_⟩
    rcases hfurther with hlt | ⟨rfl, _⟩
    · exact Nat.lt_trans hless hlt
    · exact hless

/-- **What a resolution does when it is run.** It ends well, or waits with good reason; and it has
come further or nobody was called. -/
theorem run (h : Harmony children paths (before ++ ⟨strand, r⟩ :: behind) sys)
    (hstrand : sys.strand = strand) :
    Undisturbed paths (before ++ behind) sys (r.run sys).2
    ∧ ((∃ r', (r.run sys).1 = .waiting r' ∧ r'.path = r.path ∧ r'.ids = r.ids
        ∧ Harmony children paths (before ++ ⟨strand, r'⟩ :: behind) (r.run sys).2
        ∧ r'.Resting (r.run sys).2
        ∧ (r'.left < r.left ∨ r' = r ∧ (r.run sys).2.ready = sys.ready))
      ∨ ∃ grouped, (r.run sys).1 = .finished (.ok grouped)
        ∧ Answers (children r.path) r.ids grouped
        ∧ Harmony children paths (before ++ behind) (r.run sys).2) := by
  have hfit : r.Fit children paths := h.fit ⟨strand, r⟩ (by simp)
  obtain ⟨r₁, sys₁, hleads, hend⟩ := Resolution.run_ends hfit.regular sys
  obtain ⟨hharmony, hothers, ⟨hpath, hids⟩, hfurther⟩ := Onward.of_leads h hstrand hleads
  have hfit₁ : r₁.Fit children paths := hharmony.fit ⟨strand, r₁⟩ (by simp)
  have hturn : sys₁.strand = strand := hothers.advanced.strand.trans hstrand
  have hs := r₁.stepped sys₁
  rcases hend with ⟨sys₂, hstep, hrun⟩ | ⟨result, sys₂, hstep, hrun⟩
  · rw [hstep] at hs
    rw [hrun]
    obtain ⟨hresting, hready⟩ := hs.resting hfit₁.regular (h.sturdy.unfed r₁.path hfit₁.path)
    refine ⟨hothers.trans (hharmony.heeded hs), Or.inl ⟨r₁, rfl, hpath, hids,
      hharmony.stepped hs hturn, hresting, ?_⟩⟩
    rcases hfurther with hlt | ⟨rfl, rfl⟩
    · exact Or.inl hlt
    · exact Or.inr ⟨rfl, hready⟩
  · rw [hstep] at hs
    rw [hrun]
    cases result with
    | error e => exact absurd hs (Resolution.Stepped.unfailing hfit₁ hharmony.sturdy)
    | ok grouped =>
      have hanswers := hs.answers hfit₁.sound hfit₁.regular
        (hharmony.sturdy.coherent r₁.path hfit₁.path) (h.sturdy.unfed r₁.path hfit₁.path)
      rw [hpath, hids] at hanswers
      exact ⟨hothers.trans (hharmony.heeded hs), Or.inr ⟨grouped, rfl, hanswers,
        hharmony.leaves hs hturn⟩⟩

/-- **Nobody waits for good**: if all of them wait with good reason, some alarm is still to ring. -/
theorem exists_alarm (h : Harmony children paths crew sys) (hne : crew ≠ [])
    (hresting : ∀ m ∈ crew, m.resolution.Resting sys) :
    ∃ m ∈ crew, ∃ alarm ∈ m.resolution.alarms, sys.now < alarm.due := by
  obtain ⟨m, hm⟩ := List.exists_mem_of_ne_nil crew hne
  rcases hresting m hm with ⟨hawaits, _⟩ | halarm
  · -- Somebody holds the lock it waits for, and whoever holds a lock does not wait for that one.
    obtain ⟨waiter, hw, _⟩ := Lock.awaits_iff.1 hawaits
    have hminded := h.minded m.resolution.path (h.fit m hm).path
    obtain ⟨r, hr, hlock, hholds⟩ := hminded.exists_holder (List.ne_nil_of_mem hw)
    obtain ⟨holder, hholder, rfl⟩ := List.mem_map.1 hr
    rcases hresting holder hholder with ⟨_, hfree⟩ | halarm
    · rw [hlock, hholds] at hfree
      cases hfree
    · exact ⟨holder, hholder, halarm⟩
  · exact ⟨m, hm, halarm⟩

end Harmony

end Collate
