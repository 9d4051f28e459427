/-
A feed in service.

The consumer of a feed goes on while any number of lookups come to the layer it keeps, each taking
its steps when it likes, or going away before it is answered. Items of the feed arrive, and other
things happen beside. Of a run it is remembered what the feed brought, which windows were taken up,
how many of them are in the layer, and when the feed was subscribed.

What carries every statement about such runs is one description of the moments they pass through
(`Service.Sound`): how many windows are in the layer is known at every stage of the consumer,
together with the lifecycle that was published, and whoever was let past the feed had a reason that
stays.
-/
import Collate.Proofs.Feed.Status
import Collate.Proofs.Feed.Materialisation

set_option autoImplicit false

namespace Collate

variable {ι α : Type}

/-! ## 1. Lookups at a feed -/

namespace Lookup

/-- A lookup that has come to the layer a consumer keeps. In front of that it may have passed feeds
of layers further out. -/
structure At (l : Lookup ι) (c : Consumer ι α) (ref : FeedRef) : Prop where
  store : l.layer.store = c.backing.store
  feeds : ref :: c.backing.feeds <:+ l.layer.feeds
  awaiting : l.awaiting <:+ ref :: c.backing.feeds

/-- It still waits for the consumer's feed to be ready. -/
def WaitsAt (l : Lookup ι) (c : Consumer ι α) (ref : FeedRef) : Prop :=
  l.awaiting = ref :: c.backing.feeds

instance (l : Lookup ι) (c : Consumer ι α) (ref : FeedRef) : Decidable (l.WaitsAt c ref) :=
  inferInstanceAs (Decidable (_ = _))

variable {l l' : Lookup ι} {c : Consumer ι α} {ref : FeedRef} {sys sys' : System ι α}

/-- Whoever does not wait for the feed any more has only feeds behind it left. -/
theorem At.passed (h : l.At c ref) (hw : ¬ l.WaitsAt c ref) : l.awaiting <:+ c.backing.feeds :=
  (List.suffix_cons_iff.1 h.awaiting).resolve_left hw

theorem at_start {layer : Layer} (hstore : layer.store = c.backing.store)
    (hfeeds : layer.feeds = ref :: c.backing.feeds) (ids : List ι) :
    (start layer ids).At c ref ∧ (start layer ids).WaitsAt c ref :=
  ⟨⟨hstore, hfeeds ▸ List.suffix_rfl, hfeeds ▸ List.suffix_rfl⟩, hfeeds⟩

variable [DecidableEq ι]

theorem Stepped.awaiting (h : l.Stepped sys (.going l') sys') :
    l'.layer = l.layer ∧ l'.awaiting <:+ l.awaiting := by
  generalize hp : (Progress.going l' : Progress (Lookup ι) (Except Error (Found ι α))) = p at h
  cases h with
  | stalls | refused | reads => cases hp
  | watches =>
    cases hp
    exact ⟨rfl, List.suffix_rfl⟩
  | passes feeds ready hr hw =>
    cases hp
    exact ⟨rfl, hw ▸ List.suffix_cons _ _⟩

end Lookup

/-- A lookup under way, and how many windows were in the layer when it came. -/
structure Visit (ι : Type) where
  lookup : Lookup ι
  since : Nat

/-- What becomes of a visit with a step of its lookup. -/
def Visit.after (v : Visit ι) : Progress (Lookup ι) (Except Error (Found ι α)) → List (Visit ι)
  | .blocked => [v]
  | .going lookup => [{ v with lookup := lookup }]
  | .finished _ => []

/-! ## 2. Runs -/

/-- The consumer of a feed, the lookups under way, the state they share, and what is remembered. -/
structure Service (ι α : Type) where
  consumer : Consumer ι α
  visits : List (Visit ι)
  system : System ι α
  /-- The items the feed brought so far. -/
  brought : List (FeedItem α)
  /-- The windows taken up so far. -/
  taken : List (List (FeedItem α))
  /-- How many of them are in the layer. -/
  applied : Nat
  /-- When the feed was subscribed. -/
  subscribed : List Nat

namespace Service

/-- Nobody came to the feed yet. -/
def start (c : Consumer ι α) (sys : System ι α) : Service ι α :=
  ⟨c, [], sys, c.inlet.payload, [], 0, []⟩

/-- What is known of the feed. -/
def status (t : Service ι α) : FeedStatus := t.system.feeds.get t.consumer.feed

/-- How far the feed has come. -/
def lifecycle (t : Service ι α) : Lifecycle := t.status.lifecycle

/-- Another shared state. Whether the feed was subscribed on the way is seen from its lifecycle. -/
def moveTo (t : Service ι α) (sys : System ι α) : Service ι α :=
  { t with
    system := sys
    subscribed :=
      if t.lifecycle = .unstarted ∧ (sys.feeds.get t.consumer.feed).lifecycle ≠ .unstarted
      then t.system.now :: t.subscribed
      else t.subscribed }

/-- The consumer has taken a step. -/
def consumed (t : Service ι α) (window? : Option (List (FeedItem α))) (isApplied : Bool)
    (c : Consumer ι α) (sys : System ι α) : Service ι α :=
  { t.moveTo sys with
    consumer := c
    taken := t.taken ++ window?.toList
    applied := t.applied + if isApplied then 1 else 0 }

section Fields

variable (t : Service ι α) (window? : Option (List (FeedItem α))) (isApplied : Bool)
  (c : Consumer ι α) (sys : System ι α)

@[simp] theorem consumer_consumed : (t.consumed window? isApplied c sys).consumer = c := rfl

@[simp] theorem system_consumed : (t.consumed window? isApplied c sys).system = sys := rfl

@[simp] theorem taken_consumed :
    (t.consumed window? isApplied c sys).taken = t.taken ++ window?.toList := rfl

@[simp] theorem applied_consumed :
    (t.consumed window? isApplied c sys).applied = t.applied + if isApplied then 1 else 0 := rfl

end Fields

/-- A lookup has come. -/
def come (t : Service ι α) (l : Lookup ι) : Service ι α :=
  { t with visits := t.visits ++ [⟨l, t.applied⟩] }

variable [DecidableEq ι]

/-- A lookup takes a step; it stands between others. -/
def look (t : Service ι α) (before : List (Visit ι)) (v : Visit ι) (behind : List (Visit ι)) :
    Service ι α :=
  { t.moveTo (v.lookup.step t.system).2 with
    visits := before ++ (v.after (v.lookup.step t.system).1 ++ behind) }

/-- The consumer takes a step. -/
def consume (t : Service ι α) : Service ι α :=
  t.consumed (t.consumer.takes t.system) (t.consumer.applies t.system)
    (t.consumer.step t.system).2.1 (t.consumer.step t.system).2.2

/-- The moves of a feed in service. -/
inductive Step (ref : FeedRef) (elsewhere : System ι α → System ι α → Prop) :
    Service ι α → Service ι α → Prop where
  /-- A lookup comes. -/
  | comes {t : Service ι α} {l : Lookup ι} (h : l.At t.consumer ref)
      (hw : l.WaitsAt t.consumer ref) :
      Step ref elsewhere t (t.come l)
  /-- A lookup takes a step. -/
  | looks {t : Service ι α} {before behind : List (Visit ι)} {v : Visit ι}
      (h : t.visits = before ++ v :: behind) :
      Step ref elsewhere t (t.look before v behind)
  /-- A lookup is dropped. -/
  | drops {t : Service ι α} {before behind : List (Visit ι)} {v : Visit ι}
      (h : t.visits = before ++ v :: behind) :
      Step ref elsewhere t { t.moveTo (v.lookup.unwatch t.system) with visits := before ++ behind }
  /-- The consumer takes a step. -/
  | consumes {t : Service ι α} : Step ref elsewhere t t.consume
  /-- Items arrive at a consumer that is not done with the feed. -/
  | receives {t : Service ι α} {inlet : Inlet (FeedItem α)} {items : List (FeedItem α)}
      (h : inlet.payload = t.consumer.inlet.payload ++ items) (hstage : t.consumer.stage ≠ .ended) :
      Step ref elsewhere t { t with
        consumer := { t.consumer with inlet := inlet }, brought := t.brought ++ items }
  /-- Something else happens. -/
  | beside {t : Service ι α} {sys : System ι α} (h : elsewhere t.system sys) :
      Step ref elsewhere t (t.moveTo sys)

/-- A run from one moment to another. -/
def Leads (ref : FeedRef) (elsewhere : System ι α → System ι α → Prop) :
    Service ι α → Service ι α → Prop :=
  Relation.ReflTransGen (Step ref elsewhere)

omit [DecidableEq ι] in
/-- What happens elsewhere leaves the feed as it is; time may pass. -/
structure Elsewhere (feed : Nat) (sys sys' : System ι α) : Prop where
  same : System.SameFeed feed sys sys'
  now : sys.now ≤ sys'.now

end Service

/-! ## 3. What is known at each moment -/

/-- How far a feed that is neither complete nor failed has come after some windows. -/
def Lifecycle.afterWindows : Nat → Lifecycle
  | 0 => .starting
  | _ + 1 => .running

theorem Lifecycle.isOpen_afterWindows (n : Nat) : (afterWindows n).IsOpen := by
  cases n
  · exact Or.inl rfl
  · exact Or.inr rfl

theorem Lifecycle.IsOpen.ne_unstarted {lifecycle : Lifecycle} (h : lifecycle.IsOpen) :
    lifecycle ≠ .unstarted := by
  rintro rfl
  rcases h with h | h <;> cases h

theorem Lifecycle.IsOpen.isFinished {lifecycle : Lifecycle} (h : lifecycle.IsOpen) :
    lifecycle.isFinished = false := by
  rcases h with rfl | rfl <;> rfl

/-- The arrows between lifecycles. -/
inductive Lifecycle.Next : Lifecycle → Lifecycle → Prop where
  | subscribed : Next .unstarted .starting
  | runs : Next .starting .running
  | stops {lifecycle : Lifecycle} (h : lifecycle.IsOpen) : Next lifecycle .stopped
  | fails {lifecycle : Lifecycle} (h : lifecycle.IsOpen) (e : Error) : Next lifecycle (.failed e)

/-- Nothing follows on an end. -/
theorem Lifecycle.Next.isFinished {lifecycle lifecycle' : Lifecycle}
    (h : lifecycle.Next lifecycle') : lifecycle.isFinished = false := by
  cases h with
  | subscribed | runs => rfl
  | stops h | fails h => exact h.isFinished

/-- Nothing leads back to where nobody had come. -/
theorem Lifecycle.Next.ne_unstarted {lifecycle lifecycle' : Lifecycle}
    (h : lifecycle.Next lifecycle') : lifecycle' ≠ .unstarted := by
  cases h <;> exact fun he => by cases he

/-- A consumer nobody needed yet: it waits for its first window, and its feed is not subscribed. -/
structure Consumer.Unbegun (c : Consumer ι α) (ref : FeedRef) (sys : System ι α) : Prop where
  feed : c.feed = ref.feed
  /-- The layer behind the consumer does not wait for the consumer. -/
  apart : ∀ other ∈ c.backing.feeds, other.feed ≠ ref.feed
  stage : c.stage = .gathering
  size : c.collector.size ≠ 0
  buffer : c.collector.buffer = []
  lifecycle : (sys.feeds.get ref.feed).lifecycle = .unstarted

namespace Stage

/-- What is known at a stage: how many windows are in the layer and how far the feed has come. From
the moment a window is taken up until it is done with it is the last of those taken. -/
def Fits (backing : Layer) (lifecycle : Lifecycle) (brought : List (FeedItem α))
    (taken : List (List (FeedItem α))) (applied : Nat) : Stage ι α → Prop
  | .gathering => applied = taken.length
    ∧ (lifecycle = .unstarted ∧ taken = [] ∨ lifecycle = .afterWindows taken.length)
  | .reading lookup _ failure => lookup.awaiting <:+ backing.feeds
    ∧ ∃ rest window, taken = rest ++ [window] ∧ failure = FeedItem.failure? window
      ∧ applied = rest.length ∧ lifecycle = .afterWindows rest.length
  | .writing _ _ failure => ∃ rest window, taken = rest ++ [window]
    ∧ failure = FeedItem.failure? window ∧ applied = rest.length
    ∧ lifecycle = .afterWindows rest.length
  | .applied failure => ∃ rest window, taken = rest ++ [window]
    ∧ failure = FeedItem.failure? window ∧ applied = taken.length
    ∧ lifecycle = .afterWindows rest.length
  | .ended => lifecycle.isFinished = true
    ∧ (lifecycle = .stopped → applied = taken.length ∧ taken.flatten = brought)

variable {backing : Layer} {lifecycle : Lifecycle} {brought : List (FeedItem α)}
  {taken : List (List (FeedItem α))} {applied : Nat} {stage : Stage ι α}

/-- A feed has come to its end just when its consumer has. -/
theorem Fits.isFinished (h : stage.Fits backing lifecycle brought taken applied) :
    lifecycle.isFinished = true ↔ stage = .ended := by
  have hopen : ∀ n, lifecycle = .afterWindows n → lifecycle.isFinished = false :=
    fun n hn => hn ▸ (Lifecycle.isOpen_afterWindows n).isFinished
  cases stage with
  | gathering =>
    rcases h.2 with ⟨rfl, _⟩ | hl
    · simp [Lifecycle.isFinished]
    · simp [hopen _ hl]
  | reading =>
    obtain ⟨_, _, _, _, _, _, hl⟩ := h
    simp [hopen _ hl]
  | writing | applied =>
    obtain ⟨_, _, _, _, _, hl⟩ := h
    simp [hopen _ hl]
  | ended => simp [h.1]

/-- When a feed runs, a window is in the layer. -/
theorem Fits.applied_ne_zero (h : stage.Fits backing .running brought taken applied) :
    applied ≠ 0 := by
  have hpos : ∀ n, Lifecycle.running = .afterWindows n → n ≠ 0 := by
    rintro _ hn rfl
    cases hn
  cases stage with
  | gathering =>
    rcases h.2 with ⟨hl, _⟩ | hl
    · cases hl
    · exact h.1 ▸ hpos _ hl
  | reading =>
    obtain ⟨_, _, _, _, _, happlied, hl⟩ := h
    exact happlied ▸ hpos _ hl
  | writing =>
    obtain ⟨_, _, _, _, happlied, hl⟩ := h
    exact happlied ▸ hpos _ hl
  | applied =>
    obtain ⟨rest, window, htaken, _, happlied, _⟩ := h
    rw [happlied, htaken]
    simp
  | ended => cases h.1

/-- Nobody takes up a window of a feed that nobody subscribed. -/
theorem Fits.of_unstarted (h : stage.Fits backing .unstarted brought taken applied) :
    stage = .gathering ∧ taken = [] ∧ applied = 0 := by
  have hopen : ∀ n, Lifecycle.unstarted ≠ .afterWindows n :=
    fun n => (Lifecycle.isOpen_afterWindows n).ne_unstarted.symm
  cases stage with
  | gathering =>
    rcases h.2 with ⟨_, htaken⟩ | hl
    · exact ⟨rfl, htaken, by rw [h.1, htaken]; rfl⟩
    · exact absurd hl (hopen _)
  | reading =>
    obtain ⟨_, _, _, _, _, _, hl⟩ := h
    exact absurd hl (hopen _)
  | writing | applied =>
    obtain ⟨_, _, _, _, _, hl⟩ := h
    exact absurd hl (hopen _)
  | ended => cases h.1

end Stage

namespace Service

/-- There is a reason to let lookups past the feed: a window is in the layer, they waited for long
enough, or the feed is complete and brought nothing. -/
def Admits (t : Service ι α) : Prop :=
  t.lifecycle ≠ .unstarted
  ∧ (t.applied ≠ 0 ∨ t.status.readyBy ≤ t.system.now ∨ t.lifecycle = .stopped ∧ t.brought = [])

/-- What is known of a lookup under way. -/
structure Hosts (ref : FeedRef) (t : Service ι α) (v : Visit ι) : Prop where
  place : v.lookup.At t.consumer ref
  since : v.since ≤ t.applied
  admitted : ¬ v.lookup.WaitsAt t.consumer ref → t.Admits

/-- What is known at every moment of a run. -/
structure Sound (ref : FeedRef) (t : Service ι α) : Prop where
  feed : t.consumer.feed = ref.feed
  apart : ∀ other ∈ t.consumer.backing.feeds, other.feed ≠ ref.feed
  size : t.consumer.collector.size ≠ 0
  filled : ∀ window ∈ t.taken, window ≠ []
  conserved : t.taken.flatten ++ (t.consumer.collector.buffer ++ t.consumer.inlet.payload)
    = t.brought
  stage : t.consumer.stage.Fits t.consumer.backing t.lifecycle t.brought t.taken t.applied
  dated : t.lifecycle = .unstarted ∧ t.subscribed = []
    ∨ t.lifecycle ≠ .unstarted
      ∧ ∃ since, t.subscribed = [since] ∧ t.status.readyBy = since + ref.initTimeout
  visits : ∀ v ∈ t.visits, Hosts ref t v

variable {ref : FeedRef} {t t' : Service ι α} {v : Visit ι} {sys : System ι α}

theorem Hosts.mono (h : Hosts ref t v) (hbacking : t'.consumer.backing = t.consumer.backing)
    (happlied : t.applied ≤ t'.applied) (hadmits : t.Admits → t'.Admits) : Hosts ref t' v := by
  obtain ⟨⟨hstore, hfeeds, hawaiting⟩, hsince, hadmitted⟩ := h
  refine ⟨⟨?_, ?_, ?_⟩, Nat.le_trans hsince happlied, fun hw => hadmits (hadmitted ?_)⟩
  · rw [hbacking]
    exact hstore
  · rw [hbacking]
    exact hfeeds
  · rw [hbacking]
    exact hawaiting
  · rw [Lookup.WaitsAt, ← hbacking]
    exact hw

/-! ## 4. Moves that leave the feed alone -/

theorem moveTo_of_same (hsame : System.SameFeed t.consumer.feed t.system sys) :
    t.moveTo sys = { t with system := sys } := by
  have hlifecycle : (sys.feeds.get t.consumer.feed).lifecycle = t.lifecycle := hsame.lifecycle
  unfold moveTo
  rw [hlifecycle, if_neg fun h => h.2 h.1]

/-- Nothing changes for anybody when the feed is left alone. -/
theorem Sound.quiet (h : Sound ref t) (hsame : System.SameFeed ref.feed t.system sys)
    (hnow : t.system.now ≤ sys.now) : Sound ref (t.moveTo sys) := by
  rw [← h.feed] at hsame
  rw [moveTo_of_same hsame]
  have hlifecycle : ({ t with system := sys } : Service ι α).lifecycle = t.lifecycle :=
    hsame.lifecycle
  have hready : ({ t with system := sys } : Service ι α).status.readyBy = t.status.readyBy :=
    hsame.readyBy
  refine ⟨h.feed, h.apart, h.size, h.filled, h.conserved, ?_, ?_, fun v hv => ?_⟩
  · rw [hlifecycle]
    exact h.stage
  · rw [hlifecycle, hready]
    exact h.dated
  · refine (h.visits v hv).mono rfl (Nat.le_refl _) fun ⟨hl, hreason⟩ => ⟨hlifecycle ▸ hl, ?_⟩
    rw [hlifecycle, hready]
    exact hreason.imp_right (Or.imp_left fun hdue => Nat.le_trans hdue hnow)

/-- Others may be under way. -/
theorem Sound.withVisits (h : Sound ref t) {visits : List (Visit ι)}
    (hvisits : ∀ v ∈ visits, Hosts ref t v) : Sound ref { t with visits := visits } :=
  ⟨h.feed, h.apart, h.size, h.filled, h.conserved, h.stage, h.dated,
    fun v hv => (hvisits v hv).mono rfl (Nat.le_refl _) id⟩

theorem Sound.receive (h : Sound ref t) {inlet : Inlet (FeedItem α)} {items : List (FeedItem α)}
    (hinlet : inlet.payload = t.consumer.inlet.payload ++ items)
    (hstage : t.consumer.stage ≠ .ended) :
    Sound ref { t with
      consumer := { t.consumer with inlet := inlet }, brought := t.brought ++ items } := by
  have hfinished : t.lifecycle ≠ .stopped := fun hl =>
    hstage (h.stage.isFinished.1 (by rw [hl]; rfl))
  refine ⟨h.feed, h.apart, h.size, h.filled, ?_, ?_, h.dated, fun v hv => ?_⟩
  · rw [← h.conserved, hinlet, List.append_assoc, List.append_assoc]
  · have hfits := h.stage
    show t.consumer.stage.Fits t.consumer.backing t.lifecycle (t.brought ++ items) t.taken t.applied
    cases hs : t.consumer.stage with
    | ended => exact absurd hs hstage
    | gathering | reading | writing | applied =>
      rw [hs] at hfits
      exact hfits
  · refine (h.visits v hv).mono rfl (Nat.le_refl _) fun ⟨hl, hreason⟩ => ⟨hl, ?_⟩
    exact hreason.imp_right (Or.imp_right fun ⟨hstopped, _⟩ => absurd hstopped hfinished)

/-! ## 5. Lookups -/

/-- Whoever comes first subscribes the feed, and nothing changes for anybody after that. -/
theorem Sound.subscribe (h : Sound ref t) : Sound ref (t.moveTo (t.system.subscribe ref)) := by
  have hget := System.get_subscribe t.system ref
  rw [← h.feed] at hget
  by_cases hlifecycle : t.lifecycle = .unstarted
  · have hstatus : (t.system.subscribe ref).feeds.get t.consumer.feed
        = { t.status with lifecycle := .starting, readyBy := t.system.now + ref.initTimeout } :=
      hget.trans (FeedStatus.subscribe_of_eq hlifecycle _ _)
    have hnone : t.subscribed = [] := by
      rcases h.dated with ⟨_, hsub⟩ | ⟨hne, _⟩
      · exact hsub
      · exact absurd hlifecycle hne
    have hmove : t.moveTo (t.system.subscribe ref)
        = { t with system := t.system.subscribe ref, subscribed := [t.system.now] } := by
      unfold moveTo
      rw [hstatus, if_pos ⟨hlifecycle, by simp⟩, hnone]
    rw [hmove]
    have hfits := h.stage
    rw [hlifecycle] at hfits
    obtain ⟨hstage, htaken, happlied⟩ := hfits.of_unstarted
    refine ⟨h.feed, h.apart, h.size, h.filled, h.conserved, ?_, Or.inr ⟨?_, t.system.now, rfl, ?_⟩,
      fun v hv => ?_⟩
    · simp only [lifecycle, status, hstatus, hstage, htaken, happlied]
      exact ⟨rfl, Or.inr rfl⟩
    · simp only [lifecycle, status, hstatus]
      exact fun hl => by cases hl
    · simp only [status, hstatus]
    · exact (h.visits v hv).mono rfl (Nat.le_refl _) fun hadmits => absurd hlifecycle hadmits.1
  · refine h.quiet ?_ (Nat.le_of_eq (System.now_subscribe ..).symm)
    rw [← h.feed]
    have hsame := hget.trans (FeedStatus.subscribe_of_ne hlifecycle _ _)
    constructor <;> rw [hsame] <;> rfl

theorem moveTo_moveTo {sys' : System ι α} (hsame : System.SameFeed t.consumer.feed sys sys') :
    (t.moveTo sys).moveTo sys' = t.moveTo sys' := by
  have hl : (sys'.feeds.get t.consumer.feed).lifecycle
      = (sys.feeds.get t.consumer.feed).lifecycle := hsame.lifecycle
  rw [moveTo_of_same (t := t.moveTo sys) hsame]
  unfold moveTo
  rw [hl]

/-- The feed lets a lookup pass for a reason. -/
theorem Sound.admits (h : Sound ref t)
    (hready : t.status.readiness t.system.now = .ready) (hl : t.lifecycle ≠ .unstarted) :
    t.Admits := by
  refine ⟨hl, ?_⟩
  have hfits := h.stage
  unfold FeedStatus.readiness at hready
  cases hlifecycle : t.lifecycle with
  | unstarted => exact absurd hlifecycle hl
  | starting =>
    rw [show t.status.lifecycle = .starting from hlifecycle] at hready
    by_cases hdue : t.status.readyBy ≤ t.system.now
    · exact Or.inr (Or.inl hdue)
    · rw [if_neg hdue] at hready
      cases hready
  | running =>
    rw [hlifecycle] at hfits
    exact Or.inl hfits.applied_ne_zero
  | stopped =>
    have hended := h.stage.isFinished.1 (by rw [hlifecycle]; rfl)
    rw [hended] at hfits
    obtain ⟨happlied, hbrought⟩ := hfits.2 hlifecycle
    by_cases hzero : t.applied = 0
    · have htaken : t.taken = [] := List.length_eq_zero_iff.1 (happlied ▸ hzero)
      exact Or.inr (Or.inr ⟨rfl, by rw [← hbrought, htaken]; rfl⟩)
    · exact Or.inl hzero
  | failed e =>
    rw [show t.status.lifecycle = .failed e from hlifecycle] at hready
    cases hready

variable [DecidableEq ι]

/-- The shared state after a step of a lookup is as good as before. -/
theorem Sound.lookedAt (h : Sound ref t) (hv : Hosts ref t v) :
    Sound ref (t.moveTo (v.lookup.step t.system).2) := by
  by_cases hw : v.lookup.WaitsAt t.consumer ref
  · have hsame := (Lookup.step_meets hw t.system).2 ref.feed
    have hmove : (t.moveTo (t.system.subscribe ref)).moveTo (v.lookup.step t.system).2
        = t.moveTo (v.lookup.step t.system).2 := moveTo_moveTo (h.feed ▸ hsame)
    rw [← hmove]
    refine h.subscribe.quiet hsame ?_
    rw [Lookup.now_step]
    exact Nat.le_of_eq (System.now_subscribe ..)
  · refine h.quiet (Lookup.sameFeed_step (fun other ho => ?_) t.system)
      (Nat.le_of_eq (Lookup.now_step _ _).symm)
    exact h.apart other ((hv.place.passed hw).subset ho)

/-- A lookup that waited and does not any more was let pass by the feed. -/
theorem Sound.admits_looked (h : Sound ref t) (hv : v ∈ t.visits) {l' : Lookup ι}
    (hp : (v.lookup.step t.system).1 = .going l') (hw : v.lookup.WaitsAt t.consumer ref)
    (hw' : ¬ l'.WaitsAt t.consumer ref) : (t.moveTo (v.lookup.step t.system).2).Admits := by
  have hsound := h.lookedAt (h.visits v hv)
  obtain ⟨hmeets, hsame⟩ := Lookup.step_meets hw t.system
  have hstatus := System.get_subscribe t.system ref
  rw [hp, ← hstatus] at hmeets
  unfold Lookup.meets at hmeets
  split at hmeets
  · rename_i hready
    refine hsound.admits ?_ ?_
    · have hnow : (v.lookup.step t.system).2.now = t.system.now := Lookup.now_step _ _
      have hfeed : (t.moveTo (v.lookup.step t.system).2).status
          = (v.lookup.step t.system).2.feeds.get ref.feed := by
        rw [← h.feed]
        rfl
      rw [hfeed, FeedStatus.readiness_congr (hsame ref.feed).lifecycle (hsame ref.feed).readyBy]
      exact hnow ▸ hready
    · have hl : (t.moveTo (v.lookup.step t.system).2).lifecycle
          = ((t.system.subscribe ref).feeds.get ref.feed).lifecycle := by
        rw [← (hsame ref.feed).lifecycle, ← h.feed]
        rfl
      rw [hl, hstatus]
      unfold FeedStatus.subscribe
      split
      · exact fun hl => by cases hl
      · assumption
  · split at hmeets
    · cases hmeets
    · cases hmeets
      exact absurd hw hw'
  · cases hmeets

/-- A lookup that goes on is still one that is known. -/
theorem Sound.looked (h : Sound ref t) (hv : v ∈ t.visits) :
    ∀ v' ∈ v.after (v.lookup.step t.system).1,
      Hosts ref (t.moveTo (v.lookup.step t.system).2) v' := by
  have hold : Hosts ref (t.moveTo (v.lookup.step t.system).2) v :=
    (h.lookedAt (h.visits v hv)).visits v hv
  intro v' hv'
  cases hp : (v.lookup.step t.system).1 with
  | blocked =>
    rw [hp] at hv'
    exact List.mem_singleton.1 hv' ▸ hold
  | finished result =>
    rw [hp] at hv'
    cases hv'
  | going l' =>
    rw [hp] at hv'
    obtain rfl := List.mem_singleton.1 hv'
    have hstep := v.lookup.stepped t.system
    rw [hp] at hstep
    obtain ⟨hlayer, hawaiting⟩ := hstep.awaiting
    refine ⟨⟨hlayer ▸ hold.place.store, hlayer ▸ hold.place.feeds,
      hawaiting.trans hold.place.awaiting⟩, hold.since, fun hw' => ?_⟩
    by_cases hw : v.lookup.WaitsAt t.consumer ref
    · exact h.admits_looked hv hp hw hw'
    · exact hold.admitted hw

/-! ## 6. The consumer -/

variable {c : Consumer ι α} {window? : Option (List (FeedItem α))} {isApplied : Bool}

/-- Reading the layer leaves the consumer's own feed alone. -/
theorem Sound.same_looked (h : Sound ref t) {lookup : Lookup ι} {changes : List (Change α)}
    {failure : Option String} (hstage : t.consumer.stage = .reading lookup changes failure) :
    System.SameFeed t.consumer.feed t.system (lookup.step t.system).2 := by
  have hfits := h.stage
  rw [hstage] at hfits
  rw [h.feed]
  exact Lookup.sameFeed_step (fun other ho => h.apart other (hfits.1.subset ho)) _

theorem same_updated (t : Service ι α) (updates : Entries ι (List α)) (removals : List ι) :
    System.SameFeed t.consumer.feed t.system
      (t.system.update t.consumer.backing updates removals).2 :=
  .of_called (System.update_called ..)

omit [DecidableEq ι] in
/-- Publishing what is known already changes nothing. -/
theorem lifecycle_published (sys : System ι α) (feed : Nat) (lifecycle : Lifecycle) :
    ((if (sys.feeds.get feed).lifecycle = lifecycle then sys
      else sys.publish feed lifecycle).feeds.get feed).lifecycle = lifecycle := by
  split
  · assumption
  · exact System.lifecycle_publish ..

/-- What a step of the consumer does to the lifecycle. -/
theorem Sound.lifecycle_consumed (h : Sound ref t)
    (hs : t.consumer.Stepped t.system window? isApplied c sys) :
    (sys.feeds.get t.consumer.feed).readyBy = t.status.readyBy
    ∧ ((sys.feeds.get t.consumer.feed).lifecycle = t.lifecycle
      ∨ t.lifecycle.IsOpen ∧ t.lifecycle.Next (sys.feeds.get t.consumer.feed).lifecycle) := by
  have hfits := h.stage
  cases hs with
  | sleeps | gathers | accepts | rests => exact ⟨rfl, Or.inl rfl⟩
  | stalls hstage | looks hstage | read hstage =>
    exact ⟨(h.same_looked hstage).readyBy, Or.inl (h.same_looked hstage).lifecycle⟩
  | written => exact ⟨(t.same_updated _ _).readyBy, Or.inl (t.same_updated _ _).lifecycle⟩
  | completes hstage hlifecycle =>
    rw [hstage] at hfits
    have hopen : t.lifecycle.IsOpen := by
      rcases hfits.2 with ⟨hl, _⟩ | hl
      · exact absurd hl hlifecycle
      · exact hl ▸ Lifecycle.isOpen_afterWindows _
    refine ⟨System.readyBy_publish .., Or.inr ⟨hopen, ?_⟩⟩
    rw [System.lifecycle_publish]
    exact .stops hopen
  | unread hstage hstep =>
    have hready := (h.same_looked hstage).readyBy
    rw [hstage] at hfits
    obtain ⟨_, rest, window, _, _, _, hl⟩ := hfits
    have hopen : t.lifecycle.IsOpen := hl ▸ Lifecycle.isOpen_afterWindows _
    refine ⟨(System.readyBy_publish ..).trans hready, Or.inr ⟨hopen, ?_⟩⟩
    rw [System.lifecycle_publish]
    exact .fails hopen _
  | unwritten hstage =>
    rw [hstage] at hfits
    obtain ⟨rest, window, _, _, _, hl⟩ := hfits
    have hopen : t.lifecycle.IsOpen := hl ▸ Lifecycle.isOpen_afterWindows _
    refine ⟨(System.readyBy_publish ..).trans (t.same_updated _ _).readyBy, Or.inr ⟨hopen, ?_⟩⟩
    rw [System.lifecycle_publish]
    exact .fails hopen _
  | @publishes failure hstage =>
    rw [hstage] at hfits
    obtain ⟨rest, window, _, _, _, hl⟩ := hfits
    have hopen : t.lifecycle.IsOpen := hl ▸ Lifecycle.isOpen_afterWindows _
    have hlc : (t.system.feeds.get t.consumer.feed).lifecycle = t.lifecycle := rfl
    rw [hlc]
    split
    · exact ⟨rfl, Or.inl rfl⟩
    · rename_i hne
      refine ⟨System.readyBy_publish .., Or.inr ⟨hopen, ?_⟩⟩
      rw [System.lifecycle_publish]
      cases failure with
      | none =>
        rcases hopen with hstarting | hrunning
        · rw [hstarting]
          exact .runs
        · exact absurd hrunning hne
      | some cause =>
        unfold Consumer.afterWindow
        dsimp only
        split <;> exact .fails hopen _

/-- A step of the consumer loses no item, and only a complete feed has none left when it ends. -/
theorem items_consumed {c₀ : Consumer ι α} {sys₀ : System ι α} (hsize : c₀.collector.size ≠ 0)
    (hs : c₀.Stepped sys₀ window? isApplied c sys) :
    c.collector.size = c₀.collector.size ∧ (∀ window ∈ window?, window ≠ [])
    ∧ window?.toList.flatten ++ (c.collector.buffer ++ c.inlet.payload)
      = c₀.collector.buffer ++ c₀.inlet.payload := by
  have hconserves := Collector.pull_conserves c₀.collector c₀.inlet sys₀.now sys₀.turn
  cases hs with
  | gathers hstage hlifecycle hpull | completes hstage hlifecycle hpull =>
    rw [hpull] at hconserves
    exact ⟨hconserves.size, by simp, by simpa [Pull.items] using hconserves.items⟩
  | @accepts hstage hlifecycle window collector inlet hpull =>
    rw [hpull] at hconserves
    have hne := (Collector.pull_item hsize (congrArg Prod.fst hpull)).1
    obtain ⟨hcollector, hinlet⟩ :=
      Consumer.accept_eq { c₀ with collector := collector, inlet := inlet } window
    rw [hcollector, hinlet]
    refine ⟨hconserves.size, ?_, ?_⟩
    · rintro _ ⟨⟩
      exact hne
    · simpa [Pull.items] using hconserves.items
  | sleeps | stalls | looks | unread | read | unwritten | written | publishes | rests =>
    exact ⟨rfl, by simp, rfl⟩

/-- What is known at the stage after a step of the consumer. -/
theorem Sound.fits_consumed (h : Sound ref t)
    (hs : t.consumer.Stepped t.system window? isApplied c sys) :
    c.stage.Fits c.backing (sys.feeds.get t.consumer.feed).lifecycle t.brought
      (t.taken ++ window?.toList) (t.applied + if isApplied then 1 else 0) := by
  have hfits := h.stage
  cases hs with
  | sleeps | gathers | rests =>
    simp only [Option.toList_none, List.append_nil, Bool.false_eq_true, if_false, Nat.add_zero]
    exact hfits
  | @accepts hstage hsubscribed window collector inlet hpull =>
    rw [hstage] at hfits
    have hl : t.lifecycle = .afterWindows t.taken.length := by
      rcases hfits.2 with ⟨hl, _⟩ | hl
      · exact absurd hl hsubscribed
      · exact hl
    unfold Consumer.accept
    dsimp only
    cases hchanges : FeedItem.changes window with
    | nil => exact ⟨_, _, rfl, rfl, by simp [hfits.1], hl⟩
    | cons change changes => exact ⟨List.suffix_rfl, _, _, rfl, rfl, hfits.1, hl⟩
  | @completes hstage hsubscribed collector inlet hpull =>
    rw [hstage] at hfits
    have hconserves := Collector.pull_conserves t.consumer.collector t.consumer.inlet t.system.now
      t.system.turn
    rw [hpull] at hconserves
    obtain ⟨hbuffer, hpayload⟩ := hconserves.ended rfl
    have hitems := hconserves.items
    rw [hbuffer, hpayload] at hitems
    rw [System.lifecycle_publish]
    refine ⟨rfl, fun _ => ⟨by simpa using hfits.1, ?_⟩⟩
    rw [← h.conserved, ← hitems]
    simp [Pull.items]
  | stalls hstage =>
    rw [(h.same_looked hstage).lifecycle, Option.toList_none, List.append_nil]
    exact hfits
  | @looks lookup lookup' changes failure hstage hstep =>
    have hl' := (h.same_looked hstage).lifecycle
    rw [hstage] at hfits
    obtain ⟨hawaiting, rest, window, htaken, hfailure, happlied, hl⟩ := hfits
    have hlookup := lookup.stepped t.system
    rw [hstep] at hlookup
    exact ⟨hlookup.awaiting.2.trans hawaiting, rest, window, by simpa using htaken, hfailure,
      happlied, hl'.trans hl⟩
  | read hstage =>
    have hl' := (h.same_looked hstage).lifecycle
    rw [hstage] at hfits
    obtain ⟨_, rest, window, htaken, hfailure, happlied, hl⟩ := hfits
    exact ⟨rest, window, by simpa using htaken, hfailure, happlied, hl'.trans hl⟩
  | unread | unwritten =>
    rw [System.lifecycle_publish]
    exact ⟨rfl, fun hl => by cases hl⟩
  | written hstage =>
    rw [hstage] at hfits
    obtain ⟨rest, window, htaken, hfailure, happlied, hl⟩ := hfits
    refine ⟨rest, window, by simpa using htaken, hfailure, ?_,
      (t.same_updated _ _).lifecycle.trans hl⟩
    rw [happlied, htaken]
    simp
  | @publishes failure hstage =>
    rw [hstage] at hfits
    obtain ⟨rest, window, htaken, _, happlied, _⟩ := hfits
    rw [lifecycle_published]
    cases failure with
    | none =>
      refine ⟨by simpa using happlied, Or.inr ?_⟩
      rw [htaken]
      simp [Consumer.afterWindow, Lifecycle.afterWindows]
    | some cause =>
      unfold Consumer.afterWindow
      dsimp only [Option.isSome]
      split <;> exact ⟨rfl, fun hl => by cases hl⟩

/-- A step of the consumer leaves it the consumer of its feed. -/
theorem status_consumed (hs : t.consumer.Stepped t.system window? isApplied c sys) :
    (t.consumed window? isApplied c sys).status = sys.feeds.get t.consumer.feed := by
  rw [← hs.same.1]
  rfl

/-- **A step of the consumer** keeps what is known. -/
theorem Sound.consumed (h : Sound ref t)
    (hs : t.consumer.Stepped t.system window? isApplied c sys) :
    Sound ref (t.consumed window? isApplied c sys) := by
  obtain ⟨hfeed, _, hbacking⟩ := hs.same
  obtain ⟨hready, hlifecycle⟩ := h.lifecycle_consumed hs
  obtain ⟨hsize, hfilled, hitems⟩ := items_consumed h.size hs
  have hunstarted : (sys.feeds.get t.consumer.feed).lifecycle = .unstarted
      ↔ t.lifecycle = .unstarted := by
    rcases hlifecycle with heq | ⟨hopen, hnext⟩
    · rw [heq]
    · exact iff_of_false hnext.ne_unstarted hopen.ne_unstarted
  have hmove : (t.moveTo sys).subscribed = t.subscribed :=
    if_neg fun hn => hn.2 (hunstarted.2 hn.1)
  have hstatus := status_consumed hs
  have hl : (t.consumed window? isApplied c sys).lifecycle
      = (sys.feeds.get t.consumer.feed).lifecycle := congrArg FeedStatus.lifecycle hstatus
  refine ⟨hfeed.trans h.feed, hbacking ▸ h.apart, hsize ▸ h.size, ?_, ?_, ?_, ?_, fun v hv => ?_⟩
  · intro window hw
    rcases List.mem_append.1 hw with hw | hw
    · exact h.filled window hw
    · exact hfilled window (Option.mem_toList.1 hw)
  · show (t.taken ++ window?.toList).flatten ++ (c.collector.buffer ++ c.inlet.payload) = t.brought
    rw [List.flatten_append, List.append_assoc, hitems, h.conserved]
  · rw [hl]
    exact h.fits_consumed hs
  · have hsubscribed : (t.consumed window? isApplied c sys).subscribed = t.subscribed := hmove
    rw [hl, hstatus, Ne, hunstarted, hready, hsubscribed]
    exact h.dated
  · refine (h.visits v hv).mono hbacking (Nat.le_add_right ..) fun ⟨hsubscribed, hreason⟩ => ?_
    refine ⟨fun hn => hsubscribed (hunstarted.1 (hl ▸ hn)), ?_⟩
    rcases hreason with happlied | hdue | ⟨hstopped, hbrought⟩
    · exact Or.inl (Nat.ne_of_gt (Nat.add_pos_left (Nat.pos_of_ne_zero happlied) _))
    · refine Or.inr (Or.inl ?_)
      rw [hstatus, hready]
      exact hs.now.symm ▸ hdue
    · refine Or.inr (Or.inr ⟨?_, hbrought⟩)
      rw [hl]
      rcases hlifecycle with heq | ⟨hopen, _⟩
      · rw [heq, hstopped]
      · rw [hstopped] at hopen
        rcases hopen with hn | hn <;> cases hn

/-! ## 7. Whole runs -/

variable {elsewhere : System ι α → System ι α → Prop}

omit [DecidableEq ι] in
/-- Nobody is under way at first. -/
theorem Sound.start {c : Consumer ι α} {sys : System ι α} (h : c.Unbegun ref sys) :
    Sound ref (start c sys) := by
  have hl : (Service.start c sys).lifecycle = .unstarted := by
    rw [← h.lifecycle, ← h.feed]
    rfl
  refine ⟨h.feed, h.apart, h.size, fun window hw => absurd hw List.not_mem_nil, ?_, ?_,
    Or.inl ⟨hl, rfl⟩, fun v hv => absurd hv List.not_mem_nil⟩
  · show [] ++ (c.collector.buffer ++ c.inlet.payload) = c.inlet.payload
    rw [h.buffer]
    rfl
  · show c.stage.Fits _ _ _ _ _
    rw [h.stage, hl]
    exact ⟨rfl, Or.inl ⟨rfl, rfl⟩⟩

/-- **Every move keeps what is known.** -/
theorem Sound.step (helsewhere : ∀ {sys sys'}, elsewhere sys sys' → Elsewhere ref.feed sys sys')
    (h : Sound ref t) (hstep : Step ref elsewhere t t') : Sound ref t' := by
  cases hstep with
  | comes hplace hw =>
    refine h.withVisits fun v hv => ?_
    rcases List.mem_append.1 hv with hv | hv
    · exact h.visits v hv
    · obtain rfl := List.mem_singleton.1 hv
      exact ⟨hplace, Nat.le_refl _, fun hn => absurd hw hn⟩
  | @looks before behind v hvisits =>
    have hv : v ∈ t.visits := hvisits ▸ List.mem_append_right _ (List.mem_cons_self ..)
    have hsound := h.lookedAt (h.visits v hv)
    refine hsound.withVisits fun v' hv' => ?_
    rcases List.mem_append.1 hv' with hv' | hv'
    · exact hsound.visits v' (hvisits ▸ List.mem_append_left _ hv' : v' ∈ t.visits)
    · rcases List.mem_append.1 hv' with hv' | hv'
      · exact h.looked hv v' hv'
      · exact hsound.visits v' (hvisits ▸ List.mem_append_right _ (List.mem_cons_of_mem _ hv')
          : v' ∈ t.visits)
  | @drops before behind v hvisits =>
    have hnow : (v.lookup.unwatch t.system).now = t.system.now := by
      obtain ⟨feeds, hu⟩ := Lookup.unwatch_eq v.lookup t.system
      rw [hu]
    have hsound := h.quiet (Lookup.sameFeed_unwatch v.lookup t.system ref.feed)
      (Nat.le_of_eq hnow.symm)
    refine hsound.withVisits fun v' hv' => hsound.visits v' ?_
    show v' ∈ t.visits
    rw [hvisits]
    rcases List.mem_append.1 hv' with hv' | hv'
    · exact List.mem_append_left _ hv'
    · exact List.mem_append_right _ (List.mem_cons_of_mem _ hv')
  | consumes => exact h.consumed (Consumer.stepped _ _)
  | receives hinlet hstage => exact h.receive hinlet hstage
  | beside hb => exact h.quiet (helsewhere hb).same (helsewhere hb).now

/-- What is known holds at every moment of a run. -/
theorem Sound.of_leads (helsewhere : ∀ {sys sys'}, elsewhere sys sys' → Elsewhere ref.feed sys sys')
    (h : Sound ref t) (hrun : Leads ref elsewhere t t') : Sound ref t' := by
  induction hrun with
  | refl => exact h
  | tail _ hstep ih => exact ih.step helsewhere hstep

end Service

end Collate
